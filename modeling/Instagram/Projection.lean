-- Runs with the steps of some calls deleted. Clients share nothing but the world, so what
-- one class of calls does is the same with and without the others, as long as the others
-- change nothing that the class can see.
import Instagram.Async

namespace async

open runs

variable {W Op : Type} {Ans : Op → Type} {E χ ε η : Type}

/-! ## Deleting steps -/

/-- Which calls that have started are in the class `P`, after a step. -/
def marks (P : χ → Bool) (mine : ℕ → Bool) : Act χ ε η → ℕ → Bool
  | .start i c => Function.update mine i (P c)
  | .resume _ _ => mine
  | .poke _ => mine

/-- The step is one of the class, or is no step of a call. -/
def keeps (P : χ → Bool) (mine : ℕ → Bool) : Act χ ε η → Bool
  | .start _ c => P c
  | .resume i _ => mine i
  | .poke _ => true

/-- What remains when every step of the calls outside the class is deleted. -/
def stepsOf (P : χ → Bool) : (ℕ → Bool) → List (Act χ ε η) → List (Act χ ε η)
  | _, [] => []
  | mine, a :: as =>
    if keeps P mine a then a :: stepsOf P (marks P mine a) as
    else stepsOf P (marks P mine a) as

/-- The steps of the class in a run from the start. -/
def ownSteps (P : χ → Bool) (as : List (Act χ ε η)) : List (Act χ ε η) :=
  stepsOf P (fun _ => false) as

/-! ## The two runs side by side -/

/-- Who asked the world for what. -/
def Event.asked (ev : Event Op Ans χ) : ℕ × χ × Op := (ev.id, ev.call, ev.op)

/-- In `s'` only the calls of the class have run. They stand and have asked as in `s`, and the
worlds are alike in all that `V` sees. -/
structure Projects (P : χ → Bool) (V : W → W → Prop) (s s' : State Unit W Op Ans E χ) : Prop where
  world : V s.world s'.world
  calls : ∀ i, s'.calls i = (s.calls i).filter fun c => P c.1
  trace : s'.trace.map Event.asked = (s.trace.filter fun ev => P ev.call).map Event.asked

theorem projects_init (P : χ → Bool) {V : W → W → Prop} {w w' : W} (h : V w w') :
    Projects P V (init Op Ans E χ () w) (init Op Ans E χ () w') :=
  ⟨h, fun _ => rfl, rfl⟩

theorem filter_update {P : χ → Bool} {calls calls' : ℕ → Option (χ × Parked Unit Op Ans E Unit)}
    {i : ℕ} {c : χ} {p : Parked Unit Op Ans E Unit}
    (h : ∀ j, calls' j = (calls j).filter fun c => P c.1) (hc : P c = true) (j : ℕ) :
    Function.update calls' i (some (c, p)) j =
      (Function.update calls i (some (c, p)) j).filter fun c => P c.1 := by
  by_cases hj : j = i
  · subst hj
    rw [Function.update_self, Function.update_self, Option.filter_some, if_pos hc]
  · rw [Function.update_of_ne hj, Function.update_of_ne hj]
    exact h j

/-- A call outside the class is not seen in the other run. -/
theorem filter_update_other {P : χ → Bool}
    {calls calls' : ℕ → Option (χ × Parked Unit Op Ans E Unit)} {i : ℕ} {c : χ}
    {p : Parked Unit Op Ans E Unit} (h : ∀ j, calls' j = (calls j).filter fun c => P c.1)
    (hi : calls' i = none) (hc : ¬ P c = true) (j : ℕ) :
    calls' j = (Function.update calls i (some (c, p)) j).filter fun c => P c.1 := by
  by_cases hj : j = i
  · subst hj
    rw [Function.update_self, Option.filter_some, if_neg hc, hi]
  · rw [Function.update_of_ne hj]
    exact h j

variable {S : System Unit W Op Ans E χ ε η} {P : χ → Bool} {V : W → W → Prop}
  {s s' t : State Unit W Op Ans E χ} {mine : ℕ → Bool}

/-- A call of the class starts in both runs. -/
theorem projects_start {i : ℕ} {c : χ} (hs : Projects P V s s') (hc : P c = true)
    (h : step S s (.start i c) = some t) :
    ∃ t', step S s' (.start i c) = some t' ∧ Projects P V t t' := by
  obtain ⟨hi, rfl⟩ := step_start h
  have hi' : s'.calls i = none := by rw [hs.calls i, hi]; rfl
  refine ⟨{ s' with
    mem := ((S.prog c).settle s'.mem).1
    calls := Function.update s'.calls i (some (c, ((S.prog c).settle s'.mem).2)) }, ?_, ?_⟩
  · simp only [step, hi']
  · exact ⟨hs.world, filter_update hs.calls hc, hs.trace⟩

/-- The start of any other call is not seen. -/
theorem projects_start_other {i : ℕ} {c : χ} (hs : Projects P V s s') (hc : ¬ P c = true)
    (h : step S s (.start i c) = some t) : Projects P V t s' := by
  obtain ⟨hi, rfl⟩ := step_start h
  have hi' : s'.calls i = none := by rw [hs.calls i, hi]; rfl
  exact ⟨hs.world, filter_update_other hs.calls hi' hc, hs.trace⟩

/-- An answer that both worlds give alike takes a call of the class to the same place. -/
theorem projects_resume {i : ℕ} {e : ε} {c : χ} {o : Op} {k : Ans o → Prog Unit Op Ans E Unit}
    {w u : W} {a a' : Ans o} (hs : Projects P V s s') (hc : P c = true)
    (hi : s.calls i = some (c, .waiting o k)) (hk : k a' = k a)
    (hu : S.handle o e s'.world = some (u, a')) (hV : V w u) :
    ∃ t', step S s' (.resume i e) = some t' ∧
      Projects P V ⟨((k a).settle s.mem).1, w,
        Function.update s.calls i (some (c, ((k a).settle s.mem).2)),
        s.trace ++ [⟨i, c, o, a⟩]⟩ t' := by
  have hi' : s'.calls i = some (c, .waiting o k) := by
    rw [hs.calls i, hi, Option.filter_some, if_pos hc]
  refine ⟨⟨((k a').settle s'.mem).1, u,
    Function.update s'.calls i (some (c, ((k a').settle s'.mem).2)),
    s'.trace ++ [⟨i, c, o, a'⟩]⟩, ?_, ?_⟩
  · simp only [step, hi', hu, Option.map_some]
  · refine ⟨hV, ?_, ?_⟩
    · rw [hk]
      exact filter_update hs.calls hc
    · simp [hs.trace, hc, Event.asked]

/-- The answer of a call outside the class is not seen, when it keeps what `V` sees. -/
theorem projects_resume_other {i : ℕ} {c : χ} {o : Op} {k : Ans o → Prog Unit Op Ans E Unit}
    {w : W} {a : Ans o} (hs : Projects P V s s') (hc : ¬ P c = true)
    (hi : s.calls i = some (c, .waiting o k)) (hV : V w s'.world) :
    Projects P V ⟨((k a).settle s.mem).1, w,
      Function.update s.calls i (some (c, ((k a).settle s.mem).2)),
      s.trace ++ [⟨i, c, o, a⟩]⟩ s' := by
  have hi' : s'.calls i = none := by
    rw [hs.calls i, hi, Option.filter_some, if_neg hc]
  refine ⟨hV, filter_update_other hs.calls hi' hc, ?_⟩
  simp [hs.trace, hc]

/-! ## Whole runs -/

/-- `mine` knows the calls of the class. -/
def Marked (P : χ → Bool) (mine : ℕ → Bool) (s : State Unit W Op Ans E χ) : Prop :=
  ∀ i c p, s.calls i = some (c, p) → mine i = P c

theorem marked_step {a : Act χ ε η} (hm : Marked P mine s) (h : step S s a = some t) :
    Marked P (marks P mine a) t := by
  cases a with
  | start i c =>
    obtain ⟨_, rfl⟩ := step_start h
    intro j d q hj
    rcases update_eq_some hj with ⟨rfl, hd⟩ | ⟨hne, hold⟩
    · cases hd
      simp [marks]
    · simp only [marks, Function.update_of_ne hne]
      exact hm j d q hold
  | resume i e =>
    obtain ⟨c, o, k, w, a, hi, _, rfl⟩ := step_resume h
    intro j d q hj
    rcases update_eq_some hj with ⟨rfl, hd⟩ | ⟨_, hold⟩
    · cases hd
      exact hm j c _ hi
    · exact hm j d q hold
  | poke x =>
    obtain ⟨m, w, _, rfl⟩ := step_poke h
    exact hm

/-- The class is separate from the other calls. Its own calls get answers that they cannot tell
apart from worlds that are alike, and the others change nothing that `V` sees. -/
structure Separate (S : System Unit W Op Ans E χ ε η) (P : χ → Bool) (V : W → W → Prop)
    (I : W → Prop) (C : χ → Prop)
    (G : χ → (o : Op) → (Ans o → Prog Unit Op Ans E Unit) → Prop) : Prop where
  own : ∀ c o k e w u w' a, P c = true → C c → G c o k → I w → V w u →
    S.handle o e w = some (w', a) → ∃ u' a', S.handle o e u = some (u', a') ∧ V w' u' ∧ k a' = k a
  other : ∀ c o k e w u w' a, ¬ P c = true → C c → G c o k → I w → V w u →
    S.handle o e w = some (w', a) → V w' u
  poke : ∀ x m w u m' w', V w u → S.poke x m w = some (m', w') →
    ∃ u', S.poke x m u = some (m', u') ∧ V w' u'

variable {I : W → Prop} {A : (o : Op) → Ans o → Prop} {C : χ → Prop}
  {G : χ → (o : Op) → (Ans o → Prog Unit Op Ans E Unit) → Prop}

/-- A step of the class, or of no call, is a step of both runs. -/
theorem projects_keeps {a : Act χ ε η} (hsep : Separate S P V I C G) (hg : Guarded I A C G s)
    (hm : Marked P mine s) (hs : Projects P V s s') (ha : keeps P mine a = true)
    (h : step S s a = some t) : ∃ t', step S s' a = some t' ∧ Projects P V t t' := by
  cases a with
  | start i c => exact projects_start hs ha h
  | resume i e =>
    obtain ⟨c, o, k, w, a, hi, hw, rfl⟩ := step_resume h
    have hc : P c = true := by rw [← hm i c _ hi]; exact ha
    obtain ⟨hC, hG, _⟩ := hg.calls i c _ hi
    obtain ⟨u, a', hu, hV, hk⟩ := hsep.own c o k e _ _ w a hc hC hG hg.world hs.world hw
    exact projects_resume hs hc hi hk hu hV
  | poke x =>
    obtain ⟨m, w, hw, rfl⟩ := step_poke h
    obtain ⟨u, hu, hV⟩ := hsep.poke x _ _ _ m w hs.world hw
    have hstep : step S s' (.poke x) = some { s' with mem := m, world := u } := by
      show (S.poke x s'.mem s'.world).map _ = _
      rw [hu]
      rfl
    exact ⟨_, hstep, hV, hs.calls, hs.trace⟩

/-- A deleted step is not seen. -/
theorem projects_deletes {a : Act χ ε η} (hsep : Separate S P V I C G) (hg : Guarded I A C G s)
    (hm : Marked P mine s) (hs : Projects P V s s') (ha : ¬ keeps P mine a = true)
    (h : step S s a = some t) : Projects P V t s' := by
  cases a with
  | start i c => exact projects_start_other hs ha h
  | resume i e =>
    obtain ⟨c, o, k, w, a, hi, hw, rfl⟩ := step_resume h
    have hc : ¬ P c = true := by rw [← hm i c _ hi]; exact ha
    obtain ⟨hC, hG, _⟩ := hg.calls i c _ hi
    exact projects_resume_other hs hc hi
      (hsep.other c o k e _ _ w a hc hC hG hg.world hs.world hw)
  | poke x => exact absurd rfl ha

theorem projects_stepsOf {as : List (Act χ ε η)} (hsep : Separate S P V I C G)
    (hstep : ∀ s a t, a.Starts C → Guarded I A C G s → step S s a = some t → Guarded I A C G t)
    (has : ∀ a ∈ as, a.Starts C) (hg : Guarded I A C G s) (hm : Marked P mine s)
    (hs : Projects P V s s') (h : run (step S) s as = some t) :
    ∃ t', run (step S) s' (stepsOf P mine as) = some t' ∧ Projects P V t t' := by
  induction as generalizing s s' mine with
  | nil =>
    cases h
    exact ⟨s', rfl, hs⟩
  | cons a as ih =>
    rw [run_cons] at h
    obtain ⟨u, hu, hrest⟩ := Option.bind_eq_some_iff.mp h
    have ha := has a List.mem_cons_self
    have has' : ∀ b ∈ as, b.Starts C := fun b hb => has b (List.mem_cons_of_mem _ hb)
    have hg' := hstep s a u ha hg hu
    have hm' := marked_step hm hu
    unfold stepsOf
    by_cases hkeep : keeps P mine a = true
    · obtain ⟨u', hu', hs'⟩ := projects_keeps hsep hg hm hs hkeep hu
      rw [if_pos hkeep, run_cons, hu']
      exact ih has' hg' hm' hs' hrest
    · rw [if_neg hkeep]
      exact ih has' hg' hm' (projects_deletes hsep hg hm hs hkeep hu) hrest

/-- Every run of all calls is a run of the class alone, and the class sees no difference. -/
theorem projects_run {w : W} {as : List (Act χ ε η)} (hsep : Separate S P V I C G)
    (hstep : ∀ s a t, a.Starts C → Guarded I A C G s → step S s a = some t → Guarded I A C G t)
    (has : ∀ a ∈ as, a.Starts C) (hI : I w) (hV : V w w)
    (h : run (step S) (init Op Ans E χ () w) as = some t) :
    ∃ t', run (step S) (init Op Ans E χ () w) (ownSteps P as) = some t' ∧ Projects P V t t' :=
  projects_stepsOf hsep hstep has (guarded_init () hI) (fun _ _ _ hi => by cases hi)
    (projects_init P hV) h

end async
