-- How many answers a call needs. A call whose program awaits at most `n` operations on
-- every way has ended after `n` answers. When each operation that a call waits for has an
-- answer, the calls in flight can all be brought to their end.
import Instagram.Async

namespace async

open runs

variable {M W Op : Type} {Ans : Op → Type} {E χ ε η ρ ρ' : Type}

/-! ## Bounded programs -/

/-- On every way through it, the program awaits at most `n` operations. -/
def Prog.Within : Prog M Op Ans E ρ → ℕ → Prop
  | ret _, _ => True
  | raise _, _ => True
  | read k, n => ∀ m, (k m).Within n
  | write _ k, n => k.Within n
  | await _ k, n => ∃ m, n = m + 1 ∧ ∀ a, (k a).Within m

def Parked.Within : Parked M Op Ans E ρ → ℕ → Prop
  | ended _, _ => True
  | waiting _ k, n => ∃ m, n = m + 1 ∧ ∀ a, (k a).Within m

theorem Prog.Within.settle {p : Prog M Op Ans E ρ} {n : ℕ} (h : p.Within n) (m : M) :
    (p.settle m).2.Within n :=
  settle_carries (P := (·.Within n)) (Q := (·.Within n)) (fun _ h => h) (fun _ h => h)
    (fun _ m h => h m) (fun _ _ h => h) (fun _ _ h => h) h m

theorem Prog.Within.mono {p : Prog M Op Ans E ρ} {n n' : ℕ} (h : p.Within n) (hle : n ≤ n') :
    p.Within n' := by
  induction p generalizing n n' with
  | ret r => trivial
  | raise e => trivial
  | read k ih => exact fun m => ih m (h m) hle
  | write m k ih => exact ih h hle
  | await o k ih =>
    obtain ⟨m, rfl, hk⟩ := h
    exact ⟨n' - 1, by omega, fun a => ih a (hk a) (by omega)⟩

theorem within_ofExcept (r : Except E ρ) (n : ℕ) :
    (Prog.ofExcept r : Prog M Op Ans E ρ).Within n := by
  cases r <;> trivial

theorem within_await {o : Op} {k : Ans o → Prog M Op Ans E ρ} {n : ℕ} (h : ∀ a, (k a).Within n) :
    (Prog.await o k).Within (n + 1) :=
  ⟨n, rfl, h⟩

/-- A call that needs no answer any more has ended. -/
theorem ended_of_within {p : Parked M Op Ans E ρ} (h : p.Within 0) : ∃ r, p = .ended r := by
  cases p with
  | ended r => exact ⟨r, rfl⟩
  | waiting o k =>
    obtain ⟨m, hm, _⟩ := h
    omega

/-! ## Answers so far -/

variable {S : System M W Op Ans E χ ε η} {s t : State M W Op Ans E χ}

/-- How many answers call `i` has got. -/
def State.asked (s : State M W Op Ans E χ) (i : ℕ) : ℕ := s.trace.countP (·.id = i)

/-- Each call needs no more answers than the bound leaves. -/
structure WithinBound (bound : χ → ℕ) (s : State M W Op Ans E χ) : Prop where
  started : ∀ ev ∈ s.trace, (s.calls ev.id).isSome
  left : ∀ i c p, s.calls i = some (c, p) → ∃ n, s.asked i + n ≤ bound c ∧ p.Within n

theorem withinBound_init (bound : χ → ℕ) (m : M) (w : W) :
    WithinBound bound (init Op Ans E χ m w) :=
  ⟨fun _ hev => (by cases hev), fun _ _ _ hi => (by cases hi)⟩

theorem asked_snoc (trace : List (Event Op Ans χ)) (ev : Event Op Ans χ) (i : ℕ) :
    (trace ++ [ev]).countP (·.id = i) =
      trace.countP (·.id = i) + if ev.id = i then 1 else 0 := by
  rw [List.countP_append, List.countP_singleton]
  simp

/-- A call that has not started has got no answer. -/
theorem asked_of_free {bound : χ → ℕ} (hs : WithinBound bound s) {i : ℕ} (hi : s.calls i = none) :
    s.asked i = 0 := by
  refine List.countP_eq_zero.mpr fun ev hev hid => ?_
  have hsome := hs.started ev hev
  rw [of_decide_eq_true hid, hi] at hsome
  cases hsome

theorem withinBound_step {bound : χ → ℕ} (hprog : ∀ c, (S.prog c).Within (bound c)) {a : Act χ ε η}
    (hs : WithinBound bound s) (h : step S s a = some t) : WithinBound bound t := by
  refine ⟨started_step hs.started h, ?_⟩
  cases a with
  | start i c =>
    obtain ⟨hi, rfl⟩ := step_start h
    intro j d q hj
    rcases update_eq_some hj with ⟨rfl, he⟩ | ⟨_, hold⟩
    · cases he
      have hzero := asked_of_free hs hi
      exact ⟨bound c, (Nat.zero_add _).le.trans' (by rw [← hzero]; rfl), (hprog c).settle _⟩
    · exact hs.left j d q hold
  | resume i e =>
    obtain ⟨c, o, k, w, a, hi, _, rfl⟩ := step_resume h
    intro j d q hj
    unfold State.asked
    rcases update_eq_some hj with ⟨rfl, he⟩ | ⟨hne, hold⟩
    · cases he
      obtain ⟨n, hn, m, rfl, hk⟩ := hs.left j c _ hi
      refine ⟨m, ?_, (hk a).settle _⟩
      rw [asked_snoc, if_pos rfl]
      unfold State.asked at hn
      omega
    · obtain ⟨n, hn, hq⟩ := hs.left j d q hold
      refine ⟨n, ?_, hq⟩
      rw [asked_snoc, if_neg (Ne.symm hne)]
      exact hn
  | poke x =>
    obtain ⟨m, w, _, rfl⟩ := step_poke h
    exact hs.left

/-! ## Bringing calls to their end -/

section Finish

variable {I : W → Prop} {A : (o : Op) → Ans o → Prop} {C : χ → Prop}
  {G : χ → (o : Op) → (Ans o → Prog M Op Ans E Unit) → Prop}

/-- Some operation that a call may wait for always has an answer. -/
def Answerable (S : System M W Op Ans E χ ε η) (I : W → Prop) (C : χ → Prop)
    (G : χ → (o : Op) → (Ans o → Prog M Op Ans E Unit) → Prop) : Prop :=
  ∀ c o k w, C c → G c o k → I w → ∃ e w' a, S.handle o e w = some (w', a)

/-- The step answers a call. -/
def Act.Answers : Act χ ε η → Prop
  | .resume _ _ => True
  | _ => False

theorem finish_call (hans : Answerable S I C G)
    (hkeep : ∀ s a t, a.Starts C → Guarded I A C G s → step S s a = some t → Guarded I A C G t)
    {i : ℕ} {c : χ} {p : Parked M Op Ans E Unit} {n : ℕ} (hs : Guarded I A C G s)
    (hi : s.calls i = some (c, p)) (hp : p.Within n) :
    ∃ (as : List (Act χ ε η)) (t : State M W Op Ans E χ), (∀ a ∈ as, a.Answers) ∧
      run (step S) s as = some t ∧ Guarded I A C G t ∧
      (∃ r, t.calls i = some (c, .ended r)) ∧ ∀ j, j ≠ i → t.calls j = s.calls j := by
  induction n generalizing s p with
  | zero =>
    obtain ⟨r, rfl⟩ := ended_of_within hp
    exact ⟨[], s, by simp, rfl, hs, ⟨r, hi⟩, fun _ _ => rfl⟩
  | succ n ih =>
    cases p with
    | ended r => exact ⟨[], s, by simp, rfl, hs, ⟨r, hi⟩, fun _ _ => rfl⟩
    | waiting o k =>
      obtain ⟨hc, hG, _⟩ := hs.calls i c _ hi
      obtain ⟨m, hm, hk⟩ := hp
      obtain rfl : m = n := by omega
      obtain ⟨e, w, a, hw⟩ := hans c o k s.world hc hG hs.world
      have hstep := resume_of_answer hi hw
      have hs' := hkeep s (.resume i e) _ trivial hs hstep
      obtain ⟨as, t, has, ht, hg, hended, hother⟩ :=
        ih hs' (Function.update_self _ _ _) ((hk a).settle _)
      refine ⟨.resume i e :: as, t, ?_, by rw [run_cons, hstep]; exact ht, hg, hended, ?_⟩
      · intro b hb
        rcases List.mem_cons.mp hb with rfl | hb
        · trivial
        · exact has b hb
      · intro j hj
        exact (hother j hj).trans (calls_resume_other hstep hj)

/-- The calls of a list end one after another. -/
theorem finish_calls (hans : Answerable S I C G)
    (hkeep : ∀ s a t, a.Starts C → Guarded I A C G s → step S s a = some t → Guarded I A C G t)
    (ids : List ℕ) (hs : Guarded I A C G s)
    (hwithin : ∀ i c p, s.calls i = some (c, p) → ∃ n, p.Within n) :
    ∃ (as : List (Act χ ε η)) (t : State M W Op Ans E χ), (∀ a ∈ as, a.Answers) ∧
      run (step S) s as = some t ∧
      (∀ i ∈ ids, ∀ c p, s.calls i = some (c, p) → ∃ r, t.calls i = some (c, .ended r)) ∧
      ∀ j, j ∉ ids → t.calls j = s.calls j := by
  induction ids generalizing s with
  | nil => exact ⟨[], s, by simp, rfl, by simp, fun _ _ => rfl⟩
  | cons i ids ih =>
    cases hi : s.calls i with
    | none =>
      obtain ⟨as, t, has, ht, hended, hother⟩ := ih hs hwithin
      refine ⟨as, t, has, ht, ?_, fun j hj => hother j fun hmem => hj (List.mem_cons_of_mem _ hmem)⟩
      intro j hj c p hjc
      rcases List.mem_cons.mp hj with rfl | hj
      · rw [hi] at hjc
        cases hjc
      · exact hended j hj c p hjc
    | some cp =>
      obtain ⟨c, p⟩ := cp
      obtain ⟨n, hn⟩ := hwithin i c p hi
      obtain ⟨as, u, has, hu, hg, ⟨r, hr⟩, hother⟩ := finish_call hans hkeep hs hi hn
      have hwithin' : ∀ j d q, u.calls j = some (d, q) → ∃ n, q.Within n := by
        intro j d q hj
        by_cases hji : j = i
        · subst hji
          rw [hr] at hj
          cases hj
          exact ⟨0, trivial⟩
        · rw [hother j hji] at hj
          exact hwithin j d q hj
      obtain ⟨bs, t, hbs, ht, hended, hother'⟩ := ih hg hwithin'
      refine ⟨as ++ bs, t, ?_, by rw [run_append, hu]; exact ht, ?_, ?_⟩
      · intro b hb
        rcases List.mem_append.mp hb with hb | hb
        · exact has b hb
        · exact hbs b hb
      · intro j hj d q hjd
        by_cases hji : j = i
        · subst hji
          rw [hi] at hjd
          cases hjd
          by_cases hmem : j ∈ ids
          · exact hended j hmem _ _ hr
          · exact ⟨r, (hother' j hmem).trans hr⟩
        · have hmem : j ∈ ids := (List.mem_cons.mp hj).resolve_left hji
          rw [← hother j hji] at hjd
          exact hended j hmem d q hjd
      · intro j hj
        rw [List.mem_cons, not_or] at hj
        exact (hother' j hj.2).trans (hother j hj.1)

end Finish

/-! ## The calls of a run -/

/-- Only finitely many calls have started. -/
def FewCalls (s : State M W Op Ans E χ) : Prop := ∃ ids : List ℕ, ∀ i, (s.calls i).isSome → i ∈ ids

theorem fewCalls_step {a : Act χ ε η} (hs : FewCalls s) (h : step S s a = some t) : FewCalls t := by
  obtain ⟨ids, hids⟩ := hs
  have hupdate : ∀ i x, ∃ ids' : List ℕ,
      ∀ j, (Function.update s.calls i (some x) j).isSome → j ∈ ids' := by
    refine fun i x => ⟨i :: ids, fun j hj => ?_⟩
    by_cases hji : j = i
    · exact hji ▸ List.mem_cons_self
    · rw [Function.update_of_ne hji] at hj
      exact List.mem_cons_of_mem _ (hids j hj)
  cases a with
  | start i c =>
    obtain ⟨_, rfl⟩ := step_start h
    exact hupdate i _
  | resume i e =>
    obtain ⟨_, _, _, _, _, _, _, rfl⟩ := step_resume h
    exact hupdate i _
  | poke x =>
    obtain ⟨_, _, _, rfl⟩ := step_poke h
    exact ⟨ids, hids⟩

theorem fewCalls_init (m : M) (w : W) : FewCalls (init Op Ans E χ m w) := ⟨[], by simp [init]⟩

end async
