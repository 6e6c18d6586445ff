-- Handlers around the calls of another system. A handler looks at the memory, starts at most
-- one call, and does a last turn when the call has ended well. So a system of handlers refines
-- the system of the calls.
import Instagram.Async
import Instagram.Simulation

namespace async

open runs

variable {M W Op : Type} {Ans : Op → Type} {E ρ χ κ ε η ι : Type}

/-! ## Handlers -/

/-- A program that uses no memory, for a client that has some. -/
def Prog.over (M : Type) (p : Prog Unit Op Ans E ρ) : Prog M Op Ans E ρ := p.embed id fun _ a => a

/-- The handler `h`. What `starts` says of the memory decides on the call, if there is any. -/
def wrap (prog : χ → Prog Unit Op Ans E Unit) (starts : κ → M → Except E (Option χ))
    (after : κ → M → M) (h : κ) : Prog M Op Ans E Unit :=
  .read fun m =>
    match starts h m with
    | .error x => .raise x
    | .ok none => .ret ()
    | .ok (some c) => (prog c).over M >>= fun _ => .read fun m => .write (after h m) (.ret ())

/-- What is left of a handler when its call has parked. -/
def wrapped (after : M → M) (k : Prog Unit Op Ans E Unit) : Prog M Op Ans E Unit :=
  k.over M >>= fun _ => .read fun m => .write (after m) (.ret ())

/-- The memory after a turn of the call, and where the handler stops. -/
def wrapPark (after : M → M) (m : M) :
    Parked Unit Op Ans E Unit → M × Parked M Op Ans E Unit
  | .ended (.ok _) => (after m, .ended (.ok ()))
  | .ended (.error x) => (m, .ended (.error x))
  | .waiting o k => (m, .waiting o fun a => wrapped after (k a))

theorem settle_wrapped (after : M → M) (p : Prog Unit Op Ans E Unit) (m : M) :
    (wrapped after p).settle m = wrapPark after m (p.settle ()).2 := by
  induction p with
  | ret r => rfl
  | raise x => rfl
  | read k ih => exact ih ()
  | write u k ih => exact ih
  | await o k ih => rfl

theorem settle_wrap (prog : χ → Prog Unit Op Ans E Unit) (starts : κ → M → Except E (Option χ))
    (after : κ → M → M) (h : κ) (m : M) :
    (wrap prog starts after h).settle m =
      match starts h m with
      | .error x => (m, .ended (.error x))
      | .ok none => (m, .ended (.ok ()))
      | .ok (some c) => wrapPark (after h) m ((prog c).settle ()).2 := by
  unfold wrap
  rw [settle_read]
  cases starts h m with
  | error x => rfl
  | ok d =>
    cases d with
    | none => rfl
    | some c => exact settle_wrapped (after h) (prog c) m

/-! ## Systems of handlers -/

/-- `S` runs handlers around the calls of `B`, over the same world. -/
structure Wraps (S : System M W Op Ans E κ ε η) (B : System Unit W Op Ans E χ ε ι)
    (starts : κ → M → Except E (Option χ)) (after : κ → M → M) : Prop where
  prog : ∀ h, S.prog h = wrap B.prog starts after h
  handle : S.handle = B.handle
  poke : ∀ x m w m' w', S.poke x m w = some (m', w') → w' = w

/-- The observer that notes the memory in which each handler started. -/
def startedIn (s : State M W Op Ans E κ) (a : Act κ ε η) (g : ℕ → Option M) : ℕ → Option M :=
  match a with
  | .start i _ => Function.update g i (some s.mem)
  | _ => g

/-- The handlers with this observer. -/
abbrev watched (S : System M W Op Ans E κ ε η) :
    State M W Op Ans E κ × (ℕ → Option M) → Act κ ε η →
      Option (State M W Op Ans E κ × (ℕ → Option M)) :=
  watch (step S) startedIn

/-- A handler beside its call, and the memory in which it started. It has not started, or the
memory gave it no call, and it has ended, or it is where the call is that the memory gave it. -/
inductive Beside (starts : κ → M → Except E (Option χ)) (after : κ → M → M) :
    Option M → Option (κ × Parked M Op Ans E Unit) → Option (χ × Parked Unit Op Ans E Unit) → Prop
  | free : Beside starts after none none none
  | raised (h : κ) (m₀ : M) (x : E) (hx : starts h m₀ = .error x) :
      Beside starts after (some m₀) (some (h, .ended (.error x))) none
  | idle (h : κ) (m₀ : M) (hn : starts h m₀ = .ok none) :
      Beside starts after (some m₀) (some (h, .ended (.ok ()))) none
  | calls (h : κ) (c : χ) (m₀ m : M) (p : Parked Unit Op Ans E Unit)
      (hc : starts h m₀ = .ok (some c)) :
      Beside starts after (some m₀) (some (h, (wrapPark (after h) m p).2)) (some (c, p))

/-- An event without the call that it belongs to. -/
def Event.answer (ev : Event Op Ans χ) : ℕ × (o : Op) × Ans o := (ev.id, ⟨ev.op, ev.ans⟩)

/-- The same world and the same answers, and each handler beside its call. -/
structure Refined (starts : κ → M → Except E (Option χ)) (after : κ → M → M)
    (s : State M W Op Ans E κ × (ℕ → Option M)) (b : State Unit W Op Ans E χ) : Prop where
  world : b.world = s.1.world
  calls : ∀ i, Beside starts after (s.2 i) (s.1.calls i) (b.calls i)
  trace : b.trace.map Event.answer = s.1.trace.map Event.answer

theorem refined_init (starts : κ → M → Except E (Option χ)) (after : κ → M → M) (m : M) (w : W) :
    Refined starts after (init Op Ans E κ m w, fun _ => none) (init Op Ans E χ () w) :=
  ⟨rfl, fun _ => .free, rfl⟩

variable {S : System M W Op Ans E κ ε η} {B : System Unit W Op Ans E χ ε ι}
  {starts : κ → M → Except E (Option χ)} {after : κ → M → M}
  {s t : State M W Op Ans E κ × (ℕ → Option M)} {b : State Unit W Op Ans E χ} {m₀ : Option M}

theorem Refined.trace_length (h : Refined starts after s b) :
    b.trace.length = s.1.trace.length := by
  rw [← List.length_map (Event.answer (χ := χ)), h.trace, List.length_map]

/-- A handler that waits waits for its call. -/
theorem Beside.waiting {h : κ} {o : Op} {k : Ans o → Prog M Op Ans E Unit}
    {x : Option (χ × Parked Unit Op Ans E Unit)}
    (hb : Beside starts after m₀ (some (h, .waiting o k)) x) :
    ∃ c m k', m₀ = some m ∧ x = some (c, .waiting o k') ∧ starts h m = .ok (some c) ∧
      k = fun a => wrapped (after h) (k' a) := by
  generalize hy : some (h, Parked.waiting o k) = y at hb
  cases hb with
  | free => cases hy
  | raised => cases hy
  | idle => cases hy
  | calls h c m₀ m p hc =>
    cases p with
    | ended r => cases r <;> cases hy
    | waiting o k' =>
      cases hy
      exact ⟨c, m₀, k', rfl, rfl, hc, rfl⟩

theorem Beside.of_none {h : Option (κ × Parked M Op Ans E Unit)} (hh : h = none)
    {x : Option (χ × Parked Unit Op Ans E Unit)} (hb : Beside starts after m₀ h x) : x = none := by
  cases hb with
  | free => rfl
  | raised | idle | calls => cases hh

/-- Above a call is the handler that started it. -/
theorem Beside.of_call {c : χ} {p : Parked Unit Op Ans E Unit}
    {h : Option (κ × Parked M Op Ans E Unit)} (hb : Beside starts after m₀ h (some (c, p))) :
    ∃ hd m₁ m, m₀ = some m₁ ∧ h = some (hd, (wrapPark (after hd) m p).2) ∧
      starts hd m₁ = .ok (some c) := by
  cases hb with
  | calls hd c m₁ m p hc => exact ⟨hd, m₁, m, rfl, rfl, hc⟩

/-- Handlers stay beside their calls when one row of the tables changes, to a row that fits. -/
theorem beside_update {f : ℕ → Option (κ × Parked M Op Ans E Unit)} {g g' : ℕ → Option M}
    {calls calls' : ℕ → Option (χ × Parked Unit Op Ans E Unit)}
    (hold : ∀ j, Beside starts after (g j) (f j) (calls j)) {i : ℕ}
    {x : Option (κ × Parked M Op Ans E Unit)} {y : Option (χ × Parked Unit Op Ans E Unit)}
    (hx : Beside starts after m₀ x y) (hi : g' i = m₀ ∧ calls' i = y)
    (hother : ∀ j, j ≠ i → g' j = g j ∧ calls' j = calls j) (j : ℕ) :
    Beside starts after (g' j) (Function.update f i x j) (calls' j) := by
  by_cases hj : j = i
  · subst hj
    rw [Function.update_self, hi.1, hi.2]
    exact hx
  · rw [Function.update_of_ne hj, (hother j hj).1, (hother j hj).2]
    exact hold j

/-- Each step of the handlers starts a call, resumes one, or leaves the world and the calls
alone. In the first two cases the memory is what the turn of the handler makes of it. -/
theorem refined_step (hS : Wraps S B starts after) (hR : Refined starts after s b)
    {a : Act κ ε η} (h : watched S s a = some t) :
    (∃ i hd c b', a = .start i hd ∧ starts hd s.1.mem = .ok (some c) ∧
      step B b (.start i c) = some b' ∧ Refined starts after t b' ∧
      t.1.mem = (wrapPark (after hd) s.1.mem ((B.prog c).settle ()).2).1) ∨
    (∃ i e hd m₀ c p b', a = .resume i e ∧ starts hd m₀ = .ok (some c) ∧
      step B b (.resume i e) = some b' ∧ b'.calls i = some (c, p) ∧ Refined starts after t b' ∧
      t.1.mem = (wrapPark (after hd) s.1.mem p).1) ∨
    (t.1.world = s.1.world ∧ Refined starts after t b ∧
      (t.1.mem = s.1.mem ∨ ∃ x, a = .poke x)) := by
  obtain ⟨s, g⟩ := s
  obtain ⟨t, g'⟩ := t
  obtain ⟨h, rfl⟩ := watch_some h
  cases a with
  | start i hd =>
    obtain ⟨hfree, rfl⟩ := step_start h
    have hcall : b.calls i = none := (hR.calls i).of_none hfree
    have hself : Function.update g i (some s.mem) i = some s.mem := Function.update_self _ _ _
    have hother : ∀ j, j ≠ i → Function.update g i (some s.mem) j = g j :=
      fun j hj => Function.update_of_ne hj _ _
    have hturn := settle_wrap B.prog starts after hd s.mem
    rw [← hS.prog] at hturn
    cases hstarts : starts hd s.mem with
    | error x =>
      rw [hstarts] at hturn
      rw [hturn]
      refine Or.inr (Or.inr ⟨rfl, ⟨hR.world, ?_, hR.trace⟩, Or.inl rfl⟩)
      exact beside_update hR.calls (.raised hd s.mem x hstarts) ⟨hself, hcall⟩
        fun j hj => ⟨hother j hj, rfl⟩
    | ok d =>
      rw [hstarts] at hturn
      cases d with
      | none =>
        rw [hturn]
        refine Or.inr (Or.inr ⟨rfl, ⟨hR.world, ?_, hR.trace⟩, Or.inl rfl⟩)
        exact beside_update hR.calls (.idle hd s.mem hstarts) ⟨hself, hcall⟩
          fun j hj => ⟨hother j hj, rfl⟩
      | some c =>
        rw [hturn]
        refine Or.inl ⟨i, hd, c, _, rfl, hstarts, start_of_free c hcall,
          ⟨hR.world, ?_, hR.trace⟩, rfl⟩
        exact beside_update hR.calls (.calls hd c s.mem s.mem _ hstarts)
          ⟨hself, Function.update_self _ _ _⟩
          fun j hj => ⟨hother j hj, Function.update_of_ne hj _ _⟩
  | resume i e =>
    obtain ⟨hd, o, k, w, ans, hi, hw, rfl⟩ := step_resume h
    have hbeside := hR.calls i
    rw [hi] at hbeside
    obtain ⟨c, m₀, k', hm₀, hcall, hstarts, rfl⟩ := hbeside.waiting
    rw [hS.handle, ← hR.world] at hw
    refine Or.inr (Or.inl ⟨i, e, hd, m₀, c, ((k' ans).settle ()).2, _, rfl, hstarts,
      resume_of_answer hcall hw, Function.update_self _ _ _, ⟨rfl, ?_, ?_⟩, ?_⟩)
    · rw [settle_wrapped]
      exact beside_update hR.calls (.calls hd c m₀ s.mem _ hstarts)
        ⟨hm₀, Function.update_self _ _ _⟩ fun j hj => ⟨rfl, Function.update_of_ne hj _ _⟩
    · rw [List.map_append, List.map_append, hR.trace]
      rfl
    · rw [settle_wrapped]
  | poke x =>
    obtain ⟨m, w, hw, rfl⟩ := step_poke h
    obtain rfl := hS.poke x _ _ _ _ hw
    exact Or.inr (Or.inr ⟨rfl, ⟨hR.world, hR.calls, hR.trace⟩, Or.inr ⟨x, rfl⟩⟩)

/-- A system of handlers refines the system of the calls. -/
theorem wraps_simulates (hS : Wraps S B starts after) {P : κ → Prop} {Q : χ → Prop}
    (hPQ : ∀ h m c, P h → starts h m = .ok (some c) → Q c) :
    Simulates (watched S) (step B) (Act.Starts P) (Act.Starts Q) (Refined starts after) := by
  intro s a t b ha hR h
  rcases refined_step hS hR h with ⟨i, hd, c, b', rfl, hc, hb, hR', _⟩ |
      ⟨i, e, _, _, _, _, b', rfl, _, hb, _, hR', _⟩ | ⟨_, hR', _⟩
  · exact Or.inl ⟨.start i c, b', hPQ hd _ c ha hc, hb, hR'⟩
  · exact Or.inl ⟨.resume i e, b', trivial, hb, hR'⟩
  · exact Or.inr hR'

end async
