-- Asynchronous programs of one client and the runs in which many of their calls
-- interleave. A program runs without a break up to its next `await`, so what stands
-- between two awaits is one atomic turn. A system answers the awaits.
import Mathlib.Logic.Function.Basic
import Instagram.Runs

namespace async

open runs

/-! ## Programs -/

/-- A program over the client's memory `M`. It awaits operations `Op`, each with its own
type of answers, and ends with a result or an exception. -/
inductive Prog (M Op : Type) (Ans : Op → Type) (E ρ : Type) where
  | ret (r : ρ)
  | raise (e : E)
  | read (k : M → Prog M Op Ans E ρ)
  | write (m : M) (k : Prog M Op Ans E ρ)
  | await (o : Op) (k : Ans o → Prog M Op Ans E ρ)

variable {M W Op : Type} {Ans : Op → Type} {E ρ ρ' : Type}

namespace Prog

def bind : Prog M Op Ans E ρ → (ρ → Prog M Op Ans E ρ') → Prog M Op Ans E ρ'
  | ret r, f => f r
  | raise e, _ => raise e
  | read k, f => read fun m => (k m).bind f
  | write m k, f => write m (k.bind f)
  | await o k, f => await o fun a => (k a).bind f

instance : Monad (Prog M Op Ans E) where
  pure := ret
  bind := bind

@[simp] theorem pure_eq (r : ρ) : (pure r : Prog M Op Ans E ρ) = ret r := rfl
@[simp] theorem ret_bind (r : ρ) (f : ρ → Prog M Op Ans E ρ') : (ret r >>= f) = f r := rfl
@[simp] theorem raise_bind (e : E) (f : ρ → Prog M Op Ans E ρ') :
    ((raise e : Prog M Op Ans E ρ) >>= f) = raise e := rfl
@[simp] theorem read_bind (k : M → Prog M Op Ans E ρ) (f : ρ → Prog M Op Ans E ρ') :
    (read k >>= f) = read fun m => k m >>= f := rfl
@[simp] theorem write_bind (m : M) (k : Prog M Op Ans E ρ) (f : ρ → Prog M Op Ans E ρ') :
    (write m k >>= f) = write m (k >>= f) := rfl
@[simp] theorem await_bind (o : Op) (k : Ans o → Prog M Op Ans E ρ)
    (f : ρ → Prog M Op Ans E ρ') : (await o k >>= f) = await o fun a => k a >>= f := rfl

/-- Runs `handler` on an exception that the program raises. -/
def catchError (handler : E → Prog M Op Ans E ρ) : Prog M Op Ans E ρ → Prog M Op Ans E ρ
  | ret r => ret r
  | raise e => handler e
  | read k => read fun m => (k m).catchError handler
  | write m k => write m (k.catchError handler)
  | await o k => await o fun a => (k a).catchError handler

/-- A result that may be an exception, as a program. -/
def ofExcept : Except E ρ → Prog M Op Ans E ρ
  | .ok r => ret r
  | .error e => raise e

@[simp] theorem ofExcept_ok (r : ρ) : (ofExcept (.ok r) : Prog M Op Ans E ρ) = ret r := rfl
@[simp] theorem ofExcept_error (e : E) : (ofExcept (.error e) : Prog M Op Ans E ρ) = raise e := rfl

/-- A program that uses no memory, as a program over more operations. -/
def embed {M' Op' : Type} {Ans' : Op' → Type} (f : Op → Op') (g : (o : Op) → Ans' (f o) → Ans o) :
    Prog Unit Op Ans E ρ → Prog M' Op' Ans' E ρ
  | ret r => ret r
  | raise e => raise e
  | read k => (k ()).embed f g
  | write _ k => k.embed f g
  | await o k => await (f o) fun a => (k (g o a)).embed f g

def getMem : Prog M Op Ans E M := read ret

def setMem (m : M) : Prog M Op Ans E Unit := write m (ret ())

end Prog

/-! ## Turns -/

/-- Where a turn of a program stops. -/
inductive Parked (M Op : Type) (Ans : Op → Type) (E ρ : Type) where
  | ended (r : Except E ρ)
  | waiting (o : Op) (k : Ans o → Prog M Op Ans E ρ)

/-- One turn: the memory after it, and where it stops. -/
def Prog.settle : Prog M Op Ans E ρ → M → M × Parked M Op Ans E ρ
  | ret r, m => (m, .ended (.ok r))
  | raise e, m => (m, .ended (.error e))
  | read k, m => (k m).settle m
  | write m k, _ => k.settle m
  | await o k, m => (m, .waiting o k)

@[simp] theorem settle_ret (r : ρ) (m : M) :
    (Prog.ret r : Prog M Op Ans E ρ).settle m = (m, .ended (.ok r)) := rfl
@[simp] theorem settle_raise (e : E) (m : M) :
    (Prog.raise e : Prog M Op Ans E ρ).settle m = (m, .ended (.error e)) := rfl
@[simp] theorem settle_read (k : M → Prog M Op Ans E ρ) (m : M) :
    (Prog.read k).settle m = (k m).settle m := rfl
@[simp] theorem settle_write (m' : M) (k : Prog M Op Ans E ρ) (m : M) :
    (Prog.write m' k).settle m = k.settle m' := rfl
@[simp] theorem settle_await (o : Op) (k : Ans o → Prog M Op Ans E ρ) (m : M) :
    (Prog.await o k).settle m = (m, .waiting o k) := rfl

/-- What a program hands on through its reads and writes holds where its turn stops. -/
theorem settle_carries {P : Prog M Op Ans E ρ → Prop} {Q : Parked M Op Ans E ρ → Prop}
    (hret : ∀ r, P (.ret r) → Q (.ended (.ok r)))
    (hraise : ∀ e, P (.raise e) → Q (.ended (.error e)))
    (hread : ∀ k m, P (.read k) → P (k m)) (hwrite : ∀ m k, P (.write m k) → P k)
    (hawait : ∀ o k, P (.await o k) → Q (.waiting o k)) {p : Prog M Op Ans E ρ} (h : P p) (m : M) :
    Q (p.settle m).2 := by
  induction p generalizing m with
  | ret r => exact hret r h
  | raise e => exact hraise e h
  | read k ih => exact ih m (hread k m h) m
  | write m' k ih => exact ih (hwrite m' k h) m'
  | await o k _ => exact hawait o k h

/-! ## Systems -/

/-- What the calls run, how the world answers an operation, and what happens besides the
calls. `ε` holds the free choices of an answer, `η` those of the other events. -/
structure System (M W Op : Type) (Ans : Op → Type) (E χ ε η : Type) where
  prog : χ → Prog M Op Ans E Unit
  handle : (o : Op) → ε → W → Option (W × Ans o)
  poke : η → M → W → Option (M × W)

/-- An operation that was answered, with the call that awaited it. -/
structure Event (Op : Type) (Ans : Op → Type) (χ : Type) where
  id : ℕ
  call : χ
  op : Op
  ans : Ans op

structure State (M W Op : Type) (Ans : Op → Type) (E χ : Type) where
  mem : M
  world : W
  calls : ℕ → Option (χ × Parked M Op Ans E Unit)
  trace : List (Event Op Ans χ)

/-- A step: a call starts, an await of a call is answered, or something else happens. -/
inductive Act (χ ε η : Type) where
  | start (i : ℕ) (c : χ)
  | resume (i : ℕ) (e : ε)
  | poke (h : η)

variable {χ ε η : Type}

/-- No call has started yet. -/
def init (Op : Type) (Ans : Op → Type) (E χ : Type) (m : M) (w : W) : State M W Op Ans E χ :=
  ⟨m, w, fun _ => none, []⟩

def step (S : System M W Op Ans E χ ε η) (s : State M W Op Ans E χ) :
    Act χ ε η → Option (State M W Op Ans E χ)
  | .start i c =>
    match s.calls i with
    | some _ => none
    | none =>
      let turn := (S.prog c).settle s.mem
      some { s with mem := turn.1, calls := Function.update s.calls i (some (c, turn.2)) }
  | .resume i e =>
    match s.calls i with
    | some (c, .waiting o k) =>
      (S.handle o e s.world).map fun (w, a) =>
        let turn := (k a).settle s.mem
        { mem := turn.1
          world := w
          calls := Function.update s.calls i (some (c, turn.2))
          trace := s.trace ++ [⟨i, c, o, a⟩] }
    | _ => none
  | .poke h => (S.poke h s.mem s.world).map fun (m, w) => { s with mem := m, world := w }

variable {S : System M W Op Ans E χ ε η} {s t : State M W Op Ans E χ}

theorem step_start {i : ℕ} {c : χ} (h : step S s (.start i c) = some t) :
    s.calls i = none ∧
      t = { s with
        mem := ((S.prog c).settle s.mem).1
        calls := Function.update s.calls i (some (c, ((S.prog c).settle s.mem).2)) } := by
  simp only [step] at h
  split at h
  · cases h
  · rename_i hi
    cases h
    exact ⟨hi, rfl⟩

theorem step_resume {i : ℕ} {e : ε} (h : step S s (.resume i e) = some t) :
    ∃ c o k w a, s.calls i = some (c, .waiting o k) ∧ S.handle o e s.world = some (w, a) ∧
      t = { mem := ((k a).settle s.mem).1
            world := w
            calls := Function.update s.calls i (some (c, ((k a).settle s.mem).2))
            trace := s.trace ++ [⟨i, c, o, a⟩] } := by
  simp only [step] at h
  split at h
  · rename_i c o k hi
    obtain ⟨⟨w, a⟩, hw, rfl⟩ := Option.map_eq_some_iff.mp h
    exact ⟨c, o, k, w, a, hi, hw, rfl⟩
  · cases h

theorem step_poke {x : η} (h : step S s (.poke x) = some t) :
    ∃ m w, S.poke x s.mem s.world = some (m, w) ∧ t = { s with mem := m, world := w } := by
  obtain ⟨⟨m, w⟩, hw, rfl⟩ := Option.map_eq_some_iff.mp h
  exact ⟨m, w, hw, rfl⟩

theorem start_of_free {i : ℕ} (c : χ) (hi : s.calls i = none) :
    step S s (.start i c) = some { s with
      mem := ((S.prog c).settle s.mem).1
      calls := Function.update s.calls i (some (c, ((S.prog c).settle s.mem).2)) } := by
  simp only [step, hi]

theorem resume_of_answer {i : ℕ} {e : ε} {c : χ} {o : Op} {k : Ans o → Prog M Op Ans E Unit}
    {w : W} {a : Ans o} (hi : s.calls i = some (c, .waiting o k))
    (hw : S.handle o e s.world = some (w, a)) :
    step S s (.resume i e) = some
      { mem := ((k a).settle s.mem).1
        world := w
        calls := Function.update s.calls i (some (c, ((k a).settle s.mem).2))
        trace := s.trace ++ [⟨i, c, o, a⟩] } := by
  simp only [step, hi, hw, Option.map_some]

theorem calls_start {i : ℕ} {c : χ} (h : step S s (.start i c) = some t) :
    t.calls i = some (c, ((S.prog c).settle s.mem).2) := by
  obtain ⟨_, rfl⟩ := step_start h
  exact Function.update_self _ _ _

theorem calls_start_other {i j : ℕ} {c : χ} (h : step S s (.start i c) = some t) (hj : j ≠ i) :
    t.calls j = s.calls j := by
  obtain ⟨_, rfl⟩ := step_start h
  exact Function.update_of_ne hj _ _

theorem calls_resume_other {i j : ℕ} {e : ε} (h : step S s (.resume i e) = some t) (hj : j ≠ i) :
    t.calls j = s.calls j := by
  obtain ⟨_, _, _, _, _, _, _, rfl⟩ := step_resume h
  exact Function.update_of_ne hj _ _

theorem isSome_update {β : Type} {f : ℕ → Option β} {j : ℕ} (i : ℕ) (x : β)
    (h : (f j).isSome) : (Function.update f i (some x) j).isSome := by
  by_cases hj : j = i
  · rw [hj, Function.update_self]
    rfl
  · rw [Function.update_of_ne hj]
    exact h

/-- An entry of a table that got one new entry is the new one or an old one. -/
theorem update_eq_some {β : Type} {f : ℕ → Option β} {i j : ℕ} {x y : β}
    (h : Function.update f i (some x) j = some y) : (j = i ∧ y = x) ∨ (j ≠ i ∧ f j = some y) := by
  by_cases hj : j = i
  · subst hj
    rw [Function.update_self, Option.some.injEq] at h
    exact Or.inl ⟨rfl, h.symm⟩
  · rw [Function.update_of_ne hj] at h
    exact Or.inr ⟨hj, h⟩

/-- Only calls that have started have events. -/
theorem started_step (hs : ∀ ev ∈ s.trace, (s.calls ev.id).isSome) {a : Act χ ε η}
    (h : step S s a = some t) : ∀ ev ∈ t.trace, (t.calls ev.id).isSome := by
  cases a with
  | start i c =>
    obtain ⟨_, rfl⟩ := step_start h
    exact fun ev hev => isSome_update i _ (hs ev hev)
  | resume i e =>
    obtain ⟨c, o, k, w, a, _, _, rfl⟩ := step_resume h
    intro ev hev
    rcases List.mem_append.mp hev with hold | hnew
    · exact isSome_update i _ (hs ev hold)
    · rw [List.mem_singleton] at hnew
      subst hnew
      show (Function.update s.calls i _ i).isSome
      rw [Function.update_self]
      rfl
  | poke x =>
    obtain ⟨_, _, _, rfl⟩ := step_poke h
    exact hs

/-! ## Logs -/

/-- The events of one call. -/
def logOf (i : ℕ) (s : State M W Op Ans E χ) : List (Event Op Ans χ) :=
  s.trace.filter fun ev => decide (ev.id = i)

theorem logOf_append (i : ℕ) (m : M) (w : W) (calls : ℕ → Option (χ × Parked M Op Ans E Unit))
    (s : State M W Op Ans E χ) (ev : Event Op Ans χ) :
    logOf i ⟨m, w, calls, s.trace ++ [ev]⟩ = logOf i s ++ if ev.id = i then [ev] else [] := by
  unfold logOf
  rw [List.filter_append]
  by_cases hi : ev.id = i
  · simp [hi]
  · simp [hi]

theorem logOf_eq_nil (hs : ∀ ev ∈ s.trace, (s.calls ev.id).isSome) {i : ℕ}
    (hi : s.calls i = none) : logOf i s = [] := by
  refine List.filter_eq_nil_iff.mpr fun ev hev hid => ?_
  have hstarted := hs ev hev
  rw [of_decide_eq_true hid, hi] at hstarted
  cases hstarted

/-- Where each call stands fits its log. -/
def Logged (P : ℕ → χ → List (Event Op Ans χ) → Parked M Op Ans E Unit → Prop)
    (s : State M W Op Ans E χ) : Prop :=
  ∀ i c p, s.calls i = some (c, p) → P i c (logOf i s) p

theorem logged_step {P : ℕ → χ → List (Event Op Ans χ) → Parked M Op Ans E Unit → Prop}
    (hstarted : ∀ ev ∈ s.trace, (s.calls ev.id).isSome) (hs : Logged P s)
    (hstart : ∀ i c, P i c [] ((S.prog c).settle s.mem).2)
    (hresume : ∀ i c o k e w a, s.calls i = some (c, .waiting o k) →
      S.handle o e s.world = some (w, a) → P i c (logOf i s) (.waiting o k) →
      P i c (logOf i s ++ [⟨i, c, o, a⟩]) ((k a).settle s.mem).2)
    {a : Act χ ε η} (h : step S s a = some t) : Logged P t := by
  intro j d q hj
  cases a with
  | start i c =>
    obtain ⟨hi, rfl⟩ := step_start h
    rcases update_eq_some hj with ⟨rfl, he⟩ | ⟨_, hold⟩
    · cases he
      show P j d (logOf j s) _
      rw [logOf_eq_nil hstarted hi]
      exact hstart j d
    · exact hs j d q hold
  | resume i e =>
    obtain ⟨c, o, k, w, a, hi, hw, rfl⟩ := step_resume h
    rw [logOf_append]
    rcases update_eq_some hj with ⟨rfl, he⟩ | ⟨hne, hold⟩
    · cases he
      rw [if_pos rfl]
      exact hresume j d o k e w a hi hw (hs j d _ hi)
    · rw [if_neg (Ne.symm hne), List.append_nil]
      exact hs j d q hold
  | poke x =>
    obtain ⟨m, w, _, rfl⟩ := step_poke h
    exact hs j d q hj

/-! ## One call at a time -/

/-- The whole run of a program while nothing else happens. Its awaits are answered with the
choices `es`, one after another. -/
def Prog.alone (handle : (o : Op) → ε → W → Option (W × Ans o)) :
    Prog M Op Ans E ρ → (ℕ → ε) → M → W → Option (M × W × Except E ρ)
  | ret r, _, m, w => some (m, w, .ok r)
  | raise x, _, m, w => some (m, w, .error x)
  | read k, es, m, w => (k m).alone handle es m w
  | write m k, es, _, w => k.alone handle es m w
  | await o k, es, m, w =>
    (handle o (es 0) w).bind fun (w', a) => (k a).alone handle (fun n => es (n + 1)) m w'

/-- The state after a turn of call `i`. -/
def State.turn (s : State M W Op Ans E χ) (i : ℕ) (c : χ) (p : Prog M Op Ans E Unit) :
    State M W Op Ans E χ :=
  { s with mem := (p.settle s.mem).1,
           calls := Function.update s.calls i (some (c, (p.settle s.mem).2)) }

/-- A call that waits is resumed up to its end, when it runs alone. -/
theorem resumes_of_alone (S : System M W Op Ans E χ ε η) (s : State M W Op Ans E χ) (i : ℕ)
    (c : χ) (es : ℕ → ε) (p : Prog M Op Ans E Unit) {m : M} {w : W} {r : Except E Unit}
    (h : p.alone S.handle es s.mem s.world = some (m, w, r)) :
    ∃ n t, run (step S) (s.turn i c p) ((List.range n).map fun j => .resume i (es j)) = some t ∧
      t.mem = m ∧ t.world = w ∧ t.calls = Function.update s.calls i (some (c, .ended r)) := by
  induction p generalizing s es with
  | ret r' =>
    cases h
    exact ⟨0, _, rfl, rfl, rfl, rfl⟩
  | raise x =>
    cases h
    exact ⟨0, _, rfl, rfl, rfl, rfl⟩
  | read k ih => exact ih s.mem s es h
  | write m₁ k ih => exact ih { s with mem := m₁ } es h
  | await o k ih =>
    obtain ⟨⟨w₁, a⟩, hw, hk⟩ := Option.bind_eq_some_iff.mp h
    have hstep : step S (s.turn i c (.await o k)) (.resume i (es 0)) =
        some (State.turn ⟨s.mem, w₁, Function.update s.calls i (some (c, .waiting o k)),
          s.trace ++ [⟨i, c, o, a⟩]⟩ i c (k a)) := by
      simp [step, State.turn, hw]
    obtain ⟨n, t, ht, hm, hworld, hcalls⟩ := ih a ⟨s.mem, w₁, _, _⟩ (fun n => es (n + 1)) hk
    refine ⟨n + 1, t, ?_, hm, hworld, ?_⟩
    · rw [List.range_succ_eq_map, List.map_cons, List.map_map, run_cons, hstep]
      exact ht
    · rw [hcalls, Function.update_idem]

/-- A call that runs alone is a run of the system: it starts, and its awaits are answered
one after another. -/
theorem run_of_alone (S : System M W Op Ans E χ ε η) (s : State M W Op Ans E χ) (i : ℕ)
    (c : χ) (es : ℕ → ε) {m : M} {w : W} {r : Except E Unit} (hi : s.calls i = none)
    (h : (S.prog c).alone S.handle es s.mem s.world = some (m, w, r)) :
    ∃ n t, run (step S) s (.start i c :: (List.range n).map fun j => .resume i (es j)) = some t ∧
      t.mem = m ∧ t.world = w ∧ t.calls = Function.update s.calls i (some (c, .ended r)) := by
  obtain ⟨n, t, ht, hend⟩ := resumes_of_alone S s i c es (S.prog c) h
  refine ⟨n, t, ?_, hend⟩
  have hstart : step S s (.start i c) = some (s.turn i c (S.prog c)) := by
    simp only [step, hi]
    rfl
  rw [run_cons, hstart]
  exact ht

/-! ## Rely and guarantee

A program may rely on `A`, what every answer satisfies. Then every await that it comes to
satisfies `J`, which speaks of the operation and of what the program does with the answer. -/

def Prog.Awaits (A : (o : Op) → Ans o → Prop) (J : (o : Op) → (Ans o → Prog M Op Ans E ρ) → Prop) :
    Prog M Op Ans E ρ → Prop
  | ret _ => True
  | raise _ => True
  | read k => ∀ m, (k m).Awaits A J
  | write _ k => k.Awaits A J
  | await o k => J o k ∧ ∀ a, A o a → (k a).Awaits A J

def Parked.Awaits (A : (o : Op) → Ans o → Prop)
    (J : (o : Op) → (Ans o → Prog M Op Ans E ρ) → Prop) : Parked M Op Ans E ρ → Prop
  | ended _ => True
  | waiting o k => J o k ∧ ∀ a, A o a → (k a).Awaits A J

variable {A : (o : Op) → Ans o → Prop} {J : (o : Op) → (Ans o → Prog M Op Ans E ρ) → Prop}

theorem Prog.Awaits.settle {p : Prog M Op Ans E ρ} (h : p.Awaits A J) (m : M) :
    (p.settle m).2.Awaits A J :=
  settle_carries (P := (·.Awaits A J)) (Q := (·.Awaits A J)) (fun _ h => h) (fun _ h => h)
    (fun _ m h => h m) (fun _ _ h => h) (fun _ _ h => h) h m

theorem Prog.Awaits.and {J' : (o : Op) → (Ans o → Prog M Op Ans E ρ) → Prop}
    {p : Prog M Op Ans E ρ} (h : p.Awaits A J) (h' : p.Awaits A J') :
    p.Awaits A fun o k => J o k ∧ J' o k := by
  induction p with
  | ret r => trivial
  | raise e => trivial
  | read k ih => exact fun m => ih m (h m) (h' m)
  | write m k ih => exact ih h h'
  | await o k ih => exact ⟨⟨h.1, h'.1⟩, fun a ha => ih a (h.2 a ha) (h'.2 a ha)⟩

theorem Prog.Awaits.mono {J' : (o : Op) → (Ans o → Prog M Op Ans E ρ) → Prop}
    {p : Prog M Op Ans E ρ} (h : p.Awaits A J) (hJ : ∀ o k, J o k → J' o k) : p.Awaits A J' := by
  induction p with
  | ret r => trivial
  | raise e => trivial
  | read k ih => exact fun m => ih m (h m)
  | write m k ih => exact ih h
  | await o k ih => exact ⟨hJ o k h.1, fun a ha => ih a (h.2 a ha)⟩

/-- What holds of every await holds of the awaits of a program. -/
theorem awaits_of_forall (h : ∀ o k, J o k) (p : Prog M Op Ans E ρ) : p.Awaits A J := by
  induction p with
  | ret r => trivial
  | raise e => trivial
  | read k ih => exact ih
  | write m k ih => exact ih
  | await o k ih => exact ⟨h o k, fun a _ => ih a⟩

/-! ## Frames -/

/-- No turn of the program changes what `π` sees of the memory. -/
def Prog.Frames {β : Type} (π : M → β) : Prog M Op Ans E ρ → M → Prop
  | ret _, _ => True
  | raise _, _ => True
  | read k, _ => ∀ m, (k m).Frames π m
  | write m' k, m => π m' = π m ∧ k.Frames π m'
  | await _ k, _ => ∀ a m, (k a).Frames π m

theorem Prog.Frames.settle {β : Type} {π : M → β} {p : Prog M Op Ans E ρ} {m : M}
    (h : p.Frames π m) : π (p.settle m).1 = π m := by
  induction p generalizing m with
  | ret r => rfl
  | raise e => rfl
  | read k ih => exact ih m (h m)
  | write m' k ih => exact (ih h.2).trans h.1
  | await o k _ => rfl

theorem awaits_of_frames {β : Type} {π : M → β} {p : Prog M Op Ans E ρ} {m : M}
    (h : p.Frames π m) : p.Awaits A fun _ k => ∀ a m, π ((k a).settle m).1 = π m := by
  induction p generalizing m with
  | ret r => trivial
  | raise e => trivial
  | read k ih => exact fun m => ih m (h m)
  | write m' k ih => exact ih h.2
  | await o k ih => exact ⟨fun a m => (h a m).settle, fun a _ => ih a (h a m)⟩

theorem frames_bind {β : Type} {π : M → β} {p : Prog M Op Ans E ρ} {f : ρ → Prog M Op Ans E ρ'}
    {m : M} (h : p.Frames π m) (hf : ∀ r m, (f r).Frames π m) : (p >>= f).Frames π m := by
  induction p generalizing m with
  | ret r => exact hf r m
  | raise e => trivial
  | read k ih => exact fun m => ih m (h m)
  | write m' k ih => exact ⟨h.1, ih h.2⟩
  | await o k ih => exact fun a m => ih a (h a m)

theorem frames_catchError {β : Type} {π : M → β} {p : Prog M Op Ans E ρ}
    {f : E → Prog M Op Ans E ρ} {m : M} (h : p.Frames π m) (hf : ∀ e m, (f e).Frames π m) :
    (p.catchError f).Frames π m := by
  induction p generalizing m with
  | ret r => trivial
  | raise e => exact hf e m
  | read k ih => exact fun m => ih m (h m)
  | write m' k ih => exact ⟨h.1, ih h.2⟩
  | await o k ih => exact fun a m => ih a (h a m)

/-- What holds of the operations of both parts holds of the operations of the whole. -/
theorem awaits_bind {G : Op → Prop} {p : Prog M Op Ans E ρ} {f : ρ → Prog M Op Ans E ρ'}
    (h : p.Awaits A fun o _ => G o) (hf : ∀ r, (f r).Awaits A fun o _ => G o) :
    (p >>= f).Awaits A fun o _ => G o := by
  induction p with
  | ret r => exact hf r
  | raise e => trivial
  | read k ih => exact fun m => ih m (h m)
  | write m k ih => exact ih h
  | await o k ih => exact ⟨h.1, fun a ha => ih a (h.2 a ha)⟩

theorem awaits_catchError {G : Op → Prop} {p : Prog M Op Ans E ρ} {f : E → Prog M Op Ans E ρ}
    (h : p.Awaits A fun o _ => G o) (hf : ∀ e, (f e).Awaits A fun o _ => G o) :
    (p.catchError f).Awaits A fun o _ => G o := by
  induction p with
  | ret r => trivial
  | raise e => exact hf e
  | read k ih => exact fun m => ih m (h m)
  | write m k ih => exact ih h
  | await o k ih => exact ⟨h.1, fun a ha => ih a (h.2 a ha)⟩

/-! ## From the parts to the whole -/

/-- A property of programs that a program has when its parts have it. `G` says which
operations its programs may await. -/
structure Compositional (G : Op → Prop) (P : (ρ : Type) → Prog M Op Ans E ρ → Prop) : Prop where
  ret : ∀ {ρ} (r : ρ), P ρ (.ret r)
  raise : ∀ {ρ} (e : E), P ρ (.raise e)
  read : ∀ {ρ} {k : M → Prog M Op Ans E ρ}, (∀ m, P ρ (k m)) → P ρ (.read k)
  await : ∀ {ρ} {o : Op} {k : Ans o → Prog M Op Ans E ρ}, G o → (∀ a, P ρ (k a)) →
    P ρ (.await o k)
  bind : ∀ {ρ ρ'} {p : Prog M Op Ans E ρ} {f : ρ → Prog M Op Ans E ρ'}, P ρ p →
    (∀ r, P ρ' (f r)) → P ρ' (p >>= f)
  catchError : ∀ {ρ} {p : Prog M Op Ans E ρ} {f : E → Prog M Op Ans E ρ}, P ρ p →
    (∀ e, P ρ (f e)) → P ρ (p.catchError f)

/-- Leaving a part of the memory alone is compositional. -/
theorem compositional_frames {β : Type} (π : M → β) :
    Compositional (fun _ => True) fun ρ (p : Prog M Op Ans E ρ) => ∀ m, p.Frames π m where
  ret _ _ := trivial
  raise _ _ := trivial
  read h _ := fun m => h m m
  await _ h _ := h
  bind h hf m := frames_bind (h m) hf
  catchError h hf m := frames_catchError (h m) hf

/-- Awaiting only operations of `G` is compositional. -/
theorem compositional_awaits (A : (o : Op) → Ans o → Prop) (G : Op → Prop) :
    Compositional G fun ρ (p : Prog M Op Ans E ρ) => p.Awaits A fun o _ => G o where
  ret _ := trivial
  raise _ := trivial
  read h := h
  await hG h := ⟨hG, fun a _ => h a⟩
  bind := awaits_bind
  catchError := awaits_catchError

namespace Compositional

variable {G G' : Op → Prop} {P P' : (ρ : Type) → Prog M Op Ans E ρ → Prop}

theorem and (h : Compositional G P) (h' : Compositional G' P') :
    Compositional (fun o => G o ∧ G' o) fun ρ p => P ρ p ∧ P' ρ p where
  ret r := ⟨h.ret r, h'.ret r⟩
  raise e := ⟨h.raise e, h'.raise e⟩
  read hk := ⟨h.read fun m => (hk m).1, h'.read fun m => (hk m).2⟩
  await hG hk := ⟨h.await hG.1 fun a => (hk a).1, h'.await hG.2 fun a => (hk a).2⟩
  bind hp hf := ⟨h.bind hp.1 fun r => (hf r).1, h'.bind hp.2 fun r => (hf r).2⟩
  catchError hp hf := ⟨h.catchError hp.1 fun e => (hf e).1, h'.catchError hp.2 fun e => (hf e).2⟩

theorem ofExcept (h : Compositional G P) (r : Except E ρ) : P ρ (.ofExcept r) := by
  cases r with
  | error e => exact h.raise e
  | ok r => exact h.ret r

/-- An embedded program awaits only embedded operations, and has no memory to change. -/
theorem embed {Op' : Type} {Ans' : Op' → Type} {f : Op' → Op} {g : (o : Op') → Ans (f o) → Ans' o}
    (h : Compositional G P) (hG : ∀ o, G (f o)) (p : Prog Unit Op' Ans' E ρ) :
    P ρ (p.embed f g) := by
  induction p with
  | ret r => exact h.ret r
  | raise e => exact h.raise e
  | read k ih => exact ih ()
  | write u k ih => exact ih
  | await o k ih => exact h.await (hG o) fun a => ih _

end Compositional

/-! ## Guarded states -/

/-- The calls of a state keep their guarantees, and the world keeps its invariant. -/
structure Guarded (I : W → Prop) (A : (o : Op) → Ans o → Prop) (C : χ → Prop)
    (J : χ → (o : Op) → (Ans o → Prog M Op Ans E Unit) → Prop) (s : State M W Op Ans E χ) :
    Prop where
  world : I s.world
  calls : ∀ i c p, s.calls i = some (c, p) → C c ∧ p.Awaits A (J c)

/-- The step starts no call but those of `C`. -/
def Act.Starts (C : χ → Prop) : Act χ ε η → Prop
  | .start _ c => C c
  | .resume _ _ => True
  | .poke _ => True

theorem starts_any (a : Act χ ε η) : a.Starts fun _ => True := by
  cases a <;> trivial

variable {I : W → Prop} {C : χ → Prop} {G : χ → (o : Op) → (Ans o → Prog M Op Ans E Unit) → Prop}

theorem guarded_init (m : M) {w : W} (h : I w) : Guarded I A C G (init Op Ans E χ m w) :=
  ⟨h, fun _ _ _ hi => by cases hi⟩

/-- A table of calls keeps a property when the new entry has it. -/
theorem update_keeps {P : χ → Parked M Op Ans E Unit → Prop}
    {calls : ℕ → Option (χ × Parked M Op Ans E Unit)} {i : ℕ} {c : χ}
    {p : Parked M Op Ans E Unit} (h : ∀ i c p, calls i = some (c, p) → P c p) (hp : P c p) :
    ∀ j d q, Function.update calls i (some (c, p)) j = some (d, q) → P d q := by
  intro j d q hj
  by_cases hij : j = i
  · subst hij
    rw [Function.update_self] at hj
    cases hj
    exact hp
  · rw [Function.update_of_ne hij] at hj
    exact h j d q hj

/-- A property of every call, kept by the first turn of a call and by the turn that an answer
starts. -/
theorem calls_step {P : χ → Parked M Op Ans E Unit → Prop} {a : Act χ ε η}
    (hs : ∀ i c p, s.calls i = some (c, p) → P c p)
    (hstart : ∀ c, P c ((S.prog c).settle s.mem).2)
    (hresume : ∀ c o k a, P c (.waiting o k) → P c ((k a).settle s.mem).2)
    (h : step S s a = some t) : ∀ i c p, t.calls i = some (c, p) → P c p := by
  cases a with
  | start i c =>
    obtain ⟨_, rfl⟩ := step_start h
    exact update_keeps hs (hstart c)
  | resume i e =>
    obtain ⟨c, o, k, w, a, hi, _, rfl⟩ := step_resume h
    exact update_keeps hs (hresume c o k a (hs i c _ hi))
  | poke x =>
    obtain ⟨m, w, _, rfl⟩ := step_poke h
    exact hs

/-- The rely and guarantee rule. Each program keeps its guarantee while the answers keep
the rely, the guarantees keep the invariant, and the invariant gives the rely. -/
theorem guarded_step (hprog : ∀ c, C c → (S.prog c).Awaits A (G c))
    (hans : ∀ o e w w' a, I w → S.handle o e w = some (w', a) → A o a)
    (hinv : ∀ c o k e w w' a, C c → G c o k → I w → S.handle o e w = some (w', a) → I w')
    (hpoke : ∀ x m w m' w', I w → S.poke x m w = some (m', w') → I w')
    (s : State M W Op Ans E χ) (a : Act χ ε η) (t : State M W Op Ans E χ)
    (ha : a.Starts C) (hs : Guarded I A C G s) (h : step S s a = some t) :
    Guarded I A C G t := by
  cases a with
  | start i c =>
    obtain ⟨_, rfl⟩ := step_start h
    exact ⟨hs.world, update_keeps hs.calls ⟨ha, (hprog c ha).settle _⟩⟩
  | resume i e =>
    obtain ⟨c, o, k, w, a, hi, hw, rfl⟩ := step_resume h
    obtain ⟨hc, hg, hk⟩ := hs.calls i c _ hi
    have hA : A o a := hans o e _ _ a hs.world hw
    exact ⟨hinv c o k e _ _ a hc hg hs.world hw,
      update_keeps hs.calls ⟨hc, (hk a hA).settle _⟩⟩
  | poke x =>
    obtain ⟨m, w, hw, rfl⟩ := step_poke h
    exact ⟨hpoke x _ _ _ _ hs.world hw, hs.calls⟩

/-! ## How calls end -/

/-- Every way through the program, while the answers keep the rely, ends with `Q`. -/
def Prog.Ends (A : (o : Op) → Ans o → Prop) (Q : Except E ρ → Prop) : Prog M Op Ans E ρ → Prop
  | ret r => Q (.ok r)
  | raise e => Q (.error e)
  | read k => ∀ m, (k m).Ends A Q
  | write _ k => k.Ends A Q
  | await o k => ∀ a, A o a → (k a).Ends A Q

def Parked.Ends (A : (o : Op) → Ans o → Prop) (Q : Except E ρ → Prop) : Parked M Op Ans E ρ → Prop
  | ended r => Q r
  | waiting o k => ∀ a, A o a → (k a).Ends A Q

theorem Prog.Ends.settle {Q : Except E ρ → Prop} {p : Prog M Op Ans E ρ} (h : p.Ends A Q) (m : M) :
    (p.settle m).2.Ends A Q :=
  settle_carries (P := (·.Ends A Q)) (Q := (·.Ends A Q)) (fun _ h => h) (fun _ h => h)
    (fun _ m h => h m) (fun _ _ h => h) (fun _ _ h => h) h m

theorem Prog.Ends.mono {Q Q' : Except E ρ → Prop} {p : Prog M Op Ans E ρ} (h : p.Ends A Q)
    (hQ : ∀ r, Q r → Q' r) : p.Ends A Q' := by
  induction p with
  | ret r => exact hQ _ h
  | raise e => exact hQ _ h
  | read k ih => exact fun m => ih m (h m)
  | write m k ih => exact ih h
  | await o k ih => exact fun a ha => ih a (h a ha)

theorem ends_of_forall {Q : Except E ρ → Prop} (h : ∀ r, Q r) (p : Prog M Op Ans E ρ) :
    p.Ends A Q := by
  induction p with
  | ret r => exact h _
  | raise e => exact h _
  | read k ih => exact ih
  | write m k ih => exact ih
  | await o k ih => exact fun a _ => ih a

/-- Programs that only end with `Q` make a run in which every call only ends with `Q`. -/
theorem ends_step {Q : χ → Except E Unit → Prop} (hprog : ∀ c, C c → (S.prog c).Ends A (Q c))
    (hans : ∀ o e w w' a, I w → S.handle o e w = some (w', a) → A o a)
    {a : Act χ ε η} (ha : a.Starts C) (hs : I s.world)
    (hq : ∀ i c p, s.calls i = some (c, p) → p.Ends A (Q c)) (h : step S s a = some t) :
    ∀ i c p, t.calls i = some (c, p) → p.Ends A (Q c) := by
  cases a with
  | start i c =>
    obtain ⟨_, rfl⟩ := step_start h
    exact update_keeps hq ((hprog c ha).settle _)
  | resume i e =>
    obtain ⟨c, o, k, w, a, hi, hw, rfl⟩ := step_resume h
    exact update_keeps hq ((hq i c _ hi a (hans o e _ _ a hs hw)).settle _)
  | poke x =>
    obtain ⟨m, w, _, rfl⟩ := step_poke h
    exact hq

/-! ## Phases -/

/-- The phases of a program. `awaits` says what it may await in a phase, `answers` what the
answers satisfy there, `next` which phase an answer leads to, and `ends` in which phases the
program may end. -/
structure Phases (Op : Type) (Ans : Op → Type) (γ : Type) where
  awaits : γ → Op → Prop
  answers : γ → (o : Op) → Ans o → Prop
  next : γ → (o : Op) → Ans o → γ
  ends : γ → Prop

variable {γ : Type}

/-- From the phase `g` on, the program goes through the phases. -/
def Prog.Follows (P : Phases Op Ans γ) : Prog M Op Ans E ρ → γ → Prop
  | ret _, g => P.ends g
  | raise _, g => P.ends g
  | read k, g => ∀ m, (k m).Follows P g
  | write _ k, g => k.Follows P g
  | await o k, g => P.awaits g o ∧ ∀ a, P.answers g o a → (k a).Follows P (P.next g o a)

def Parked.Follows (P : Phases Op Ans γ) : Parked M Op Ans E ρ → γ → Prop
  | ended _, g => P.ends g
  | waiting o k, g => P.awaits g o ∧ ∀ a, P.answers g o a → (k a).Follows P (P.next g o a)

theorem Prog.Follows.settle {P : Phases Op Ans γ} {p : Prog M Op Ans E ρ} {g : γ}
    (h : p.Follows P g) (m : M) : (p.settle m).2.Follows P g :=
  settle_carries (P := (·.Follows P g)) (Q := (·.Follows P g)) (fun _ h => h) (fun _ h => h)
    (fun _ m h => h m) (fun _ _ h => h) (fun _ _ h => h) h m

/-- An answer takes the call to the next phase, and the world with it. -/
theorem follows_resume {P : Phases Op Ans γ} {Fits : γ → W → Prop}
    (hfits : ∀ g o e w w' a, P.awaits g o → Fits g w → S.handle o e w = some (w', a) →
      P.answers g o a ∧ Fits (P.next g o a) w')
    {i : ℕ} {e : ε} {c : χ} {p : Parked M Op Ans E Unit} {g : γ} (hi : s.calls i = some (c, p))
    (hp : p.Follows P g) (hw : Fits g s.world) (h : step S s (.resume i e) = some t) :
    ∃ o k a, p = .waiting o k ∧ P.awaits g o ∧ S.handle o e s.world = some (t.world, a) ∧
      ∃ q, t.calls i = some (c, q) ∧ q.Follows P (P.next g o a) ∧
        Fits (P.next g o a) t.world := by
  obtain ⟨d, o, k, w, a, hd, hhandle, rfl⟩ := step_resume h
  obtain ⟨rfl, rfl⟩ : c = d ∧ p = .waiting o k := by
    rw [hi] at hd
    cases hd
    exact ⟨rfl, rfl⟩
  obtain ⟨ho, hk⟩ := hp
  obtain ⟨hans, hnext⟩ := hfits g o e _ _ a ho hw hhandle
  exact ⟨o, k, a, rfl, ho, hhandle, _, Function.update_self _ _ _, (hk a hans).settle _, hnext⟩

/-! ## Calls that can only raise -/

/-- Every way through the program ends with the exception `x`. -/
def Prog.Raises (x : E) : Prog M Op Ans E ρ → Prop
  | ret _ => False
  | raise e => e = x
  | read k => ∀ m, (k m).Raises x
  | write _ k => k.Raises x
  | await _ k => ∀ a, (k a).Raises x

def Parked.Raises (x : E) : Parked M Op Ans E ρ → Prop
  | ended r => r = .error x
  | waiting _ k => ∀ a, (k a).Raises x

theorem Prog.Raises.settle {x : E} {p : Prog M Op Ans E ρ} (h : p.Raises x) (m : M) :
    (p.settle m).2.Raises x :=
  settle_carries (P := (·.Raises x)) (Q := (·.Raises x)) (fun _ h => h.elim)
    (fun _ h => congrArg Except.error h) (fun _ m h => h m) (fun _ _ h => h) (fun _ _ h => h) h m

/-- Every call that got an answer of `Q` has raised its exception, or will. -/
def Doomed (Q : χ → (o : Op) → Ans o → Prop) (x : χ → E) (s : State M W Op Ans E χ) : Prop :=
  ∀ ev ∈ s.trace, Q ev.call ev.op ev.ans →
    ∃ p, s.calls ev.id = some (ev.call, p) ∧ p.Raises (x ev.call)

theorem doomed_step {Q : χ → (o : Op) → Ans o → Prop} {x : χ → E}
    (hans : ∀ o e w w' a, I w → S.handle o e w = some (w', a) → A o a)
    (hQ : ∀ c o k a, C c → G c o k → A o a → Q c o a → (k a).Raises (x c))
    {a : Act χ ε η} (hs : Guarded I A C G s) (hd : Doomed Q x s) (h : step S s a = some t) :
    Doomed Q x t := by
  cases a with
  | start i c =>
    obtain ⟨hi, rfl⟩ := step_start h
    intro ev hev hq
    obtain ⟨p, hp, hr⟩ := hd ev hev hq
    have hne : ev.id ≠ i := fun he => by rw [he, hi] at hp; cases hp
    exact ⟨p, by rw [← hp]; exact Function.update_of_ne hne _ _, hr⟩
  | resume i e =>
    obtain ⟨c, o, k, w, a, hi, hw, rfl⟩ := step_resume h
    obtain ⟨hc, hg, _⟩ := hs.calls i c _ hi
    have hA : A o a := hans o e _ _ a hs.world hw
    intro ev hev hq
    rcases List.mem_append.mp hev with hold | hnew
    · obtain ⟨p, hp, hr⟩ := hd ev hold hq
      by_cases he : ev.id = i
      · rw [he, hi] at hp
        cases hp
        refine ⟨_, by rw [he]; exact Function.update_self _ _ _, (hr a).settle _⟩
      · exact ⟨p, by rw [← hp]; exact Function.update_of_ne he _ _, hr⟩
    · rw [List.mem_singleton] at hnew
      subst hnew
      exact ⟨_, Function.update_self _ _ _, (hQ c o k a hc hg hA hq).settle _⟩
  | poke y =>
    obtain ⟨m, w, _, rfl⟩ := step_poke h
    exact hd

end async
