-- Rely and guarantee while something grows. A program may rely on what the answers satisfy at
-- the time when they come, and its guarantees are about that time too. What was guaranteed
-- once stays guaranteed as the knowledge grows.
import Mathlib.Order.Basic
import Instagram.Async

namespace async

variable {M W Op : Type} {Ans : Op → Type} {E χ ε η ρ ρ' γ : Type} [Preorder γ]

/-- From the knowledge `g` on, every await satisfies `J`, whatever more is known when it is
answered. An answer that comes at `g` satisfies `A g`. -/
def Prog.Knows (A : γ → (o : Op) → Ans o → Prop)
    (J : γ → (o : Op) → (Ans o → Prog M Op Ans E ρ) → Prop) : Prog M Op Ans E ρ → γ → Prop
  | ret _, _ => True
  | raise _, _ => True
  | read k, g => ∀ m, (k m).Knows A J g
  | write _ k, g => k.Knows A J g
  | await o k, g => J g o k ∧ ∀ g' a, g ≤ g' → A g' o a → (k a).Knows A J g'

def Parked.Knows (A : γ → (o : Op) → Ans o → Prop)
    (J : γ → (o : Op) → (Ans o → Prog M Op Ans E ρ) → Prop) : Parked M Op Ans E ρ → γ → Prop
  | ended _, _ => True
  | waiting o k, g => J g o k ∧ ∀ g' a, g ≤ g' → A g' o a → (k a).Knows A J g'

variable {A : γ → (o : Op) → Ans o → Prop} {J : γ → (o : Op) → (Ans o → Prog M Op Ans E ρ) → Prop}

theorem Prog.Knows.settle {p : Prog M Op Ans E ρ} {g : γ} (h : p.Knows A J g) (m : M) :
    (p.settle m).2.Knows A J g :=
  settle_carries (P := (·.Knows A J g)) (Q := (·.Knows A J g)) (fun _ h => h) (fun _ h => h)
    (fun _ m h => h m) (fun _ _ h => h) (fun _ _ h => h) h m

/-- More knowledge does no harm. -/
theorem Parked.Knows.mono {p : Parked M Op Ans E ρ} {g g' : γ} (h : p.Knows A J g) (hle : g ≤ g')
    (hJ : ∀ g g' o k, g ≤ g' → J g o k → J g' o k) : p.Knows A J g' := by
  cases p with
  | ended r => trivial
  | waiting o k => exact ⟨hJ g g' o k hle h.1, fun g'' a hle' ha => h.2 g'' a (hle.trans hle') ha⟩

/-- What holds of every await at any time holds of the awaits of a program. -/
theorem knows_of_forall (h : ∀ g o k, J g o k) (p : Prog M Op Ans E ρ) (g : γ) :
    p.Knows A J g := by
  induction p generalizing g with
  | ret r => trivial
  | raise e => trivial
  | read k ih => exact fun m => ih m g
  | write m k ih => exact ih g
  | await o k ih => exact ⟨h g o k, fun g' a _ _ => ih a g'⟩

variable {S : System M W Op Ans E χ ε η} {s t : State M W Op Ans E χ} {C : χ → Prop}
  {G : χ → γ → (o : Op) → (Ans o → Prog M Op Ans E Unit) → Prop}

/-- The guarantees hold of every call, at what is known in the state. -/
def CallsKnow (A : γ → (o : Op) → Ans o → Prop)
    (G : χ → γ → (o : Op) → (Ans o → Prog M Op Ans E Unit) → Prop) (C : χ → Prop)
    (s : State M W Op Ans E χ) (g : γ) : Prop :=
  ∀ i c p, s.calls i = some (c, p) → C c ∧ p.Knows A (G c) g

/-- A step keeps the guarantees, when the answers satisfy `A` and nothing known is lost. -/
theorem callsKnow_step (hprog : ∀ c, C c → ∀ g, (S.prog c).Knows A (G c) g)
    (hG : ∀ c g g' o k, g ≤ g' → G c g o k → G c g' o k) {a : Act χ ε η} (ha : a.Starts C)
    {g g' : γ} (hle : g ≤ g')
    (hans : ∀ o e w a, S.handle o e s.world = some (w, a) → A g o a)
    (hs : CallsKnow A G C s g) (h : step S s a = some t) : CallsKnow A G C t g' := by
  have hold : ∀ i c p, s.calls i = some (c, p) → C c ∧ p.Knows A (G c) g' :=
    fun i c p hi => ⟨(hs i c p hi).1, (hs i c p hi).2.mono hle (hG c)⟩
  cases a with
  | start i c =>
    obtain ⟨_, rfl⟩ := step_start h
    exact update_keeps hold ⟨ha, (hprog c ha g').settle _⟩
  | resume i e =>
    obtain ⟨c, o, k, w, a, hi, hw, rfl⟩ := step_resume h
    obtain ⟨hc, _, hk⟩ := hs i c _ hi
    have hnext := ((hk g a le_rfl (hans o e w a hw)).settle s.mem).mono hle (hG c)
    exact update_keeps hold ⟨hc, hnext⟩
  | poke x =>
    obtain ⟨m, w, _, rfl⟩ := step_poke h
    exact hold

end async
