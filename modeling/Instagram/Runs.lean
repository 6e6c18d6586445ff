-- Runs of a system that takes one step at a time. A step can be disabled, so
-- a step function gives an option. The rules below lift what one step does to
-- every run, of any length.
import Mathlib.Data.List.Induction
import Mathlib.Data.List.Infix
import Mathlib.Order.Monotone.Basic

namespace runs

variable {σ α : Type*}

/-! ## Runs -/

/-- The state after the steps of a list, or none when a step is disabled. -/
def run (step : σ → α → Option σ) (s : σ) (as : List α) : Option σ := as.foldlM step s

variable {step : σ → α → Option σ}

@[simp] theorem run_nil (s : σ) : run step s [] = some s := rfl

theorem run_cons (s : σ) (a : α) (as : List α) :
    run step s (a :: as) = (step s a).bind (run step · as) := rfl

theorem run_append (s : σ) (as bs : List α) :
    run step s (as ++ bs) = (run step s as).bind (run step · bs) := by
  simp [run, List.foldlM_append]

theorem run_snoc (s : σ) (as : List α) (a : α) :
    run step s (as ++ [a]) = (run step s as).bind (step · a) := by
  rw [run_append]
  cases run step s as <;> simp [run]

/-- The last step of a run starts where the steps before it end. -/
theorem run_snoc_some {s t : σ} {as : List α} {a : α} (h : run step s (as ++ [a]) = some t) :
    ∃ u, run step s as = some u ∧ step u a = some t := by
  rw [run_snoc] at h
  exact Option.bind_eq_some_iff.mp h

/-! ## What every run keeps -/

/-- A run keeps what each of its steps keeps. `A` says which steps the run may take. -/
theorem run_keeps {I : σ → Prop} {A : α → Prop}
    (hstep : ∀ s a t, A a → I s → step s a = some t → I t)
    {s t : σ} {as : List α} (ha : ∀ a ∈ as, A a) (h0 : I s) (h : run step s as = some t) : I t := by
  induction as using List.reverseRecOn generalizing t with
  | nil => simp at h; exact h ▸ h0
  | append_singleton as a ih =>
    obtain ⟨u, hu, hlast⟩ := run_snoc_some h
    have hI := ih (fun b hb => ha b (by simp [hb])) hu
    exact hstep u a t (ha a (by simp)) hI hlast

/-- `P` holds in every state that the run passes, the first and the last one too. -/
def AllStates (step : σ → α → Option σ) (P : σ → Prop) (s : σ) (as : List α) : Prop :=
  ∀ pre, pre <+: as → ∀ t, run step s pre = some t → P t

/-- `C` holds of every step that the run takes. -/
def AllSteps (step : σ → α → Option σ) (C : σ → α → σ → Prop) (s : σ) (as : List α) : Prop :=
  ∀ pre a, pre ++ [a] <+: as → ∀ t u, run step s pre = some t → step t a = some u → C t a u

theorem prefix_snoc {pre as : List α} {a : α} (h : pre <+: as ++ [a]) :
    pre <+: as ∨ pre = as ++ [a] := by
  rw [List.prefix_concat_iff] at h
  exact h.symm

theorem allStates_nil {P : σ → Prop} {s : σ} : AllStates step P s [] ↔ P s := by
  constructor
  · intro h
    exact h [] (List.prefix_refl _) s rfl
  · intro h pre hpre t ht
    rw [List.prefix_nil.mp hpre] at ht
    cases ht
    exact h

theorem allStates_snoc {P : σ → Prop} {s : σ} {as : List α} {a : α} :
    AllStates step P s (as ++ [a]) ↔
      AllStates step P s as ∧ ∀ t, run step s (as ++ [a]) = some t → P t := by
  constructor
  · intro h
    exact ⟨fun pre hpre => h pre (hpre.trans (List.prefix_append _ _)), h _ (List.prefix_refl _)⟩
  · rintro ⟨h, hlast⟩ pre hpre t ht
    rcases prefix_snoc hpre with hp | rfl
    · exact h pre hp t ht
    · exact hlast t ht

theorem allSteps_snoc {C : σ → α → σ → Prop} {s : σ} {as : List α} {a : α} :
    AllSteps step C s (as ++ [a]) ↔
      AllSteps step C s as ∧ ∀ t u, run step s as = some t → step t a = some u → C t a u := by
  constructor
  · intro h
    exact ⟨fun pre b hpre => h pre b (hpre.trans (List.prefix_append _ _)),
      h as a (List.prefix_refl _)⟩
  · rintro ⟨h, hlast⟩ pre b hpre t u ht hu
    rcases prefix_snoc hpre with hp | he
    · exact h pre b hp t u ht hu
    · obtain ⟨rfl, hb⟩ := List.append_inj' he rfl
      cases hb
      exact hlast t u ht hu

theorem allSteps_append {C : σ → α → σ → Prop} {s : σ} {as bs : List α} :
    AllSteps step C s (as ++ bs) ↔
      AllSteps step C s as ∧ ∀ t, run step s as = some t → AllSteps step C t bs := by
  induction bs using List.reverseRecOn with
  | nil =>
    rw [List.append_nil]
    refine ⟨fun h => ⟨h, fun t _ pre a hpre => ?_⟩, And.left⟩
    exact absurd (List.prefix_nil.mp hpre) (by simp)
  | append_singleton bs a ih =>
    rw [← List.append_assoc, allSteps_snoc, ih, and_assoc]
    refine and_congr_right fun _ => ⟨fun h t ht => ?_, fun h => ⟨fun t ht => ?_, fun t u ht => ?_⟩⟩
    · refine allSteps_snoc.mpr ⟨h.1 t ht, fun u v hu => h.2 u v ?_⟩
      rw [run_append, ht]
      exact hu
    · exact (allSteps_snoc.mp (h t ht)).1
    · rw [run_append] at ht
      obtain ⟨v, hv, hu⟩ := Option.bind_eq_some_iff.mp ht
      exact (allSteps_snoc.mp (h v hv)).2 t u hu

/-- A state that a run reaches keeps what the steps keep, along the whole run. -/
theorem allStates_of_keeps {I : σ → Prop} {A : α → Prop}
    (hstep : ∀ s a t, A a → I s → step s a = some t → I t)
    {s : σ} {as : List α} (ha : ∀ a ∈ as, A a) (h0 : I s) : AllStates step I s as :=
  fun _ hpre _ ht => run_keeps hstep (fun a h => ha a (hpre.subset h)) h0 ht

/-- A run that passes only `Q` states keeps what the steps from `Q` states keep. -/
theorem allStates_while {I Q : σ → Prop} {A : α → Prop}
    (hstep : ∀ s a t, A a → Q s → I s → step s a = some t → I t)
    {s : σ} {as : List α} (ha : ∀ a ∈ as, A a) (hQ : AllStates step Q s as) (h0 : I s) :
    AllStates step I s as := by
  induction as using List.reverseRecOn with
  | nil => exact allStates_nil.mpr h0
  | append_singleton as a ih =>
    obtain ⟨hpre, _⟩ := allStates_snoc.mp hQ
    have hall := ih (fun b hb => ha b (by simp [hb])) hpre
    refine allStates_snoc.mpr ⟨hall, fun t ht => ?_⟩
    obtain ⟨u, hu, hlast⟩ := run_snoc_some ht
    have hself := List.prefix_refl as
    exact hstep u a t (ha a (by simp)) (hpre as hself u hu) (hall as hself u hu) hlast

/-- A run whose steps all meet `C` keeps what the steps that meet `C` keep. -/
theorem allStates_of_steps {I : σ → Prop} {C : σ → α → σ → Prop}
    (hstep : ∀ s a t, C s a t → I s → step s a = some t → I t)
    {s : σ} {as : List α} (hC : AllSteps step C s as) (h0 : I s) : AllStates step I s as := by
  induction as using List.reverseRecOn with
  | nil => exact allStates_nil.mpr h0
  | append_singleton as a ih =>
    obtain ⟨hpre, hlast⟩ := allSteps_snoc.mp hC
    have hall := ih hpre
    refine allStates_snoc.mpr ⟨hall, fun u hu => ?_⟩
    obtain ⟨t, ht, hstepu⟩ := run_snoc_some hu
    exact hstep t a u (hlast t u ht hstepu) (hall as (List.prefix_refl _) t ht) hstepu

/-- On such a run, what the invariant gives of a step that meets `C` holds of every step. -/
theorem allSteps_of_steps {I : σ → Prop} {C D : σ → α → σ → Prop}
    (hstep : ∀ s a t, C s a t → I s → step s a = some t → I t)
    (hD : ∀ s a t, C s a t → I s → step s a = some t → D s a t)
    {s : σ} {as : List α} (hC : AllSteps step C s as) (h0 : I s) : AllSteps step D s as := by
  intro pre a hpre t u ht hu
  have hI := allStates_of_steps hstep hC h0 pre ((List.prefix_append _ _).trans hpre) t ht
  exact hD t a u (hC pre a hpre t u ht hu) hI hu

/-- A property of one step holds of every step of a run, when the invariant gives it. -/
theorem allSteps_of_keeps {I : σ → Prop} {A : α → Prop} {C : σ → α → σ → Prop}
    (hstep : ∀ s a t, A a → I s → step s a = some t → I t)
    (hC : ∀ s a t, A a → I s → step s a = some t → C s a t)
    {s : σ} {as : List α} (ha : ∀ a ∈ as, A a) (h0 : I s) : AllSteps step C s as := by
  intro pre a hpre t u ht hu
  have hmem : ∀ b ∈ pre ++ [a], A b := fun b hb => ha b (hpre.subset hb)
  have hI := run_keeps hstep (fun b hb => hmem b (by simp [hb])) h0 ht
  exact hC t a u (hmem a (by simp)) hI hu

/-- Two properties that agree on every step the invariant allows agree on every run. -/
theorem allSteps_congr {I : σ → Prop} {A : α → Prop} {C D : σ → α → σ → Prop}
    (hstep : ∀ s a t, A a → I s → step s a = some t → I t)
    (hCD : ∀ s a t, A a → I s → step s a = some t → (C s a t ↔ D s a t))
    {s : σ} {as : List α} (ha : ∀ a ∈ as, A a) (h0 : I s) :
    AllSteps step C s as ↔ AllSteps step D s as := by
  have hsame := allSteps_of_keeps hstep hCD ha h0
  constructor
  · intro h pre a hpre t u ht hu
    exact (hsame pre a hpre t u ht hu).mp (h pre a hpre t u ht hu)
  · intro h pre a hpre t u ht hu
    exact (hsame pre a hpre t u ht hu).mpr (h pre a hpre t u ht hu)

/-- When `C` says exactly which steps keep `P`, the runs that pass only `P` states are the
runs that take only `C` steps. -/
theorem allStates_iff_allSteps {I P : σ → Prop} {A : α → Prop} {C : σ → α → σ → Prop}
    (hstep : ∀ s a t, A a → I s → step s a = some t → I t)
    (hexact : ∀ s a t, A a → I s → P s → step s a = some t → (P t ↔ C s a t))
    {s : σ} {as : List α} (ha : ∀ a ∈ as, A a) (h0 : I s) (hP : P s) :
    AllStates step P s as ↔ AllSteps step C s as := by
  induction as using List.reverseRecOn with
  | nil =>
    rw [allStates_nil]
    refine ⟨fun _ pre a hpre => ?_, fun _ => hP⟩
    exact absurd (List.prefix_nil.mp hpre) (by simp)
  | append_singleton as a ih =>
    have hpre : ∀ b ∈ as, A b := fun b hb => ha b (by simp [hb])
    rw [allStates_snoc, allSteps_snoc, ← ih hpre]
    refine and_congr_right fun hall => ?_
    have key : ∀ t u, run step s as = some t → step t a = some u → (P u ↔ C t a u) := by
      intro t u ht hu
      have hI := run_keeps hstep hpre h0 ht
      exact hexact t a u (ha a (by simp)) hI (hall as (List.prefix_refl _) t ht) hu
    constructor
    · intro h t u ht hu
      exact (key t u ht hu).mp (h u (by rw [run_snoc, ht]; exact hu))
    · intro h u hu
      obtain ⟨t, ht, hlast⟩ := run_snoc_some hu
      exact (key t u ht hlast).mpr (h t u ht hlast)

/-- Steps that change nothing can be left out of a run. -/
theorem run_filter {I : σ → Prop} {A : α → Prop} {p : α → Bool}
    (hstep : ∀ s a t, A a → I s → step s a = some t → I t)
    (hskip : ∀ s a, A a → I s → p a = false → step s a = some s)
    {s : σ} {as : List α} (ha : ∀ a ∈ as, A a) (h0 : I s) :
    run step s (as.filter p) = run step s as := by
  induction as generalizing s with
  | nil => rfl
  | cons a as ih =>
    have hrest : ∀ b ∈ as, A b := fun b hb => ha b (List.mem_cons_of_mem _ hb)
    have hhead : A a := ha a List.mem_cons_self
    by_cases hp : p a = true
    · rw [List.filter_cons_of_pos hp, run_cons, run_cons]
      cases hs : step s a with
      | none => rfl
      | some t => exact ih hrest (hstep s a t hhead h0 hs)
    · rw [List.filter_cons_of_neg hp, run_cons, hskip s a hhead h0 (by simpa using hp)]
      exact ih hrest h0

/-! ## Reordering -/

section Reordering

variable {κ : Type*} {f : σ → α → σ} (key : α → κ)

/-- A step may come before steps of other keys. -/
theorem foldl_move_front (hcomm : ∀ s a b, key a ≠ key b → f (f s a) b = f (f s b) a)
    {pre : List α} {a : α} (hpre : ∀ b ∈ pre, key b ≠ key a) (s : σ) (post : List α) :
    (pre ++ a :: post).foldl f s = (a :: (pre ++ post)).foldl f s := by
  induction pre generalizing s with
  | nil => rfl
  | cons b pre ih =>
    have hne : key b ≠ key a := hpre b List.mem_cons_self
    rw [List.cons_append, List.foldl_cons, ih fun c hc => hpre c (List.mem_cons_of_mem _ hc),
      List.foldl_cons, hcomm s b a hne]
    rfl

/-- When steps of different keys commute, only the order of the steps of each key matters. -/
theorem foldl_reorder [DecidableEq κ]
    (hcomm : ∀ s a b, key a ≠ key b → f (f s a) b = f (f s b) a)
    {as bs : List α} (h : ∀ k, as.filter (key · = k) = bs.filter (key · = k)) (s : σ) :
    as.foldl f s = bs.foldl f s := by
  induction as generalizing bs s with
  | nil =>
    cases bs with
    | nil => rfl
    | cons b bs => simpa using h (key b)
  | cons a as ih =>
    have ha := h (key a)
    rw [List.filter_cons_of_pos (by simp)] at ha
    obtain ⟨pre, post, rfl, hpre, _, hpost⟩ := List.filter_eq_cons_iff.mp ha.symm
    have hother : ∀ b ∈ pre, key b ≠ key a := fun b hb => by simpa using hpre b hb
    rw [foldl_move_front key hcomm hother, List.foldl_cons, List.foldl_cons]
    refine ih (fun k => ?_) _
    have hk := h k
    by_cases hka : key a = k
    · subst hka
      have hnil : pre.filter (key · = key a) = [] :=
        List.filter_eq_nil_iff.mpr (by simpa using hother)
      rw [List.filter_append, hnil, List.nil_append, hpost]
    · simpa [List.filter_append, List.filter_cons, hka] using hk

end Reordering

/-! ## Observers -/

/-- What an observer that sees every step holds at the end of a run. -/
def observed {γ : Type*} (step : σ → α → Option σ) (obs : σ → α → γ → γ) : σ → γ → List α → γ
  | _, g, [] => g
  | s, g, a :: as =>
    match step s a with
    | some t => observed step obs t (obs s a g) as
    | none => g

theorem observed_snoc {γ : Type*} {obs : σ → α → γ → γ} {s t u : σ} {g : γ} {as : List α} {a : α}
    (h : run step s as = some t) (hlast : step t a = some u) :
    observed step obs s g (as ++ [a]) = obs t a (observed step obs s g as) := by
  induction as generalizing s g with
  | nil =>
    cases h
    simp [observed, hlast]
  | cons b as ih =>
    rw [run_cons] at h
    obtain ⟨v, hv, hrun⟩ := Option.bind_eq_some_iff.mp h
    simp only [List.cons_append, observed, hv]
    exact ih hrun

/-- A run keeps what each of its steps keeps of the state and the observer together. -/
theorem observed_keeps {γ : Type*} {obs : σ → α → γ → γ} {I : σ → γ → Prop} {A : α → Prop}
    (hstep : ∀ s a t g, A a → I s g → step s a = some t → I t (obs s a g))
    {s t : σ} {g : γ} {as : List α} (ha : ∀ a ∈ as, A a) (h0 : I s g)
    (h : run step s as = some t) : I t (observed step obs s g as) := by
  induction as using List.reverseRecOn generalizing t with
  | nil =>
    cases h
    exact h0
  | append_singleton as a ih =>
    obtain ⟨u, hu, hlast⟩ := run_snoc_some h
    have hI := ih (fun b hb => ha b (by simp [hb])) hu
    rw [observed_snoc hu hlast]
    exact hstep u a t _ (ha a (by simp)) hI hlast

/-- The system with an observer beside it. -/
def watch {γ : Type*} (step : σ → α → Option σ) (obs : σ → α → γ → γ) (s : σ × γ) (a : α) :
    Option (σ × γ) := (step s.1 a).map fun t => (t, obs s.1 a s.2)

theorem watch_some {γ : Type*} {obs : σ → α → γ → γ} {s t : σ × γ} {a : α}
    (h : watch step obs s a = some t) : step s.1 a = some t.1 ∧ t.2 = obs s.1 a s.2 := by
  obtain ⟨u, hu, rfl⟩ := Option.map_eq_some_iff.mp h
  exact ⟨hu, rfl⟩

theorem watch_of_step {γ : Type*} {obs : σ → α → γ → γ} {s t : σ} {a : α} (g : γ)
    (h : step s a = some t) : watch step obs (s, g) a = some (t, obs s a g) := by
  unfold watch
  rw [h]
  rfl

/-- A watched run is a run, and the observer holds what it has observed. -/
theorem run_watch {γ : Type*} {obs : σ → α → γ → γ} {s : σ} {g : γ} {as : List α} :
    run (watch step obs) (s, g) as =
      (run step s as).map fun t => (t, observed step obs s g as) := by
  induction as generalizing s g with
  | nil => rfl
  | cons a as ih =>
    rw [run_cons, run_cons]
    unfold watch observed
    cases h : step s a with
    | none => rfl
    | some t => exact ih

theorem run_of_watch {γ : Type*} {obs : σ → α → γ → γ} {s t : σ × γ} {as : List α}
    (h : run (watch step obs) s as = some t) : run step s.1 as = some t.1 := by
  rw [run_watch] at h
  obtain ⟨u, hu, rfl⟩ := Option.map_eq_some_iff.mp h
  exact hu

/-- What holds of every step holds of every watched step. -/
theorem allSteps_watch {γ : Type*} {obs : σ → α → γ → γ} {C : σ → α → σ → Prop} {s : σ} {g : γ}
    {as : List α} : AllSteps (watch step obs) (fun t a u => C t.1 a u.1) (s, g) as ↔
      AllSteps step C s as := by
  constructor
  · intro h pre a hpre t u ht hu
    exact h pre a hpre _ _ (by rw [run_watch, ht]; rfl) (watch_of_step _ hu)
  · intro h pre a hpre t u ht hu
    exact h pre a hpre t.1 u.1 (run_of_watch ht) (watch_some hu).1

theorem allStates_watch {γ : Type*} {obs : σ → α → γ → γ} {P : σ → Prop} {s : σ} {g : γ}
    {as : List α} : AllStates (watch step obs) (fun t => P t.1) (s, g) as ↔
      AllStates step P s as := by
  constructor
  · intro h pre hpre t ht
    exact h pre hpre (t, _) (by rw [run_watch, ht]; rfl)
  · intro h pre hpre t ht
    exact h pre hpre t.1 (run_of_watch ht)

/-! ## Endless runs -/

/-- A run that never ends. At every tick one step is taken, or none and nothing changes. -/
structure Endless (step : σ → α → Option σ) (s : σ) (acts : ℕ → Option α) (states : ℕ → σ) :
    Prop where
  first : states 0 = s
  next : ∀ n, (acts n = none ∧ states (n + 1) = states n) ∨
    ∃ a, acts n = some a ∧ step (states n) a = some (states (n + 1))

variable {s : σ} {acts : ℕ → Option α} {states : ℕ → σ}

theorem Endless.step_of_act (h : Endless step s acts states) {n : ℕ} {a : α}
    (ha : acts n = some a) : step (states n) a = some (states (n + 1)) := by
  rcases h.next n with ⟨hnone, _⟩ | ⟨b, hb, hstep⟩
  · rw [ha] at hnone
    cases hnone
  · rw [ha] at hb
    cases hb
    exact hstep

/-- What every step keeps is kept from any tick on. -/
theorem Endless.keeps_from {I : σ → Prop} (h : Endless step s acts states)
    (hstep : ∀ n a, acts n = some a → I (states n) → I (states (n + 1))) {n m : ℕ} (hnm : n ≤ m)
    (hn : I (states n)) : I (states m) := by
  induction m, hnm using Nat.le_induction with
  | base => exact hn
  | succ m _ ih =>
    rcases h.next m with ⟨_, hsame⟩ | ⟨a, ha, _⟩
    · rw [hsame]
      exact ih
    · exact hstep m a ha ih

/-- A count that never falls and always rises once more has no bound. -/
theorem unbounded_of_rises {count : ℕ → ℕ} {start : ℕ} (hmono : Monotone count)
    (hrises : ∀ n, start ≤ n → ∃ m, n ≤ m ∧ count m < count (m + 1)) (k : ℕ) :
    ∃ n, start ≤ n ∧ k ≤ count n := by
  induction k with
  | zero => exact ⟨start, le_rfl, Nat.zero_le _⟩
  | succ k ih =>
    obtain ⟨n, hn, hk⟩ := ih
    obtain ⟨m, hm, hrise⟩ := hrises n hn
    have hle := hmono hm
    exact ⟨m + 1, by omega, by omega⟩

/-- A finite run, at whose end nothing happens any more. -/
theorem endless_of_run {s t : σ} {as : List α} (h : run step s as = some t) :
    Endless step s (as[·]?) fun n => (run step s (as.take n)).getD s := by
  refine ⟨rfl, fun n => ?_⟩
  rcases Nat.lt_or_ge n as.length with hn | hn
  · right
    refine ⟨as[n], List.getElem?_eq_getElem hn, ?_⟩
    have hsplit : as = as.take n ++ [as[n]] ++ as.drop (n + 1) := by
      rw [← List.take_succ_eq_append_getElem hn, List.take_append_drop]
    rw [hsplit, run_append] at h
    obtain ⟨u, hu, _⟩ := Option.bind_eq_some_iff.mp h
    obtain ⟨v, hv, hlast⟩ := run_snoc_some hu
    rw [List.take_succ_eq_append_getElem hn, hu, hv]
    exact hlast
  · left
    refine ⟨List.getElem?_eq_none hn, ?_⟩
    rw [List.take_of_length_le hn, List.take_of_length_le (by omega)]

end runs
