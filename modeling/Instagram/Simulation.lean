-- Two runs beside each other. A system refines a more abstract one when each of its
-- steps is a step of that one or none, and a run may be put into another order when steps
-- of different owners can be swapped.
import Instagram.Runs

namespace runs

variable {σ τ α β κ : Type*}

/-! ## Simulation -/

/-- Each step that `A` allows is a step of the abstract system that `B` allows, or none. -/
def Simulates (step : σ → α → Option σ) (abs : τ → β → Option τ) (A : α → Prop) (B : β → Prop)
    (R : σ → τ → Prop) : Prop :=
  ∀ s a t u, A a → R s u → step s a = some t →
    (∃ b v, B b ∧ abs u b = some v ∧ R t v) ∨ R t u

section Simulation

variable {step : σ → α → Option σ} {abs : τ → β → Option τ} {A : α → Prop} {B : β → Prop}
  {R : σ → τ → Prop}

/-- When each step is matched by a run of abstract steps, so is each run. -/
theorem matched_run
    (hmatch : ∀ s a t u, A a → R s u → step s a = some t →
      ∃ bs v, (∀ b ∈ bs, B b) ∧ run abs u bs = some v ∧ R t v)
    {s t : σ} {u : τ} {as : List α} (has : ∀ a ∈ as, A a) (h0 : R s u)
    (h : run step s as = some t) :
    ∃ bs v, (∀ b ∈ bs, B b) ∧ run abs u bs = some v ∧ R t v := by
  induction as using List.reverseRecOn generalizing t with
  | nil =>
    cases h
    exact ⟨[], u, by simp, rfl, h0⟩
  | append_singleton as a ih =>
    obtain ⟨s', hs', hlast⟩ := run_snoc_some h
    obtain ⟨bs, v, hbs, hv, hR⟩ := ih (fun b hb => has b (by simp [hb])) hs'
    obtain ⟨cs, v', hcs, hv', hR'⟩ := hmatch s' a t v (has a (by simp)) hR hlast
    refine ⟨bs ++ cs, v', fun b hb => ?_, by rw [run_append, hv]; exact hv', hR'⟩
    rcases List.mem_append.mp hb with hb | hb
    · exact hbs b hb
    · exact hcs b hb

/-- A run is matched by an abstract run. -/
theorem simulates_run (hsim : Simulates step abs A B R) {s t : σ} {u : τ} {as : List α}
    (has : ∀ a ∈ as, A a) (h0 : R s u) (h : run step s as = some t) :
    ∃ bs v, (∀ b ∈ bs, B b) ∧ run abs u bs = some v ∧ R t v := by
  refine matched_run (fun s a t u ha hR hstep => ?_) has h0 h
  rcases hsim s a t u ha hR hstep with ⟨b, v, hb, hv, hR'⟩ | hR'
  · exact ⟨[b], v, by simpa using hb, by rw [run_cons, hv]; rfl, hR'⟩
  · exact ⟨[], u, by simp, rfl, hR'⟩

end Simulation

/-! ## Runs in another order -/

/-- Steps of different owners can be swapped, as far as `R` sees. `J` is an invariant of the
states and `A` says which steps are taken. -/
structure Swaps (step : σ → α → Option σ) (A : α → Prop) (J : σ → Prop) (R : σ → σ → Prop)
    (owner : α → κ) : Prop where
  refl : ∀ s, R s s
  trans : ∀ s t u, R s t → R t u → R s u
  alike : ∀ s s' a t, R s s' → step s a = some t → ∃ t', step s' a = some t' ∧ R t t'
  keeps : ∀ s a t, A a → J s → step s a = some t → J t
  swap : ∀ s a b t u, A a → A b → J s → owner a ≠ owner b → step s a = some t →
    step t b = some u → ∃ t' u', step s b = some t' ∧ step t' a = some u' ∧ R u u'

section Swapping

variable {step : σ → α → Option σ} {A : α → Prop} {J : σ → Prop} {R : σ → σ → Prop}
  {owner : α → κ}

theorem Swaps.run_alike (hsw : Swaps step A J R owner) {s s' t : σ} {as : List α} (hR : R s s')
    (h : run step s as = some t) : ∃ t', run step s' as = some t' ∧ R t t' := by
  induction as generalizing s s' with
  | nil =>
    cases h
    exact ⟨s', rfl, hR⟩
  | cons a as ih =>
    rw [run_cons] at h
    obtain ⟨u, hu, hrest⟩ := Option.bind_eq_some_iff.mp h
    obtain ⟨u', hu', hR'⟩ := hsw.alike s s' a u hR hu
    obtain ⟨t', ht', hRt⟩ := ih hR' hrest
    exact ⟨t', by rw [run_cons, hu']; exact ht', hRt⟩

/-- A step may wait until steps of other owners are done. -/
theorem Swaps.run_delay (hsw : Swaps step A J R owner) {s t : σ} {a : α} {pre post : List α}
    (ha : A a) (hpre : ∀ b ∈ pre, A b) (hother : ∀ b ∈ pre, owner a ≠ owner b) (hJ : J s)
    (h : run step s (a :: (pre ++ post)) = some t) :
    ∃ t', run step s (pre ++ a :: post) = some t' ∧ R t t' := by
  induction pre generalizing s t with
  | nil => exact ⟨t, h, hsw.refl t⟩
  | cons b pre ih =>
    rw [run_cons] at h
    obtain ⟨u, hu, hrest⟩ := Option.bind_eq_some_iff.mp h
    rw [List.cons_append, run_cons] at hrest
    obtain ⟨v, hv, hrest⟩ := Option.bind_eq_some_iff.mp hrest
    have hb := hpre b List.mem_cons_self
    obtain ⟨u', v', hu', hv', hR⟩ :=
      hsw.swap s a b u v ha hb hJ (hother b List.mem_cons_self) hu hv
    obtain ⟨t₁, ht₁, hRt₁⟩ := hsw.run_alike hR hrest
    obtain ⟨t₂, ht₂, hRt₂⟩ := ih (fun c hc => hpre c (List.mem_cons_of_mem _ hc))
      (fun c hc => hother c (List.mem_cons_of_mem _ hc)) (hsw.keeps s b u' hb hJ hu')
      (by rw [run_cons, hv']; exact ht₁)
    refine ⟨t₂, ?_, hsw.trans t t₁ t₂ hRt₁ hRt₂⟩
    rw [List.cons_append, run_cons, hu']
    exact ht₂

/-- Only the order of the steps of each owner matters. -/
theorem Swaps.run_reorder [DecidableEq κ] (hsw : Swaps step A J R owner) {s t : σ}
    {as bs : List α} (has : ∀ a ∈ as, A a) (hJ : J s)
    (hsame : ∀ k, as.filter (owner · = k) = bs.filter (owner · = k))
    (h : run step s as = some t) : ∃ t', run step s bs = some t' ∧ R t t' := by
  induction as generalizing s t bs with
  | nil =>
    cases bs with
    | nil => exact ⟨t, h, hsw.refl t⟩
    | cons b bs => simpa using hsame (owner b)
  | cons a as ih =>
    have hfirst := hsame (owner a)
    rw [List.filter_cons_of_pos (by simp)] at hfirst
    obtain ⟨pre, post, rfl, hpre, _, hpost⟩ := List.filter_eq_cons_iff.mp hfirst.symm
    have hother : ∀ b ∈ pre, owner b ≠ owner a := fun b hb => by simpa using hpre b hb
    have hrest : ∀ k, as.filter (owner · = k) = (pre ++ post).filter (owner · = k) := by
      intro k
      have hk := hsame k
      by_cases hka : owner a = k
      · subst hka
        have hnil : pre.filter (owner · = owner a) = [] :=
          List.filter_eq_nil_iff.mpr (by simpa using hother)
        rw [List.filter_append, hnil, List.nil_append, hpost]
      · simpa [List.filter_append, List.filter_cons, hka] using hk
    rw [run_cons] at h
    obtain ⟨u, hu, hrun⟩ := Option.bind_eq_some_iff.mp h
    have ha := has a List.mem_cons_self
    have has' : ∀ b ∈ as, A b := fun b hb => has b (List.mem_cons_of_mem _ hb)
    obtain ⟨t₁, ht₁, hRt₁⟩ := ih has' (hsw.keeps s a u ha hJ hu) hrest hrun
    -- the steps before `a` in the new order are steps of the old one too
    have hmem : ∀ b ∈ pre, A b := by
      intro b hb
      have hin : b ∈ (pre ++ post).filter (owner · = owner b) := by simp [hb]
      rw [← hrest] at hin
      exact has' b (List.mem_of_mem_filter hin)
    obtain ⟨t₂, ht₂, hRt₂⟩ := hsw.run_delay ha hmem (fun b hb => (hother b hb).symm) hJ
      (by rw [run_cons, hu]; exact ht₁)
    exact ⟨t₂, ht₂, hsw.trans t t₁ t₂ hRt₁ hRt₂⟩

end Swapping

/-! ## One owner after another -/

/-- The steps of the first owner, then those of the second, and so on. -/
def serial [DecidableEq κ] (owner : α → κ) (order : List κ) (as : List α) : List α :=
  order.flatMap fun k => as.filter (owner · = k)

theorem filter_serial [DecidableEq κ] {owner : α → κ} {order : List κ} (hnodup : order.Nodup)
    (as : List α) (k : κ) : (serial owner order as).filter (owner · = k) =
      if k ∈ order then as.filter (owner · = k) else [] := by
  induction order with
  | nil => rfl
  | cons j order ih =>
    obtain ⟨hj, hnodup⟩ := List.nodup_cons.mp hnodup
    unfold serial at ih ⊢
    rw [List.flatMap_cons, List.filter_append, ih hnodup, List.filter_filter]
    by_cases hk : k = j
    · subst hk
      simp [hj]
    · have hnil : (as.filter fun a => decide (owner a = k) && decide (owner a = j)) = [] := by
        rw [List.filter_eq_nil_iff]
        intro a _ hand
        simp only [Bool.and_eq_true, decide_eq_true_eq] at hand
        exact hk (hand.1.symm.trans hand.2)
      rw [hnil, List.nil_append]
      simp [hk]

/-- When every owner has a place in the order, the serial run keeps each owner's steps. -/
theorem serial_keeps [DecidableEq κ] {owner : α → κ} {order : List κ} (hnodup : order.Nodup)
    {as : List α} (hall : ∀ a ∈ as, owner a ∈ order) (k : κ) :
    as.filter (owner · = k) = (serial owner order as).filter (owner · = k) := by
  rw [filter_serial hnodup]
  split
  · rfl
  · rename_i hk
    rw [List.filter_eq_nil_iff]
    intro a ha howner
    exact hk (of_decide_eq_true howner ▸ hall a ha)

end runs
