-- Several inputs that deliver values in any order, and the combination of their latest
-- values. A combination is there as soon as every input has delivered once.
import Mathlib.Data.List.Basic
import Mathlib.Data.List.Range

namespace streams

variable {α β : Type}

/-! ## The latest value of an input -/

/-- The last value that input `i` has delivered. -/
def latestOf (evs : List (ℕ × α)) (i : ℕ) : Option α :=
  ((evs.filter fun ev => decide (ev.1 = i)).getLast?).map Prod.snd

theorem latestOf_snoc (evs : List (ℕ × α)) (ev : ℕ × α) (i : ℕ) :
    latestOf (evs ++ [ev]) i = if ev.1 = i then some ev.2 else latestOf evs i := by
  unfold latestOf
  rw [List.filter_append]
  by_cases hi : ev.1 = i
  · simp [hi]
  · simp [hi]

/-- An input that has not delivered had not delivered before. -/
theorem latestOf_none_of_snoc {evs : List (ℕ × α)} {ev : ℕ × α} {i : ℕ}
    (h : latestOf (evs ++ [ev]) i = none) : latestOf evs i = none := by
  rw [latestOf_snoc] at h
  split at h
  · cases h
  · exact h

theorem latestOf_mem {evs : List (ℕ × α)} {i : ℕ} {x : α} (h : latestOf evs i = some x) :
    (i, x) ∈ evs := by
  obtain ⟨ev, hev, rfl⟩ := Option.map_eq_some_iff.mp h
  obtain ⟨hmem, hi⟩ := List.mem_filter.mp (List.mem_of_getLast? hev)
  rw [decide_eq_true_eq] at hi
  rw [← hi]
  exact hmem

theorem latestOf_map (f : α → β) (evs : List (ℕ × α)) (i : ℕ) :
    latestOf (evs.map fun ev => (ev.1, f ev.2)) i = (latestOf evs i).map f := by
  induction evs using List.reverseRecOn with
  | nil => rfl
  | append_singleton evs ev ih =>
    rw [List.map_append, List.map_singleton, latestOf_snoc, latestOf_snoc, ih]
    split <;> rfl

/-- The latest values of the first `n` inputs. -/
def latestTable (n : ℕ) (evs : List (ℕ × α)) : List (Option α) :=
  (List.range n).map (latestOf evs)

theorem latestTable_nil (n : ℕ) :
    latestTable n ([] : List (ℕ × α)) = List.replicate n none := by
  unfold latestTable
  apply List.eq_replicate_iff.mpr
  simp [latestOf]

/-- A delivery replaces the entry of its input. -/
theorem latestTable_snoc (n : ℕ) (evs : List (ℕ × α)) (ev : ℕ × α) :
    latestTable n (evs ++ [ev]) = (latestTable n evs).set ev.1 (some ev.2) := by
  unfold latestTable
  apply List.ext_getElem?
  intro i
  rw [List.getElem?_set, List.getElem?_map, List.getElem?_map, List.length_map]
  by_cases hi : ev.1 = i
  · subst hi
    by_cases hn : ev.1 < n
    · simp [hn, latestOf_snoc]
    · simp [hn]
  · simp only [hi, if_false]
    cases hr : (List.range n)[i]? with
    | none => rfl
    | some j =>
      have hj : j = i := by
        obtain ⟨_, he⟩ := List.getElem?_eq_some_iff.mp hr
        rw [← he, List.getElem_range]
      subst hj
      rw [Option.map_some, Option.map_some, latestOf_snoc, if_neg hi]

/-! ## All values together -/

/-- The values, when every entry has one. -/
def allSome : List (Option α) → Option (List α)
  | [] => some []
  | none :: _ => none
  | some x :: l => (allSome l).map (x :: ·)

theorem allSome_eq_some {l : List (Option α)} {xs : List α} :
    allSome l = some xs ↔ l = xs.map some := by
  induction l generalizing xs with
  | nil => cases xs <;> simp [allSome]
  | cons x l ih =>
    cases x with
    | none => cases xs <;> simp [allSome]
    | some x =>
      cases xs with
      | nil => simp [allSome]
      | cons y ys => simp [allSome, ih, and_comm]

/-- Once every input has delivered, the combination holds the latest value of each. -/
theorem allSome_latestTable {n : ℕ} (evs : List (ℕ × α)) (x : α)
    (h : ∀ i < n, (latestOf evs i).isSome) :
    allSome (latestTable n evs) = some ((List.range n).map fun i => (latestOf evs i).getD x) := by
  rw [allSome_eq_some]
  unfold latestTable
  rw [List.map_map]
  apply List.map_congr_left
  intro i hi
  obtain ⟨y, hy⟩ := Option.isSome_iff_exists.mp (h i (List.mem_range.mp hi))
  simp [hy]

/-- While an input has not delivered, there is no combination. -/
theorem allSome_latestTable_none {n : ℕ} (evs : List (ℕ × α))
    (h : ∃ i < n, latestOf evs i = none) : allSome (latestTable n evs) = none := by
  obtain ⟨i, hi, hnone⟩ := h
  rw [Option.eq_none_iff_forall_ne_some]
  intro xs hxs
  have hmem : none ∈ latestTable n evs :=
    List.mem_map.mpr ⟨i, List.mem_range.mpr hi, hnone⟩
  rw [allSome_eq_some.mp hxs] at hmem
  simp at hmem

end streams
