-- A store of documents. A document maps fields to values, and a write replaces a
-- document or updates some of its fields. The writes of one batch land together or
-- not at all.
import Mathlib.Logic.Function.Basic
import Mathlib.Data.List.Nodup

namespace docs

/-! ## Values and documents -/

inductive Value (α : Type) where
  | scalar (a : α)
  | list (xs : List α)
  deriving DecidableEq, Repr

abbrev Doc (φ α : Type) : Type := φ → Option (Value α)

abbrev Store (κ φ α : Type) : Type := κ → Option (Doc φ α)

variable {κ φ α : Type}

/-- The elements of a list field. A field that is absent or no list has none. -/
def elems : Option (Value α) → List α
  | some (.list xs) => xs
  | _ => []

@[simp] theorem elems_list (xs : List α) : elems (some (.list xs)) = xs := rfl
@[simp] theorem elems_scalar (a : α) : elems (some (.scalar a)) = [] := rfl
@[simp] theorem elems_none : elems (none : Option (Value α)) = [] := rfl

/-! ## Field operations -/

variable [DecidableEq α]

/-- Adds the elements that are absent, at the end. -/
def union (l xs : List α) : List α := xs.foldl (fun l x => if x ∈ l then l else l ++ [x]) l

/-- Removes every copy of the elements. -/
def difference (l xs : List α) : List α := l.filter (fun x => !decide (x ∈ xs))

theorem union_singleton (l : List α) (x : α) :
    union l [x] = if x ∈ l then l else l ++ [x] := rfl

theorem mem_union_singleton (l : List α) (x y : α) : y ∈ union l [x] ↔ y ∈ l ∨ y = x := by
  rw [union_singleton]
  split
  · rename_i hx
    exact ⟨Or.inl, fun h => h.elim id (fun e => e ▸ hx)⟩
  · simp

theorem mem_difference_singleton (l : List α) (x y : α) :
    y ∈ difference l [x] ↔ y ∈ l ∧ y ≠ x := by
  simp [difference]

theorem nodup_union_singleton {l : List α} (h : l.Nodup) (x : α) : (union l [x]).Nodup := by
  rw [union_singleton]
  split
  · exact h
  · rename_i hx
    exact List.nodup_append.mpr ⟨h, List.nodup_singleton x, fun a ha b hb => by
      rw [List.mem_singleton.mp hb]
      exact fun he => hx (he ▸ ha)⟩

theorem nodup_difference {l : List α} (h : l.Nodup) (xs : List α) : (difference l xs).Nodup :=
  h.filter _

/-- What an update does to one field. -/
inductive FieldOp (α : Type) where
  | put (v : Value α)
  | arrayUnion (xs : List α)
  | arrayRemove (xs : List α)
  deriving DecidableEq, Repr

def FieldOp.apply : FieldOp α → Option (Value α) → Value α
  | .put v, _ => v
  | .arrayUnion xs, old => .list (union (elems old) xs)
  | .arrayRemove xs, old => .list (difference (elems old) xs)

@[simp] theorem apply_put (v : Value α) (old : Option (Value α)) :
    (FieldOp.put v).apply old = v := rfl
@[simp] theorem apply_arrayUnion (xs : List α) (old : Option (Value α)) :
    (FieldOp.arrayUnion xs).apply old = .list (union (elems old) xs) := rfl
@[simp] theorem apply_arrayRemove (xs : List α) (old : Option (Value α)) :
    (FieldOp.arrayRemove xs).apply old = .list (difference (elems old) xs) := rfl

variable [DecidableEq φ]

/-- One field after another, each from the value that the field has by then. -/
def updated (d : Doc φ α) (fs : List (φ × FieldOp α)) : Doc φ α :=
  fs.foldl (fun d f => Function.update d f.1 (some (f.2.apply (d f.1)))) d

@[simp] theorem updated_nil (d : Doc φ α) : updated d [] = d := rfl

@[simp] theorem updated_cons (d : Doc φ α) (f : φ × FieldOp α) (fs : List (φ × FieldOp α)) :
    updated d (f :: fs) = updated (Function.update d f.1 (some (f.2.apply (d f.1)))) fs := rfl

/-- An update leaves every other field as it is. -/
theorem updated_of_notMem (d : Doc φ α) (fs : List (φ × FieldOp α)) (k : φ)
    (h : k ∉ fs.map Prod.fst) : updated d fs k = d k := by
  induction fs generalizing d with
  | nil => rfl
  | cons f fs ih =>
    simp only [List.map_cons, List.mem_cons, not_or] at h
    rw [updated_cons, ih _ h.2, Function.update_of_ne h.1]

/-! ## Writes -/

inductive Write (κ φ α : Type) where
  | set (ref : κ) (d : Doc φ α)
  | update (ref : κ) (fs : List (φ × FieldOp α))

/-- The document that a write touches. -/
def Write.ref : Write κ φ α → κ
  | .set ref _ => ref
  | .update ref _ => ref

variable [DecidableEq κ]

/-- `set` replaces the whole document. `update` fails on a document that is missing. -/
def Write.apply (s : Store κ φ α) : Write κ φ α → Option (Store κ φ α)
  | .set ref d => some (Function.update s ref (some d))
  | .update ref fs => (s ref).map fun d => Function.update s ref (some (updated d fs))

/-- A batch of writes: all of them, or none when one fails. -/
def commit (s : Store κ φ α) (ws : List (Write κ φ α)) : Option (Store κ φ α) :=
  ws.foldlM Write.apply s

@[simp] theorem commit_nil (s : Store κ φ α) : commit s [] = some s := rfl

@[simp] theorem commit_cons (s : Store κ φ α) (w : Write κ φ α) (ws : List (Write κ φ α)) :
    commit s (w :: ws) = (w.apply s).bind (commit · ws) := rfl

theorem apply_of_ne {s t : Store κ φ α} {w : Write κ φ α} {k : κ} (h : w.apply s = some t)
    (hk : k ≠ w.ref) : t k = s k := by
  cases w with
  | set ref d =>
    cases h
    exact Function.update_of_ne hk _ _
  | update ref fs =>
    obtain ⟨d, _, rfl⟩ := Option.map_eq_some_iff.mp h
    exact Function.update_of_ne hk _ _

/-- A batch keeps what each of its writes keeps. -/
theorem commit_keeps {I : Store κ φ α → Prop} {s t : Store κ φ α} {ws : List (Write κ φ α)}
    (hws : ∀ w ∈ ws, ∀ s t, I s → w.apply s = some t → I t) (h : commit s ws = some t)
    (hs : I s) : I t := by
  induction ws generalizing s with
  | nil => cases h; exact hs
  | cons w ws ih =>
    obtain ⟨u, hu, ht⟩ := Option.bind_eq_some_iff.mp (commit_cons s w ws ▸ h)
    exact ih (fun v hv => hws v (List.mem_cons_of_mem _ hv)) ht
      (hws w List.mem_cons_self s u hs hu)

/-- A batch leaves every document that it does not name as it is. -/
theorem commit_of_notMem {s t : Store κ φ α} {ws : List (Write κ φ α)} {k : κ}
    (h : commit s ws = some t) (hk : k ∉ ws.map Write.ref) : t k = s k := by
  induction ws generalizing s with
  | nil => cases h; rfl
  | cons w ws ih =>
    simp only [List.map_cons, List.mem_cons, not_or] at hk
    obtain ⟨u, hu, ht⟩ := Option.bind_eq_some_iff.mp (commit_cons s w ws ▸ h)
    rw [ih ht hk.2, apply_of_ne hu hk.1]

theorem apply_isSome {s t : Store κ φ α} {w : Write κ φ α} {k : κ} (h : w.apply s = some t)
    (hk : (s k).isSome) : (t k).isSome := by
  by_cases he : k = w.ref
  · subst he
    cases w with
    | set ref d => cases h; simp [Write.ref]
    | update ref fs =>
      obtain ⟨d, _, rfl⟩ := Option.map_eq_some_iff.mp h
      simp [Write.ref]
  · rw [apply_of_ne h he]
    exact hk

/-- No batch makes a document disappear. -/
theorem commit_isSome {s t : Store κ φ α} {ws : List (Write κ φ α)} {k : κ}
    (h : commit s ws = some t) (hk : (s k).isSome) : (t k).isSome := by
  induction ws generalizing s with
  | nil => cases h; exact hk
  | cons w ws ih =>
    obtain ⟨u, hu, ht⟩ := Option.bind_eq_some_iff.mp (commit_cons s w ws ▸ h)
    exact ih ht (apply_isSome hu hk)

/-- A document that a batch sets is there after it. -/
theorem isSome_of_set_mem {s t : Store κ φ α} {ws : List (Write κ φ α)} {k : κ} {d : Doc φ α}
    (h : commit s ws = some t) (hmem : .set k d ∈ ws) : (t k).isSome := by
  induction ws generalizing s with
  | nil => cases hmem
  | cons w ws ih =>
    obtain ⟨u, hu, ht⟩ := Option.bind_eq_some_iff.mp (commit_cons s w ws ▸ h)
    rcases List.mem_cons.mp hmem with rfl | hmem
    · refine commit_isSome ht ?_
      cases hu
      rw [Function.update_self]
      rfl
    · exact ih ht hmem

/-- A batch makes no documents but those that it sets. -/
theorem commit_none {s t : Store κ φ α} {ws : List (Write κ φ α)} {k : κ}
    (h : commit s ws = some t) (hk : s k = none) (hno : ∀ d, .set k d ∉ ws) : t k = none := by
  induction ws generalizing s with
  | nil => cases h; exact hk
  | cons w ws ih =>
    obtain ⟨u, hu, ht⟩ := Option.bind_eq_some_iff.mp (commit_cons s w ws ▸ h)
    refine ih ht ?_ fun d hd => hno d (List.mem_cons_of_mem _ hd)
    by_cases he : k = w.ref
    · subst he
      cases w with
      | set ref d => exact absurd List.mem_cons_self (hno d)
      | update ref fs =>
        obtain ⟨d, hd, _⟩ := Option.map_eq_some_iff.mp hu
        rw [Write.ref, hd] at hk
        cases hk
    · rw [apply_of_ne hu he]
      exact hk

/-! ## Frames -/

/-- A field of a document: none when the document is missing, `some none` when only the field
is. -/
def fieldAt (s : Store κ φ α) (k : κ) (f : φ) : Option (Option (Value α)) := (s k).map (· f)

/-- The write gives the field a value, or replaces the whole document. -/
def Write.Touches (k : κ) (f : φ) : Write κ φ α → Prop
  | .set ref _ => ref = k
  | .update ref fs => ref = k ∧ f ∈ fs.map Prod.fst

theorem fieldAt_of_not_touches {s t : Store κ φ α} {w : Write κ φ α} {k : κ} {f : φ}
    (h : w.apply s = some t) (hw : ¬ w.Touches k f) : fieldAt t k f = fieldAt s k f := by
  cases w with
  | set ref d =>
    cases h
    unfold fieldAt
    rw [Function.update_of_ne (Ne.symm hw)]
  | update ref fs =>
    obtain ⟨d, hd, rfl⟩ := Option.map_eq_some_iff.mp h
    unfold fieldAt
    by_cases hk : k = ref
    · subst hk
      have hf : f ∉ fs.map Prod.fst := fun hmem => hw ⟨rfl, hmem⟩
      rw [Function.update_self, hd, Option.map_some, Option.map_some, updated_of_notMem d fs f hf]
    · rw [Function.update_of_ne hk]

/-- A batch leaves every field that it does not touch as it is. -/
theorem fieldAt_commit {s t : Store κ φ α} {ws : List (Write κ φ α)} {k : κ} {f : φ}
    (h : commit s ws = some t) (hws : ∀ w ∈ ws, ¬ w.Touches k f) :
    fieldAt t k f = fieldAt s k f := by
  induction ws generalizing s with
  | nil => cases h; rfl
  | cons w ws ih =>
    obtain ⟨u, hu, ht⟩ := Option.bind_eq_some_iff.mp (commit_cons s w ws ▸ h)
    rw [ih ht fun v hv => hws v (List.mem_cons_of_mem _ hv),
      fieldAt_of_not_touches hu (hws w List.mem_cons_self)]

/-! ## Stores that agree -/

theorem updated_congr {d d' : Doc φ α} {f : φ} (fs : List (φ × FieldOp α)) (h : d f = d' f) :
    updated d fs f = updated d' fs f := by
  induction fs generalizing d d' with
  | nil => exact h
  | cons g fs ih =>
    rw [updated_cons, updated_cons]
    apply ih
    by_cases hf : f = g.1
    · subst hf
      rw [Function.update_self, Function.update_self, h]
    · rw [Function.update_of_ne hf, Function.update_of_ne hf, h]

omit [DecidableEq α] [DecidableEq φ] in
/-- A document that looks the same in one field is there, or missing, just the same. -/
theorem isSome_of_field {d d' : Option (Doc φ α)} {f : φ} (h : d.map (· f) = d'.map (· f)) :
    d.isSome = d'.isSome := by
  have hmap := congrArg Option.isSome h
  rwa [Option.isSome_map, Option.isSome_map] at hmap

omit [DecidableEq α] [DecidableEq φ] [DecidableEq κ] in
/-- Whatever is made of one field is the same where the field is. -/
theorem bind_of_fieldAt {β : Type} (g : Option (Value α) → Option β) {s s' : Store κ φ α} {k : κ}
    {f : φ} (h : fieldAt s' k f = fieldAt s k f) :
    ((s' k).bind fun d => g (d f)) = (s k).bind fun d => g (d f) := by
  have hfield : ∀ d : Option (Doc φ α), (d.bind fun d => g (d f)) = (d.map (· f)).bind g :=
    fun d => by cases d <;> rfl
  rw [hfield, hfield]
  exact congrArg (Option.bind · g) h

/-- What a write leaves in a field depends on nothing but that field. -/
theorem fieldAt_apply_congr {s s' t t' : Store κ φ α} {w : Write κ φ α} {k : κ} {f : φ}
    (h : fieldAt s k f = fieldAt s' k f) (ht : w.apply s = some t) (ht' : w.apply s' = some t') :
    fieldAt t k f = fieldAt t' k f := by
  by_cases hk : k = w.ref
  · subst hk
    cases w with
    | set ref d =>
      cases ht
      cases ht'
      simp [fieldAt, Write.ref]
    | update ref fs =>
      obtain ⟨d, hd, rfl⟩ := Option.map_eq_some_iff.mp ht
      obtain ⟨d', hd', rfl⟩ := Option.map_eq_some_iff.mp ht'
      have hdf : d f = d' f := by simpa [fieldAt, Write.ref, hd, hd'] using h
      simp [fieldAt, Write.ref, updated_congr fs hdf]
  · unfold fieldAt at h ⊢
    rw [apply_of_ne ht hk, apply_of_ne ht' hk, h]

/-- Both stores hold the same in every field of `X`. -/
def AgreeOn (X : κ → φ → Prop) (s s' : Store κ φ α) : Prop :=
  ∀ k f, X k f → fieldAt s k f = fieldAt s' k f

omit [DecidableEq α] [DecidableEq φ] [DecidableEq κ] in
theorem AgreeOn.symm {X : κ → φ → Prop} {s s' : Store κ φ α} (h : AgreeOn X s s') :
    AgreeOn X s' s :=
  fun k f hX => (h k f hX).symm

/-- A batch on documents of `X` lands in both stores, and they agree afterwards. -/
theorem agreeOn_commit {X : κ → φ → Prop} {s s' t : Store κ φ α} {ws : List (Write κ φ α)}
    (hX : ∀ w ∈ ws, ∃ f, X w.ref f) (h : AgreeOn X s s') (ht : commit s ws = some t) :
    ∃ t', commit s' ws = some t' ∧ AgreeOn X t t' := by
  induction ws generalizing s s' with
  | nil =>
    cases ht
    exact ⟨s', rfl, h⟩
  | cons w ws ih =>
    obtain ⟨u, hu, hrest⟩ := Option.bind_eq_some_iff.mp (commit_cons s w ws ▸ ht)
    obtain ⟨f, hf⟩ := hX w List.mem_cons_self
    have hsome : (w.apply s').isSome := by
      cases w with
      | set ref d => rfl
      | update ref fs =>
        obtain ⟨d, hd, _⟩ := Option.map_eq_some_iff.mp hu
        have hdoc := isSome_of_field (h ref f hf)
        rw [hd] at hdoc
        simpa [Write.apply] using hdoc.symm
    obtain ⟨u', hu'⟩ := Option.isSome_iff_exists.mp hsome
    have hagree : AgreeOn X u u' := fun k g hg => fieldAt_apply_congr (h k g hg) hu hu'
    obtain ⟨t', ht', hagree'⟩ := ih (fun v hv => hX v (List.mem_cons_of_mem _ hv)) hagree hrest
    exact ⟨t', by rw [commit_cons, hu']; exact ht', hagree'⟩

/-! ## Batches of one update -/

theorem commit_update {s : Store κ φ α} {ref : κ} {d : Doc φ α} (fs : List (φ × FieldOp α))
    (h : s ref = some d) :
    commit s [.update ref fs] = some (Function.update s ref (some (updated d fs))) := by
  simp [Write.apply, h]

/-- A batch of one `update` lands when the document is there. -/
theorem commit_update_some {s t : Store κ φ α} {ref : κ} {fs : List (φ × FieldOp α)}
    (h : commit s [.update ref fs] = some t) :
    ∃ d, s ref = some d ∧ t = Function.update s ref (some (updated d fs)) := by
  simp only [commit_cons, commit_nil, Write.apply, Option.bind_eq_some_iff,
    Option.map_eq_some_iff] at h
  obtain ⟨u, ⟨d, hd, rfl⟩, ht⟩ := h
  cases ht
  exact ⟨d, hd, rfl⟩

end docs
