-- The keys of new posts. A key is a time in milliseconds, an underscore and the user's key.
-- The digits hold no underscore, so the first one in a key ends the time.
import Instagram.Models

namespace instagram

open docs firestore

/-- `now` is `DateTime.now().millisecondsSinceEpoch`. -/
def getNewPostKey (now : Int) (userModel : UserModel) : String :=
  toString now ++ "_" ++ userModel.userKey

/-! ## Decimal renderings -/

theorem toList_toString_ofNat (n : ℕ) : (toString (Int.ofNat n)).toList = Nat.toDigits 10 n := by
  show (Nat.repr n).toList = _
  exact Nat.toList_repr

theorem toList_toString_negSucc (n : ℕ) :
    (toString (Int.negSucc n)).toList = '-' :: Nat.toDigits 10 (n + 1) := by
  show ("-" ++ Nat.repr (n + 1)).toList = _
  rw [String.toList_append, Nat.toList_repr]
  rfl

/-- A time is digits, and maybe a sign before them. -/
theorem notMem_time {c : Char} (hc : c.isDigit = false) (hsign : c ≠ '-') (now : Int) :
    c ∉ (toString now).toList := by
  have hdigits : ∀ n, c ∉ Nat.toDigits 10 n := fun n h => by
    have := Nat.isDigit_of_mem_toDigits (by omega) (by omega) h
    simp [hc] at this
  cases now with
  | ofNat n =>
    rw [toList_toString_ofNat]
    exact hdigits n
  | negSucc n =>
    rw [toList_toString_negSucc]
    simp [hsign, hdigits]

theorem toDigits_inj {m n : ℕ} (h : Nat.toDigits 10 m = Nat.toDigits 10 n) : m = n := by
  rw [← Nat.ofDigitChars_ten_toDigits (n := m), h, Nat.ofDigitChars_ten_toDigits]

theorem toDigits_ne_minus (n : ℕ) (l : List Char) : Nat.toDigits 10 n ≠ '-' :: l := by
  intro h
  have hminus : '-' ∈ Nat.toDigits 10 n := by simp [h]
  have hdigit := Nat.isDigit_of_mem_toDigits (by omega) (by omega) hminus
  revert hdigit
  decide

/-- A rendering tells its number, by its sign first and then by its digits. -/
theorem toString_time_inj {now now' : Int} (h : toString now = toString now') : now = now' := by
  have hlist := congrArg String.toList h
  cases now with
  | ofNat m =>
    cases now' with
    | ofNat n =>
      rw [toList_toString_ofNat, toList_toString_ofNat] at hlist
      rw [toDigits_inj hlist]
    | negSucc n =>
      rw [toList_toString_ofNat, toList_toString_negSucc] at hlist
      exact absurd hlist (toDigits_ne_minus m _)
  | negSucc m =>
    cases now' with
    | ofNat n =>
      rw [toList_toString_ofNat, toList_toString_negSucc] at hlist
      exact absurd hlist.symm (toDigits_ne_minus n _)
    | negSucc n =>
      rw [toList_toString_negSucc, toList_toString_negSucc] at hlist
      have hsucc := toDigits_inj (List.cons.inj hlist).2
      rw [Nat.succ.inj hsucc]

/-! ## Cutting a key -/

/-- Lists that are cut at the first `a` are cut alike. -/
theorem cut_inj {α : Type} [DecidableEq α] {a : α} {l l' r r' : List α} (hl : a ∉ l) (hl' : a ∉ l')
    (h : l ++ a :: r = l' ++ a :: r') : l = l' ∧ r = r' := by
  have hlen : l.length = l'.length := by
    have hidx := congrArg (List.idxOf a) h
    rw [List.idxOf_append_of_notMem hl, List.idxOf_append_of_notMem hl'] at hidx
    simpa using hidx
  obtain ⟨hleft, hright⟩ := List.append_inj h hlen
  exact ⟨hleft, (List.cons.inj hright).2⟩

theorem toList_getNewPostKey (now : Int) (userModel : UserModel) :
    (getNewPostKey now userModel).toList =
      (toString now).toList ++ '_' :: userModel.userKey.toList := by
  simp [getNewPostKey]

/-- A key tells the time and the user that it was made from. -/
theorem getNewPostKey_split {now now' : Int} {u u' : UserModel}
    (h : getNewPostKey now u = getNewPostKey now' u') :
    toString now = toString now' ∧ u.userKey = u'.userKey := by
  have hlist := congrArg String.toList h
  rw [toList_getNewPostKey, toList_getNewPostKey] at hlist
  obtain ⟨htime, huser⟩ :=
    cut_inj (notMem_time rfl (by decide) now) (notMem_time rfl (by decide) now') hlist
  exact ⟨String.toList_inj.mp htime, String.toList_inj.mp huser⟩

theorem getNewPostKey_inj {now now' : Int} {u u' : UserModel} :
    getNewPostKey now u = getNewPostKey now' u' ↔ now = now' ∧ u.userKey = u'.userKey := by
  constructor
  · intro h
    obtain ⟨htime, huser⟩ := getNewPostKey_split h
    exact ⟨toString_time_inj htime, huser⟩
  · rintro ⟨rfl, huser⟩
    unfold getNewPostKey
    rw [huser]

/-! ## Slashes in a key -/

/-- The user's key has no slash at its end and no two in a row. One at its start is harmless,
since it comes to stand behind the time. -/
def NoStraySlash (userKey : String) : Prop := "" ∉ (segments userKey).tail

instance (userKey : String) : Decidable (NoStraySlash userKey) :=
  inferInstanceAs (Decidable (_ ∉ _))

/-- The first segment of a key begins with the time, and the others are the user's. -/
theorem segments_getNewPostKey (now : Int) (userModel : UserModel) :
    segments (getNewPostKey now userModel) =
      (segments userModel.userKey).modifyHead (toString now ++ "_" ++ ·) := by
  refine segments_append ?_ _
  rw [String.toList_append, List.mem_append, not_or]
  exact ⟨notMem_time rfl (by decide) now, by decide⟩

theorem empty_notMem_segments_getNewPostKey (now : Int) {userModel : UserModel}
    (h : NoStraySlash userModel.userKey) : "" ∉ segments (getNewPostKey now userModel) := by
  unfold NoStraySlash at h
  rw [segments_getNewPostKey]
  cases hu : segments userModel.userKey with
  | nil => exact List.not_mem_nil
  | cons x l =>
    rw [hu] at h
    simpa using h

end instagram
