-- The sign-up form: its validators see the typed texts, and the registration trims them.
-- What trimming takes from a password is the white space at its ends.
import Instagram.App
import Mathlib.Data.List.TakeWhile

namespace instagram

open docs firestore async

/-! ## The form -/

/-- A code point outside the basic plane takes two UTF-16 code units. -/
def codeUnits (c : Char) : ℕ := if c.toNat < 0x10000 then 1 else 2

def units : List Char → ℕ
  | [] => 0
  | c :: cs => codeUnits c + units cs

/-- `String.length`. -/
def length (text : String) : ℕ := units text.toList

/-- A validator gives null, or the message that the field shows. -/
def emailValidator (text : String) : Option String :=
  if text ≠ "" ∧ '@' ∈ text.toList then none else some "정확한 이메일 주소를 입력해 주세요"

def pwValidator (text : String) : Option String :=
  if text ≠ "" ∧ length text > 5 then none else some "제대로된 비밀번호를 입력해 주세요"

def cpwValidator (pw text : String) : Option String :=
  if text ≠ "" ∧ pw = text then none else some "입력한 값이 비밀번호와 일치하지 않습니다."

/-- The texts of the three controllers. -/
structure SignUpForm where
  email : String
  pw : String
  cpw : String
  deriving DecidableEq, Repr

/-- `_formKey.currentState.validate()`. -/
def SignUpForm.validate (form : SignUpForm) : Bool :=
  (emailValidator form.email).isNone && (pwValidator form.pw).isNone &&
    (cpwValidator form.pw form.cpw).isNone

/-- A tap on the button. -/
def submitButton (form : SignUpForm) : Option AppCall :=
  if form.validate then some (.registerUser form.email form.pw) else none

/-- The first request of a call, made before the call waits for anything. -/
def Sends (m : AppMem) (c : AppCall) (email password : String) : Prop :=
  ∃ k, (c.prog.settle m).2 = .waiting (.createUserWithEmailAndPassword email password) k

theorem emailValidator_eq_none {text : String} :
    emailValidator text = none ↔ text ≠ "" ∧ '@' ∈ text.toList := by
  unfold emailValidator
  split <;> simp_all

theorem pwValidator_eq_none {text : String} : pwValidator text = none ↔ 5 < length text := by
  have hempty : length "" = 0 := rfl
  unfold pwValidator
  split
  · rename_i h
    simp [h.2]
  · rename_i h
    have hshort : ¬5 < length text := by
      intro hlong
      refine h ⟨?_, hlong⟩
      rintro rfl
      omega
    simp [hshort]

theorem submitButton_eq_some {form : SignUpForm} {c : AppCall} (h : submitButton form = some c) :
    emailValidator form.email = none ∧ c = .registerUser form.email form.pw := by
  unfold submitButton at h
  split at h
  · rename_i hvalid
    simp only [SignUpForm.validate, Bool.and_eq_true, Option.isNone_iff_eq_none] at hvalid
    cases h
    exact ⟨hvalid.1.1, rfl⟩
  · cases h

/-- A registration sends the trimmed texts, and nothing else. -/
theorem sends_registerUser {m : AppMem} {email password e p : String} :
    Sends m (.registerUser email password) e p ↔ e = trim email ∧ p = trim password := by
  constructor
  · rintro ⟨k, hk⟩
    cases hk
    exact ⟨rfl, rfl⟩
  · rintro ⟨rfl, rfl⟩
    exact ⟨_, rfl⟩

/-! ## Trimming -/

/-- The white space at the start. -/
def leading (text : String) : ℕ := (text.toList.takeWhile isWhitespace).length

/-- The white space at the end. -/
def trailing (text : String) : ℕ := (text.toList.reverse.takeWhile isWhitespace).length

theorem toList_trim (text : String) : (trim text).toList =
    ((text.toList.dropWhile isWhitespace).reverse.dropWhile isWhitespace).reverse :=
  String.toList_ofList

theorem units_append (cs ds : List Char) : units (cs ++ ds) = units cs + units ds := by
  induction cs with
  | nil => simp [units]
  | cons c cs ih =>
    simp only [List.cons_append, units, ih]
    omega

theorem units_reverse (cs : List Char) : units cs.reverse = units cs := by
  induction cs with
  | nil => rfl
  | cons c cs ih =>
    rw [List.reverse_cons, units_append, ih]
    simp only [units]
    omega

/-- All white space lies in the basic plane. -/
theorem codeUnits_of_isWhitespace {c : Char} (h : isWhitespace c) : codeUnits c = 1 := by
  unfold isWhitespace at h
  simp only [Bool.or_eq_true, Bool.and_eq_true, decide_eq_true_eq, beq_iff_eq] at h
  unfold codeUnits
  rw [if_pos (by omega)]

theorem units_takeWhile (cs : List Char) :
    units (cs.takeWhile isWhitespace) = (cs.takeWhile isWhitespace).length := by
  induction cs with
  | nil => rfl
  | cons c cs ih =>
    rw [List.takeWhile_cons]
    split
    · rename_i hc
      simp only [units, List.length_cons, codeUnits_of_isWhitespace hc, ih]
      omega
    · rfl

theorem units_split (cs : List Char) :
    units cs = (cs.takeWhile isWhitespace).length + units (cs.dropWhile isWhitespace) := by
  rw [← units_takeWhile, ← units_append, List.takeWhile_append_dropWhile]

/-- What keeps a character ends in the same white space as before. -/
theorem takeWhile_reverse_dropWhile {α : Type} {p : α → Bool} {l : List α}
    (h : ∃ x ∈ l, p x = false) :
    (l.dropWhile p).reverse.takeWhile p = l.reverse.takeWhile p := by
  conv_rhs => rw [← List.takeWhile_append_dropWhile (p := p) (l := l), List.reverse_append]
  rw [List.takeWhile_append, if_neg]
  intro hall
  have hself : (l.dropWhile p).reverse.takeWhile p = (l.dropWhile p).reverse :=
    (List.takeWhile_prefix p).eq_of_length hall
  rw [List.takeWhile_eq_self_iff] at hself
  obtain ⟨x, hx, hpx⟩ := h
  rw [← List.takeWhile_append_dropWhile (p := p) (l := l)] at hx
  rcases List.mem_append.mp hx with hfront | hrest
  · simp [List.mem_takeWhile_imp hfront] at hpx
  · simp [hself x (List.mem_reverse.mpr hrest)] at hpx

/-- A text with a character that is no white space loses exactly the ends. -/
theorem length_trim {text : String} (h : ∃ c ∈ text.toList, isWhitespace c = false) :
    length text = leading text + length (trim text) + trailing text := by
  unfold length leading trailing
  rw [toList_trim, units_reverse, ← takeWhile_reverse_dropWhile h]
  have hfront := units_split text.toList
  have hback := units_split (text.toList.dropWhile isWhitespace).reverse
  rw [units_reverse] at hback
  omega

/-- A blank text is white space from either end, and nothing of it remains. -/
theorem trim_blank {text : String} (h : ∀ c ∈ text.toList, isWhitespace c) :
    length (trim text) = 0 ∧ leading text = length text ∧ trailing text = length text := by
  have hfront := List.takeWhile_eq_self_iff.mpr h
  have hback : text.toList.reverse.takeWhile isWhitespace = text.toList.reverse :=
    List.takeWhile_eq_self_iff.mpr fun c hc => h c (List.mem_reverse.mp hc)
  have hunits := units_takeWhile text.toList
  rw [hfront] at hunits
  refine ⟨?_, ?_, ?_⟩
  · unfold length
    rw [toList_trim, List.dropWhile_eq_nil_iff.mpr h]
    rfl
  · unfold leading length
    rw [hfront, hunits]
  · unfold trailing length
    rw [hback, List.length_reverse, hunits]

theorem long_trim (text : String) :
    5 < length (trim text) ↔ leading text + trailing text + 5 < length text := by
  by_cases h : ∀ c ∈ text.toList, isWhitespace c
  · obtain ⟨htrim, hleading, htrailing⟩ := trim_blank h
    omega
  · have hkeeps : ∃ c ∈ text.toList, isWhitespace c = false := by simpa using h
    have hlength := length_trim hkeeps
    omega

theorem mem_trim {text : String} {c : Char} (hc : c ∈ text.toList) (h : isWhitespace c = false) :
    c ∈ (trim text).toList := by
  have hkept : ∀ {cs : List Char}, c ∈ cs → c ∈ cs.dropWhile isWhitespace := by
    intro cs hcs
    rw [← List.takeWhile_append_dropWhile (p := isWhitespace) (l := cs)] at hcs
    rcases List.mem_append.mp hcs with hfront | hrest
    · simp [List.mem_takeWhile_imp hfront] at h
    · exact hrest
  rw [toList_trim, List.mem_reverse]
  exact hkept (List.mem_reverse.mpr (hkept hc))

theorem emailValidator_trim {text : String} (h : emailValidator text = none) :
    emailValidator (trim text) = none := by
  rw [emailValidator_eq_none] at h ⊢
  have hat : '@' ∈ (trim text).toList := mem_trim h.2 (by decide)
  refine ⟨?_, hat⟩
  intro hempty
  simp [hempty] at hat

/-! ## What is sent -/

/-- The e-mail that is sent is as valid as the one that was typed. The password is as long as
asked when the white space at the ends of the typed one leaves six code units. -/
theorem what_is_sent_is_valid_iff_six_units_remain (form : SignUpForm) (c : AppCall) (m : AppMem)
    (h : submitButton form = some c) :
    (∃ email password, Sends m c email password ∧ emailValidator email = none ∧
        pwValidator password = none) ↔
      leading form.pw + trailing form.pw + 5 < length form.pw := by
  obtain ⟨hemail, rfl⟩ := submitButton_eq_some h
  rw [← long_trim, ← pwValidator_eq_none]
  constructor
  · rintro ⟨email, password, hsends, _, hpassword⟩
    obtain ⟨_, rfl⟩ := sends_registerUser.mp hsends
    exact hpassword
  · intro hpassword
    exact ⟨_, _, sends_registerUser.mpr ⟨rfl, rfl⟩, emailValidator_trim hemail, hpassword⟩

/-- Three letters and three blanks are accepted, and three letters are sent. -/
def blankForm : SignUpForm := ⟨"ann@mail.com", "abc   ", "abc   "⟩

theorem blanks_count_for_the_form_and_are_not_sent :
    ¬∀ (form : SignUpForm) (c : AppCall) (m : AppMem), submitButton form = some c →
      ∃ email password, Sends m c email password ∧ emailValidator email = none ∧
        pwValidator password = none := by
  intro h
  obtain ⟨_, password, hsends, _, hpassword⟩ := h blankForm _ .initial (by rfl)
  obtain ⟨_, rfl⟩ := sends_registerUser.mp hsends
  revert hpassword
  decide

/-- A password without blanks at its ends is sent as it is. -/
theorem what_is_sent_is_valid_at_a_plain_password :
    ∃ email password,
      Sends .initial (.registerUser "ann@mail.com" "secret") email password ∧
        emailValidator email = none ∧ pwValidator password = none :=
  (what_is_sent_is_valid_iff_six_units_remain ⟨"ann@mail.com", "secret", "secret"⟩ _ .initial
    (by rfl)).mpr (by decide)

end instagram
