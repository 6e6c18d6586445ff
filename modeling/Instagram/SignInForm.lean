-- The sign-in form beside the sign-up form. Who joined can sign in with the texts that he typed
-- then, but not always with the credentials that were sent.
import Mathlib.Data.List.DropRight
import Instagram.SignUpForm

namespace instagram

open docs firestore async

/-! ## The form -/

/-- The texts of the two controllers. The validators are those of the sign-up form. -/
structure SignInForm where
  email : String
  pw : String
  deriving DecidableEq, Repr

def SignInForm.validate (form : SignInForm) : Bool :=
  (emailValidator form.email).isNone && (pwValidator form.pw).isNone

/-- A tap on the button "Sign in". -/
def signInButton (form : SignInForm) : Option AppCall :=
  if form.validate then some (.logIn form.email form.pw) else none

/-- The first request of a login, made before it waits for anything. -/
def SendsSignIn (m : AppMem) (c : AppCall) (email password : String) : Prop :=
  ∃ k, (c.prog.settle m).2 = .waiting (.signInWithEmailAndPassword email password) k

theorem validate_iff {form : SignInForm} :
    form.validate ↔ emailValidator form.email = none ∧ pwValidator form.pw = none := by
  unfold SignInForm.validate
  rw [Bool.and_eq_true, Option.isNone_iff_eq_none, Option.isNone_iff_eq_none]

theorem signInButton_eq_some {form : SignInForm} {d : AppCall} :
    signInButton form = some d ↔ form.validate ∧ d = .logIn form.email form.pw := by
  unfold signInButton
  split
  · rename_i hvalid
    simp [hvalid, eq_comm]
  · rename_i hvalid
    simp [hvalid]

theorem sendsSignIn_logIn {m : AppMem} {email password e p : String} :
    SendsSignIn m (.logIn email password) e p ↔ e = trim email ∧ p = trim password := by
  constructor
  · rintro ⟨k, hk⟩
    cases hk
    exact ⟨rfl, rfl⟩
  · rintro ⟨rfl, rfl⟩
    exact ⟨_, rfl⟩

/-- Both texts of an accepted sign-up form are accepted for a sign-in. -/
theorem validate_of_submitButton {form : SignUpForm} {c : AppCall}
    (h : submitButton form = some c) : (⟨form.email, form.pw⟩ : SignInForm).validate := by
  unfold submitButton at h
  split at h
  · rename_i hvalid
    unfold SignUpForm.validate at hvalid
    exact (Bool.and_eq_true _ _ ▸ hvalid : _ ∧ _).1
  · cases h

/-! ## Trimming twice -/

theorem toList_trim_rdrop (text : String) :
    (trim text).toList = (text.toList.dropWhile isWhitespace).rdropWhile isWhitespace :=
  toList_trim text

/-- What was trimmed at both ends begins with no white space. -/
theorem dropWhile_trim (text : String) :
    (trim text).toList.dropWhile isWhitespace = (trim text).toList := by
  rw [toList_trim_rdrop, List.dropWhile_eq_self_iff]
  intro hlong
  have hfront := List.rdropWhile_prefix isWhitespace (text.toList.dropWhile isWhitespace)
  rw [hfront.getElem hlong]
  exact List.dropWhile_get_zero_not isWhitespace text.toList
    (Nat.lt_of_lt_of_le hlong hfront.length_le)

theorem trim_trim (text : String) : trim (trim text) = trim text := by
  apply String.toList_injective
  rw [toList_trim_rdrop, dropWhile_trim, toList_trim_rdrop, List.rdropWhile_idempotent]

/-! ## Signing in -/

/-- Who joined with a form signs in as follows. The same texts are accepted and send the same
credentials. Any accepted form sends them if and only if its texts differ from the first ones by
nothing but white space at the ends. The credentials themselves, typed in as they were sent, are
accepted if and only if six code units of the password remained, and then they are sent again. -/
theorem who_joined_signs_in_with_the_texts_of_then (joined : SignUpForm) (c : AppCall)
    (m m' : AppMem) (email password : String) (h : submitButton joined = some c)
    (hs : Sends m c email password) :
    (∃ d, signInButton ⟨joined.email, joined.pw⟩ = some d ∧ SendsSignIn m' d email password) ∧
    (∀ form d, signInButton form = some d → (SendsSignIn m' d email password ↔
      trim form.email = trim joined.email ∧ trim form.pw = trim joined.pw)) ∧
    ((∃ d, signInButton ⟨email, password⟩ = some d ∧ SendsSignIn m' d email password) ↔
      leading joined.pw + trailing joined.pw + 5 < length joined.pw) := by
  have hvalid := validate_of_submitButton h
  obtain ⟨hemail, rfl⟩ := submitButton_eq_some h
  obtain ⟨rfl, rfl⟩ := sends_registerUser.mp hs
  refine ⟨⟨_, signInButton_eq_some.mpr ⟨hvalid, rfl⟩, sendsSignIn_logIn.mpr ⟨rfl, rfl⟩⟩, ?_, ?_⟩
  · intro form d hd
    obtain ⟨_, rfl⟩ := signInButton_eq_some.mp hd
    rw [sendsSignIn_logIn, eq_comm, eq_comm (a := trim joined.pw)]
  · rw [← long_trim, ← pwValidator_eq_none]
    constructor
    · rintro ⟨d, hd, _⟩
      exact (validate_iff.mp (signInButton_eq_some.mp hd).1).2
    · intro hpassword
      refine ⟨_, signInButton_eq_some.mpr ⟨validate_iff.mpr ⟨emailValidator_trim hemail,
        hpassword⟩, rfl⟩, sendsSignIn_logIn.mpr ⟨?_, ?_⟩⟩
      · rw [trim_trim]
      · rw [trim_trim]

/-- With three letters and three blanks one joins, and signs in again only with blanks. -/
theorem who_joined_signs_in_with_the_texts_of_then_at_blanks :
    submitButton blankForm = some (.registerUser "ann@mail.com" "abc   ") ∧
      Sends .initial (.registerUser "ann@mail.com" "abc   ") "ann@mail.com" "abc" ∧
      ¬∃ d, signInButton ⟨"ann@mail.com", "abc"⟩ = some d ∧
        SendsSignIn .initial d "ann@mail.com" "abc" := by
  have h : submitButton blankForm = some (.registerUser "ann@mail.com" "abc   ") := by rfl
  have hs : Sends .initial (.registerUser "ann@mail.com" "abc   ") "ann@mail.com" "abc" :=
    sends_registerUser.mpr ⟨by rfl, by rfl⟩
  refine ⟨h, hs, ?_⟩
  rw [(who_joined_signs_in_with_the_texts_of_then blankForm _ .initial .initial _ _ h hs).2.2]
  decide

end instagram
