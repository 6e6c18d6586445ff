-- The sign-in services: Firebase Auth, its listeners, and the Facebook login. Together with
-- Firestore they are what the app awaits.
import Instagram.Repositories

namespace instagram

open docs firestore async

/-! ## Accounts -/

/-- An account, as Firebase knows it. -/
structure Account where
  uid : String
  email : Option String
  deriving DecidableEq, Repr

/-- Firebase's `User`: an object on the client that describes an account. `obj` tells the
objects apart. -/
structure User where
  uid : String
  email : Option String
  obj : ℕ
  deriving DecidableEq, Repr

/-- A client object for the account. -/
def Account.user (a : Account) (obj : ℕ) : User := ⟨a.uid, a.email, obj⟩

structure UserCredential where
  user : Option User
  deriving DecidableEq, Repr

inductive FacebookLoginStatus where
  | loggedIn
  | cancelledByUser
  | error
  deriving DecidableEq, Repr

structure FacebookLoginResult where
  status : FacebookLoginStatus
  accessToken : String
  deriving DecidableEq, Repr

/-- Dart's white space: the Unicode property, and the byte order mark. -/
def isWhitespace (c : Char) : Bool :=
  let n := c.toNat
  (0x09 ≤ n && n ≤ 0x0D) || n == 0x20 || n == 0x85 || n == 0xA0 || n == 0x1680 ||
    (0x2000 ≤ n && n ≤ 0x200A) || n == 0x2028 || n == 0x2029 || n == 0x202F || n == 0x205F ||
    n == 0x3000 || n == 0xFEFF

/-- `String.trim`. -/
def trim (s : String) : String :=
  String.ofList ((s.toList.dropWhile isWhitespace).reverse.dropWhile isWhitespace).reverse

/-! ## Operations -/

/-- What the app awaits. The service acts on a sign-in when it is asked, and `arrives` is the
later moment at which its answer reaches the method that asked. -/
inductive AppOp where
  | createUserWithEmailAndPassword (email password : String)
  | signInWithEmailAndPassword (email password : String)
  | signInWithCredential (token : String)
  | arrives (answer : Except DartError UserCredential)
  | signOut
  | facebookLogIn
  | facebookIsLoggedIn
  | facebookLogOut
  | cancelSubscription
  | store (o : Op)

abbrev AppAns : AppOp → Type
  | .createUserWithEmailAndPassword _ _ => Except DartError UserCredential
  | .signInWithEmailAndPassword _ _ => Except DartError UserCredential
  | .signInWithCredential _ => Except DartError UserCredential
  | .arrives _ => Except DartError UserCredential
  | .signOut => Except DartError Unit
  | .facebookLogIn => Except DartError FacebookLoginResult
  | .facebookIsLoggedIn => Except DartError Bool
  | .facebookLogOut => Except DartError Unit
  | .cancelSubscription => Unit
  | .store o => Ans o

/-- The services. Each listener of `authStateChanges` has the events that it did not get
yet, oldest first. -/
structure AppWorld where
  currentUser : Option Account
  listeners : List (List (Option Account))
  facebookOpen : Bool
  db : Db

/-- What is free in an answer: whether the service raises, which account signs in and as
which client object, what Facebook says, and Firestore's own choices. -/
structure AppEnv where
  error : Option DartError
  account : Account
  obj : ℕ
  facebook : FacebookLoginResult
  db : Env

/-- A change of the current user, which every listener will hear of. -/
def AppWorld.setUser (w : AppWorld) (a : Option Account) : AppWorld :=
  { w with currentUser := a, listeners := w.listeners.map (· ++ [a]) }

/-- A request that the service refuses or grants. -/
def AppEnv.answer {ρ : Type} (e : AppEnv) (w w' : AppWorld) (r : ρ) :
    AppWorld × Except DartError ρ :=
  match e.error with
  | some x => (w, .error x)
  | none => (w', .ok r)

/-- A sign-in that succeeds gives a credential with a user. -/
def AppEnv.signIn (e : AppEnv) (w : AppWorld) : AppWorld × Except DartError UserCredential :=
  e.answer w (w.setUser (some e.account)) ⟨some (e.account.user e.obj)⟩

def appHandle : (o : AppOp) → AppEnv → AppWorld → Option (AppWorld × AppAns o)
  | .createUserWithEmailAndPassword _ _, e, w => some (e.signIn w)
  | .signInWithEmailAndPassword _ _, e, w => some (e.signIn w)
  | .signInWithCredential _, e, w => some (e.signIn w)
  | .arrives answer, _, w => some (w, answer)
  | .signOut, e, w => some (e.answer w (w.setUser none) ())
  | .facebookLogIn, e, w =>
    let w' := if e.facebook.status = .loggedIn then { w with facebookOpen := true } else w
    some (e.answer w w' e.facebook)
  | .facebookIsLoggedIn, e, w => some (e.answer w w w.facebookOpen)
  | .facebookLogOut, e, w => some (e.answer w { w with facebookOpen := false } ())
  | .cancelSubscription, _, w => some (w, ())
  | .store o, e, w => (handle o e.db w.db).map fun (db, a) => ({ w with db }, a)

end instagram
