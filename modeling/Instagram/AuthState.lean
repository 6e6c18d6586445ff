-- The memory of the app, and `FirebaseAuthState`: what it does at once, and its methods,
-- which await the services.
import Instagram.Auth

namespace instagram

open docs firestore async

/-! ## Memory -/

inductive FirebaseAuthStatus where
  | signout
  | progress
  | signin
  deriving DecidableEq, Repr

/-- `FirebaseAuthState`. `facebookLogin` says whether the Facebook object was made, and
`scaffold` holds the snack bars of the messenger that `_scaffoldKey` is attached to.
`notified` is what the listeners saw last. -/
structure FirebaseAuthState where
  firebaseAuthStatus : FirebaseAuthStatus
  user : Option User
  facebookLogin : Bool
  scaffold : Option (List String)
  notified : Option (FirebaseAuthStatus × Option User)
  deriving DecidableEq, Repr

/-- No widget ever gets the `_scaffoldKey`. -/
def FirebaseAuthState.initial : FirebaseAuthState := ⟨.progress, none, false, none, none⟩

/-- A subscription to the document of a user: the snapshots on their way, and the models
that it delivered. -/
structure Subscription where
  uid : String
  cancelled : Bool
  pending : List Snapshot
  delivered : List UserModel

/-- `currentStreamSub` is the number of a subscription. -/
structure UserModelState where
  userModel : Option UserModel
  currentStreamSub : Option ℕ
  deriving DecidableEq, Repr

/-- `messenger` holds the snack bars of the form's messenger, or none when the form is no
longer mounted. -/
structure AppMem where
  auth : FirebaseAuthState
  users : UserModelState
  subscriptions : List Subscription
  messenger : Option (List String)

def AppMem.initial : AppMem := ⟨.initial, ⟨none, none⟩, [], some []⟩

/-! ## What happens at once -/

def FirebaseAuthState.notifyListeners (s : FirebaseAuthState) : FirebaseAuthState :=
  { s with notified := some (s.firebaseAuthStatus, s.user) }

/-- Without an argument, the status follows the user. -/
def FirebaseAuthState.changeFirebaseAuthStatus (s : FirebaseAuthState)
    (status : Option FirebaseAuthStatus) : FirebaseAuthState :=
  let followed := if s.user.isSome then FirebaseAuthStatus.signin else .signout
  FirebaseAuthState.notifyListeners { s with firebaseAuthStatus := status.getD followed }

/-- Dart's `==` on users that may be null. The package decides on two that are not. -/
def sameUser (same : User → User → Bool) : Option User → Option User → Bool
  | none, none => true
  | some u, some v => same u v
  | _, _ => false

/-- The listener of `watchAuthChange`. -/
def FirebaseAuthState.onAuthChange (same : User → User → Bool) (s : FirebaseAuthState)
    (user : Option User) : FirebaseAuthState :=
  if user.isNone && s.user.isNone then s.changeFirebaseAuthStatus none
  else if !sameUser same user s.user then
    FirebaseAuthState.changeFirebaseAuthStatus { s with user := user } none
  else s

/-! ## Methods -/

abbrev AppProg (ρ : Type) : Type := Prog AppMem AppOp AppAns DartError ρ

def getAuth : AppProg FirebaseAuthState := .read fun m => .ret m.auth

def modifyAuth (f : FirebaseAuthState → FirebaseAuthState) : AppProg Unit :=
  .read fun m => .write { m with auth := f m.auth } (.ret ())

/-- A method of the repositories. -/
def repository (p : Fire Unit) : AppProg Unit := p.embed .store fun _ a => a

/-- `_scaffoldKey.currentState.showSnackBar(snackBar)`: nothing to call it on before the key
is attached. -/
def showSnackBar (message : String) : AppProg Unit := .read fun m =>
  match m.auth.scaffold with
  | some bars =>
    .write { m with auth := { m.auth with scaffold := some (bars ++ [message]) } } (.ret ())
  | none => .raise .noSuchMethod

/-- Looks the messenger up from the form, which must still be mounted. -/
def simpleSnackbar (message : String) : AppProg Unit := .read fun m =>
  match m.messenger with
  | some bars => .write { m with messenger := some (bars ++ [message]) } (.ret ())
  | none => .raise .assertion

/-- Awaits an answer that reaches the method some time after the service has acted. -/
def signInAnswer (answer : Except DartError UserCredential) : AppProg UserCredential :=
  .await (.arrives answer) .ofExcept

def createUserWithEmailAndPassword (email password : String) : AppProg UserCredential :=
  .await (.createUserWithEmailAndPassword email password) signInAnswer

def signInWithEmailAndPassword (email password : String) : AppProg UserCredential :=
  .await (.signInWithEmailAndPassword email password) signInAnswer

def signInWithCredential (token : String) : AppProg UserCredential :=
  .await (.signInWithCredential token) signInAnswer

/-- `error.code`, which only Firebase's exceptions have. -/
def errorCode : DartError → Except DartError String
  | .firebase code => .ok code
  | _ => .error .noSuchMethod

def registerMessage (code : String) : String :=
  if code = "weak-password" then "비밀번호를 잘 넣어주세요."
  else if code = "operation-not-allowed" then "email/password accounts are not enabled"
  else if code = "invalid-email" then "이메일 주소를 확인해주세요."
  else if code = "email-already-in-use" then "해당 이메일은 이미 사용중인 이메일입니다"
  else ""

def logInMessage (code : String) : String :=
  if code = "invalid-email" then "사용할 수 없는 이메일입니다."
  else if code = "user-disabled" then "해당 사용자는 비활성화 상태입니다."
  else if code = "user-not-found" then "없는 이메일 입니다."
  else if code = "wrong-password" then "비밀번호가 틀렸습니다."
  else ""

/-- `signIn.catchError(..)` followed by `_user = userCredential.user`. A handler that gets
through leaves the credential null, and then the field raises. -/
def storeCredential (signIn : AppProg UserCredential) (message : String → String) :
    AppProg (Option User) := do
  let userCredential ← (some <$> signIn).catchError fun error => do
    showSnackBar (message (← Prog.ofExcept (errorCode error)))
    pure none
  match userCredential with
  | none => .raise .noSuchMethod
  | some userCredential =>
    modifyAuth fun s => { s with user := userCredential.user }
    pure userCredential.user

def registerUser (email password : String) : AppProg Unit := do
  modifyAuth (·.changeFirebaseAuthStatus (some .progress))
  let user ← storeCredential (createUserWithEmailAndPassword (trim email) (trim password))
    registerMessage
  match user with
  | none => showSnackBar "Please try again later"
  | some user => repository (attemptCreateUser user.uid user.email)

def logIn (email password : String) : AppProg Unit := do
  modifyAuth (·.changeFirebaseAuthStatus (some .progress))
  let user ← storeCredential (signInWithEmailAndPassword (trim email) (trim password))
    logInMessage
  match user with
  | none => showSnackBar "실패"
  | some _ => pure ()

/-- A call on `_facebookLogin`, which is null until a Facebook login was tried. -/
def onFacebookLogin {ρ : Type} (call : AppProg ρ) : AppProg ρ := do
  let s ← getAuth
  if s.facebookLogin then call else .raise .noSuchMethod

def facebookIsLoggedIn : AppProg Bool := onFacebookLogin (.await .facebookIsLoggedIn .ofExcept)

def facebookLogOut : AppProg Unit := onFacebookLogin (.await .facebookLogOut .ofExcept)

def firebaseSignOut : AppProg Unit := .await .signOut .ofExcept

/-- The awaits of `signOut`. -/
def closeSessions : AppProg Unit := do
  if ← facebookIsLoggedIn then
    facebookLogOut
  firebaseSignOut

def signOut : AppProg Unit := do
  modifyAuth (·.changeFirebaseAuthStatus (some .progress))
  modifyAuth fun s => { s with firebaseAuthStatus := .signout }
  let s ← getAuth
  if s.user.isSome then
    modifyAuth fun s => { s with user := none }
    closeSessions
  modifyAuth FirebaseAuthState.notifyListeners

def handleFacebookTokenWithFirebase (token : String) : AppProg Unit := do
  let userCredential ← signInWithCredential token
  modifyAuth fun s => { s with user := userCredential.user }
  match userCredential.user with
  | none => simpleSnackbar "페북 로그인이 잘 안됐습니다. 나중에 다시 시도해주세요"
  | some user => repository (attemptCreateUser user.uid user.email)
  modifyAuth FirebaseAuthState.notifyListeners

/-- The last calls are not awaited in the source, and nothing comes after them. -/
def loginWithFacebook : AppProg Unit := do
  modifyAuth (·.changeFirebaseAuthStatus (some .progress))
  modifyAuth fun s => { s with facebookLogin := true }
  let result ← (.await .facebookLogIn .ofExcept : AppProg FacebookLoginResult)
  match result.status with
  | .loggedIn => handleFacebookTokenWithFirebase result.accessToken
  | .cancelledByUser => simpleSnackbar "User cancel facebook sign in"
  | .error => do
    simpleSnackbar "Error while facebook sign in"
    facebookLogOut

end instagram
