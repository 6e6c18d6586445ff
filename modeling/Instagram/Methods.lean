-- What the pieces of the app's methods keep: which parts of the memory they leave alone, and
-- which operations they await.
import Instagram.App

namespace instagram

open docs firestore async runs

/-- What the services promise of their answers. -/
def AppRely : (o : AppOp) → AppAns o → Prop
  | .createUserWithEmailAndPassword _ _, r => ∀ c, r = .ok c → c.user.isSome
  | .signInWithEmailAndPassword _ _, r => ∀ c, r = .ok c → c.user.isSome
  | .signInWithCredential _, r => ∀ c, r = .ok c → c.user.isSome
  | .arrives answer, r => r = answer
  | _, _ => True

/-- The services keep their promises. -/
theorem appRely_of_handle (o : AppOp) (e : AppEnv) (w w' : AppWorld) (a : AppAns o)
    (h : appHandle o e w = some (w', a)) : AppRely o a := by
  have hsign : ∀ (r : AppWorld × Except DartError UserCredential) c,
      e.signIn w = r → r.2 = .ok c → c.user.isSome := by
    intro r c hr hc
    subst hr
    unfold AppEnv.signIn AppEnv.answer at hc
    split at hc
    · cases hc
    · cases hc
      rfl
  cases o with
  | createUserWithEmailAndPassword email password =>
    exact fun c hc => hsign _ c (Option.some.inj h) hc
  | signInWithEmailAndPassword email password =>
    exact fun c hc => hsign _ c (Option.some.inj h) hc
  | signInWithCredential token => exact fun c hc => hsign _ c (Option.some.inj h) hc
  | arrives answer =>
    cases h
    rfl
  | _ => trivial

/-! ## Properties of the methods

Two kinds of properties go by the parts of a method: which part of the memory it leaves alone,
and which operations it awaits. -/

/-- How the methods change `FirebaseAuthState`, but for the one that makes the Facebook
object. -/
inductive AuthChange : (FirebaseAuthState → FirebaseAuthState) → Prop
  | progress : AuthChange (·.changeFirebaseAuthStatus (some .progress))
  | signout : AuthChange fun s => { s with firebaseAuthStatus := .signout }
  | user (user : Option User) : AuthChange fun s => { s with user := user }
  | notify : AuthChange FirebaseAuthState.notifyListeners

/-- A property that the pieces of the methods have. `G` says which operations may be awaited,
and `F` how `FirebaseAuthState` may change. -/
structure Keeps (G : AppOp → Prop) (F : (FirebaseAuthState → FirebaseAuthState) → Prop)
    (P : (ρ : Type) → AppProg ρ → Prop) : Prop extends Compositional G P where
  modifyAuth : ∀ {f}, F f → P Unit (modifyAuth f)
  showSnackBar : ∀ message, P Unit (showSnackBar message)
  simpleSnackbar : ∀ message, P Unit (simpleSnackbar message)

/-- No turn changes what `π` sees, when `π` does not see the snack bars. -/
theorem keeps_frames {β : Type} {π : AppMem → β}
    (hscaffold : ∀ m bars, π { m with auth := { m.auth with scaffold := bars } } = π m)
    (hmessenger : ∀ m bars, π { m with messenger := bars } = π m) :
    Keeps (fun _ => True) (fun f => ∀ m, π { m with auth := f m.auth } = π m)
      fun _ p => ∀ m, p.Frames π m where
  toCompositional := compositional_frames π
  modifyAuth hf _ := fun m => ⟨hf m, trivial⟩
  showSnackBar message _ := by
    intro m
    beta_reduce
    split
    · exact ⟨hscaffold m _, trivial⟩
    · trivial
  simpleSnackbar message _ := by
    intro m
    beta_reduce
    split
    · exact ⟨hmessenger m _, trivial⟩
    · trivial

/-- Every operation of the program is one of `G`. -/
abbrev Ops {ρ : Type} (G : AppOp → Prop) (p : AppProg ρ) : Prop := p.Awaits AppRely fun o _ => G o

theorem keeps_ops (G : AppOp → Prop) : Keeps G (fun _ => True) fun _ p => Ops G p where
  toCompositional := compositional_awaits AppRely G
  modifyAuth _ := fun _ => trivial
  showSnackBar message := by
    intro m
    beta_reduce
    split <;> trivial
  simpleSnackbar message := by
    intro m
    beta_reduce
    split <;> trivial

namespace Keeps

variable {G G' : AppOp → Prop} {F F' : (FirebaseAuthState → FirebaseAuthState) → Prop}
  {P P' : (ρ : Type) → AppProg ρ → Prop}

theorem and (h : Keeps G F P) (h' : Keeps G' F' P') :
    Keeps (fun o => G o ∧ G' o) (fun f => F f ∧ F' f) fun ρ p => P ρ p ∧ P' ρ p where
  toCompositional := h.toCompositional.and h'.toCompositional
  modifyAuth hF := ⟨h.modifyAuth hF.1, h'.modifyAuth hF.2⟩
  showSnackBar message := ⟨h.showSnackBar message, h'.showSnackBar message⟩
  simpleSnackbar message := ⟨h.simpleSnackbar message, h'.simpleSnackbar message⟩

theorem repository (h : Keeps G F P) (hG : ∀ o, G (.store o)) (p : Fire Unit) :
    P Unit (repository p) := h.embed hG p

theorem onFacebookLogin {ρ : Type} {p : AppProg ρ} (h : Keeps G F P) (hp : P ρ p) :
    P ρ (onFacebookLogin p) := by
  refine h.bind (h.read fun m => h.ret _) fun s => ?_
  split
  · exact hp
  · exact h.raise _

theorem facebookLogOut (h : Keeps G F P) (hG : G .facebookLogOut) : P Unit facebookLogOut :=
  h.onFacebookLogin (h.await hG h.ofExcept)

theorem closeSessions (h : Keeps G F P) (hin : G .facebookIsLoggedIn) (hout : G .facebookLogOut)
    (hsignOut : G .signOut) : P Unit closeSessions := by
  have hfirebase : P Unit firebaseSignOut := h.await hsignOut h.ofExcept
  refine h.bind (h.onFacebookLogin (h.await hin h.ofExcept)) fun isLoggedIn => ?_
  cases isLoggedIn with
  | true => exact h.bind (h.facebookLogOut hout) fun _ => hfirebase
  | false => exact hfirebase

theorem signInAnswer (h : Keeps G F P) (hG : ∀ answer, G (.arrives answer))
    (answer : Except DartError UserCredential) : P UserCredential (signInAnswer answer) :=
  h.await (hG answer) h.ofExcept

theorem storeCredential {request : AppProg UserCredential} (h : Keeps G F P)
    (hF : ∀ user, F fun s => { s with user := user }) (hp : P UserCredential request)
    (message : String → String) : P (Option User) (storeCredential request message) := by
  refine h.bind (h.catchError (h.bind hp fun _ => h.ret _) fun e => ?_) fun c => ?_
  · exact h.bind (h.ofExcept _) fun code => h.bind (h.showSnackBar _) fun _ => h.ret _
  · cases c with
    | none => exact h.raise _
    | some c => exact h.bind (h.modifyAuth (hF c.user)) fun _ => h.ret _

theorem registerUser (h : Keeps G F P) (hF : ∀ f, AuthChange f → F f)
    (hG : ∀ o, o ≠ .signOut → G o) (email password : String) :
    P Unit (AppCall.registerUser email password).prog := by
  have hrequest := h.await (hG (.createUserWithEmailAndPassword (trim email) (trim password))
    (by simp)) (h.signInAnswer fun answer => hG _ (by simp))
  refine h.bind (h.modifyAuth (hF _ .progress)) fun _ => h.bind
    (h.storeCredential (fun user => hF _ (.user user)) hrequest _) fun u => ?_
  cases u with
  | none => exact h.showSnackBar _
  | some user => exact h.repository (fun o => hG _ (by simp)) _

theorem logIn (h : Keeps G F P) (hF : ∀ f, AuthChange f → F f)
    (hG : ∀ o, o ≠ .signOut → G o) (email password : String) :
    P Unit (AppCall.logIn email password).prog := by
  have hrequest := h.await (hG (.signInWithEmailAndPassword (trim email) (trim password))
    (by simp)) (h.signInAnswer fun answer => hG _ (by simp))
  refine h.bind (h.modifyAuth (hF _ .progress)) fun _ => h.bind
    (h.storeCredential (fun user => hF _ (.user user)) hrequest _) fun u => ?_
  cases u with
  | none => exact h.showSnackBar _
  | some user => exact h.ret _

/-- What `loginWithFacebook` does with the result of the dialog. -/
theorem facebookResult (h : Keeps G F P) (hF : ∀ f, AuthChange f → F f)
    (hG : ∀ o, o ≠ .signOut → G o) (result : FacebookLoginResult) :
    P Unit (match result.status with
      | .loggedIn => handleFacebookTokenWithFirebase result.accessToken
      | .cancelledByUser => instagram.simpleSnackbar "User cancel facebook sign in"
      | .error => do
        instagram.simpleSnackbar "Error while facebook sign in"
        instagram.facebookLogOut) := by
  cases result.status with
  | loggedIn =>
    have hrequest := h.await (hG (.signInWithCredential result.accessToken) (by simp))
      (h.signInAnswer fun answer => hG _ (by simp))
    refine h.bind hrequest fun c => h.bind (h.modifyAuth (hF _ (.user c.user))) fun _ => ?_
    cases c.user with
    | none => exact h.bind (h.simpleSnackbar _) fun _ => h.modifyAuth (hF _ .notify)
    | some user =>
      exact h.bind (h.repository (fun o => hG _ (by simp)) _) fun _ =>
        h.modifyAuth (hF _ .notify)
  | cancelledByUser => exact h.simpleSnackbar _
  | error => exact h.bind (h.simpleSnackbar _) fun _ => h.facebookLogOut (hG _ (by simp))

/-- The sign-in methods, which never ask Firebase to sign out. -/
theorem signsIn {c : AppCall} (h : Keeps G F P) (hF : ∀ f, F f) (hG : ∀ o, o ≠ .signOut → G o)
    (hc : c.SignsIn) : P Unit c.prog := by
  cases c with
  | registerUser email password => exact h.registerUser (fun f _ => hF f) hG email password
  | logIn email password => exact h.logIn (fun f _ => hF f) hG email password
  | loginWithFacebook =>
    refine h.bind (h.modifyAuth (hF _)) fun _ => h.bind (h.modifyAuth (hF _)) fun _ =>
      h.bind (h.await (hG .facebookLogIn (by simp)) h.ofExcept) fun result => ?_
    exact h.facebookResult (fun f _ => hF f) hG result
  | signOut => exact hc.elim
  | rootConsumer => exact hc.elim

theorem signOut (h : Keeps G F P) (hF : ∀ f, AuthChange f → F f) (hG : ∀ o, G o) :
    P Unit AppCall.signOut.prog := by
  refine h.bind (h.modifyAuth (hF _ .progress)) fun _ => h.bind (h.modifyAuth (hF _ .signout))
    fun _ => h.bind (h.read fun m => h.ret _) fun s => ?_
  split
  · refine h.bind (h.modifyAuth (hF _ (.user none))) fun _ => ?_
    exact h.bind (h.closeSessions (hG _) (hG _) (hG _)) fun _ => h.modifyAuth (hF _ .notify)
  · exact h.modifyAuth (hF _ .notify)

end Keeps

end instagram
