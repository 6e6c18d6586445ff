-- The app of one device: the root Consumer that watches `FirebaseAuthState`, the user model
-- that it keeps, and the system of everything that can happen.
import Instagram.AuthState

namespace instagram

open docs firestore async runs

/-! ## The user model -/

/-- The setter `currentStreamSub`: its body is the field itself, so nothing is stored. -/
def UserModelState.setCurrentStreamSub (s : UserModelState) (_currentStreamSub : ℕ) :
    UserModelState := s

/-- `subscription.cancel()` stops the deliveries at once. -/
def AppMem.cancel (m : AppMem) (i : ℕ) : AppMem :=
  { m with subscriptions := m.subscriptions.modify i fun sub => { sub with cancelled := true } }

/-- `clear` waits for the cancellation, when there is something to cancel. -/
def clear : AppProg Unit := do
  let m ← Prog.getMem
  match m.users.currentStreamSub with
  | some sub => do
    Prog.setMem (m.cancel sub)
    .await .cancelSubscription .ret
  | none => pure ()
  let m ← Prog.getMem
  Prog.setMem { m with users := { userModel := none, currentStreamSub := none } }

/-- `clear` on the handle that it finds. -/
theorem clear_eq : clear = .read fun m =>
    match m.users.currentStreamSub with
    | some sub => .write (m.cancel sub) (.await .cancelSubscription fun _ => .read fun m =>
        .write { m with users := { userModel := none, currentStreamSub := none } } (.ret ()))
    | none => .read fun m =>
        .write { m with users := { userModel := none, currentStreamSub := none } } (.ret ()) := by
  unfold clear
  simp only [Prog.getMem, Prog.setMem, Prog.read_bind, Prog.ret_bind]
  refine congrArg Prog.read (funext fun m => ?_)
  cases m.users.currentStreamSub <;> rfl

/-! ## The root Consumer -/

/-- `getUserModelStream(uid).listen(..)` opens one more subscription. -/
def AppMem.listen (m : AppMem) (uid : String) : AppMem :=
  { m with
    subscriptions := m.subscriptions ++ [⟨uid, false, [], []⟩]
    users := m.users.setCurrentStreamSub m.subscriptions.length }

def initUserModel : AppProg Unit := do
  let m ← Prog.getMem
  match m.auth.user with
  | none => .raise .noSuchMethod
  | some user => Prog.setMem (m.listen user.uid)

/-- The builder of the root Consumer. -/
def rootConsumer : AppProg Unit := do
  let m ← Prog.getMem
  match m.auth.firebaseAuthStatus with
  | .signout => clear
  | .signin => initUserModel
  | .progress => pure ()

theorem initUserModel_eq : initUserModel = .read fun m =>
    match m.auth.user with
    | none => .raise .noSuchMethod
    | some user => .write (m.listen user.uid) (.ret ()) := rfl

theorem rootConsumer_eq : rootConsumer = .read fun m =>
    match m.auth.firebaseAuthStatus with
    | .signout => clear
    | .signin => initUserModel
    | .progress => pure () := rfl

/-! ## The system -/

inductive AppCall where
  | registerUser (email password : String)
  | logIn (email password : String)
  | loginWithFacebook
  | signOut
  | rootConsumer
  deriving DecidableEq, Repr

def AppCall.prog : AppCall → AppProg Unit
  | .registerUser email password => instagram.registerUser email password
  | .logIn email password => instagram.logIn email password
  | .loginWithFacebook => instagram.loginWithFacebook
  | .signOut => instagram.signOut
  | .rootConsumer => instagram.rootConsumer

def AppCall.SignsIn : AppCall → Prop
  | .registerUser _ _ => True
  | .logIn _ _ => True
  | .loginWithFacebook => True
  | _ => False

/-- What happens besides the calls. -/
inductive AppPoke where
  /-- `MyApp.build` registers one more listener, which will hear of the current user. -/
  | watchAuthChange
  /-- A listener gets its next event, as a new client object. -/
  | authEvent (listener obj : ℕ)
  /-- Firebase changes the current user by itself. -/
  | setUser (account : Option Account)
  /-- Firestore sends a subscription the document as it is now. -/
  | snapshot (sub : ℕ)
  /-- A subscription gets its next snapshot. -/
  | deliver (sub : ℕ)
  /-- Somebody else commits a batch of writes. -/
  | write (ws : List Write)
  /-- The form is mounted, or goes away. -/
  | mount (mounted : Bool)

/-- The handler of the stream: decode, and give the model to `userModelState`. A snapshot
that does not decode raises in the stream, and nobody catches it. -/
def AppMem.deliver (m : AppMem) (i : ℕ) (sub : Subscription) (snapshot : Snapshot)
    (rest : List Snapshot) : AppMem :=
  match UserModel.fromSnapshot sub.uid snapshot with
  | .error _ =>
    { m with subscriptions := m.subscriptions.set i { sub with pending := rest } }
  | .ok model =>
    { m with
      subscriptions := m.subscriptions.set i
        { sub with pending := rest, delivered := sub.delivered ++ [model] }
      users := { m.users with userModel := some model } }

def appPoke (same : User → User → Bool) (x : AppPoke) (m : AppMem) (w : AppWorld) :
    Option (AppMem × AppWorld) :=
  match x with
  | .watchAuthChange => some (m, { w with listeners := w.listeners ++ [[w.currentUser]] })
  | .authEvent l obj =>
    match w.listeners[l]? with
    | some (event :: rest) =>
      some ({ m with auth := m.auth.onAuthChange same (event.map (·.user obj)) },
        { w with listeners := w.listeners.set l rest })
    | _ => none
  | .setUser account => some (m, w.setUser account)
  | .snapshot i =>
    match m.subscriptions[i]? with
    | some sub =>
      let pending := sub.pending ++ [w.db.docs (userRef sub.uid)]
      some ({ m with subscriptions := m.subscriptions.set i { sub with pending } }, w)
    | none => none
  | .deliver i =>
    match m.subscriptions[i]? with
    | some sub =>
      match sub.pending with
      | snapshot :: rest =>
        if sub.cancelled then none else some (m.deliver i sub snapshot rest, w)
      | [] => none
    | none => none
  | .write ws =>
    match commit w.db.docs ws with
    | some docs => some (m, { w with db := { w.db with docs } })
    | none => none
  | .mount mounted => some ({ m with messenger := if mounted then some [] else none }, w)

variable {same : User → User → Bool} {m m' : AppMem} {w w' : AppWorld}

theorem poke_authEvent {l obj : ℕ} (h : appPoke same (.authEvent l obj) m w = some (m', w')) :
    ∃ event rest, w.listeners[l]? = some (event :: rest) ∧
      m' = { m with auth := m.auth.onAuthChange same (event.map (·.user obj)) } ∧
      w' = { w with listeners := w.listeners.set l rest } := by
  simp only [appPoke] at h
  split at h
  · rename_i event rest hl
    cases h
    exact ⟨event, rest, hl, rfl, rfl⟩
  · cases h

theorem poke_snapshot {i : ℕ} (h : appPoke same (.snapshot i) m w = some (m', w')) :
    ∃ sub, m.subscriptions[i]? = some sub ∧
      m' = { m with
        subscriptions := m.subscriptions.set i
          { sub with pending := sub.pending ++ [w.db.docs (userRef sub.uid)] } } ∧ w' = w := by
  simp only [appPoke] at h
  split at h
  · rename_i sub hi
    cases h
    exact ⟨sub, hi, rfl, rfl⟩
  · cases h

theorem poke_deliver {i : ℕ} (h : appPoke same (.deliver i) m w = some (m', w')) :
    ∃ sub snapshot rest, m.subscriptions[i]? = some sub ∧ sub.cancelled = false ∧
      sub.pending = snapshot :: rest ∧ m' = m.deliver i sub snapshot rest ∧ w' = w := by
  simp only [appPoke] at h
  split at h
  · rename_i sub hi
    split at h
    · rename_i snapshot rest hpending
      split at h
      · cases h
      · rename_i hlive
        cases h
        exact ⟨sub, snapshot, rest, hi, by simpa using hlive, hpending, rfl, rfl⟩
    · cases h
  · cases h

theorem poke_write {ws : List Write} (h : appPoke same (.write ws) m w = some (m', w')) :
    ∃ docs, commit w.db.docs ws = some docs ∧ m' = m ∧
      w' = { w with db := { w.db with docs } } := by
  simp only [appPoke] at h
  split at h
  · rename_i docs hdocs
    cases h
    exact ⟨docs, hdocs, rfl, rfl⟩
  · cases h

/-- Only an event at a listener changes the auth state without a call. -/
theorem poke_auth {x : AppPoke} (h : appPoke same x m w = some (m', w')) :
    ((∀ l obj, x ≠ .authEvent l obj) ∧ m'.auth = m.auth) ∨
      ∃ l obj event rest, x = .authEvent l obj ∧ w.listeners[l]? = some (event :: rest) ∧
        m'.auth = m.auth.onAuthChange same (event.map (·.user obj)) := by
  cases x with
  | authEvent l obj =>
    obtain ⟨event, rest, hl, rfl, rfl⟩ := poke_authEvent h
    exact Or.inr ⟨l, obj, event, rest, rfl, hl, rfl⟩
  | snapshot i =>
    obtain ⟨_, _, rfl, rfl⟩ := poke_snapshot h
    exact Or.inl ⟨by simp, rfl⟩
  | deliver i =>
    obtain ⟨_, _, _, _, _, _, rfl, rfl⟩ := poke_deliver h
    refine Or.inl ⟨by simp, ?_⟩
    unfold AppMem.deliver
    split <;> rfl
  | write ws =>
    obtain ⟨_, _, rfl, rfl⟩ := poke_write h
    exact Or.inl ⟨by simp, rfl⟩
  | _ =>
    cases h
    exact Or.inl ⟨by simp, rfl⟩

/-- Only a write of somebody else changes the database without a call. -/
theorem poke_db {x : AppPoke} (h : appPoke same x m w = some (m', w')) :
    w'.db = w.db ∨ ∃ ws, x = .write ws ∧ commit w.db.docs ws = some w'.db.docs := by
  cases x with
  | authEvent l obj =>
    obtain ⟨_, _, _, rfl, rfl⟩ := poke_authEvent h
    exact Or.inl rfl
  | snapshot i =>
    obtain ⟨_, _, rfl, rfl⟩ := poke_snapshot h
    exact Or.inl rfl
  | deliver i =>
    obtain ⟨_, _, _, _, _, _, rfl, rfl⟩ := poke_deliver h
    exact Or.inl rfl
  | write ws =>
    obtain ⟨_, hdocs, rfl, rfl⟩ := poke_write h
    exact Or.inr ⟨ws, rfl, hdocs⟩
  | _ =>
    cases h
    exact Or.inl rfl

/-- The app, with the package's `==` on users. -/
def app (same : User → User → Bool) :
    System AppMem AppWorld AppOp AppAns DartError AppCall AppEnv AppPoke where
  prog := AppCall.prog
  handle := appHandle
  poke := appPoke same

abbrev AppState : Type := State AppMem AppWorld AppOp AppAns DartError AppCall

abbrev AppAct : Type := Act AppCall AppEnv AppPoke

/-- The app starts. -/
def appInit (w : AppWorld) : AppState := init AppOp AppAns DartError AppCall .initial w

/-! ## Worlds and answers -/

/-- Nobody is signed in, and the one listener will hear so. -/
def signedOutWorld (docs : Store) : AppWorld := ⟨none, [[none]], false, ⟨docs, []⟩⟩

/-- The service grants a sign-in. -/
def granted (account : Account) : AppEnv := ⟨none, account, 0, ⟨.error, ""⟩, online⟩

/-- The service raises. -/
def refused (code : String) : AppEnv := ⟨some (.firebase code), ⟨"", none⟩, 0, ⟨.error, ""⟩, online⟩

/-- Two user objects are the same when they are of one account. -/
def sameUid (u v : User) : Bool := u.uid == v.uid

end instagram
