-- What a step of the app does to the status and the stored user: said once here, and every
-- law about signing in goes by it.
import Instagram.Methods

namespace instagram

open docs firestore async runs

/-! ## The session -/

/-- The two fields that the sign-in laws are about. -/
def AppMem.session (m : AppMem) : FirebaseAuthStatus × Option User :=
  (m.auth.firebaseAuthStatus, m.auth.user)

/-- The credential that an answer brings. -/
def arrived : AppOp → Option UserCredential
  | .arrives (.ok credential) => some credential
  | _ => none

/-- A turn stores the user of the credential that arrived, and otherwise leaves the session
as it is. -/
def TurnStores (o : AppOp) (k : AppAns o → AppProg Unit) : Prop :=
  ∀ a m, AppRely o a → ((k a).settle m).1.session =
    match arrived o with
    | some c => (m.auth.firebaseAuthStatus, c.user)
    | none => m.session

/-- What every await of the app's methods keeps. -/
def SessionAwait (o : AppOp) (k : AppAns o → AppProg Unit) : Prop :=
  (∀ c, arrived o = some c → c.user.isSome) ∧ TurnStores o k

/-! ## What leaves the session alone -/

/-- No turn changes the session, and no operation brings a credential. -/
abbrev LeavesSession {ρ : Type} (p : AppProg ρ) : Prop :=
  (∀ m, p.Frames AppMem.session m) ∧ Ops (fun o => arrived o = none) p

theorem keeps_session : Keeps (fun o => True ∧ arrived o = none)
    (fun f => (∀ m : AppMem, AppMem.session { m with auth := f m.auth } = m.session) ∧ True)
    fun _ p => LeavesSession p :=
  (keeps_frames (fun _ _ => rfl) fun _ _ => rfl).and (keeps_ops _)

theorem leaves_showSnackBar (message : String) : LeavesSession (showSnackBar message) :=
  keeps_session.showSnackBar message

theorem leaves_simpleSnackbar (message : String) : LeavesSession (simpleSnackbar message) :=
  keeps_session.simpleSnackbar message

theorem leaves_notifyListeners : LeavesSession (modifyAuth FirebaseAuthState.notifyListeners) :=
  keeps_session.modifyAuth ⟨fun _ => rfl, trivial⟩

theorem leaves_repository (p : Fire Unit) : LeavesSession (repository p) :=
  keeps_session.repository (fun _ => ⟨trivial, rfl⟩) p

theorem leaves_facebookLogOut : LeavesSession facebookLogOut :=
  keeps_session.facebookLogOut ⟨trivial, rfl⟩

theorem leaves_closeSessions : LeavesSession closeSessions :=
  keeps_session.closeSessions ⟨trivial, rfl⟩ ⟨trivial, rfl⟩ ⟨trivial, rfl⟩

theorem LeavesSession.settle {p : AppProg Unit} (h : LeavesSession p) (m : AppMem) :
    (p.settle m).1.session = m.session := (h.1 m).settle

theorem LeavesSession.awaits {p : AppProg Unit} (h : LeavesSession p) :
    p.Awaits AppRely SessionAwait := by
  refine (h.2.and (awaits_of_frames (h.1 .initial))).mono fun o k hk => ?_
  obtain ⟨hnone, hkeep⟩ := hk
  refine ⟨fun c hc => ?_, fun a m _ => ?_⟩
  · rw [hnone] at hc
    cases hc
  · rw [hnone]
    exact hkeep a m

/-! ## The methods -/

/-- A sign-in request: the service acts, the answer travels, and the tail runs. -/
theorem request_awaits {tail : Except DartError UserCredential → AppProg Unit}
    {answer : Except DartError UserCredential} (hans : ∀ c, answer = .ok c → c.user.isSome)
    (hstore : ∀ r m, ((tail r).settle m).1.session =
      match r with
      | .ok c => (m.auth.firebaseAuthStatus, c.user)
      | .error _ => m.session)
    (hrest : ∀ r, (tail r).Awaits AppRely SessionAwait) :
    (.await (.arrives answer) tail : AppProg Unit).Awaits AppRely SessionAwait := by
  refine ⟨⟨fun c hc => ?_, fun a m ha => ?_⟩, fun a _ => hrest a⟩
  · cases answer with
    | error e => cases hc
    | ok c' =>
      cases hc
      exact hans c rfl
  · have hsame : a = answer := ha
    rw [hstore a m, hsame]
    cases answer <;> rfl

/-- `storeCredential` from the moment at which the answer has arrived. -/
def storeAnswer (message : String → String) (f : Option User → AppProg Unit)
    (answer : Except DartError UserCredential) : AppProg Unit :=
  storeCredential (.ofExcept answer) message >>= f

theorem storeAnswer_ok (message : String → String) (f : Option User → AppProg Unit)
    (c : UserCredential) :
    storeAnswer message f (.ok c) = .read fun m =>
      .write { m with auth := { m.auth with user := c.user } } (f c.user) := rfl

/-- An error always ends the method: nothing can show the message, and if something could,
the credential would be null. -/
theorem storeAnswer_error (message : String → String) (f : Option User → AppProg Unit)
    (e : DartError) : storeAnswer message f (.error e) =
      (Prog.ofExcept (errorCode e) >>= fun code => showSnackBar (message code)) >>= fun _ =>
        .raise .noSuchMethod := by
  cases e with
  | firebase code =>
    refine congrArg Prog.read (funext fun m => ?_)
    cases hs : m.auth.scaffold with
    | none =>
      simp only [hs]
      rfl
    | some bars =>
      simp only [hs]
      rfl
  | _ => rfl

theorem leaves_storeAnswer_error (message : String → String) (f : Option User → AppProg Unit)
    (e : DartError) : LeavesSession (storeAnswer message f (.error e)) := by
  rw [storeAnswer_error]
  exact keeps_session.bind (keeps_session.bind (keeps_session.ofExcept _)
    fun code => leaves_showSnackBar _) fun _ => keeps_session.raise _

theorem storeAnswer_session {message : String → String} {f : Option User → AppProg Unit}
    (hf : ∀ u, LeavesSession (f u)) (answer : Except DartError UserCredential) (m : AppMem) :
    ((storeAnswer message f answer).settle m).1.session =
      match answer with
      | .ok c => (m.auth.firebaseAuthStatus, c.user)
      | .error _ => m.session := by
  cases answer with
  | ok c =>
    rw [storeAnswer_ok, settle_read, settle_write, (hf c.user).settle]
    rfl
  | error e => exact (leaves_storeAnswer_error message f e).settle m

theorem storeAnswer_awaits {message : String → String} {f : Option User → AppProg Unit}
    (hf : ∀ u, LeavesSession (f u)) (answer : Except DartError UserCredential) :
    (storeAnswer message f answer).Awaits AppRely SessionAwait := by
  cases answer with
  | ok c =>
    rw [storeAnswer_ok]
    exact fun _ => (hf c.user).awaits
  | error e => exact (leaves_storeAnswer_error message f e).awaits

section

variable {J : (o : AppOp) → (AppAns o → AppProg Unit) → Prop}

theorem modifyAuth_awaits {g : FirebaseAuthState → FirebaseAuthState} {f : Unit → AppProg Unit}
    (h : (f ()).Awaits AppRely J) : (modifyAuth g >>= f).Awaits AppRely J := fun _ => h

theorem getAuth_awaits {f : FirebaseAuthState → AppProg Unit}
    (h : ∀ s, (f s).Awaits AppRely J) : (getAuth >>= f).Awaits AppRely J := fun m => h m.auth

end

/-- A sign-in request, and what is done with the credential that it brings. -/
theorem credential_awaits {o : AppOp} {k : AppAns o → Except DartError UserCredential}
    (hnone : arrived o = none) (hk : ∀ a, AppRely o a → ∀ c, k a = .ok c → c.user.isSome)
    {message : String → String} {f : Option User → AppProg Unit} (hf : ∀ u, LeavesSession (f u)) :
    (storeCredential (.await o fun a => signInAnswer (k a)) message >>= f).Awaits
      AppRely SessionAwait := by
  refine ⟨⟨fun c hc => ?_, fun a m _ => ?_⟩, fun a ha =>
    request_awaits (hk a ha) (storeAnswer_session hf) (storeAnswer_awaits hf)⟩
  · rw [hnone] at hc
    cases hc
  · rw [hnone]
    rfl

theorem registerUser_awaits (email password : String) :
    (registerUser email password).Awaits AppRely SessionAwait := by
  unfold registerUser
  refine modifyAuth_awaits (credential_awaits (o := .createUserWithEmailAndPassword _ _)
    (k := id) rfl (fun _ ha => ha) fun u => ?_)
  cases u with
  | none => exact leaves_showSnackBar _
  | some user => exact leaves_repository _

theorem logIn_awaits (email password : String) :
    (logIn email password).Awaits AppRely SessionAwait := by
  unfold logIn
  refine modifyAuth_awaits (credential_awaits (o := .signInWithEmailAndPassword _ _)
    (k := id) rfl (fun _ ha => ha) fun u => ?_)
  cases u with
  | none => exact leaves_showSnackBar _
  | some user => exact keeps_session.ret _

theorem handleFacebookToken_awaits (token : String) :
    (handleFacebookTokenWithFirebase token).Awaits AppRely SessionAwait := by
  -- what runs after the credential is stored, for either kind of credential
  have hbar : LeavesSession (simpleSnackbar "페북 로그인이 잘 안됐습니다. 나중에 다시 시도해주세요" >>=
      fun _ => modifyAuth FirebaseAuthState.notifyListeners) :=
    keeps_session.bind (leaves_simpleSnackbar _) fun _ => leaves_notifyListeners
  have hcreate : ∀ p : Fire Unit, LeavesSession (repository p >>=
      fun _ => modifyAuth FirebaseAuthState.notifyListeners) :=
    fun p => keeps_session.bind (leaves_repository p) fun _ => leaves_notifyListeners
  refine ⟨⟨fun _ hc => (by cases hc), fun _ _ _ => rfl⟩, fun _ hanswer => ?_⟩
  refine request_awaits hanswer (fun r m => ?_) fun r => ?_
  · rcases r with e | ⟨_ | user⟩
    · rfl
    · exact hbar.settle { m with auth := { m.auth with user := none } }
    · exact (hcreate _).settle { m with auth := { m.auth with user := user } }
  · rcases r with e | ⟨_ | user⟩
    · trivial
    · exact fun _ => hbar.awaits
    · exact fun _ => (hcreate _).awaits

theorem loginWithFacebook_awaits : loginWithFacebook.Awaits AppRely SessionAwait := by
  unfold loginWithFacebook
  have herror : LeavesSession (simpleSnackbar "Error while facebook sign in" >>= fun _ =>
      facebookLogOut) :=
    keeps_session.bind (leaves_simpleSnackbar _) fun _ => leaves_facebookLogOut
  refine modifyAuth_awaits (modifyAuth_awaits ⟨⟨fun _ hc => (by cases hc), ?_⟩, ?_⟩)
  · rintro (e | ⟨status, token⟩) m _
    · rfl
    · cases status with
      | loggedIn => rfl
      | cancelledByUser => exact (leaves_simpleSnackbar _).settle m
      | error => exact herror.settle m
  · rintro (e | ⟨status, token⟩) _
    · trivial
    · cases status with
      | loggedIn => exact handleFacebookToken_awaits token
      | cancelledByUser => exact (leaves_simpleSnackbar _).awaits
      | error => exact herror.awaits

/-- The end of `signOut`, after its user is gone. -/
theorem leaves_signOutTail : LeavesSession (closeSessions >>= fun _ =>
    modifyAuth FirebaseAuthState.notifyListeners) :=
  keeps_session.bind leaves_closeSessions fun _ => leaves_notifyListeners

theorem signOut_awaits : signOut.Awaits AppRely SessionAwait := by
  unfold signOut
  refine modifyAuth_awaits (modifyAuth_awaits (getAuth_awaits fun s => ?_))
  split
  · exact modifyAuth_awaits leaves_signOutTail.awaits
  · exact fun _ => trivial

/-- A build touches the user model and the subscriptions only. -/
theorem frames_rootConsumer {β : Type} {π : AppMem → β}
    (hπ : ∀ m subscriptions users, π { m with subscriptions, users } = π m) (m : AppMem) :
    rootConsumer.Frames π m := by
  have hclear : ∀ m, clear.Frames π m := by
    intro m
    rw [clear_eq]
    intro m
    beta_reduce
    cases m.users.currentStreamSub with
    | none => exact fun m => ⟨hπ m m.subscriptions _, trivial⟩
    | some sub =>
      exact ⟨hπ m _ m.users, fun _ _ m => ⟨hπ m m.subscriptions _, trivial⟩⟩
  have hinit : ∀ m, initUserModel.Frames π m := by
    intro m
    rw [initUserModel_eq]
    intro m
    beta_reduce
    cases m.auth.user with
    | none => trivial
    | some user => exact ⟨hπ m _ _, trivial⟩
  rw [rootConsumer_eq]
  intro m
  beta_reduce
  cases m.auth.firebaseAuthStatus with
  | signout => exact hclear m
  | signin => exact hinit m
  | progress => trivial

/-- A build awaits nothing but the end of a subscription. -/
theorem ops_rootConsumer {G : AppOp → Prop} (hG : G .cancelSubscription) : Ops G rootConsumer := by
  have hclear : Ops G clear := by
    rw [clear_eq]
    intro m
    beta_reduce
    cases m.users.currentStreamSub with
    | none => exact fun _ => trivial
    | some sub => exact ⟨hG, fun _ _ _ => trivial⟩
  have hinit : Ops G initUserModel := by
    rw [initUserModel_eq]
    intro m
    beta_reduce
    cases m.auth.user <;> trivial
  rw [rootConsumer_eq]
  intro m
  beta_reduce
  cases m.auth.firebaseAuthStatus with
  | signout => exact hclear
  | signin => exact hinit
  | progress => trivial

theorem leaves_rootConsumer : LeavesSession rootConsumer :=
  ⟨frames_rootConsumer fun _ _ _ => rfl, ops_rootConsumer rfl⟩

theorem appProg_awaits (c : AppCall) : c.prog.Awaits AppRely SessionAwait := by
  cases c with
  | registerUser email password => exact registerUser_awaits email password
  | logIn email password => exact logIn_awaits email password
  | loginWithFacebook => exact loginWithFacebook_awaits
  | signOut => exact signOut_awaits
  | rootConsumer => exact leaves_rootConsumer.awaits

/-! ## One step -/

/-- What the first turn of a call makes of the session. -/
def AppCall.opens : AppCall → FirebaseAuthStatus × Option User → FirebaseAuthStatus × Option User
  | .registerUser _ _, s => (.progress, s.2)
  | .logIn _ _, s => (.progress, s.2)
  | .loginWithFacebook, s => (.progress, s.2)
  | .signOut, _ => (.signout, none)
  | .rootConsumer, s => s

theorem opens_signOut (m : AppMem) : (signOut.settle m).1.session = (.signout, none) := by
  unfold signOut getAuth
  simp only [modifyAuth, Prog.read_bind, Prog.write_bind, Prog.ret_bind, settle_read, settle_write]
  by_cases hu : m.auth.user.isSome
  · simp only [FirebaseAuthState.changeFirebaseAuthStatus, FirebaseAuthState.notifyListeners, hu,
      if_true]
    exact leaves_signOutTail.settle _
  · have hnone : m.auth.user = none := by simpa using hu
    simp [FirebaseAuthState.changeFirebaseAuthStatus, FirebaseAuthState.notifyListeners,
      AppMem.session, hnone]

theorem start_session (c : AppCall) (m : AppMem) :
    (c.prog.settle m).1.session = c.opens m.session := by
  cases c with
  | registerUser email password => rfl
  | logIn email password => rfl
  | loginWithFacebook => rfl
  | signOut => exact opens_signOut m
  | rootConsumer => exact leaves_rootConsumer.settle m

/-- What the calls of every run keep. -/
abbrev AppGuarded : AppState → Prop :=
  Guarded (fun _ : AppWorld => True) AppRely (fun _ => True) fun _ => SessionAwait

theorem appGuarded_init (w : AppWorld) : AppGuarded (appInit w) := guarded_init _ trivial

variable {same : User → User → Bool}

theorem appGuarded_step (s : AppState) (a : AppAct) (t : AppState) (hs : AppGuarded s)
    (h : step (app same) s a = some t) : AppGuarded t :=
  guarded_step (fun c _ => appProg_awaits c) (fun o e w w' a _ h => appRely_of_handle o e w w' a h)
    (fun _ _ _ _ _ _ _ _ _ _ _ => trivial) (fun _ _ _ _ _ _ _ => trivial) s a t (starts_any a)
    hs h

/-- The status that follows the user. -/
def statusOf (user : Option User) : FirebaseAuthStatus := if user.isSome then .signin else .signout

/-- The listener stores the user of an event, and lets the status follow. -/
def Publishes (same : User → User → Bool) (stored user : Option User) : Bool :=
  (user.isNone && stored.isNone) || !sameUser same user stored

theorem onAuthChange_session (s : FirebaseAuthState) (user : Option User) :
    ((s.onAuthChange same user).firebaseAuthStatus, (s.onAuthChange same user).user) =
      if Publishes same s.user user then (statusOf user, user)
      else (s.firebaseAuthStatus, s.user) := by
  unfold FirebaseAuthState.onAuthChange Publishes
  cases user with
  | none =>
    cases hs : s.user with
    | none => simp [FirebaseAuthState.changeFirebaseAuthStatus,
        FirebaseAuthState.notifyListeners, statusOf, hs]
    | some v => simp [FirebaseAuthState.changeFirebaseAuthStatus,
        FirebaseAuthState.notifyListeners, statusOf, sameUser]
  | some u =>
    cases sameUser same (some u) s.user with
    | true => simp
    | false => simp [FirebaseAuthState.changeFirebaseAuthStatus,
        FirebaseAuthState.notifyListeners, statusOf]

/-- The event that a listener gets next, as a client object. -/
def nextEvent (s : AppState) (l obj : ℕ) : Option (Option User) :=
  match s.world.listeners[l]? with
  | some (event :: _) => some (event.map (·.user obj))
  | _ => none

/-- The credential that the next answer of a call brings. -/
def nextCredential (s : AppState) (i : ℕ) : Option UserCredential :=
  match s.calls i with
  | some (_, .waiting o _) => arrived o
  | _ => none

/-- The session after an answer reached its call. -/
def answeredSession (s : AppState) (i : ℕ) : FirebaseAuthStatus × Option User :=
  match nextCredential s i with
  | some c => (s.mem.auth.firebaseAuthStatus, c.user)
  | none => s.mem.session

/-- The session after an event reached its listener. -/
def eventSession (same : User → User → Bool) (s : AppState) (l obj : ℕ) :
    FirebaseAuthStatus × Option User :=
  match nextEvent s l obj with
  | some user =>
    if Publishes same s.mem.auth.user user then (statusOf user, user) else s.mem.session
  | none => s.mem.session

/-- The session after a step. -/
def nextSession (same : User → User → Bool) (s : AppState) :
    AppAct → FirebaseAuthStatus × Option User
  | .start _ c => c.opens s.mem.session
  | .resume i _ => answeredSession s i
  | .poke (.authEvent l obj) => eventSession same s l obj
  | .poke _ => s.mem.session

theorem session_unanswered {s : AppState} {i : ℕ} (e : AppEnv) (h : nextCredential s i = none) :
    nextSession same s (.resume i e) = s.mem.session := by
  simp [nextSession, answeredSession, h]

theorem session_answered {s : AppState} {i : ℕ} {c : UserCredential} (e : AppEnv)
    (h : nextCredential s i = some c) :
    nextSession same s (.resume i e) = (s.mem.auth.firebaseAuthStatus, c.user) := by
  simp [nextSession, answeredSession, h]

theorem session_no_event {s : AppState} {l obj : ℕ} (h : nextEvent s l obj = none) :
    nextSession same s (.poke (.authEvent l obj)) = s.mem.session := by
  simp [nextSession, eventSession, h]

theorem session_published {s : AppState} {l obj : ℕ} {user : Option User}
    (h : nextEvent s l obj = some user) (hp : Publishes same s.mem.auth.user user) :
    nextSession same s (.poke (.authEvent l obj)) = (statusOf user, user) := by
  simp [nextSession, eventSession, h, hp]

theorem session_kept {s : AppState} {l obj : ℕ} {user : Option User}
    (h : nextEvent s l obj = some user) (hp : ¬ Publishes same s.mem.auth.user user) :
    nextSession same s (.poke (.authEvent l obj)) = s.mem.session := by
  simp [nextSession, eventSession, h, hp]

theorem session_no_poke {s : AppState} {x : AppPoke} (h : ∀ l obj, x ≠ .authEvent l obj) :
    nextSession same s (.poke x) = s.mem.session := by
  cases x with
  | authEvent l obj => exact absurd rfl (h l obj)
  | _ => rfl

theorem poke_session {s : AppState} {x : AppPoke} {m : AppMem} {w : AppWorld}
    (h : appPoke same x s.mem s.world = some (m, w)) :
    m.session = nextSession same s (.poke x) := by
  unfold AppMem.session
  rcases poke_auth h with ⟨hother, hauth⟩ | ⟨l, obj, event, rest, rfl, hl, hauth⟩
  · rw [hauth, session_no_poke hother]
    rfl
  · have hnext : nextEvent s l obj = some (event.map (·.user obj)) := by
      unfold nextEvent
      rw [hl]
    show _ = eventSession same s l obj
    unfold eventSession
    rw [hnext, hauth]
    exact onAuthChange_session s.mem.auth _

theorem session_step {s t : AppState} {a : AppAct} (hs : AppGuarded s)
    (h : step (app same) s a = some t) : t.mem.session = nextSession same s a := by
  cases a with
  | start i c =>
    obtain ⟨_, rfl⟩ := step_start h
    exact start_session c s.mem
  | resume i e =>
    obtain ⟨c, o, k, w, a, hi, hw, rfl⟩ := step_resume h
    obtain ⟨_, ⟨_, hstore⟩, _⟩ := hs.calls i c _ hi
    have hcredential : nextCredential s i = arrived o := by
      unfold nextCredential
      rw [hi]
    show _ = answeredSession s i
    unfold answeredSession
    rw [hcredential]
    exact hstore a s.mem (appRely_of_handle o e _ _ a hw)
  | poke x =>
    obtain ⟨m, w, hw, rfl⟩ := step_poke h
    exact poke_session hw

theorem status_step {s t : AppState} {a : AppAct} (hs : AppGuarded s)
    (h : step (app same) s a = some t) :
    t.mem.auth.firebaseAuthStatus = (nextSession same s a).1 := by
  rw [← session_step hs h, AppMem.session]

theorem user_step {s t : AppState} {a : AppAct} (hs : AppGuarded s)
    (h : step (app same) s a = some t) : t.mem.auth.user = (nextSession same s a).2 := by
  rw [← session_step hs h, AppMem.session]

end instagram
