-- Signing out. `signOut` asks the Facebook object whether it is logged in, and that object is
-- made by the first Facebook login of the process only.
import Instagram.SignedIn

namespace instagram

open docs firestore async runs

/-! ## One sign-out -/

/-- Run alone, `signOut` gets to its end, everything is closed, and the last notification shows
the final state. Each of its requests has choices of its own. -/
def SignsOut (es : ℕ → AppEnv) (t : AppState) : Prop :=
  ∃ m w, AppCall.signOut.prog.alone appHandle es t.mem t.world = some (m, w, .ok ()) ∧
    w.currentUser = none ∧ w.facebookOpen = false ∧ m.auth.user = none ∧
    m.auth.firebaseAuthStatus = .signout ∧ m.auth.notified = some (.signout, none)

/-- Without a user, the sessions are left as they are. -/
theorem signOut_nobody {es : ℕ → AppEnv} {m : AppMem} {w : AppWorld} (hm : m.auth.user = none) :
    AppCall.signOut.prog.alone appHandle es m w =
      some ({ m with auth := { m.auth with
        firebaseAuthStatus := .signout, notified := some (.signout, none) } }, w, .ok ()) := by
  unfold AppCall.prog signOut getAuth modifyAuth
  simp [Prog.alone, FirebaseAuthState.changeFirebaseAuthStatus,
    FirebaseAuthState.notifyListeners, hm]

/-- The memory while `signOut` waits for the services: the listeners saw `progress` last. -/
def AppMem.closing (m : AppMem) : AppMem :=
  { m with auth := { m.auth with
    firebaseAuthStatus := .signout, user := none, notified := some (.progress, m.auth.user) } }

theorem signOut_somebody {es : ℕ → AppEnv} {m : AppMem} {w : AppWorld}
    (hm : m.auth.user.isSome) :
    AppCall.signOut.prog.alone appHandle es m w =
      (closeSessions >>= fun _ => modifyAuth FirebaseAuthState.notifyListeners).alone appHandle es
        m.closing w := by
  unfold AppCall.prog signOut getAuth modifyAuth
  simp [Prog.alone, FirebaseAuthState.changeFirebaseAuthStatus,
    FirebaseAuthState.notifyListeners, hm, AppMem.closing]

/-- The requests of `closeSessions`: whether Facebook is logged in, its logout if it is, and the
sign-out of Firebase. -/
def AppWorld.closings (w : AppWorld) : ℕ := if w.facebookOpen then 3 else 2

/-- The services close what is open, when there is a Facebook object to ask and none raises. -/
theorem closeSessions_alone {es : ℕ → AppEnv} {m : AppMem} {w : AppWorld}
    (hmade : m.auth.facebookLogin = true) (he : ∀ n < w.closings, (es n).error = none) :
    (closeSessions >>= fun _ => modifyAuth FirebaseAuthState.notifyListeners).alone appHandle es
        m w =
      some ({ m with auth := m.auth.notifyListeners },
        ({ w with facebookOpen := false }).setUser none, .ok ()) := by
  obtain ⟨user, listeners, isOpen, db⟩ := w
  unfold closeSessions facebookIsLoggedIn facebookLogOut firebaseSignOut onFacebookLogin getAuth
    modifyAuth
  cases isOpen with
  | false =>
    have h0 : (es 0).error = none := he 0 (by simp [AppWorld.closings])
    have h1 : (es 1).error = none := he 1 (by simp [AppWorld.closings])
    simp [Prog.alone, appHandle, AppEnv.answer, AppWorld.setUser, hmade, h0, h1]
  | true =>
    have h0 : (es 0).error = none := he 0 (by simp [AppWorld.closings])
    have h1 : (es 1).error = none := he 1 (by simp [AppWorld.closings])
    have h2 : (es 2).error = none := he 2 (by simp [AppWorld.closings])
    simp [Prog.alone, appHandle, AppEnv.answer, AppWorld.setUser, hmade, h0, h1, h2]

theorem closeSessions_raises {es : ℕ → AppEnv} {m : AppMem} {w : AppWorld}
    (h : m.auth.facebookLogin = false ∨ ∃ n < w.closings, (es n).error ≠ none) :
    ∃ m' w' x, (closeSessions >>= fun _ =>
      modifyAuth FirebaseAuthState.notifyListeners).alone appHandle es m w =
        some (m', w', .error x) := by
  obtain ⟨user, listeners, isOpen, db⟩ := w
  unfold closeSessions facebookIsLoggedIn facebookLogOut firebaseSignOut onFacebookLogin getAuth
  cases hmade : m.auth.facebookLogin with
  | false =>
    refine ⟨m, ⟨user, listeners, isOpen, db⟩, .noSuchMethod, ?_⟩
    simp [Prog.alone, hmade]
  | true =>
    obtain ⟨n, hn, hx⟩ := h.resolve_left (by simp [hmade])
    -- the first request that fails ends it
    cases h0 : (es 0).error with
    | some x =>
      refine ⟨m, ⟨user, listeners, isOpen, db⟩, x, ?_⟩
      simp [Prog.alone, hmade, appHandle, AppEnv.answer, h0]
    | none =>
      cases h1 : (es 1).error with
      | some x =>
        refine ⟨m, ⟨user, listeners, isOpen, db⟩, x, ?_⟩
        cases isOpen <;> simp [Prog.alone, hmade, appHandle, AppEnv.answer, h0, h1]
      | none =>
        have hrest : n ≠ 0 ∧ n ≠ 1 :=
          ⟨fun he => hx (by rw [he, h0]), fun he => hx (by rw [he, h1])⟩
        cases isOpen with
        | false =>
          have htwo : n < 2 := hn
          omega
        | true =>
          have hthree : n < 3 := hn
          obtain rfl : n = 2 := by omega
          obtain ⟨x, h2⟩ := Option.ne_none_iff_exists'.mp hx
          refine ⟨m, ⟨user, listeners, false, db⟩, x, ?_⟩
          simp [Prog.alone, hmade, appHandle, AppEnv.answer, h0, h1, h2]

theorem signsOut_iff {es : ℕ → AppEnv} {t : AppState} : SignsOut es t ↔
    (t.mem.auth.user = none ∧ t.world.currentUser = none ∧ t.world.facebookOpen = false) ∨
      (t.mem.auth.user.isSome ∧ t.mem.auth.facebookLogin = true ∧
        ∀ n < t.world.closings, (es n).error = none) := by
  unfold SignsOut
  cases hm : t.mem.auth.user with
  | none =>
    rw [signOut_nobody hm]
    constructor
    · rintro ⟨m, w, halone, hcurrent, hopen, _⟩
      cases halone
      exact Or.inl ⟨rfl, hcurrent, hopen⟩
    · rintro (⟨_, hcurrent, hopen⟩ | ⟨hsome, _⟩)
      · exact ⟨_, _, rfl, hcurrent, hopen, hm, rfl, rfl⟩
      · cases hsome
  | some user =>
    rw [signOut_somebody (by rw [hm]; rfl)]
    by_cases hclose : t.mem.closing.auth.facebookLogin = true ∧
        ∀ n < t.world.closings, (es n).error = none
    · rw [closeSessions_alone hclose.1 hclose.2]
      exact iff_of_true ⟨_, _, rfl, rfl, rfl, rfl, rfl, rfl⟩ (Or.inr ⟨rfl, hclose⟩)
    · obtain ⟨m', w', x, hraises⟩ := closeSessions_raises (m := t.mem.closing) (w := t.world)
        (by by_contra hno; exact hclose (by simpa using hno))
      rw [hraises]
      refine iff_of_false ?_ ?_
      · rintro ⟨m, w, halone, _⟩
        cases halone
      · rintro (⟨hnone, _⟩ | ⟨_, hboth⟩)
        · cases hnone
        · exact hclose hboth

/-! ## The Facebook object -/

/-- A Facebook login was started in this process. -/
def FacebookTried (t : AppState) : Prop :=
  ∃ i, (t.calls i).map (·.1) = some .loginWithFacebook

/-- Whether the Facebook object was made. -/
def AppMem.made (m : AppMem) : Bool := m.auth.facebookLogin

theorem keeps_made : Keeps (fun _ => True)
    (fun f => ∀ m : AppMem, AppMem.made { m with auth := f m.auth } = m.made)
    fun _ p => ∀ m, p.Frames AppMem.made m :=
  keeps_frames (fun _ _ => rfl) fun _ _ => rfl

theorem made_authChange {f : FirebaseAuthState → FirebaseAuthState} (hf : AuthChange f)
    (m : AppMem) : AppMem.made { m with auth := f m.auth } = m.made := by
  cases hf <;> rfl

/-- No turn after the first one makes the object, or loses it. -/
abbrev KeepsMade (o : AppOp) (k : AppAns o → AppProg Unit) : Prop :=
  ∀ a m, ((k a).settle m).1.made = m.made

theorem frames_made {c : AppCall} (hc : c ≠ .loginWithFacebook) (m : AppMem) :
    c.prog.Frames AppMem.made m := by
  cases c with
  | registerUser email password =>
    exact keeps_made.registerUser (fun _ => made_authChange) (fun _ _ => trivial) email password m
  | logIn email password =>
    exact keeps_made.logIn (fun _ => made_authChange) (fun _ _ => trivial) email password m
  | loginWithFacebook => exact absurd rfl hc
  | signOut => exact keeps_made.signOut (fun _ => made_authChange) (fun _ => trivial) m
  | rootConsumer => exact frames_rootConsumer (fun _ _ _ => rfl) m

/-- A Facebook login makes the object before it waits for anything. -/
theorem facebook_made (m : AppMem) :
    (AppCall.loginWithFacebook.prog.settle m).1.made = true := rfl

theorem prog_keepsMade (c : AppCall) : c.prog.Awaits AppRely KeepsMade := by
  by_cases hc : c = .loginWithFacebook
  · subst hc
    have hdialog := keeps_made.await (o := .facebookLogIn) trivial keeps_made.ofExcept
    have hrest := keeps_made.bind hdialog fun result =>
      keeps_made.facebookResult (fun _ => made_authChange) (fun _ _ => trivial) result
    exact modifyAuth_awaits (modifyAuth_awaits (awaits_of_frames (hrest .initial)))
  · exact awaits_of_frames (frames_made hc .initial)

/-- What the calls of every run keep of the object. -/
abbrev MadeGuarded : AppState → Prop :=
  Guarded (fun _ : AppWorld => True) AppRely (fun _ => True) fun _ => KeepsMade

variable {same : User → User → Bool}

theorem madeGuarded_step (s : AppState) (a : AppAct) (t : AppState) (hs : MadeGuarded s)
    (h : step (app same) s a = some t) : MadeGuarded t :=
  guarded_step (fun c _ => prog_keepsMade c) (fun o e w w' a _ h => appRely_of_handle o e w w' a h)
    (fun _ _ _ _ _ _ _ _ _ _ _ => trivial) (fun _ _ _ _ _ _ _ => trivial) s a t (starts_any a)
    hs h

theorem made_poke {x : AppPoke} {m m' : AppMem} {w w' : AppWorld}
    (h : appPoke same x m w = some (m', w')) : m'.made = m.made := by
  unfold AppMem.made
  rcases poke_auth h with ⟨_, hauth⟩ | ⟨l, obj, event, rest, _, _, hauth⟩
  · rw [hauth]
  · rw [hauth]
    unfold FirebaseAuthState.onAuthChange
    split_ifs <;> rfl

/-- The object is there exactly when a Facebook login was started. -/
def MadeByLogin (s : AppState) : Prop := s.mem.made = true ↔ FacebookTried s

theorem madeByLogin_step (s : AppState) (a : AppAct) (t : AppState)
    (hs : MadeGuarded s ∧ MadeByLogin s) (h : step (app same) s a = some t) :
    MadeGuarded t ∧ MadeByLogin t := by
  obtain ⟨hguard, hmade⟩ := hs
  refine ⟨madeGuarded_step s a t hguard h, ?_⟩
  unfold MadeByLogin FacebookTried at hmade ⊢
  cases a with
  | start i c =>
    obtain ⟨hi, rfl⟩ := step_start h
    by_cases hc : c = .loginWithFacebook
    · subst hc
      exact iff_of_true (facebook_made s.mem) ⟨i, by simp⟩
    · have hkeep : (((app same).prog c).settle s.mem).1.made = s.mem.made :=
        (frames_made hc s.mem).settle
      show _ = true ↔ _
      rw [hkeep, hmade]
      refine exists_congr fun j => ?_
      by_cases hj : j = i
      · subst hj
        simp [hi, hc]
      · simp [Function.update_of_ne hj]
  | resume i e =>
    obtain ⟨c, o, k, w, a, hi, hw, rfl⟩ := step_resume h
    obtain ⟨_, hk, _⟩ := hguard.calls i c _ hi
    show _ = true ↔ _
    rw [hk a s.mem, hmade]
    -- the calls are the same ones
    refine exists_congr fun j => ?_
    by_cases hj : j = i
    · subst hj
      simp [hi]
    · simp [Function.update_of_ne hj]
  | poke x =>
    obtain ⟨m, w, hw, rfl⟩ := step_poke h
    rw [← hmade]
    exact Bool.eq_iff_iff.mp (made_poke hw)

/-! ## The law -/

/-- In every state of every run, a sign-out gets to its end with everything closed exactly when
there was nothing to close, or somebody is signed in, a Facebook login was started in this
process, and no request to a service raises. -/
theorem sign_out_completes_iff_a_facebook_login_was_tried (w : AppWorld) (as : List AppAct)
    (t : AppState) (h : run (step (app same)) (appInit w) as = some t) (es : ℕ → AppEnv) :
    SignsOut es t ↔
      (t.mem.auth.user = none ∧ t.world.currentUser = none ∧ t.world.facebookOpen = false) ∨
        (t.mem.auth.user.isSome ∧ FacebookTried t ∧
          ∀ n < t.world.closings, (es n).error = none) := by
  have hinit : MadeGuarded (appInit w) ∧ MadeByLogin (appInit w) := by
    refine ⟨guarded_init _ trivial, iff_of_false Bool.false_ne_true ?_⟩
    rintro ⟨i, hi⟩
    cases hi
  obtain ⟨_, hmade⟩ :=
    run_keeps (A := fun _ => True) (fun s a t _ => madeByLogin_step s a t)
      (fun _ _ => trivial) hinit h
  unfold MadeByLogin at hmade
  rw [signsOut_iff, ← hmade]
  rfl

/-- Ann's session from the last time, which the listener will hear of. -/
def restoredWorld : AppWorld :=
  ⟨some ⟨"ann", none⟩, [[some ⟨"ann", none⟩]], false, ⟨fun _ => none, []⟩⟩

/-- Ann is signed in without any login, and there is nothing to ask about Facebook. -/
theorem a_restored_session_cannot_be_left :
    ¬∀ (w : AppWorld) (as : List AppAct) (t : AppState),
      run (step (app sameUid)) (appInit w) as = some t → t.mem.auth.user.isSome →
        ∀ es : ℕ → AppEnv, (∀ n, (es n).error = none) → SignsOut es t := by
  intro h
  have hend : (run (step (app sameUid)) (appInit restoredWorld) [.poke (.authEvent 0 1)]).map
      (fun t => (t.mem.auth.user.isSome, t.mem.auth.facebookLogin)) = some (true, false) := by
    decide
  obtain ⟨t, ht, hvalues⟩ := Option.map_eq_some_iff.mp hend
  simp only [Prod.mk.injEq] at hvalues
  have hout := h restoredWorld _ t ht hvalues.1 (fun _ => granted ⟨"ann", none⟩) fun _ => rfl
  rcases signsOut_iff.mp hout with ⟨hnone, _⟩ | ⟨_, hmade, _⟩
  · simp [hnone] at hvalues
  · simp [hvalues.2] at hmade

/-- Ann logs in with Facebook, and the listener hears of it. -/
def facebookSession : List AppAct :=
  [.start 0 .loginWithFacebook,
   .resume 0 { granted ⟨"ann", none⟩ with facebook := ⟨.loggedIn, "token"⟩ },
   .resume 0 (granted ⟨"ann", none⟩), .poke (.authEvent 0 1), .poke (.authEvent 0 2)]

theorem sign_out_completes_after_a_facebook_login :
    ∃ t, run (step (app sameUid)) (appInit (signedOutWorld fun _ => none)) facebookSession =
        some t ∧ t.world.facebookOpen = true ∧ SignsOut (fun _ => granted ⟨"ann", none⟩) t := by
  have hend : (run (step (app sameUid)) (appInit (signedOutWorld fun _ => none))
      facebookSession).map (fun t => (t.world.facebookOpen, t.mem.auth.user.isSome,
        (t.calls 0).map (·.1))) = some (true, true, some .loginWithFacebook) := by decide
  obtain ⟨t, ht, hvalues⟩ := Option.map_eq_some_iff.mp hend
  simp only [Prod.mk.injEq] at hvalues
  obtain ⟨hopen, huser, hcall⟩ := hvalues
  have hiff := sign_out_completes_iff_a_facebook_login_was_tried _ _ t ht
    fun _ => granted ⟨"ann", none⟩
  exact ⟨t, ht, hopen, hiff.mpr (Or.inr ⟨huser, ⟨0, hcall⟩, fun _ _ => rfl⟩)⟩

end instagram
