-- Many listeners of the auth state. Each one brings the shared state to the user of the event
-- that it handles, and the last event of every queue is the current user. So the one that
-- comes last leaves the state as a single listener does.
import Instagram.SignedIn

namespace instagram

open docs firestore async runs

/-! ## Events -/

/-- The change of the current user, when the step is one. -/
def changed : AppAct → Option (Option Account)
  | .poke (.setUser account) => some account
  | _ => none

/-- The user at the start, and then each change. -/
def authEvents (user : Option Account) (as : List AppAct) : List (Option Account) :=
  user :: as.filterMap changed

/-- What one listener makes of the events that it hears. -/
def oneListener (events : List (Option Account)) : FirebaseAuthState :=
  events.foldl (fun s e => s.onAuthChange sameUid (e.map (·.user 0))) .initial

/-- A stored user is signed in. -/
def Follows (session : FirebaseAuthStatus × Option User) : Prop :=
  session.2.isSome → session.1 = .signin

/-- The status and the stored user are those of the account. -/
structure ShowsUser (session : FirebaseAuthStatus × Option User) (account : Option Account) :
    Prop where
  status : session.1 = if account.isSome then .signin else .signout
  user : session.2.map (·.uid) = account.map (·.uid)

theorem ShowsUser.follows {session : FirebaseAuthStatus × Option User} {account : Option Account}
    (h : ShowsUser session account) : Follows session := by
  intro hs
  have hsome : (account.map (·.uid)).isSome := by
    rw [← h.user, Option.isSome_map]
    exact hs
  rw [h.status, if_pos (by simpa using hsome)]

/-- Whatever was stored, an event brings the state to its own user. -/
theorem shows_event {session : FirebaseAuthStatus × Option User} (hs : Follows session)
    (event : Option Account) (obj : ℕ) :
    ShowsUser (if Publishes sameUid session.2 (event.map (·.user obj)) then
      (statusOf (event.map (·.user obj)), event.map (·.user obj)) else session) event := by
  split
  · refine ⟨?_, ?_⟩
    · rw [statusOf, Option.isSome_map]
    · rw [Option.map_map]
      rfl
  · -- the stored user is of the same account, so nothing has to change
    rename_i hp
    obtain ⟨status, stored⟩ := session
    unfold Publishes at hp
    rcases event with _ | account
    · cases stored <;> simp [sameUser] at hp
    · rcases stored with _ | stored
      · simp [sameUser] at hp
      · have huid : account.uid = stored.uid := by
          simpa [sameUser, sameUid, Account.user] using hp
        refine ⟨hs rfl, ?_⟩
        rw [Option.map_some, Option.map_some, huid]

theorem oneListener_snoc (events : List (Option Account)) (event : Option Account) :
    oneListener (events ++ [event]) =
      (oneListener events).onAuthChange sameUid (event.map (·.user 0)) := by
  simp [oneListener]

/-- A single listener shows the last event. -/
theorem oneListener_shows (events : List (Option Account)) (event : Option Account) :
    ShowsUser ((oneListener (events ++ [event])).firebaseAuthStatus,
      (oneListener (events ++ [event])).user) event := by
  have hfollows : Follows ((oneListener events).firebaseAuthStatus, (oneListener events).user) := by
    induction events using List.reverseRecOn with
    | nil =>
      intro hs
      cases hs
    | append_singleton events e ih =>
      rw [oneListener_snoc, onAuthChange_session]
      exact (shows_event ih e 0).follows
  rw [oneListener_snoc, onAuthChange_session]
  exact shows_event hfollows event 0

/-! ## Many listeners -/

/-- Every call is a build, which awaits nothing but the end of a subscription. -/
abbrev BuildsOnly : AppState → Prop :=
  Guarded (fun _ : AppWorld => True) AppRely (· = .rootConsumer)
    fun _ o _ => o = .cancelSubscription

theorem buildsOnly_step (s : AppState) (a : AppAct) (t : AppState)
    (ha : a.Starts (· = .rootConsumer)) (hs : BuildsOnly s)
    (h : step (app sameUid) s a = some t) : BuildsOnly t := by
  refine guarded_step (fun c hc => ?_) (fun o e w w' a _ h => appRely_of_handle o e w w' a h)
    (fun _ _ _ _ _ _ _ _ _ _ _ => trivial) (fun _ _ _ _ _ _ _ => trivial) s a t ha hs h
  subst hc
  exact ops_rootConsumer (G := fun o => o = .cancelSubscription) rfl

/-- A queue that is not empty ends with the current user. When all queues of some listeners
are empty, the state shows the current user. -/
structure Listens (session : FirebaseAuthStatus × Option User)
    (listeners : List (List (Option Account))) (user : Option Account) : Prop where
  follows : Follows session
  queues : ∀ q ∈ listeners, ∀ e, q.getLast? = some e → e = user
  settled : listeners ≠ [] → (∀ q ∈ listeners, q = []) → ShowsUser session user

variable {session : FirebaseAuthStatus × Option User} {listeners : List (List (Option Account))}
  {user : Option Account}

/-- A new listener hears of the current user. -/
theorem Listens.watch (hs : Listens session listeners user) :
    Listens session (listeners ++ [[user]]) user := by
  refine ⟨hs.follows, fun q hq e he => ?_, fun _ hdone => ?_⟩
  · rcases List.mem_append.mp hq with hold | hnew
    · exact hs.queues q hold e he
    · rw [List.mem_singleton] at hnew
      subst hnew
      cases he
      rfl
  · exact absurd (hdone [user] (by simp)) (by simp)

/-- A change puts every queue in debt. -/
theorem Listens.change (hs : Listens session listeners user) (account : Option Account) :
    Listens session (listeners.map (· ++ [account])) account := by
  refine ⟨hs.follows, fun q hq e he => ?_, fun hne hdone => ?_⟩
  · obtain ⟨p, _, rfl⟩ := List.mem_map.mp hq
    rw [List.getLast?_concat] at he
    cases he
    rfl
  · obtain ⟨q, hq⟩ := List.exists_mem_of_ne_nil _ hne
    obtain ⟨p, _, rfl⟩ := List.mem_map.mp hq
    exact absurd (hdone _ hq) (by simp)

/-- A delivery brings the state to its event, which is the current one when it was the last. -/
theorem Listens.deliver {l obj : ℕ} {event : Option Account} {rest : List (Option Account)}
    (hs : Listens session listeners user) (hl : listeners[l]? = some (event :: rest)) :
    Listens (if Publishes sameUid session.2 (event.map (·.user obj)) then
      (statusOf (event.map (·.user obj)), event.map (·.user obj)) else session)
      (listeners.set l rest) user := by
  have hshows := shows_event hs.follows event obj
  have hmem := List.mem_of_getElem? hl
  refine ⟨hshows.follows, fun q hq e he => ?_, fun _ hdone => ?_⟩
  · rcases List.mem_or_eq_of_mem_set hq with hold | rfl
    · exact hs.queues q hold e he
    · -- what remains of a queue ends as the queue did
      refine hs.queues _ hmem e ?_
      rw [List.getLast?_cons, he]
      rfl
  · have hlt : l < listeners.length := (List.getElem?_eq_some_iff.mp hl).1
    have hrest : rest = [] := hdone rest (List.mem_set hlt rest)
    subst hrest
    rw [← hs.queues _ hmem event rfl]
    exact hshows

theorem listens_poke {s : AppState} {x : AppPoke} {m : AppMem} {w : AppWorld}
    (hs : Listens s.mem.session s.world.listeners s.world.currentUser)
    (h : appPoke sameUid x s.mem s.world = some (m, w)) :
    Listens m.session w.listeners w.currentUser := by
  have hsession := poke_session h
  cases x with
  | watchAuthChange =>
    cases h
    exact hs.watch
  | authEvent l obj =>
    obtain ⟨event, rest, hl, rfl, rfl⟩ := poke_authEvent h
    unfold AppMem.session
    rw [onAuthChange_session]
    exact hs.deliver hl
  | setUser account =>
    cases h
    exact hs.change account
  | snapshot i =>
    obtain ⟨sub, _, rfl, rfl⟩ := poke_snapshot h
    exact hs
  | deliver i =>
    obtain ⟨sub, snapshot, rest, _, _, _, rfl, rfl⟩ := poke_deliver h
    rw [hsession]
    exact hs
  | write ws =>
    obtain ⟨docs, _, rfl, rfl⟩ := poke_write h
    exact hs
  | mount mounted =>
    cases h
    exact hs

theorem listens_step (s : AppState) (a : AppAct) (t : AppState)
    (ha : a.Starts (· = .rootConsumer))
    (hs : (AppGuarded s ∧ BuildsOnly s) ∧
      Listens s.mem.session s.world.listeners s.world.currentUser)
    (h : step (app sameUid) s a = some t) :
    (AppGuarded t ∧ BuildsOnly t) ∧
      Listens t.mem.session t.world.listeners t.world.currentUser := by
  obtain ⟨⟨hguard, hbuilds⟩, hlistens⟩ := hs
  refine ⟨⟨appGuarded_step s a t hguard h, buildsOnly_step s a t ha hbuilds h⟩, ?_⟩
  have hsession := session_step hguard h
  cases a with
  | start i c =>
    obtain rfl : c = .rootConsumer := ha
    obtain ⟨_, rfl⟩ := step_start h
    rw [hsession]
    exact hlistens
  | resume i e =>
    obtain ⟨c, o, k, w, a, hi, hw, rfl⟩ := step_resume h
    obtain ⟨_, rfl, _⟩ := hbuilds.calls i c _ hi
    cases hw
    have hnone : nextCredential s i = none := by
      unfold nextCredential
      rw [hi]
      rfl
    rw [hsession, session_unanswered e hnone]
    exact hlistens
  | poke x =>
    obtain ⟨m, w, hpoke, rfl⟩ := step_poke h
    exact listens_poke hlistens hpoke

/-- Only Firebase changes the current user, when nobody calls a sign-in method. -/
theorem currentUser_step {s t : AppState} {a : AppAct} (hbuilds : BuildsOnly s)
    (h : step (app sameUid) s a = some t) :
    t.world.currentUser = (changed a).getD s.world.currentUser := by
  cases a with
  | start i c =>
    obtain ⟨_, rfl⟩ := step_start h
    rfl
  | resume i e =>
    obtain ⟨c, o, k, w, a, hi, hw, rfl⟩ := step_resume h
    obtain ⟨_, rfl, _⟩ := hbuilds.calls i c _ hi
    cases hw
    rfl
  | poke x =>
    obtain ⟨m, w, hpoke, rfl⟩ := step_poke h
    have hw : appPoke sameUid x s.mem s.world = some (m, w) := hpoke
    cases x with
    | authEvent l obj =>
      obtain ⟨_, _, _, rfl, rfl⟩ := poke_authEvent hw
      rfl
    | snapshot i =>
      obtain ⟨_, _, rfl, rfl⟩ := poke_snapshot hw
      rfl
    | deliver i =>
      obtain ⟨_, _, _, _, _, _, rfl, rfl⟩ := poke_deliver hw
      rfl
    | write ws =>
      obtain ⟨_, _, rfl, rfl⟩ := poke_write hw
      rfl
    | _ =>
      cases hw
      rfl

/-- The current user is the last event. -/
theorem authEvents_last {w : AppWorld} {as : List AppAct}
    (has : ∀ a ∈ as, a.Starts (· = .rootConsumer)) {t : AppState}
    (h : run (step (app sameUid)) (appInit w) as = some t) :
    ∃ events, authEvents w.currentUser as = events ++ [t.world.currentUser] := by
  induction as using List.reverseRecOn generalizing t with
  | nil =>
    cases h
    exact ⟨[], rfl⟩
  | append_singleton as a ih =>
    have hpre : ∀ b ∈ as, b.Starts (· = .rootConsumer) := fun b hb => has b (by simp [hb])
    obtain ⟨s, hrun, hlast⟩ := run_snoc_some h
    obtain ⟨events, hevents⟩ := ih hpre hrun
    have hbuilds := run_keeps buildsOnly_step hpre (guarded_init _ trivial) hrun
    have huser := currentUser_step hbuilds hlast
    have hsnoc : authEvents w.currentUser (as ++ [a]) =
        authEvents w.currentUser as ++ (changed a).toList := by
      unfold authEvents
      rw [List.filterMap_append, List.cons_append]
      cases hc : changed a <;> simp [hc]
    rw [hsnoc, hevents, huser]
    cases changed a with
    | none => exact ⟨events, by simp⟩
    | some account => exact ⟨events ++ [s.world.currentUser], rfl⟩

/-! ## The law -/

/-- However many listeners there are, whenever they were registered, and in whatever order
they hear: when they all have heard everything, the stored user is the user of the last event
and the status follows. It is what a single listener makes of the events. -/
theorem extra_auth_listeners_are_harmless (w : AppWorld) (hw : w.listeners = [])
    (as : List AppAct) (has : ∀ a ∈ as, a.Starts (· = .rootConsumer)) (t : AppState)
    (h : run (step (app sameUid)) (appInit w) as = some t)
    (hlisteners : t.world.listeners ≠ []) (hdone : ∀ q ∈ t.world.listeners, q = []) :
    ∃ last, (authEvents w.currentUser as).getLast? = some last ∧
      t.mem.auth.user.map (·.uid) = last.map (·.uid) ∧
      (t.mem.auth.firebaseAuthStatus = .signin ↔ last.isSome) ∧
      t.mem.auth.user.map (·.uid) =
        (oneListener (authEvents w.currentUser as)).user.map (·.uid) ∧
      t.mem.auth.firebaseAuthStatus =
        (oneListener (authEvents w.currentUser as)).firebaseAuthStatus := by
  have hinit : (AppGuarded (appInit w) ∧ BuildsOnly (appInit w)) ∧
      Listens (appInit w).mem.session (appInit w).world.listeners
        (appInit w).world.currentUser := by
    refine ⟨⟨appGuarded_init w, guarded_init _ trivial⟩, fun hs => ?_, fun q hq => ?_, ?_⟩
    · cases hs
    · have hq : q ∈ w.listeners := hq
      simp [hw] at hq
    · exact fun hne => absurd hw hne
  obtain ⟨_, hlistens⟩ := run_keeps listens_step has hinit h
  have hshows := hlistens.settled hlisteners hdone
  obtain ⟨events, hevents⟩ := authEvents_last has h
  have hone := oneListener_shows events t.world.currentUser
  rw [← hevents] at hone
  refine ⟨t.world.currentUser, ?_, hshows.user, ?_, ?_, ?_⟩
  · rw [hevents, List.getLast?_concat]
  · have hstatus : t.mem.auth.firebaseAuthStatus = _ := hshows.status
    rw [hstatus]
    cases t.world.currentUser <;> simp
  · exact hshows.user.trans hone.user.symm
  · exact hshows.status.trans hone.status.symm

/-- Two listeners. The first hears at once that Ann came and went and that Bob is there, and
then the second replays it all. -/
def slowListener : List AppAct :=
  [.poke .watchAuthChange, .poke .watchAuthChange, .poke (.setUser (some ⟨"ann", none⟩)),
   .poke (.setUser none), .poke (.setUser (some ⟨"bob", none⟩)), .poke (.authEvent 0 1),
   .poke (.authEvent 0 2), .poke (.authEvent 0 3), .poke (.authEvent 0 4),
   .poke (.authEvent 1 5), .poke (.authEvent 1 6), .poke (.authEvent 1 7),
   .poke (.authEvent 1 8)]

def nobody : AppWorld := ⟨none, [], false, ⟨fun _ => none, []⟩⟩

theorem slowListener_starts : ∀ a ∈ slowListener, a.Starts (· = .rootConsumer) := by
  simp [slowListener, Act.Starts]

theorem extra_auth_listeners_are_harmless_at_a_slow_one :
    ∃ t, run (step (app sameUid)) (appInit nobody) slowListener = some t ∧
      t.mem.auth.user.map (·.uid) = some "bob" ∧ t.mem.auth.firebaseAuthStatus = .signin := by
  have hend : (run (step (app sameUid)) (appInit nobody) slowListener).map (fun t =>
      (t.world.listeners, t.mem.auth.user.map (·.uid), t.mem.auth.firebaseAuthStatus)) =
        some ([[], []], some "bob", .signin) := by decide
  obtain ⟨t, ht, hvalues⟩ := Option.map_eq_some_iff.mp hend
  simp only [Prod.mk.injEq] at hvalues
  obtain ⟨last, hlast, huser, hstatus, _⟩ :=
    extra_auth_listeners_are_harmless nobody rfl slowListener slowListener_starts t ht
      (by rw [hvalues.1]; simp) (by rw [hvalues.1]; simp)
  have hbob : last = some ⟨"bob", none⟩ := Option.some.inj (hlast.symm.trans (by decide))
  subst hbob
  exact ⟨t, ht, huser, hstatus.mpr rfl⟩

end instagram
