-- Leaving the status `progress`. A sign-in method puts it up at once and never takes it down
-- itself: only an event that the listener publishes does. So what counts is which events the
-- listener published since the last method began.
import Instagram.SignedIn

namespace instagram

open docs firestore async runs

variable {same : User → User → Bool}

/-! ## Sign-in methods -/

/-- A step of the sign-in methods, of the listener, of the form, or of somebody else's data. -/
def SignInAct : AppAct → Prop
  | .start _ c => c.SignsIn
  | .resume _ _ => True
  | .poke (.authEvent _ _) => True
  | .poke (.mount _) => True
  | .poke (.write _) => True
  | .poke _ => False

/-- The operation is not Firebase's sign-out. -/
def StaysIn (o : AppOp) : Prop := o ≠ .signOut

/-- A sign-in method never asks Firebase to sign out. -/
theorem signIn_staysIn {c : AppCall} (h : c.SignsIn) : Ops StaysIn c.prog :=
  (keeps_ops StaysIn).signsIn (fun _ => trivial) (fun _ ho => ho) h

/-! ## The events that the listener publishes -/

/-- The events published since the last method began, oldest first. -/
def publishedSince (same : User → User → Bool) (s : AppState) (a : AppAct)
    (users : List (Option User)) : List (Option User) :=
  match a with
  | .start _ _ => []
  | .poke (.authEvent l obj) =>
    match nextEvent s l obj with
    | some user => if Publishes same s.mem.auth.user user then users ++ [user] else users
    | none => users
  | _ => users

/-- Whether the listener ever got an event. -/
def heardSince (_ : AppState) (a : AppAct) (heard : Bool) : Bool :=
  match a with
  | .poke (.authEvent _ _) => true
  | _ => heard

/-- The status that the published events leave. -/
def statusAfter (users : List (Option User)) : FirebaseAuthStatus :=
  match users.getLast? with
  | some user => statusOf user
  | none => .progress

/-- What a run with one listener keeps. Only the very first event can be null, because no
sign-in method signs out, and a user stays once there is one. -/
structure Listening (s : AppState) (users : List (Option User)) (heard : Bool) : Prop where
  status : s.mem.auth.firebaseAuthStatus = statusAfter users
  queue : ∃ q, s.world.listeners = [q] ∧ (∀ e ∈ q.tail, e.isSome) ∧
    (heard = true → ∀ e ∈ q, e.isSome) ∧ (s.world.currentUser = none → ∀ e ∈ q, e = none)
  heard : users ≠ [] → heard = true
  later : ∀ user ∈ users.tail, user.isSome
  nobody : s.world.currentUser = none → ∀ user ∈ users, user = none

theorem answer_world {ρ : Type} {e : AppEnv} {w w₁ w' : AppWorld} {r : ρ}
    {a : Except DartError ρ} (h : some (e.answer w w₁ r) = some (w', a)) : w' = w ∨ w' = w₁ := by
  unfold AppEnv.answer at h
  split at h
  · cases h
    exact Or.inl rfl
  · cases h
    exact Or.inr rfl

/-- An answer leaves the current user and the events as they are, or a user signs in. -/
theorem handle_world {o : AppOp} {e : AppEnv} {w w' : AppWorld} {a : AppAns o} (ho : StaysIn o)
    (h : appHandle o e w = some (w', a)) :
    (w'.currentUser = w.currentUser ∧ w'.listeners = w.listeners) ∨
      ∃ account, w' = w.setUser (some account) := by
  have hsign : ∀ {r}, some (e.signIn w) = some (w', r) →
      (w'.currentUser = w.currentUser ∧ w'.listeners = w.listeners) ∨
        ∃ account, w' = w.setUser (some account) := by
    intro r hr
    rcases answer_world hr with rfl | rfl
    · exact Or.inl ⟨rfl, rfl⟩
    · exact Or.inr ⟨_, rfl⟩
  cases o with
  | createUserWithEmailAndPassword email password => exact hsign h
  | signInWithEmailAndPassword email password => exact hsign h
  | signInWithCredential token => exact hsign h
  | arrives answer =>
    cases h
    exact Or.inl ⟨rfl, rfl⟩
  | signOut => exact absurd rfl ho
  | facebookLogIn =>
    rcases answer_world h with rfl | rfl
    · exact Or.inl ⟨rfl, rfl⟩
    · split <;> exact Or.inl ⟨rfl, rfl⟩
  | facebookIsLoggedIn =>
    rcases answer_world h with rfl | rfl <;> exact Or.inl ⟨rfl, rfl⟩
  | facebookLogOut =>
    rcases answer_world h with rfl | rfl <;> exact Or.inl ⟨rfl, rfl⟩
  | cancelSubscription =>
    cases h
    exact Or.inl ⟨rfl, rfl⟩
  | store o =>
    obtain ⟨⟨db, r⟩, _, hr⟩ := Option.map_eq_some_iff.mp h
    cases hr
    exact Or.inl ⟨rfl, rfl⟩

/-- The sign-in methods in flight never ask Firebase to sign out. -/
abbrev SignInGuarded : AppState → Prop :=
  Guarded (fun _ : AppWorld => True) AppRely AppCall.SignsIn fun _ o _ => StaysIn o

theorem signInAct_starts {a : AppAct} (h : SignInAct a) : a.Starts AppCall.SignsIn := by
  cases a with
  | start i c => exact h
  | resume i e => trivial
  | poke x => trivial

theorem signInGuarded_step (s : AppState) (a : AppAct) (t : AppState) (ha : SignInAct a)
    (hs : SignInGuarded s) (h : step (app same) s a = some t) : SignInGuarded t :=
  guarded_step (fun _ hc => signIn_staysIn hc)
    (fun o e w w' a _ h => appRely_of_handle o e w w' a h)
    (fun _ _ _ _ _ _ _ _ _ _ _ => trivial) (fun _ _ _ _ _ _ _ => trivial) s a t
    (signInAct_starts ha) hs h

/-! ## One step -/

theorem statusAfter_snoc (users : List (Option User)) (user : Option User) :
    statusAfter (users ++ [user]) = statusOf user := by
  unfold statusAfter
  rw [List.getLast?_concat]

theorem opens_signsIn {c : AppCall} (h : c.SignsIn) (s : FirebaseAuthStatus × Option User) :
    (c.opens s).1 = .progress := by
  cases c with
  | signOut => exact h.elim
  | rootConsumer => exact h.elim
  | _ => rfl

theorem listening_start {s t : AppState} {i : ℕ} {c : AppCall} {users : List (Option User)}
    {heard : Bool} (hc : c.SignsIn) (hg : AppGuarded s) (hs : Listening s users heard)
    (h : step (app same) s (.start i c) = some t) : Listening t [] heard := by
  have hstatus := status_step hg h
  obtain ⟨_, rfl⟩ := step_start h
  refine ⟨?_, hs.queue, fun hne => absurd rfl hne, fun _ hu => (by cases hu),
    fun _ _ hu => (by cases hu)⟩
  exact hstatus.trans (opens_signsIn hc _)

theorem listening_resume {s t : AppState} {i : ℕ} {e : AppEnv} {users : List (Option User)}
    {heard : Bool} (hg : AppGuarded s) (hsign : SignInGuarded s) (hs : Listening s users heard)
    (h : step (app same) s (.resume i e) = some t) : Listening t users heard := by
  have hstatus : t.mem.auth.firebaseAuthStatus = s.mem.auth.firebaseAuthStatus := by
    rw [status_step hg h]
    cases hc : nextCredential s i with
    | none => rw [session_unanswered e hc, AppMem.session]
    | some c => rw [session_answered e hc]
  obtain ⟨c, o, k, w, a, hi, hw, rfl⟩ := step_resume h
  obtain ⟨_, ho, _⟩ := hsign.calls i c _ hi
  obtain ⟨q, hq, htail, hheard, hnull⟩ := hs.queue
  rcases handle_world ho hw with ⟨hcurrent, hlisteners⟩ | ⟨account, rfl⟩
  · refine ⟨hstatus.trans hs.status, ⟨q, hlisteners.trans hq, htail, hheard, ?_⟩, hs.heard,
      hs.later, ?_⟩
    · exact fun hnone => hnull (hcurrent.symm.trans hnone)
    · exact fun hnone => hs.nobody (hcurrent.symm.trans hnone)
  · refine ⟨hstatus.trans hs.status, ⟨q ++ [some account], ?_, ?_, ?_, ?_⟩, hs.heard, hs.later, ?_⟩
    · unfold AppWorld.setUser
      rw [hq, List.map_singleton]
    · intro event hevent
      cases q with
      | nil => cases hevent
      | cons first rest =>
        rcases List.mem_append.mp hevent with hold | hnew
        · exact htail event hold
        · rw [List.mem_singleton.mp hnew]
          rfl
    · intro hh event hevent
      rcases List.mem_append.mp hevent with hold | hnew
      · exact hheard hh event hold
      · rw [List.mem_singleton.mp hnew]
        rfl
    · intro hnone
      cases hnone
    · intro hnone
      cases hnone

theorem listening_event {s t : AppState} {l obj : ℕ} {users : List (Option User)} {heard : Bool}
    (hg : AppGuarded s) (hs : Listening s users heard)
    (h : step (app same) s (.poke (.authEvent l obj)) = some t) :
    Listening t (publishedSince same s (.poke (.authEvent l obj)) users) true := by
  have hstatus := status_step hg h
  obtain ⟨m, w, hw, rfl⟩ := step_poke h
  obtain ⟨event, rest, hl, rfl, rfl⟩ := poke_authEvent hw
  obtain ⟨q, hq, htail, hheard, hnull⟩ := hs.queue
  -- the only listener is the first one
  have hlq : l = 0 ∧ q = event :: rest := by
    rw [hq] at hl
    cases l with
    | zero => exact ⟨rfl, Option.some.inj hl⟩
    | succ l => cases hl
  obtain ⟨rfl, rfl⟩ := hlq
  have hnext : nextEvent s 0 obj = some (event.map (·.user obj)) := by
    unfold nextEvent
    rw [hl]
  have hqueue : ∃ q, s.world.listeners.set 0 rest = [q] ∧ (∀ e ∈ q.tail, e.isSome) ∧
      (true = true → ∀ e ∈ q, e.isSome) ∧ (s.world.currentUser = none → ∀ e ∈ q, e = none) := by
    refine ⟨rest, by rw [hq]; rfl, ?_, fun _ => htail, ?_⟩
    · exact fun e he => htail e (List.mem_of_mem_tail he)
    · exact fun hnone e he => hnull hnone e (List.mem_cons_of_mem _ he)
  unfold publishedSince
  dsimp only
  rw [hnext]
  dsimp only
  by_cases hp : Publishes same s.mem.auth.user (event.map (·.user obj))
  · rw [if_pos hp]
    rw [session_published hnext hp] at hstatus
    refine ⟨?_, hqueue, fun _ => rfl, ?_, ?_⟩
    · rw [statusAfter_snoc]
      exact hstatus
    · -- an event that is not the first one published is not the very first one
      cases users with
      | nil => exact fun _ hu => (by cases hu)
      | cons first others =>
        intro user hu
        rcases List.mem_append.mp hu with hold | hnew
        · exact hs.later user hold
        · have hsome := hheard (hs.heard (by simp)) event List.mem_cons_self
          rw [List.mem_singleton.mp hnew, Option.isSome_map]
          exact hsome
    · intro hnone user hu
      rcases List.mem_append.mp hu with hold | hnew
      · exact hs.nobody hnone user hold
      · rw [List.mem_singleton.mp hnew, hnull hnone event List.mem_cons_self]
        rfl
  · rw [if_neg hp]
    rw [session_kept hnext hp] at hstatus
    exact ⟨hstatus.trans hs.status, hqueue, fun _ => rfl, hs.later, hs.nobody⟩

theorem listening_step {s t : AppState} {a : AppAct} {users : List (Option User)} {heard : Bool}
    (ha : SignInAct a) (hg : AppGuarded s) (hsign : SignInGuarded s) (hs : Listening s users heard)
    (h : step (app same) s a = some t) :
    Listening t (publishedSince same s a users) (heardSince s a heard) := by
  cases a with
  | start i c => exact listening_start ha hg hs h
  | resume i e => exact listening_resume hg hsign hs h
  | poke x =>
    cases x with
    | authEvent l obj => exact listening_event hg hs h
    | mount mounted =>
      obtain ⟨m, w, hw, rfl⟩ := step_poke h
      cases hw
      exact ⟨hs.status, hs.queue, hs.heard, hs.later, hs.nobody⟩
    | write ws =>
      obtain ⟨m, w, hw, rfl⟩ := step_poke h
      have hwrite : appPoke same (.write ws) s.mem s.world = some (m, w) := hw
      obtain ⟨docs, _, rfl, rfl⟩ := poke_write hwrite
      exact ⟨hs.status, hs.queue, hs.heard, hs.later, hs.nobody⟩
    | _ => exact ha.elim

/-! ## Runs -/

/-- The status fits Firebase. -/
def StatusFits (s : AppState) : Prop :=
  s.mem.auth.firebaseAuthStatus = if s.world.currentUser.isSome then .signin else .signout

theorem statusOf_fits {user : Option User} {current : Option Account} :
    (statusOf user = if current.isSome then .signin else .signout) ↔
      user.isSome = current.isSome := by
  cases user <;> cases current <;> simp [statusOf]

/-- The published events fit Firebase when one of them does: they are null as long as nobody
is signed in, and only the first of them can be null afterwards. -/
theorem statusFits_iff {s : AppState} {users : List (Option User)} {heard : Bool}
    (hs : Listening s users heard) :
    StatusFits s ↔ ∃ user ∈ users, user.isSome = s.world.currentUser.isSome := by
  unfold StatusFits
  rw [hs.status]
  rcases List.eq_nil_or_concat users with rfl | ⟨others, last, rfl⟩
  · refine iff_of_false ?_ (fun ⟨_, hu, _⟩ => (by cases hu))
    cases s.world.currentUser <;> simp [statusAfter]
  · rw [List.concat_eq_append] at hs ⊢
    rw [statusAfter_snoc, statusOf_fits]
    constructor
    · exact fun hlast => ⟨last, by simp, hlast⟩
    · rintro ⟨user, hu, hfits⟩
      cases hcurrent : s.world.currentUser with
      | none =>
        rw [hs.nobody hcurrent last (by simp)]
        rfl
      | some account =>
        rw [hcurrent] at hfits
        cases others with
        | nil =>
          rw [← List.mem_singleton.mp hu]
          exact hfits
        | cons first rest => exact hs.later last (by simp)

/-- Start with one listener, which will hear of the current user. In every run of sign-in
methods and events, and so in every quiescent state, the status fits Firebase exactly when,
since the last method began, the listener published an event that fits Firebase. -/
theorem the_status_fits_iff_a_fitting_event_was_published (same : User → User → Bool)
    (w : AppWorld) (as : List AppAct) (t : AppState) (hw : w.listeners = [[w.currentUser]])
    (has : ∀ a ∈ as, SignInAct a) (ht : run (step (app same)) (appInit w) as = some t) :
    StatusFits t ↔
      ∃ user ∈ observed (step (app same)) (publishedSince same) (appInit w) [] as,
        user.isSome = t.world.currentUser.isSome := by
  have hkeeps : AppGuarded t ∧ SignInGuarded t ∧ ∃ heard, Listening t
      (observed (step (app same)) (publishedSince same) (appInit w) [] as) heard := by
    refine observed_keeps (I := fun s users => AppGuarded s ∧ SignInGuarded s ∧
      ∃ heard, Listening s users heard) ?_ has ?_ ht
    · rintro s a t users ha ⟨hg, hsign, heard, hs⟩ h
      exact ⟨appGuarded_step s a t hg h, signInGuarded_step s a t ha hsign h, _,
        listening_step ha hg hsign hs h⟩
    · refine ⟨appGuarded_init w, guarded_init _ trivial, false, rfl, ⟨[w.currentUser], hw, ?_, ?_,
        ?_⟩, fun h => absurd rfl h, fun _ hu => (by cases hu), fun _ _ hu => (by cases hu)⟩
      · exact fun _ he => (by cases he)
      · exact fun h => (by cases h)
      · exact fun hnone e he => (List.mem_singleton.mp he).trans hnone
  obtain ⟨_, _, heard, hs⟩ := hkeeps
  exact statusFits_iff hs

/-- All calls have ended, and all events were delivered. -/
def Quiescent (s : AppState) : Prop :=
  (∀ i c p, s.calls i = some (c, p) → ∃ r, p = .ended r) ∧ ∀ q ∈ s.world.listeners, q = []

/-- The listener hears that nobody is signed in, and then Ann mistypes her password. -/
def wrongPassword : List AppAct :=
  [.poke (.authEvent 0 0), .start 0 (.logIn "ann@mail.com" "secret"),
   .resume 0 (refused "wrong-password"), .resume 0 (refused "")]

theorem wrongPassword_signIns : ∀ a ∈ wrongPassword, SignInAct a := by
  simp [wrongPassword, SignInAct, AppCall.SignsIn]

/-- Everything has ended, nobody is signed in, and the status is still `progress`. -/
theorem a_wrong_password_leaves_the_spinner :
    (∀ a ∈ wrongPassword, SignInAct a) ∧
      ∃ t, run (step (app sameUid)) (appInit (signedOutWorld (freshUsers []))) wrongPassword =
          some t ∧ Quiescent t ∧ t.world.currentUser = none ∧
        t.mem.auth.firebaseAuthStatus = .progress ∧ ¬ StatusFits t := by
  refine ⟨wrongPassword_signIns, _, rfl, ⟨?_, ?_⟩, rfl, rfl, ?_⟩
  · intro i c p hi
    by_cases h0 : i = 0
    · subst h0
      cases hi
      exact ⟨_, rfl⟩
    · change Function.update (Function.update (Function.update (fun _ => none) 0 _) 0 _) 0 _ i =
        some (c, p) at hi
      rw [Function.update_of_ne h0, Function.update_of_ne h0, Function.update_of_ne h0] at hi
      cases hi
  · intro q hq
    exact List.mem_singleton.mp hq
  · intro hfits
    cases hfits

theorem the_status_fits_at_a_wrong_password :
    (∀ a ∈ wrongPassword, SignInAct a) ∧
      ∃ t, run (step (app sameUid)) (appInit (signedOutWorld (freshUsers []))) wrongPassword =
          some t ∧
        (StatusFits t ↔ ∃ user ∈ observed (step (app sameUid)) (publishedSince sameUid)
          (appInit (signedOutWorld (freshUsers []))) [] wrongPassword,
            user.isSome = t.world.currentUser.isSome) :=
  ⟨wrongPassword_signIns, _, rfl,
    the_status_fits_iff_a_fitting_event_was_published sameUid _ wrongPassword _ rfl
      wrongPassword_signIns rfl⟩

end instagram
