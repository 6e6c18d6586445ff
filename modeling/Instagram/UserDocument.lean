-- A signed-in user and the user's document. The method that signs in creates the document,
-- and the listener publishes the user, each in its own time. The two fit exactly while the
-- document is there before the user is published.
import Instagram.Consumer

namespace instagram

open docs firestore async runs

variable {same : User → User → Bool}

/-! ## Documents stay -/

theorem answer_db {ρ : Type} {e : AppEnv} {w w₁ w' : AppWorld} {r : ρ} {a : Except DartError ρ}
    (h : some (e.answer w w₁ r) = some (w', a)) (hdb : w₁.db = w.db) : w'.db = w.db := by
  unfold AppEnv.answer at h
  split at h
  · cases h
    rfl
  · cases h
    exact hdb

/-- Only Firestore's own answers touch the database. -/
theorem handle_db {o : AppOp} {e : AppEnv} {w w' : AppWorld} {a : AppAns o}
    (h : appHandle o e w = some (w', a)) :
    w'.db = w.db ∨ ∃ q, o = .store q := by
  cases o with
  | createUserWithEmailAndPassword email password => exact Or.inl (answer_db h rfl)
  | signInWithEmailAndPassword email password => exact Or.inl (answer_db h rfl)
  | signInWithCredential token => exact Or.inl (answer_db h rfl)
  | arrives answer =>
    cases h
    exact Or.inl rfl
  | signOut => exact Or.inl (answer_db h rfl)
  | facebookLogIn => exact Or.inl (answer_db h (by split <;> rfl))
  | facebookIsLoggedIn => exact Or.inl (answer_db h rfl)
  | facebookLogOut => exact Or.inl (answer_db h rfl)
  | cancelSubscription =>
    cases h
    exact Or.inl rfl
  | store q => exact Or.inr ⟨q, rfl⟩

/-- No step of the app makes a document disappear. -/
theorem docs_step {s t : AppState} {a : AppAct} (h : step (app same) s a = some t) (p : Path)
    (hp : (s.world.db.docs p).isSome) : (t.world.db.docs p).isSome := by
  cases a with
  | start i c =>
    obtain ⟨_, rfl⟩ := step_start h
    exact hp
  | resume i e =>
    obtain ⟨c, o, k, w, a, _, hw, rfl⟩ := step_resume h
    rcases handle_db hw with hdb | ⟨q, rfl⟩
    · show (w.db.docs p).isSome
      rw [hdb]
      exact hp
    · obtain ⟨⟨db, r⟩, hq, hr⟩ := Option.map_eq_some_iff.mp hw
      cases hr
      exact handle_isSome hq hp
  | poke x =>
    obtain ⟨m, w, hw, rfl⟩ := step_poke h
    rcases poke_db hw with hdb | ⟨ws, _, hcommit⟩
    · show (w.db.docs p).isSome
      rw [hdb]
      exact hp
    · exact commit_isSome hcommit hp

/-! ## The law -/

/-- The document of the account is there. -/
def HasDocument (s : AppState) (uid : String) : Prop := (s.world.db.docs (userRef uid)).isSome

/-- A user who is signed in has a document, and so does every snapshot that the root
Consumer's subscriptions have still to decode. -/
structure Documented (s : AppState) : Prop where
  user : ∀ u, s.mem.session = (.signin, some u) → HasDocument s u.uid
  subscriptions : ∀ sub ∈ s.mem.subscriptions,
    HasDocument s sub.uid ∧ ∀ snapshot ∈ sub.pending, snapshot.isSome

/-- The step stores no user without a document: neither from an event that the listener
publishes, nor from a credential while the status is `signin`. -/
def StoresDocumented (same : User → User → Bool) (s : AppState) : AppAct → Prop
  | .resume i _ => ∀ c u, nextCredential s i = some c → c.user = some u →
    s.mem.auth.firebaseAuthStatus = .signin → HasDocument s u.uid
  | .poke (.authEvent l obj) => ∀ u, nextEvent s l obj = some (some u) →
    Publishes same s.mem.auth.user (some u) → HasDocument s u.uid
  | _ => True

/-! ## One step -/

/-- An answer that brings a credential, and an event at a listener, leave the database alone. -/
theorem docs_credential {s t : AppState} {i : ℕ} {e : AppEnv} {c : UserCredential}
    (hc : nextCredential s i = some c) (h : step (app same) s (.resume i e) = some t) :
    t.world.db = s.world.db := by
  obtain ⟨d, o, k, w, a, hi, hw, rfl⟩ := step_resume h
  unfold nextCredential at hc
  rw [hi] at hc
  rcases handle_db hw with hdb | ⟨q, rfl⟩
  · exact hdb
  · cases hc

theorem docs_event {s t : AppState} {l obj : ℕ}
    (h : step (app same) s (.poke (.authEvent l obj)) = some t) : t.world.db = s.world.db := by
  obtain ⟨m, w, hw, rfl⟩ := step_poke h
  obtain ⟨event, rest, _, rfl, rfl⟩ := poke_authEvent hw
  rfl

theorem hasDocument_congr {s t : AppState} (h : t.world.db = s.world.db) (uid : String) :
    HasDocument t uid ↔ HasDocument s uid := by
  unfold HasDocument
  rw [h]

/-- Nobody is signed in after the first turn of a method. -/
theorem opens_signin {c : AppCall} {session : FirebaseAuthStatus × Option User} {u : User}
    (h : c.opens session = (.signin, some u)) : session = (.signin, some u) := by
  cases c with
  | rootConsumer => exact h
  | _ => cases h

/-- The signed-in user of the session has a document. -/
def SessionDocumented (s : AppState) (session : FirebaseAuthStatus × Option User) : Prop :=
  ∀ u, session = (.signin, some u) → HasDocument s u.uid

theorem documented_resume {s t : AppState} {i : ℕ} {e : AppEnv}
    (hold : SessionDocumented t s.mem.session) (h : step (app same) s (.resume i e) = some t) :
    SessionDocumented t (nextSession same s (.resume i e)) ↔
      StoresDocumented same s (.resume i e) := by
  cases hc : nextCredential s i with
  | none =>
    rw [session_unanswered e hc]
    refine iff_of_true hold fun c u hsome => ?_
    rw [hc] at hsome
    cases hsome
  | some c =>
    rw [session_answered e hc]
    have hdocs := hasDocument_congr (docs_credential hc h)
    constructor
    · intro hall d u hd hu hsignin
      rw [hc] at hd
      cases hd
      rw [← hdocs]
      exact hall u (by rw [hsignin, hu])
    · intro hall u hu
      rw [Prod.mk.injEq] at hu
      rw [hdocs]
      exact hall c u hc hu.2 hu.1

theorem documented_event {s t : AppState} {l obj : ℕ}
    (hold : SessionDocumented t s.mem.session)
    (h : step (app same) s (.poke (.authEvent l obj)) = some t) :
    SessionDocumented t (nextSession same s (.poke (.authEvent l obj))) ↔
      StoresDocumented same s (.poke (.authEvent l obj)) := by
  cases hnext : nextEvent s l obj with
  | none =>
    rw [session_no_event hnext]
    refine iff_of_true hold fun u hsome => ?_
    rw [hnext] at hsome
    cases hsome
  | some user =>
    have hdocs := hasDocument_congr (docs_event h)
    by_cases hp : Publishes same s.mem.auth.user user
    · rw [session_published hnext hp]
      constructor
      · intro hall u hu _
        rw [hnext, Option.some.injEq] at hu
        rw [← hdocs]
        exact hall u (by rw [hu]; rfl)
      · intro hall u hu
        rw [Prod.mk.injEq] at hu
        rw [hdocs]
        rw [hu.2] at hnext hp
        exact hall u hnext hp
    · rw [session_kept hnext hp]
      refine iff_of_true hold fun u hu hpublishes => ?_
      rw [hnext, Option.some.injEq] at hu
      rw [← hu] at hpublishes
      exact absurd hpublishes hp

theorem session_documented {s t : AppState} {a : AppAct} (hg : AppGuarded s)
    (hs : SessionDocumented s s.mem.session) (h : step (app same) s a = some t) :
    SessionDocumented t t.mem.session ↔ StoresDocumented same s a := by
  have hold : SessionDocumented t s.mem.session := fun u hu => docs_step h _ (hs u hu)
  rw [session_step hg h]
  cases a with
  | start i c => exact iff_of_true (fun u hu => hold u (opens_signin hu)) trivial
  | resume i e => exact documented_resume hold h
  | poke x =>
    cases x with
    | authEvent l obj => exact documented_event hold h
    | _ => exact iff_of_true hold trivial

/-- The subscriptions stay documented in any step from a documented state. -/
theorem subscriptions_documented {s t : AppState} {a : AppAct} (hf : Forgets s)
    (hs : Documented s) (h : step (app same) s a = some t) :
    ∀ sub ∈ t.mem.subscriptions, HasDocument t sub.uid ∧ ∀ x ∈ sub.pending, x.isSome := by
  have hold : ∀ sub ∈ s.mem.subscriptions,
      HasDocument t sub.uid ∧ ∀ x ∈ sub.pending, x.isSome := by
    intro sub hsub
    obtain ⟨hdoc, hpending⟩ := hs.subscriptions sub hsub
    exact ⟨docs_step h _ hdoc, hpending⟩
  rcases model_step hf.model hf.handle h with
    ⟨_, hm⟩ | ⟨_, u, _, hu, hm⟩ | ⟨_, i, old, new, _, _, htouched⟩
  · have hsubs : t.mem.subscriptions = s.mem.subscriptions := by
      rcases hm with hm | hm <;> exact congrArg Prod.snd hm
    rw [hsubs]
    exact hold
  · -- the new subscription is the signed-in user's, and nothing was sent to it yet
    intro sub hsub
    rw [show t.mem.subscriptions = _ from congrArg Prod.snd hm] at hsub
    rcases List.mem_append.mp hsub with hin | hnew
    · exact hold sub hin
    · rw [List.mem_singleton.mp hnew]
      exact ⟨docs_step h _ (hs.user u hu), fun x hx => (by cases hx)⟩
  · have hmem : old ∈ s.mem.subscriptions := List.mem_of_getElem? htouched.here
    intro sub hsub
    rw [htouched.subscriptions] at hsub
    rcases List.mem_or_eq_of_mem_set hsub with hin | rfl
    · exact hold sub hin
    · obtain ⟨hdoc, hpending⟩ := hs.subscriptions old hmem
      rw [htouched.uid]
      refine ⟨docs_step h _ hdoc, fun x hx => ?_⟩
      rcases htouched.pending x hx with hx | rfl
      · exact hpending x hx
      · exact hdoc

/-! ## Runs -/

/-- In every run, a signed-in user has a document, and nothing missing is ever decoded,
exactly when every user that a step stores has a document by then. -/
theorem every_user_has_a_document_iff_documents_come_first (same : User → User → Bool)
    (w : AppWorld) (as : List AppAct) :
    AllStates (step (app same)) Documented (appInit w) as ↔
      AllSteps (step (app same)) (fun s a _ => StoresDocumented same s a) (appInit w) as := by
  refine allStates_iff_allSteps (I := Forgets) (A := fun _ => True)
    (fun s a t _ hf h => forgets_step s a t hf h) ?_ (fun _ _ => trivial) (forgets_init w)
    ⟨fun u hu => (by cases hu), fun sub hsub => (by cases hsub)⟩
  intro s a t _ hf hs h
  rw [← session_documented hf.session hs.user h]
  exact ⟨Documented.user, fun huser => ⟨huser, subscriptions_documented hf hs h⟩⟩

/-- Ann registers, and the listener hears of her while the method still waits for the answer.
The root Consumer subscribes, and Firestore answers that there is no such document. -/
def eventFirst : List AppAct :=
  [.poke (.authEvent 0 0), .start 0 (.registerUser "ann@mail.com" "secret"),
   .resume 0 (granted ⟨"ann", some "ann@mail.com"⟩), .poke (.authEvent 0 0),
   .start 1 .rootConsumer, .poke (.snapshot 0)]

/-- Ann is signed in without a document, and the missing data is on its way to the decoder. -/
theorem a_new_user_has_no_document :
    ∃ t u sub, run (step (app sameUid)) (appInit (signedOutWorld (freshUsers []))) eventFirst =
        some t ∧ t.mem.session = (.signin, some u) ∧ t.world.db.docs (userRef u.uid) = none ∧
      t.mem.subscriptions = [sub] ∧ sub.cancelled = false ∧ sub.pending = [none] ∧
      UserModel.fromSnapshot sub.uid none = .error .noSuchMethod ∧ ¬ Documented t := by
  refine ⟨_, _, _, rfl, rfl, rfl, rfl, rfl, rfl, rfl, fun hdocumented => ?_⟩
  have hdoc := hdocumented.user _ rfl
  cases hdoc

end instagram
