-- The home page has a user. Status and user change at different moments, but every turn that
-- makes the status `signin` has a user at hand, and every turn that takes the user away
-- changes the status too.
import Instagram.SignedIn

namespace instagram

open firestore async runs

variable {same : User → User → Bool}

/-- The status `signin` comes with a user, and no build of the root Consumer raises. -/
structure HomePageSafe (s : AppState) : Prop where
  user : s.mem.auth.firebaseAuthStatus = .signin → s.mem.auth.user.isSome
  builds : ∀ i x, s.calls i ≠ some (.rootConsumer, .ended (.error x))

/-! ## The status and the user -/

/-- The next credential of a call has a user. -/
theorem nextCredential_isSome {s : AppState} {i : ℕ} {c : UserCredential} (hs : AppGuarded s)
    (h : nextCredential s i = some c) : c.user.isSome := by
  unfold nextCredential at h
  split at h
  · rename_i d o k hi
    obtain ⟨_, ⟨hsome, _⟩, _⟩ := hs.calls i d _ hi
    exact hsome c h
  · cases h

theorem signin_has_user_step {s t : AppState} {a : AppAct} (hs : AppGuarded s)
    (hu : s.mem.auth.firebaseAuthStatus = .signin → s.mem.auth.user.isSome)
    (h : step (app same) s a = some t) :
    t.mem.auth.firebaseAuthStatus = .signin → t.mem.auth.user.isSome := by
  rw [status_step hs h, user_step hs h]
  cases a with
  | start i c =>
    cases c with
    | rootConsumer => exact hu
    | _ =>
      intro hsignin
      cases hsignin
  | resume i e =>
    cases hc : nextCredential s i with
    | none =>
      rw [session_unanswered e hc]
      exact hu
    | some c =>
      rw [session_answered e hc]
      exact fun _ => nextCredential_isSome hs hc
  | poke x =>
    cases x with
    | authEvent l obj =>
      cases hnext : nextEvent s l obj with
      | none =>
        rw [session_no_event hnext]
        exact hu
      | some user =>
        by_cases hp : Publishes same s.mem.auth.user user
        · -- the status follows the user of the event
          rw [session_published hnext hp]
          cases user with
          | none =>
            intro hsignin
            cases hsignin
          | some u => exact fun _ => rfl
        · rw [session_kept hnext hp]
          exact hu
    | _ => exact hu

/-! ## The builds -/

/-- A build that ended did not raise, and a build that waits will not. -/
def BuildFine (c : AppCall) (p : Parked AppMem AppOp AppAns DartError Unit) : Prop :=
  c = .rootConsumer → p = .ended (.ok ()) ∨
    ∃ k, p = .waiting .cancelSubscription k ∧ ∀ m, ((k ()).settle m).2 = .ended (.ok ())

theorem clear_settles (m : AppMem) :
    (clear.settle m).2 = .ended (.ok ()) ∨
      ∃ k, (clear.settle m).2 = .waiting .cancelSubscription k ∧
        ∀ m, ((k ()).settle m).2 = .ended (.ok ()) := by
  cases hsub : m.users.currentStreamSub with
  | none =>
    left
    unfold clear
    simp [Prog.getMem, Prog.setMem, hsub]
  | some sub =>
    right
    unfold clear
    simp [Prog.getMem, Prog.setMem, hsub]

theorem rootConsumer_settles {m : AppMem}
    (hu : m.auth.firebaseAuthStatus = .signin → m.auth.user.isSome) :
    (rootConsumer.settle m).2 = .ended (.ok ()) ∨
      ∃ k, (rootConsumer.settle m).2 = .waiting .cancelSubscription k ∧
        ∀ m, ((k ()).settle m).2 = .ended (.ok ()) := by
  cases hstatus : m.auth.firebaseAuthStatus with
  | signout =>
    have hclear : rootConsumer.settle m = clear.settle m := by
      unfold rootConsumer
      simp [Prog.getMem, hstatus]
    rw [hclear]
    exact clear_settles m
  | signin =>
    obtain ⟨u, hu⟩ := Option.isSome_iff_exists.mp (hu hstatus)
    left
    unfold rootConsumer initUserModel
    simp [Prog.getMem, Prog.setMem, hstatus, hu]
  | progress =>
    left
    unfold rootConsumer
    simp [Prog.getMem, hstatus]

theorem buildFine_step {s t : AppState} {a : AppAct}
    (hs : ∀ i c p, s.calls i = some (c, p) → BuildFine c p)
    (hu : s.mem.auth.firebaseAuthStatus = .signin → s.mem.auth.user.isSome)
    (h : step (app same) s a = some t) : ∀ i c p, t.calls i = some (c, p) → BuildFine c p := by
  refine calls_step hs ?_ ?_ h
  · rintro c rfl
    exact rootConsumer_settles hu
  · rintro c o k a hwait rfl
    rcases hwait rfl with hended | ⟨k', hk, hends⟩
    · cases hended
    · cases hk
      exact Or.inl (hends s.mem)

/-- In every run of registrations, logins, Facebook logins, sign-outs, builds and events, at
any number of listeners, the home page is only built with a user. -/
theorem the_home_page_has_a_user (same : User → User → Bool) (w : AppWorld) (as : List AppAct) :
    AllStates (step (app same)) HomePageSafe (appInit w) as := by
  have hrun : AllStates (step (app same)) (fun s => AppGuarded s ∧
      (s.mem.auth.firebaseAuthStatus = .signin → s.mem.auth.user.isSome) ∧
      ∀ i c p, s.calls i = some (c, p) → BuildFine c p) (appInit w) as := by
    refine allStates_of_keeps (A := fun _ => True) ?_ (fun _ _ => trivial)
      ⟨appGuarded_init w, fun h => (by cases h), fun i c p h => (by cases h)⟩
    rintro s a t _ ⟨hs, hu, hb⟩ h
    exact ⟨appGuarded_step s a t hs h, signin_has_user_step hs hu h, buildFine_step hb hu h⟩
  intro pre hpre t ht
  obtain ⟨_, hu, hb⟩ := hrun pre hpre t ht
  refine ⟨hu, fun i x hi => ?_⟩
  rcases hb i _ _ hi rfl with hok | ⟨k, hwait, _⟩
  · cases hok
  · cases hwait

end instagram
