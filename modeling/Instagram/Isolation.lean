-- The user model belongs to the user who is signed in, as long as nothing has to be closed.
-- The handle of a subscription is never stored, so `clear` cancels nothing, and a
-- subscription that was opened delivers for ever.
import Instagram.Consumer

namespace instagram

open docs firestore async runs

variable {same : User → User → Bool}

/-! ## Live subscriptions -/

/-- The subscription `i` was not cancelled. -/
def Live (s : AppState) (i : ℕ) (sub : Subscription) : Prop :=
  s.mem.subscriptions[i]? = some sub ∧ sub.cancelled = false

/-- Every live subscription is one of the user. -/
def OnlyOf (s : AppState) (user : Option User) : Prop :=
  ∀ i sub, Live s i sub → ∃ u, user = some u ∧ u.uid = sub.uid

/-- At most one subscription is live, it is the stored user's, and the user model is null or
came from it. -/
structure Isolated (s : AppState) : Prop where
  one : ∀ i j a b, Live s i a → Live s j b → i = j
  owner : OnlyOf s s.mem.auth.user
  model : ∀ x, s.mem.users.userModel = some x → ∃ i sub, Live s i sub ∧ x ∈ sub.delivered

/-- The step needs no subscription closed. A build in `signin` and a sign-out find none, and
a user who is stored finds only subscriptions of their own. -/
def NothingToClose (same : User → User → Bool) (s : AppState) : AppAct → Prop
  | .start _ .rootConsumer => ∀ u, s.mem.session = (.signin, some u) → ∀ i sub, ¬ Live s i sub
  | .start _ .signOut => ∀ i sub, ¬ Live s i sub
  | .resume i _ => ∀ c, nextCredential s i = some c → OnlyOf s c.user
  | .poke (.authEvent l obj) => ∀ user, nextEvent s l obj = some user →
    Publishes same s.mem.auth.user user → OnlyOf s user
  | _ => True

/-! ## One step -/

theorem live_congr {s t : AppState} (h : t.mem.subscriptions = s.mem.subscriptions) (i : ℕ)
    (sub : Subscription) : Live t i sub ↔ Live s i sub := by
  unfold Live
  rw [h]

theorem onlyOf_none {s : AppState} : OnlyOf s none ↔ ∀ i sub, ¬ Live s i sub := by
  constructor
  · intro h i sub hlive
    obtain ⟨u, hu, _⟩ := h i sub hlive
    cases hu
  · exact fun h i sub hlive => absurd hlive (h i sub)

/-- Without a new subscription, all that can go wrong is the owner. -/
theorem isolated_same_subscriptions {s t : AppState} (hs : Isolated s)
    (hm : t.mem.model = s.mem.model ∨ t.mem.model = (⟨none, none⟩, s.mem.subscriptions)) :
    Isolated t ↔ OnlyOf s t.mem.auth.user := by
  have hsubs : t.mem.subscriptions = s.mem.subscriptions := by
    rcases hm with hm | hm <;> exact congrArg Prod.snd hm
  have hlive := live_congr hsubs
  constructor
  · exact fun h i sub hi => h.owner i sub ((hlive i sub).mpr hi)
  · intro howner
    refine ⟨fun i j a b ha hb => ?_, fun i sub hi => howner i sub ((hlive i sub).mp hi), ?_⟩
    · exact hs.one i j a b ((hlive i a).mp ha) ((hlive j b).mp hb)
    · intro x hx
      rcases hm with hm | hm
      · rw [show t.mem.users = s.mem.users from congrArg Prod.fst hm] at hx
        obtain ⟨i, sub, hi, hmem⟩ := hs.model x hx
        exact ⟨i, sub, (hlive i sub).mpr hi, hmem⟩
      · rw [show t.mem.users = _ from congrArg Prod.fst hm] at hx
        cases hx

/-- One more subscription is one too many, when another one is live. -/
theorem isolated_new_subscription {s t : AppState} {u : User} (hs : Isolated s)
    (hu : t.mem.auth.user = some u)
    (hm : t.mem.model = (s.mem.users, s.mem.subscriptions ++ [⟨u.uid, false, [], []⟩])) :
    Isolated t ↔ ∀ i sub, ¬ Live s i sub := by
  have hsubs : t.mem.subscriptions = s.mem.subscriptions ++ [⟨u.uid, false, [], []⟩] :=
    congrArg Prod.snd hm
  have husers : t.mem.users = s.mem.users := congrArg Prod.fst hm
  have hnew : Live t s.mem.subscriptions.length ⟨u.uid, false, [], []⟩ := by
    refine ⟨?_, rfl⟩
    rw [hsubs, List.getElem?_concat_length]
  have hold : ∀ i sub, Live s i sub → Live t i sub ∧ i < s.mem.subscriptions.length := by
    rintro i sub ⟨hi, hlive⟩
    have hlt := (List.getElem?_eq_some_iff.mp hi).1
    refine ⟨⟨?_, hlive⟩, hlt⟩
    rw [hsubs, List.getElem?_append_left hlt, hi]
  constructor
  · intro h i sub hi
    obtain ⟨ht, hlt⟩ := hold i sub hi
    have heq := h.one _ _ _ _ ht hnew
    omega
  · intro hnone
    -- the new subscription is the only live one
    have honly : ∀ i sub, Live t i sub →
        i = s.mem.subscriptions.length ∧ sub = ⟨u.uid, false, [], []⟩ := by
      rintro i sub ⟨hi, hlive⟩
      rw [hsubs] at hi
      rcases Nat.lt_or_ge i s.mem.subscriptions.length with hlt | hge
      · rw [List.getElem?_append_left hlt] at hi
        exact absurd ⟨hi, hlive⟩ (hnone i sub)
      · rw [List.getElem?_append_right hge] at hi
        obtain ⟨hlt, hsub⟩ := List.getElem?_eq_some_iff.mp hi
        simp only [List.length_singleton] at hlt
        refine ⟨by omega, ?_⟩
        rw [← hsub, List.getElem_singleton]
    refine ⟨fun i j a b ha hb => ?_, fun i sub hi => ?_, fun x hx => ?_⟩
    · rw [(honly i a ha).1, (honly j b hb).1]
    · rw [(honly i sub hi).2]
      exact ⟨u, hu, rfl⟩
    · rw [husers] at hx
      obtain ⟨i, sub, hi, _⟩ := hs.model x hx
      exact absurd hi (hnone i sub)

theorem live_of_touched {s t : AppState} {w : AppWorld} {i : ℕ} {old new : Subscription}
    (h : Touched w s.mem t.mem i old new) {j : ℕ} {b : Subscription} (hb : Live t j b) :
    ∃ a, Live s j a ∧ b.uid = a.uid := by
  obtain ⟨hj, hlive⟩ := hb
  rw [h.subscriptions] at hj
  by_cases hij : i = j
  · subst hij
    obtain ⟨hlt, _⟩ := List.getElem?_eq_some_iff.mp h.here
    rw [List.getElem?_set_self hlt] at hj
    cases hj
    exact ⟨old, ⟨h.here, h.cancelled ▸ hlive⟩, h.uid⟩
  · rw [List.getElem?_set_ne hij] at hj
    exact ⟨b, ⟨hj, hlive⟩, rfl⟩

theorem touched_of_live {s t : AppState} {w : AppWorld} {i : ℕ} {old new : Subscription}
    (h : Touched w s.mem t.mem i old new) {j : ℕ} {a : Subscription} (ha : Live s j a) :
    ∃ b, Live t j b ∧ a.delivered ⊆ b.delivered := by
  obtain ⟨hj, hlive⟩ := ha
  by_cases hij : i = j
  · subst hij
    obtain ⟨hlt, _⟩ := List.getElem?_eq_some_iff.mp h.here
    obtain rfl : old = a := Option.some.inj (h.here.symm.trans hj)
    refine ⟨new, ⟨?_, h.cancelled.trans hlive⟩, h.delivered⟩
    rw [h.subscriptions, List.getElem?_set_self hlt]
  · refine ⟨a, ⟨?_, hlive⟩, fun _ hx => hx⟩
    rw [h.subscriptions, List.getElem?_set_ne hij, hj]

/-- A snapshot and a delivery stay within one subscription. -/
theorem isolated_touched {s t : AppState} {w : AppWorld} {i : ℕ} {old new : Subscription}
    (hs : Isolated s) (huser : t.mem.auth.user = s.mem.auth.user)
    (h : Touched w s.mem t.mem i old new) : Isolated t := by
  refine ⟨fun j k a b ha hb => ?_, fun j b hb => ?_, fun x hx => ?_⟩
  · obtain ⟨a', ha', _⟩ := live_of_touched h ha
    obtain ⟨b', hb', _⟩ := live_of_touched h hb
    exact hs.one j k a' b' ha' hb'
  · obtain ⟨a, ha, huid⟩ := live_of_touched h hb
    rw [huser, huid]
    exact hs.owner j a ha
  · rcases h.model with hsame | ⟨hlive, y, hy, hnew⟩
    · obtain ⟨j, a, ha, hmem⟩ := hs.model x (hsame.symm.trans hx)
      obtain ⟨b, hb, hsub⟩ := touched_of_live h ha
      exact ⟨j, b, hb, hsub hmem⟩
    · obtain ⟨hlt, _⟩ := List.getElem?_eq_some_iff.mp h.here
      obtain rfl : y = x := Option.some.inj (hnew.symm.trans hx)
      refine ⟨i, new, ⟨?_, h.cancelled.trans hlive⟩, hy⟩
      rw [h.subscriptions, List.getElem?_set_self hlt]

theorem owner_resume {s : AppState} {i : ℕ} (e : AppEnv) (hs : Isolated s) :
    OnlyOf s (nextSession same s (.resume i e)).2 ↔ NothingToClose same s (.resume i e) := by
  cases hc : nextCredential s i with
  | none =>
    rw [session_unanswered e hc]
    refine iff_of_true hs.owner fun c hsome => ?_
    rw [hc] at hsome
    cases hsome
  | some c =>
    rw [session_answered e hc]
    refine ⟨fun h d hd => ?_, fun h => h c hc⟩
    rw [hc] at hd
    cases hd
    exact h

theorem owner_event {s : AppState} {l obj : ℕ} (hs : Isolated s) :
    OnlyOf s (nextSession same s (.poke (.authEvent l obj))).2 ↔
      NothingToClose same s (.poke (.authEvent l obj)) := by
  cases hnext : nextEvent s l obj with
  | none =>
    rw [session_no_event hnext]
    refine iff_of_true hs.owner fun user hsome => ?_
    rw [hnext] at hsome
    cases hsome
  | some user =>
    by_cases hp : Publishes same s.mem.auth.user user
    · rw [session_published hnext hp]
      refine ⟨fun h v hv _ => ?_, fun h => h user hnext hp⟩
      rw [hnext] at hv
      cases hv
      exact h
    · rw [session_kept hnext hp]
      refine iff_of_true hs.owner fun v hv hpublishes => ?_
      rw [hnext] at hv
      cases hv
      exact absurd hpublishes hp

/-- The user after a step owns the live subscriptions exactly when the step needs none of
them closed. A build that opens one more is not part of this. -/
theorem next_owner {s : AppState} {a : AppAct} (hs : Isolated s)
    (hno : ∀ i u, a = .start i .rootConsumer → s.mem.session ≠ (.signin, some u)) :
    OnlyOf s (nextSession same s a).2 ↔ NothingToClose same s a := by
  cases a with
  | start i c =>
    cases c with
    | rootConsumer => exact iff_of_true hs.owner fun u hu => absurd hu (hno i u rfl)
    | signOut => exact onlyOf_none
    | _ => exact iff_of_true hs.owner trivial
  | resume i e => exact owner_resume e hs
  | poke x =>
    cases x with
    | authEvent l obj => exact owner_event hs
    | _ => exact iff_of_true hs.owner trivial

theorem isolated_step {s t : AppState} {a : AppAct} (hf : Forgets s) (hs : Isolated s)
    (h : step (app same) s a = some t) : Isolated t ↔ NothingToClose same s a := by
  have huser := user_step hf.session h
  rcases model_step hf.model hf.handle h with
    ⟨hno, hm⟩ | ⟨i, u, rfl, hu, hm⟩ | ⟨x, i, old, new, rfl, hx, htouched⟩
  · rw [isolated_same_subscriptions hs hm, huser]
    exact next_owner hs hno
  · have howner : t.mem.auth.user = some u := huser.trans (congrArg Prod.snd hu)
    rw [isolated_new_subscription hs howner hm]
    refine ⟨fun hnone _ _ => hnone, fun hnone => hnone u hu⟩
  · cases x with
    | authEvent l obj => exact absurd rfl (hx l obj)
    | _ => exact iff_of_true (isolated_touched hs huser htouched) trivial

/-! ## Runs -/

/-- In every run of sign-ins, sign-outs, builds, snapshots and deliveries, the user model is
isolated exactly when no step needs a subscription closed. -/
theorem the_user_model_is_isolated_iff_nothing_needs_closing (same : User → User → Bool)
    (w : AppWorld) (as : List AppAct) :
    AllStates (step (app same)) Isolated (appInit w) as ↔
      AllSteps (step (app same)) (fun s a _ => NothingToClose same s a) (appInit w) as := by
  refine allStates_iff_allSteps (I := Forgets) (A := fun _ => True)
    (fun s a t _ hf h => forgets_step s a t hf h) (fun s a t _ hf hs h => isolated_step hf hs h)
    (fun _ _ => trivial) (forgets_init w) ⟨?_, ?_, fun x hx => (by cases hx)⟩
  · exact fun i j a b ⟨hi, _⟩ => (by cases hi)
  · exact fun i sub ⟨hi, _⟩ => (by cases hi)

/-- Ann gets through at Facebook and at Firebase. -/
def annGranted : AppEnv := { granted ⟨"ann", none⟩ with facebook := ⟨.loggedIn, "token"⟩ }

/-- Ann signs in with Facebook, the root Consumer subscribes to her document and shows it, she
signs out, and the build that follows clears the user model. -/
def annSignsOut : List AppAct :=
  [.poke (.authEvent 0 0), .start 0 .loginWithFacebook, .resume 0 annGranted, .resume 0 annGranted,
   .poke (.authEvent 0 0), .start 1 .rootConsumer, .resume 0 annGranted, .resume 0 annGranted,
   .poke (.snapshot 0), .poke (.deliver 0),
   .start 2 .signOut, .resume 2 annGranted, .resume 2 annGranted, .resume 2 annGranted,
   .poke (.authEvent 0 0), .start 3 .rootConsumer]

/-- After the sign-out and after its `clear`, Ann's document changes the user model again. -/
theorem a_signed_out_user_comes_back :
    ∃ s t x, run (step (app sameUid)) (appInit (signedOutWorld (freshUsers ["ann"]))) annSignsOut =
        some s ∧ s.calls 3 = some (.rootConsumer, .ended (.ok ())) ∧
      s.world.currentUser = none ∧ s.mem.session = (.signout, none) ∧
      s.mem.users.userModel = none ∧
      run (step (app sameUid)) s [.poke (.snapshot 0), .poke (.deliver 0)] = some t ∧
      t.mem.users.userModel = some x ∧ x.userKey = "ann" ∧ ¬ Isolated s ∧ ¬ Isolated t := by
  refine ⟨_, _, _, rfl, rfl, rfl, rfl, rfl, rfl, rfl, rfl, fun hs => ?_, fun ht => ?_⟩
  · obtain ⟨u, hu, _⟩ := hs.owner 0 _ ⟨rfl, rfl⟩
    cases hu
  · obtain ⟨u, hu, _⟩ := ht.owner 0 _ ⟨rfl, rfl⟩
    cases hu

end instagram
