-- Following on the screens. Only a row of the search screen follows or unfollows, and its guard
-- never lets it unfollow. So on the devices lists of followings only grow, and no counter of
-- followers comes below zero.
import Instagram.CounterBounds
import Instagram.FollowLists
import Instagram.Screens

namespace instagram

open docs firestore async runs

/-! ## Calls -/

/-- The calls of the screens that are no search screen, no post and no comments screen. -/
def Call.Elsewhere : Call → Prop
  | .attemptCreateUser _ _ => True
  | .createNewPost _ _ => True
  | .updatePostImageUrl _ _ => True
  | _ => False

/-- A handler of the app. -/
def ScreenCall.OfApp (h : ScreenCall) : Prop := ∀ c, h.tap = .elsewhere c → c.Elsewhere

def Call.Follows (c : Call) : Prop := ∀ my other, c ≠ .unfollowUser my other

theorem onRowTap_follows {s : UserModelState} {b : String} {c : Call} (h : onRowTap s b = .ok c) :
    ∃ my, c = .followUser my b := by
  unfold onRowTap at h
  split at h
  · cases h
  · rename_i me _
    rw [amIFollowingThisUser_false] at h
    cases h
    exact ⟨me.userKey, rfl⟩

/-- Where the call of a handler comes from. -/
theorem starts_some {h : ScreenCall} {m : ℕ → Device} {c : Call}
    (hc : h.starts m = .ok (some c)) :
    (∃ b my, h.tap = .row b ∧ c = .followUser my b) ∨
    (∃ k my, h.tap = .heart k ∧ c = .toggleLike k my) ∨
    (∃ screen now k text d, h.tap = .post screen now ∧
      (m h.device).comments[screen]? = some (k, text) ∧ c = .createNewComment k d) ∨
    h.tap = .elsewhere c := by
  obtain ⟨device, tap⟩ := h
  unfold ScreenCall.starts Tap.starts at hc
  cases tap with
  | row b =>
    cases hd : onRowTap (m device).users b with
    | error x =>
      simp only [hd] at hc
      cases hc
    | ok d =>
      simp only [hd] at hc
      cases hc
      obtain ⟨my, rfl⟩ := onRowTap_follows hd
      exact Or.inl ⟨b, my, rfl, rfl⟩
  | heart k =>
    simp only at hc
    split at hc
    · cases hc
    · cases hc
      exact Or.inr (Or.inl ⟨k, _, rfl, rfl⟩)
  | post screen now =>
    simp only at hc
    split at hc
    · cases hc
    · rename_i k text hscreen
      split at hc
      · cases hc
      · split at hc
        · cases hc
        · cases hc
          exact Or.inr (Or.inr (Or.inl ⟨screen, now, k, text, _, rfl, hscreen, rfl⟩))
  | elsewhere d =>
    cases hc
    exact Or.inr (Or.inr (Or.inr rfl))

theorem follows_of_starts {h : ScreenCall} {m : ℕ → Device} {c : Call} (hh : h.OfApp)
    (hc : h.starts m = .ok (some c)) : c.Follows := by
  rintro my other rfl
  rcases starts_some hc with ⟨_, _, _, he⟩ | ⟨_, _, _, he⟩ | ⟨_, _, _, _, _, _, _, he⟩ | he
  · cases he
  · cases he
  · cases he
  · exact hh _ he

/-! ## Lists of followings -/

/-- No batch but an unfollow takes anybody off a list, as long as the user is not created
anew. -/
theorem followings_commit {c : Call} {ws : List Write} {docs docs' : Store} {u : String}
    {x : Atom} (hc : c.Follows) (hmay : c.MayCommit ws) (h : commit docs ws = some docs')
    (hx : x ∈ followingsOf docs u) :
    x ∈ followingsOf docs' u ∨ ∃ email, c = .attemptCreateUser u email := by
  by_cases hfoot : c.Footprint (userRef u) KEY_FOLLOWINGS
  · cases c with
    | attemptCreateUser userKey email =>
      obtain rfl : u = userKey := userRef_inj.mp hfoot
      exact Or.inr ⟨email, rfl⟩
    | followUser my other =>
      left
      rcases followTx_of_mayCommit (c := .followUser my other) trivial hmay with
        rfl | ⟨other', n, htx⟩
      · cases h
        exact hx
      · obtain ⟨my', ⟨hcall, rfl⟩ | ⟨hcall, _⟩⟩ := htx
        · cases hcall
          rw [followingsOf_commit h]
          split
          · rename_i hu
            subst hu
            exact (mem_union_singleton _ _ _).mpr (Or.inl hx)
          · exact hx
        · cases hcall
    | unfollowUser my other => exact absurd rfl (hc my other)
    | createNewPost k d =>
      rcases hfoot with he | ⟨_, he⟩
      · exact absurd he (userRef_ne_postRef u k)
      · simp [KEY_FOLLOWINGS, KEY_MYPOSTS] at he
    | updatePostImageUrl img k => exact absurd hfoot.1 (userRef_ne_postRef u k)
    | toggleLike k v => exact absurd hfoot.1 (userRef_ne_postRef u k)
    | createNewComment k d =>
      rcases hfoot with ⟨id, he⟩ | ⟨he, _⟩
      · exact absurd he.symm (comment_ne_userRef k id u)
      · exact absurd he (userRef_ne_postRef u k)
  · left
    unfold followingsOf at hx ⊢
    rw [bind_of_fieldAt (fun v => v) (fieldAt_of_mayCommit hmay h hfoot)]
    exact hx

/-! ## The law -/

/-- The step goes on with a sign-up of `u`. -/
def SignsUp (s : ScreensState) (a : ScreensAct) (u : String) : Prop :=
  ∃ i e device email q, a = .resume i e ∧
    s.calls i = some (⟨device, .elsewhere (.attemptCreateUser u email)⟩, q)

/-- A run of the backend beside the screens, in which nobody unfollows. -/
structure FollowsOnly (s : WatchedScreens) (b : BackendState) : Prop where
  refined : ScreensRefined s b
  calls : CallsGuarded Call.Follows b
  history : ∀ e ∈ history b, e.1.Follows ∧ e.1.MayCommit e.2

theorem followsOnly_simulates :
    Simulates (watched screens) (step backend) (Act.Starts ScreenCall.OfApp)
      (Act.Starts Call.Follows) FollowsOnly := by
  intro s a t b ha hs h
  rcases wraps_simulates screens_wraps (fun _ _ _ hh hc => follows_of_starts hh hc) s a t b ha
      hs.refined h with ⟨a', b', ha', hb, hR⟩ | hR
  · exact Or.inl ⟨a', b', ha', hb, hR, callsGuarded_step _ b a' b' ha' hs.calls hb,
      history_mayCommit hs.calls hs.history hb⟩
  · exact Or.inr ⟨hR, hs.calls, hs.history⟩

theorem followsOnly_init (m : ℕ → Device) (docs : Store) :
    FollowsOnly (watchedInit m docs) (backendInit docs) :=
  ⟨refined_init _ _ m _, callsGuarded_init _ docs,
    fun e he => by simp [history, backendInit, init] at he⟩

/-- A step keeps everybody on a list, but for a sign-up of the list's owner. -/
theorem followings_kept {s t : WatchedScreens} {b : BackendState} {a : ScreensAct}
    (hs : FollowsOnly s b) (h : watched screens s a = some t) {u : String} {x : Atom}
    (hx : x ∈ followingsOf s.1.world.docs u) :
    x ∈ followingsOf t.1.world.docs u ∨ SignsUp s.1 a u := by
  rcases refined_step screens_wraps hs.refined h with ⟨i, hd, c, b', _, _, hb, hR, _⟩ |
      ⟨i, e, _, _, _, _, b', rfl, _, hb, _, hR, _⟩ | ⟨hsame, _⟩
  · obtain ⟨_, rfl⟩ := step_start hb
    rw [← hR.world]
    rw [← hs.refined.world] at hx
    exact Or.inl hx
  · rw [← hs.refined.world] at hx
    rw [← hR.world]
    rcases backend_step hb with ⟨c, ws, hcommits, hcommit, _⟩ | ⟨_, hdocs, _⟩
    · obtain ⟨hfollows, hmay⟩ := mayCommit_of_commits hs.calls hcommits
      rcases followings_commit hfollows hmay hcommit hx with hin | ⟨email, rfl⟩
      · exact Or.inl hin
      · obtain ⟨i', e', k, hact, hi, _⟩ := hcommits
        cases hact
        have hbeside := hs.refined.calls i
        rw [hi] at hbeside
        obtain ⟨⟨device, tap⟩, m₀, m, _, hcall, hstarts⟩ := hbeside.of_call
        rcases starts_some hstarts with ⟨_, _, _, he⟩ | ⟨_, _, _, he⟩ |
            ⟨_, _, _, _, _, _, _, he⟩ | he
        · cases he
        · cases he
        · cases he
        · obtain rfl : tap = _ := he
          exact Or.inr ⟨i, e, device, email, _, rfl, hcall⟩
    · rw [hdocs]
      exact Or.inl hx
  · rw [hsame]
    exact Or.inl hx

theorem unfollowsOn_zero {u : String} {h : List (Call × List Write)}
    (hh : ∀ e ∈ h, e.1.Follows ∧ e.1.MayCommit e.2) : unfollowsOn u h = 0 := by
  unfold unfollowsOn
  rw [List.countP_eq_zero]
  rintro ⟨c, ws⟩ he
  have hfollows := (hh _ he).1
  cases c with
  | unfollowUser my other => exact absurd rfl (hfollows my other)
  | _ => simp [Call.unfollows]

/-- Each follow was an answer. -/
theorem followsOn_le_trace (u : String) (b : BackendState) :
    followsOn u (history b) ≤ b.trace.length :=
  List.countP_le_length.trans (List.length_filterMap_le _ _)

/-- No counter of followers comes below zero, or above the first number and the answers so
far. -/
theorem followers_of_followsOnly {docs : Store} {bs : List BackendAct} {s : WatchedScreens}
    {b : BackendState} (hs : FollowsOnly s b)
    (hb : run (step backend) (backendInit docs) bs = some b) {u : String}
    (hpos : 0 ≤ (followersOf docs u).getD 0) {n : Int}
    (hn : followersOf s.1.world.docs u = some n) :
    0 ≤ n ∧ n ≤ (followersOf docs u).getD 0 + s.1.trace.length := by
  have h0 : ∀ n, followersOf docs u = some n → 0 ≤ n ∧ n ≤ (followersOf docs u).getD 0 := by
    intro k hk
    rw [hk] at hpos ⊢
    exact ⟨hpos, le_rfl⟩
  have hbounded := followersBounded_run le_rfl hpos h0 bs bs (List.prefix_refl _) b hb
  rw [← hs.refined.world] at hn
  obtain ⟨hlow, hhigh⟩ := hbounded.stored n hn
  have hzero : unfollowsOn u (history b) = 0 := unfollowsOn_zero hs.history
  have hle := followsOn_le_trace u b
  rw [hs.refined.trace_length] at hle
  unfold followCounts at hlow hhigh
  rw [hzero] at hlow
  constructor
  · simpa using hlow
  · omega

/-- On the screens nobody is ever unfollowed. In every run of any devices, however they
interleave: whoever stands on a list of followings stays on it in every step, except one that
goes on with a sign-up of the list's owner. And no counter of followers that was not negative at
first is ever negative, as long as 64 bits hold the first number and the answers so far. -/
theorem the_screens_never_unfollow (m : ℕ → Device) (docs : Store) (as : List ScreensAct)
    (has : ∀ a ∈ as, a.Starts ScreenCall.OfApp) :
    AllSteps (step screens) (fun s a t => ∀ u v, following s.world.docs u v = true →
      following t.world.docs u v = true ∨ SignsUp s a u) (screensInit m docs) as ∧
    AllStates (step screens) (fun t => ∀ u, 0 ≤ (followersOf docs u).getD 0 →
      InInt64 ((followersOf docs u).getD 0 + t.trace.length) →
      ∀ n, followersOf t.world.docs u = some n → 0 ≤ n ∧ InInt64 n) (screensInit m docs) as := by
  have hrun : AllStates (watched screens) (fun t => ∃ bs b,
      run (step backend) (backendInit docs) bs = some b ∧ FollowsOnly t b)
      (watchedInit m docs) as := by
    intro pre hpre t ht
    obtain ⟨bs, b, _, hb, hs⟩ := simulates_run followsOnly_simulates
      (fun a ha => has a (hpre.subset ha)) (followsOnly_init m docs) ht
    exact ⟨bs, b, hb, hs⟩
  constructor
  · have hsteps : AllSteps (watched screens) (fun s a t => ∀ u v,
        following s.1.world.docs u v = true →
          following t.1.world.docs u v = true ∨ SignsUp s.1 a u) (watchedInit m docs) as := by
      intro pre a hpre s t hs ht u v hin
      obtain ⟨_, b, _, hfollows⟩ := hrun pre ((List.prefix_append _ _).trans hpre) s hs
      unfold following at hin ⊢
      rw [decide_eq_true_eq] at hin ⊢
      exact followings_kept hfollows ht hin
    exact allSteps_watch.mp hsteps
  · have hstates : AllStates (watched screens) (fun t => ∀ u, 0 ≤ (followersOf docs u).getD 0 →
        InInt64 ((followersOf docs u).getD 0 + t.1.trace.length) →
        ∀ n, followersOf t.1.world.docs u = some n → 0 ≤ n ∧ InInt64 n)
        (watchedInit m docs) as := by
      intro pre hpre t ht u hpos hmax n hn
      obtain ⟨bs, b, hb, hs⟩ := hrun pre hpre t ht
      obtain ⟨hlow, hhigh⟩ := followers_of_followsOnly hs hb hpos hn
      exact ⟨hlow, by omega, hhigh.trans hmax.2⟩
    exact allStates_watch.mp hstates

/-- Ann's device, before she follows anybody. -/
def annsDevice : ℕ → Device := fun _ => ⟨⟨some annAlone, none⟩, []⟩

/-- Ann taps the row of Bob twice, the second time before the first call has ended. -/
def rowTwice : List ScreensAct :=
  [.start 0 ⟨0, .row "bob"⟩, .resume 0 online, .start 1 ⟨0, .row "bob"⟩, .resume 0 online,
   .resume 1 online, .resume 0 online, .resume 1 online, .resume 1 online]

theorem rowTwice_ofApp : ∀ a ∈ rowTwice, a.Starts ScreenCall.OfApp := by
  simp [rowTwice, Act.Starts, ScreenCall.OfApp]

theorem the_screens_never_unfollow_at_a_row_twice :
    (∀ a ∈ rowTwice, a.Starts ScreenCall.OfApp) ∧
      AllSteps (step screens) (fun s a t => ∀ u v, following s.world.docs u v = true →
        following t.world.docs u v = true ∨ SignsUp s a u)
        (screensInit annsDevice (freshUsers ["ann", "bob"])) rowTwice ∧
      ∃ t, run (step screens) (screensInit annsDevice (freshUsers ["ann", "bob"])) rowTwice =
          some t ∧
        followersOf t.world.docs "bob" = some 2 ∧
        ∀ n, followersOf t.world.docs "bob" = some n → 0 ≤ n ∧ InInt64 n := by
  obtain ⟨hsteps, hstates⟩ := the_screens_never_unfollow annsDevice (freshUsers ["ann", "bob"])
    rowTwice rowTwice_ofApp
  obtain ⟨t, ht, hcount, hanswers⟩ : ∃ t, run (step screens)
      (screensInit annsDevice (freshUsers ["ann", "bob"])) rowTwice = some t ∧
      followersOf t.world.docs "bob" = some 2 ∧ t.trace.length = 6 :=
    ⟨_, rfl, by decide, by decide⟩
  refine ⟨rowTwice_ofApp, hsteps, t, ht, hcount, ?_⟩
  exact hstates rowTwice (List.prefix_refl _) t ht "bob" (by decide) (by rw [hanswers]; decide)

example : (run (step screens) (screensInit annsDevice (freshUsers ["ann", "bob"])) rowTwice).map
    (fun t => following t.world.docs "ann" "bob") = some true := by decide

end instagram
