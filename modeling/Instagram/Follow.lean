-- The laws of following: the follower counter against the committed transactions, and
-- against the follow lists. Both calls write a counter that they read before the
-- transaction, so the laws hold exactly while that read is still good.
import Mathlib.Algebra.BigOperators.Group.Finset.Basic
import Instagram.Backend

namespace instagram

open docs firestore async runs

/-! ## Counters and lists -/

/-- The stored `followers` of a user, when it is an integer. -/
def followersOf (docs : Store) (u : String) : Option Int :=
  match (docs (userRef u)).bind (· KEY_FOLLOWERS) with
  | some (.scalar (.int n)) => some n
  | _ => none

def followingsOf (docs : Store) (u : String) : List Atom :=
  elems ((docs (userRef u)).bind (· KEY_FOLLOWINGS))

theorem followers_ne_followings : KEY_FOLLOWERS ≠ KEY_FOLLOWINGS := by decide

/-- The two documents that a committed follow transaction leaves. -/
theorem commit_followWrites {docs docs' : Store} {listOp : List Atom → FieldOp Atom} {delta : Int}
    {my other : String} {n : Int}
    (h : commit docs (followWrites listOp delta my other n) = some docs') :
    ∃ mine others, docs (userRef my) = some mine ∧
      Function.update docs (userRef my)
        (some (Function.update mine KEY_FOLLOWINGS
          (some ((listOp [.str other]).apply (mine KEY_FOLLOWINGS))))) (userRef other) =
        some others ∧
      docs' = Function.update (Function.update docs (userRef my)
        (some (Function.update mine KEY_FOLLOWINGS
          (some ((listOp [.str other]).apply (mine KEY_FOLLOWINGS)))))) (userRef other)
        (some (Function.update others KEY_FOLLOWERS (some (int (n + delta))))) := by
  simp only [followWrites, commit_cons, commit_nil, Write.apply, Option.bind_eq_some_iff,
    Option.map_eq_some_iff] at h
  obtain ⟨u, ⟨mine, hmine, rfl⟩, v, ⟨others, hothers, rfl⟩, hv⟩ := h
  cases hv
  exact ⟨mine, others, hmine, hothers, rfl⟩

theorem followersOf_commit {docs docs' : Store} {listOp : List Atom → FieldOp Atom} {delta : Int}
    {my other : String} {n : Int}
    (h : commit docs (followWrites listOp delta my other n) = some docs') (u : String) :
    followersOf docs' u = if u = other then some (n + delta) else followersOf docs u := by
  obtain ⟨mine, others, hmine, hothers, rfl⟩ := commit_followWrites h
  unfold followersOf
  split_ifs with hu
  · subst hu
    simp [int]
  · rw [Function.update_of_ne (by simpa using hu)]
    by_cases hm : u = my
    · subst hm
      simp [hmine, followers_ne_followings]
    · rw [Function.update_of_ne (by simpa using hm)]

theorem followingsOf_commit {docs docs' : Store} {listOp : List Atom → FieldOp Atom} {delta : Int}
    {my other : String} {n : Int}
    (h : commit docs (followWrites listOp delta my other n) = some docs') (u : String) :
    followingsOf docs' u =
      if u = my then
        elems (some ((listOp [.str other]).apply ((docs (userRef my)).bind (· KEY_FOLLOWINGS))))
      else followingsOf docs u := by
  obtain ⟨mine, others, hmine, hothers, rfl⟩ := commit_followWrites h
  have hne : KEY_FOLLOWINGS ≠ KEY_FOLLOWERS := followers_ne_followings.symm
  unfold followingsOf
  by_cases hu : u = other
  · subst hu
    by_cases hm : u = my
    · subst hm
      rw [Function.update_self] at hothers
      cases hothers
      simp [hmine, hne]
    · rw [Function.update_of_ne (by simpa using hm)] at hothers
      simp [hm, hothers, hne]
  · rw [Function.update_of_ne (by simpa using hu)]
    by_cases hm : u = my
    · subst hm
      simp [hmine]
    · rw [Function.update_of_ne (by simpa using hm), if_neg hm]

/-! ## The counter against the history -/

def Call.IsFollow : Call → Prop
  | .followUser _ _ => True
  | .unfollowUser _ _ => True
  | _ => False

def Call.follows (u : String) : Call → Bool
  | .followUser _ other => decide (other = u)
  | _ => false

def Call.unfollows (u : String) : Call → Bool
  | .unfollowUser _ other => decide (other = u)
  | _ => false

/-- The committed `followUser` transactions whose other user is `u`. A call that found a
user missing commits an empty batch, and does not count. -/
def followsOn (u : String) (h : List (Call × List Write)) : ℕ :=
  h.countP fun e => e.1.follows u && !e.2.isEmpty

def unfollowsOn (u : String) (h : List (Call × List Write)) : ℕ :=
  h.countP fun e => e.1.unfollows u && !e.2.isEmpty

/-- Each follower counter is its first value, plus the follows, minus the unfollows. -/
def FollowersCounted (docs : Store) (s : BackendState) : Prop :=
  ∀ u, followersOf s.world.docs u =
    (followersOf docs u).map fun n : Int => n + followsOn u (history s) - unfollowsOn u (history s)

/-- The transaction of a call that counted from `n` followers of `other`. -/
def FollowTx (c : Call) (other : String) (n : Int) (ws : List Write) : Prop :=
  ∃ my, (c = .followUser my other ∧ ws = followWrites .arrayUnion 1 my other n) ∨
    (c = .unfollowUser my other ∧ ws = followWrites .arrayRemove (-1) my other n)

/-- A follow transaction commits only while the count that its call read is still stored. -/
def FreshCommit (s : BackendState) (a : BackendAct) : Prop :=
  ∀ c other n ws, FollowTx c other n ws → Commits s a c ws →
    followersOf s.world.docs other = some n

/-- A follow call commits an empty batch, or the transaction of the count that it read. -/
theorem followTx_of_mayCommit {c : Call} {ws : List Write} (hc : c.IsFollow)
    (h : c.MayCommit ws) : ws = [] ∨ ∃ other n, FollowTx c other n ws := by
  cases c with
  | followUser my other =>
    rcases h with rfl | ⟨n, rfl⟩
    · exact Or.inl rfl
    · exact Or.inr ⟨other, n, my, Or.inl ⟨rfl, rfl⟩⟩
  | unfollowUser my other =>
    rcases h with rfl | ⟨n, rfl⟩
    · exact Or.inl rfl
    · exact Or.inr ⟨other, n, my, Or.inr ⟨rfl, rfl⟩⟩
  | _ => exact hc.elim

theorem followTx_unique {c : Call} {other other' : String} {n n' : Int} {ws : List Write}
    (h : FollowTx c other n ws) (h' : FollowTx c other' n' ws) : other' = other ∧ n' = n := by
  obtain ⟨my, ⟨rfl, rfl⟩ | ⟨rfl, rfl⟩⟩ := h
  · obtain ⟨_, ⟨hc, hw⟩ | ⟨hc, _⟩⟩ := h'
    · cases hc
      simp [followWrites, int] at hw
      exact ⟨rfl, hw.symm⟩
    · cases hc
  · obtain ⟨_, ⟨hc, _⟩ | ⟨hc, hw⟩⟩ := h'
    · cases hc
    · cases hc
      simp [followWrites, int] at hw
      exact ⟨rfl, hw.symm⟩

theorem not_followTx_nil {c : Call} {other : String} {n : Int} : ¬ FollowTx c other n [] := by
  rintro ⟨_, ⟨_, h⟩ | ⟨_, h⟩⟩ <;> cases h

/-- A step of follow calls commits one transaction, or leaves the documents alone and commits
an empty batch at most. -/
theorem follow_step {s t : BackendState} {a : BackendAct} (hg : CallsGuarded Call.IsFollow s)
    (h : step backend s a = some t) :
    (∃ c other n ws, FollowTx c other n ws ∧ Commits s a c ws ∧
        commit s.world.docs ws = some t.world.docs ∧ history t = history s ++ [(c, ws)]) ∨
      ((∀ c ws, Commits s a c ws → ws = []) ∧ t.world.docs = s.world.docs ∧
        (history t = history s ∨ ∃ c, history t = history s ++ [(c, [])])) := by
  rcases backend_step h with ⟨c, ws, hc, hcommit, hh⟩ | ⟨hno, hdocs, hh⟩
  · obtain ⟨hfollow, hmay⟩ := mayCommit_of_commits hg hc
    rcases followTx_of_mayCommit hfollow hmay with rfl | ⟨other, n, htx⟩
    · rw [commit_nil, Option.some.injEq] at hcommit
      exact Or.inr ⟨fun d ws hd => (commits_unique hc hd).2, hcommit.symm, Or.inr ⟨c, hh⟩⟩
    · exact Or.inl ⟨c, other, n, ws, htx, hc, hcommit, hh⟩
  · exact Or.inr ⟨fun c ws hc => absurd hc (hno c ws), hdocs, Or.inl hh⟩

/-- What a follow transaction adds to the counter of its user. -/
def Call.delta : Call → Int
  | .unfollowUser _ _ => -1
  | _ => 1

theorem followersOf_tx {docs docs' : Store} {c : Call} {other : String} {n : Int}
    {ws : List Write} (htx : FollowTx c other n ws) (h : commit docs ws = some docs')
    (u : String) :
    followersOf docs' u = if u = other then some (n + c.delta) else followersOf docs u := by
  obtain ⟨my, ⟨rfl, rfl⟩ | ⟨rfl, rfl⟩⟩ := htx
  · exact followersOf_commit h u
  · exact followersOf_commit h u

theorem counts_tx {c : Call} {other : String} {n : Int} {ws : List Write}
    (htx : FollowTx c other n ws) (h : List (Call × List Write)) (u : String) :
    (followsOn u (h ++ [(c, ws)]) : Int) - unfollowsOn u (h ++ [(c, ws)]) =
      followsOn u h - unfollowsOn u h + if u = other then c.delta else 0 := by
  unfold followsOn unfollowsOn
  obtain ⟨my, ⟨rfl, rfl⟩ | ⟨rfl, rfl⟩⟩ := htx
  · by_cases hu : other = u
    · simp [Call.follows, Call.unfollows, Call.delta, followWrites, hu]
      omega
    · simp [Call.follows, Call.unfollows, followWrites, hu, Ne.symm hu]
  · by_cases hu : other = u
    · simp [Call.follows, Call.unfollows, Call.delta, followWrites, hu]
      omega
    · simp [Call.follows, Call.unfollows, followWrites, hu, Ne.symm hu]

/-- One commit keeps the counters right exactly when its count is fresh. -/
theorem counted_commit {docs : Store} {s t : BackendState} {c : Call} {other : String} {n : Int}
    {ws : List Write} (htx : FollowTx c other n ws) (hs : FollowersCounted docs s)
    (hc : commit s.world.docs ws = some t.world.docs) (hh : history t = history s ++ [(c, ws)]) :
    FollowersCounted docs t ↔ followersOf s.world.docs other = some n := by
  have hstep : ∀ u, (followersOf docs u).map
        (fun m : Int => m + followsOn u (history t) - unfollowsOn u (history t)) =
      (followersOf s.world.docs u).map (· + if u = other then c.delta else 0) := by
    intro u
    have hcount := counts_tx htx (history s) u
    rw [← hh] at hcount
    rw [hs u, Option.map_map]
    congr 1
    funext m
    simp only [Function.comp_apply]
    omega
  constructor
  · intro ht
    have hother := ht other
    rw [hstep, followersOf_tx htx hc] at hother
    cases hf : followersOf s.world.docs other with
    | none => simp [hf] at hother
    | some m => simp [hf] at hother; simp [hother]
  · intro hfresh u
    rw [hstep, followersOf_tx htx hc]
    split_ifs with hu
    · subst hu
      simp [hfresh]
    · simp

/-- No follower update is lost in a run of follows and unfollows exactly when each
transaction commits while the count that its call read is still stored. -/
theorem no_follower_update_is_lost_iff_every_commit_is_fresh (docs : Store)
    (as : List BackendAct) (h : ∀ a ∈ as, a.Starts Call.IsFollow) :
    AllStates (step backend) (FollowersCounted docs) (backendInit docs) as ↔
      AllSteps (step backend) (fun s a _ => FreshCommit s a) (backendInit docs) as := by
  refine allStates_iff_allSteps (callsGuarded_step Call.IsFollow) ?_ h
    (callsGuarded_init _ _) ?_
  · intro s a t _ hg hs hstep
    rcases follow_step hg hstep with ⟨c, other, n, ws, htx, hc, hcommit, hh⟩ | ⟨hno, hdocs, hh⟩
    · rw [counted_commit htx hs hcommit hh]
      constructor
      · intro hfresh d other' n' ws' htx' hd
        obtain ⟨rfl, rfl⟩ := commits_unique hc hd
        obtain ⟨rfl, rfl⟩ := followTx_unique htx htx'
        exact hfresh
      · intro hfresh
        exact hfresh c other n ws htx hc
    · -- an empty transaction changes no counter, and does not count
      have hsame : FollowersCounted docs t ↔ FollowersCounted docs s := by
        rcases hh with hh | ⟨c, hh⟩
        · simp [FollowersCounted, hh, hdocs]
        · simp [FollowersCounted, hh, followsOn, unfollowsOn, hdocs]
      refine iff_of_true (hsame.mpr hs) fun c other n ws htx hc => ?_
      obtain rfl := hno c ws hc
      exact absurd htx not_followTx_nil
  · intro u
    simp [backendInit, init, history, followsOn, unfollowsOn]

/-- Ann and Bob follow Cat, and both read her document before either commits. -/
def racingFollows : List BackendAct :=
  [.start 0 (.followUser "ann" "cat"), .start 1 (.followUser "bob" "cat"),
   .resume 0 online, .resume 0 online, .resume 1 online, .resume 1 online,
   .resume 0 online, .resume 1 online]

theorem racingFollows_starts : ∀ a ∈ racingFollows, a.Starts Call.IsFollow := by
  simp [racingFollows, Act.Starts, Call.IsFollow]

/-- Two follows were committed, and one is counted. -/
theorem a_racing_follow_is_lost :
    (∀ a ∈ racingFollows, a.Starts Call.IsFollow) ∧
      ¬ AllStates (step backend) (FollowersCounted (freshUsers ["ann", "bob", "cat"]))
        (backendInit (freshUsers ["ann", "bob", "cat"])) racingFollows := by
  refine ⟨racingFollows_starts, fun hall => ?_⟩
  have hend : ((run (step backend) (backendInit (freshUsers ["ann", "bob", "cat"]))
      racingFollows).map fun t => (followersOf t.world.docs "cat",
        followsOn "cat" (history t), unfollowsOn "cat" (history t))) = some (some 1, 2, 0) := rfl
  obtain ⟨t, ht, hcounts⟩ := Option.map_eq_some_iff.mp hend
  simp only [Prod.mk.injEq] at hcounts
  have hcat := hall _ (List.prefix_refl _) t ht "cat"
  have hstart : followersOf (freshUsers ["ann", "bob", "cat"]) "cat" = some 0 := rfl
  rw [hcounts.1, hcounts.2.1, hcounts.2.2, hstart] at hcat
  simp at hcat

theorem no_follower_update_is_lost_at_the_race :
    (∀ a ∈ racingFollows, a.Starts Call.IsFollow) ∧
      (AllStates (step backend) (FollowersCounted (freshUsers ["ann", "bob", "cat"]))
          (backendInit (freshUsers ["ann", "bob", "cat"])) racingFollows ↔
        AllSteps (step backend) (fun s a _ => FreshCommit s a)
          (backendInit (freshUsers ["ann", "bob", "cat"])) racingFollows) :=
  ⟨racingFollows_starts,
    no_follower_update_is_lost_iff_every_commit_is_fresh _ _ racingFollows_starts⟩

end instagram
