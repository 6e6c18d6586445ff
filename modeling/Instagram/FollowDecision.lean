-- The follow lists against the history of commits. A list operation needs no earlier read,
-- so each list shows the last committed decision about each of its users, however the calls
-- interleave.
import Instagram.FollowLists

namespace instagram

open docs firestore async runs

/-! ## Decisions -/

/-- What a call decides about `b` on the list of `a`: true to put `b` there, false to take
`b` off. -/
def Call.decides (a b : String) : Call → Option Bool
  | .followUser my other => if my = a ∧ other = b then some true else none
  | .unfollowUser my other => if my = a ∧ other = b then some false else none
  | _ => none

/-- The last committed decision about `b` on the list of `a`. A call that found a user
missing commits an empty batch, and decides nothing. -/
def lastDecision (a b : String) (h : List (Call × List Write)) : Option Bool :=
  (h.filterMap fun e => if e.2.isEmpty then none else e.1.decides a b).getLast?

/-- Each list shows the last decisions, and holds nobody twice. -/
structure ShowsDecisions (docs : Store) (s : BackendState) : Prop where
  nodup : ∀ a, (followingsOf s.world.docs a).Nodup
  decided : ∀ a b, .str b ∈ followingsOf s.world.docs a ↔
    lastDecision a b (history s) = some true ∨
      (lastDecision a b (history s) = none ∧ .str b ∈ followingsOf docs a)

/-- A step that commits no call for the pair `(a, b)` leaves `b` on or off the list of `a`. -/
def OtherPairsKept (s : BackendState) (act : BackendAct) (t : BackendState) : Prop :=
  ∀ a b, (∀ c ws, Commits s act c ws → c.pair ≠ (a, b)) →
    (.str b ∈ followingsOf t.world.docs a ↔ .str b ∈ followingsOf s.world.docs a)

/-! ## One transaction -/

theorem pair_of_followTx {c : Call} {other : String} {n : Int} {ws : List Write}
    (htx : FollowTx c other n ws) : c.pair.2 = other := by
  obtain ⟨my, ⟨rfl, _⟩ | ⟨rfl, _⟩⟩ := htx <;> rfl

theorem lastDecision_nil_batch (a b : String) (h : List (Call × List Write)) (c : Call) :
    lastDecision a b (h ++ [(c, [])]) = lastDecision a b h := by
  simp [lastDecision]

theorem lastDecision_tx {c : Call} {other : String} {n : Int} {ws : List Write}
    (htx : FollowTx c other n ws) (a b : String) (h : List (Call × List Write)) :
    lastDecision a b (h ++ [(c, ws)]) =
      if a = c.pair.1 ∧ b = other then some (decide (c.delta = 1)) else lastDecision a b h := by
  unfold lastDecision
  obtain ⟨my, ⟨rfl, rfl⟩ | ⟨rfl, rfl⟩⟩ := htx
  · by_cases hpair : my = a ∧ other = b
    · obtain ⟨rfl, rfl⟩ := hpair
      simp [Call.decides, Call.pair, Call.delta, followWrites]
    · have hne : ¬ (a = my ∧ b = other) := fun he => hpair ⟨he.1.symm, he.2.symm⟩
      simp [Call.decides, Call.pair, followWrites, hpair, hne]
  · by_cases hpair : my = a ∧ other = b
    · obtain ⟨rfl, rfl⟩ := hpair
      simp [Call.decides, Call.pair, Call.delta, followWrites]
    · have hne : ¬ (a = my ∧ b = other) := fun he => hpair ⟨he.1.symm, he.2.symm⟩
      simp [Call.decides, Call.pair, followWrites, hpair, hne]

theorem nodup_followingsOf_tx {docs docs' : Store} {c : Call} {other : String} {n : Int}
    {ws : List Write} (htx : FollowTx c other n ws) (h : commit docs ws = some docs')
    (hs : ∀ a, (followingsOf docs a).Nodup) (a : String) : (followingsOf docs' a).Nodup := by
  obtain ⟨my, ⟨rfl, rfl⟩ | ⟨rfl, rfl⟩⟩ := htx <;> rw [followingsOf_commit h] <;> split_ifs
  · exact nodup_union_singleton (hs my) _
  · exact hs a
  · exact nodup_difference (hs my) _
  · exact hs a

/-! ## Runs -/

theorem showsDecisions_step {docs : Store} {s t : BackendState} {a : BackendAct}
    (hg : CallsGuarded Call.IsFollow s) (hs : ShowsDecisions docs s)
    (h : step backend s a = some t) : ShowsDecisions docs t := by
  rcases follow_step hg h with ⟨c, other, n, ws, htx, _, hcommit, hh⟩ | ⟨_, hdocs, hh⟩
  · refine ⟨nodup_followingsOf_tx htx hcommit hs.nodup, fun u v => ?_⟩
    rw [mem_followingsOf_tx htx hcommit, hh, lastDecision_tx htx]
    split_ifs with hpair
    · simp
    · exact hs.decided u v
  · refine ⟨hdocs ▸ hs.nodup, fun u v => ?_⟩
    have hlast : lastDecision u v (history t) = lastDecision u v (history s) := by
      rcases hh with hh | ⟨c, hh⟩
      · rw [hh]
      · rw [hh, lastDecision_nil_batch]
    rw [hlast, hdocs]
    exact hs.decided u v

theorem otherPairsKept_step {s t : BackendState} {a : BackendAct}
    (hg : CallsGuarded Call.IsFollow s) (h : step backend s a = some t) :
    OtherPairsKept s a t := by
  intro u v hother
  rcases follow_step hg h with ⟨c, other, n, ws, htx, hc, hcommit, _⟩ | ⟨_, hdocs, _⟩
  · have hne : ¬ (u = c.pair.1 ∧ v = other) := by
      rintro ⟨rfl, rfl⟩
      exact hother c ws hc (by rw [← pair_of_followTx htx])
    rw [mem_followingsOf_tx htx hcommit, if_neg hne]
  · rw [hdocs]

/-- However follows and unfollows interleave, `b` is on the list of `a` exactly when the last
committed call for the pair was a follow, or there was none and `b` was on it at first. No
list holds anybody twice, and a call for another pair changes nothing about `(a, b)`. -/
theorem follow_lists_show_the_last_decision (docs : Store)
    (h : ∀ a, (followingsOf docs a).Nodup) (as : List BackendAct)
    (has : ∀ a ∈ as, a.Starts Call.IsFollow) :
    AllStates (step backend) (ShowsDecisions docs) (backendInit docs) as ∧
      AllSteps (step backend) OtherPairsKept (backendInit docs) as := by
  have hguard := callsGuarded_init Call.IsFollow docs
  constructor
  · have hrun : AllStates (step backend)
        (fun t => CallsGuarded Call.IsFollow t ∧ ShowsDecisions docs t) (backendInit docs) as :=
      allStates_of_keeps (A := Act.Starts Call.IsFollow)
        (fun s a t ha hs hstep =>
          ⟨callsGuarded_step _ s a t ha hs.1 hstep, showsDecisions_step hs.1 hs.2 hstep⟩)
        has ⟨hguard, h, fun u v => by simp [lastDecision, history, backendInit, init]⟩
    exact fun pre hpre t ht => (hrun pre hpre t ht).2
  · exact allSteps_of_keeps (callsGuarded_step Call.IsFollow)
      (fun s a t _ hs hstep => otherPairsKept_step hs hstep) has hguard

theorem followingsOf_freshUsers (emails : List String) (a : String) :
    followingsOf (freshUsers emails) a = [] := by
  unfold followingsOf
  cases hd : freshUsers emails (userRef a) with
  | none => rfl
  | some d =>
    obtain ⟨_, _, hmap⟩ := freshUsers_some hd
    cases hmap
    rfl

/-- Ann follows Bob on one device and takes it back on another, and the follow lands last. -/
def crossedDecisions : List BackendAct :=
  [.start 0 (.followUser "ann" "bob"), .resume 0 online, .resume 0 online,
   .start 1 (.unfollowUser "ann" "bob"), .resume 1 online, .resume 1 online, .resume 1 online,
   .resume 0 online]

theorem crossedDecisions_starts : ∀ a ∈ crossedDecisions, a.Starts Call.IsFollow := by
  simp [crossedDecisions, Act.Starts, Call.IsFollow]

theorem follow_lists_show_the_last_decision_at_crossed_decisions :
    ((∀ a, (followingsOf (freshUsers ["ann", "bob"]) a).Nodup) ∧
      ∀ a ∈ crossedDecisions, a.Starts Call.IsFollow) ∧
      AllStates (step backend) (ShowsDecisions (freshUsers ["ann", "bob"]))
        (backendInit (freshUsers ["ann", "bob"])) crossedDecisions ∧
      AllSteps (step backend) OtherPairsKept (backendInit (freshUsers ["ann", "bob"]))
        crossedDecisions := by
  have hnodup : ∀ a, (followingsOf (freshUsers ["ann", "bob"]) a).Nodup := by
    simp [followingsOf_freshUsers]
  exact ⟨⟨hnodup, crossedDecisions_starts⟩,
    follow_lists_show_the_last_decision _ hnodup _ crossedDecisions_starts⟩

end instagram
