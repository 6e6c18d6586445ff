-- The follower counter against the follow lists, for calls that run one after another.
-- The list operations are idempotent and the counter moves by one at every call, so the
-- two stay together exactly while no call repeats what is already so.
import Instagram.Follow

namespace instagram

open docs firestore async runs

/-! ## A follow call that runs alone -/

theorem followersOf_some {docs : Store} {u : String} {n : Int} (h : followersOf docs u = some n) :
    ∃ d, docs (userRef u) = some d ∧ d KEY_FOLLOWERS = some (int n) := by
  unfold followersOf at h
  split at h
  · rename_i m hm
    cases h
    obtain ⟨d, hd, hv⟩ := Option.bind_eq_some_iff.mp hm
    exact ⟨d, hd, hv⟩
  · cases h

/-- Alone, a call commits the transaction of the count that is stored. -/
theorem changeFollow_alone {w : Db} (listOp : List Atom → FieldOp Atom) (delta : Int)
    {my other : String} {n : Int} (hmy : (w.docs (userRef my)).isSome)
    (hother : followersOf w.docs other = some n) :
    ∃ d, commit w.docs (followWrites listOp delta my other n) = some d ∧
      (changeFollow listOp delta my other).alone handle (fun _ => online) () w =
        some ((), { w with docs := d }, .ok ()) := by
  obtain ⟨mine, hmine⟩ := Option.isSome_iff_exists.mp hmy
  obtain ⟨others, hothers, hcount⟩ := followersOf_some hother
  have hlands : (commit w.docs (followWrites listOp delta my other n)).isSome := by
    by_cases he : userRef other = userRef my
    · simp [followWrites, Write.apply, hmine, he]
    · simp [followWrites, Write.apply, hmine, hothers, Function.update_of_ne he]
  obtain ⟨d, hd⟩ := Option.isSome_iff_exists.mp hlands
  refine ⟨d, hd, ?_⟩
  unfold changeFollow
  rw [alone_get _ hmine, alone_get _ hothers, runTransaction_ok, alone_commit hd]
  simp [field, hcount, followWrites]
  rfl

/-! ## Counters and lists -/

/-- How many of the users have `u` in their followings. -/
def followedBy (U : Finset String) (docs : Store) (u : String) : ℕ :=
  (U.filter fun v => .str u ∈ followingsOf docs v).card

/-- `U` are the users, and each counter is the number of lists that hold its user. -/
structure Agrees (U : Finset String) (docs : Store) : Prop where
  users : ∀ u, u ∈ U ↔ (docs (userRef u)).isSome
  counts : ∀ u ∈ U, followersOf docs u = some (followedBy U docs u : Int)

/-- A follow call between two of the users. -/
def Call.Between (U : Finset String) : Call → Prop
  | .followUser my other => my ∈ U ∧ other ∈ U
  | .unfollowUser my other => my ∈ U ∧ other ∈ U
  | _ => False

/-- The call follows who is followed already, or unfollows who is not. -/
def Call.Redundant (docs : Store) : Call → Prop
  | .followUser my other => .str other ∈ followingsOf docs my
  | .unfollowUser my other => .str other ∉ followingsOf docs my
  | _ => False

/-- A follow call between users runs to its end and commits the transaction of the stored
count. -/
theorem callAlone_between {U : Finset String} {w : Db} {c : Call} (hc : c.Between U)
    (hU : ∀ u ∈ U, ∃ n, followersOf w.docs u = some n) :
    ∃ other n ws d, other ∈ U ∧ followersOf w.docs other = some n ∧ FollowTx c other n ws ∧
      commit w.docs ws = some d ∧ callAlone w c = some { w with docs := d } := by
  have hdoc : ∀ u ∈ U, (w.docs (userRef u)).isSome := by
    intro u hu
    obtain ⟨n, hn⟩ := hU u hu
    obtain ⟨d, hd, _⟩ := followersOf_some hn
    simp [hd]
  cases c with
  | followUser my other =>
    obtain ⟨n, hn⟩ := hU other hc.2
    obtain ⟨d, hd, halone⟩ := changeFollow_alone .arrayUnion 1 (hdoc my hc.1) hn
    refine ⟨other, n, _, d, hc.2, hn, ⟨my, Or.inl ⟨rfl, rfl⟩⟩, hd, ?_⟩
    unfold callAlone
    rw [Call.prog, followUser, halone]
    rfl
  | unfollowUser my other =>
    obtain ⟨n, hn⟩ := hU other hc.2
    obtain ⟨d, hd, halone⟩ := changeFollow_alone .arrayRemove (-1) (hdoc my hc.1) hn
    refine ⟨other, n, _, d, hc.2, hn, ⟨my, Or.inr ⟨rfl, rfl⟩⟩, hd, ?_⟩
    unfold callAlone
    rw [Call.prog, unfollowUser, halone]
    rfl
  | _ => exact hc.elim

/-- Whose list a follow call changes, and which user it is about. -/
def Call.pair : Call → String × String
  | .followUser my other => (my, other)
  | .unfollowUser my other => (my, other)
  | _ => ("", "")

/-- A follow transaction puts its user on the list or takes it off, and leaves the other
entries of every list. -/
theorem mem_followingsOf_tx {docs docs' : Store} {c : Call} {other : String} {n : Int}
    {ws : List Write} (htx : FollowTx c other n ws) (h : commit docs ws = some docs')
    (u v : String) :
    .str u ∈ followingsOf docs' v ↔
      if v = c.pair.1 ∧ u = other then c.delta = 1 else .str u ∈ followingsOf docs v := by
  obtain ⟨my, ⟨rfl, rfl⟩ | ⟨rfl, rfl⟩⟩ := htx
  · rw [followingsOf_commit h]
    by_cases hv : v = my
    · subst hv
      by_cases hu : u = other
      · simp [Call.pair, Call.delta, mem_union_singleton, hu]
      · simp [Call.pair, mem_union_singleton, hu, followingsOf]
    · simp [Call.pair, hv]
  · rw [followingsOf_commit h]
    by_cases hv : v = my
    · subst hv
      by_cases hu : u = other
      · simp [Call.pair, Call.delta, mem_difference_singleton, hu]
      · simp [Call.pair, mem_difference_singleton, hu, followingsOf]
    · simp [Call.pair, hv]

/-- How many lists hold a user after the transaction: the counter's new value exactly when
the call was not redundant. -/
theorem followedBy_tx {U : Finset String} {docs docs' : Store} {c : Call} {other : String}
    {n : Int} {ws : List Write} (htx : FollowTx c other n ws) (h : commit docs ws = some docs')
    (hmy : c.pair.1 ∈ U) :
    ((followedBy U docs' other : Int) = followedBy U docs other + c.delta ↔
      ¬ c.Redundant docs) := by
  have hmem := fun v => mem_followingsOf_tx htx h other v
  obtain ⟨my, ⟨rfl, rfl⟩ | ⟨rfl, rfl⟩⟩ := htx
  · have hmyU : my ∈ U := hmy
    have hset : U.filter (fun v => .str other ∈ followingsOf docs' v) =
        insert my (U.filter fun v => .str other ∈ followingsOf docs v) := by
      ext v
      rw [Finset.mem_filter, hmem, Finset.mem_insert, Finset.mem_filter]
      by_cases hv : v = my
      · subst hv
        simpa [Call.pair, Call.delta] using hmyU
      · simp [Call.pair, hv]
    unfold followedBy
    rw [hset]
    by_cases hred : Atom.str other ∈ followingsOf docs my
    · rw [Finset.insert_eq_of_mem (by simpa [hred] using hmyU)]
      simp [Call.Redundant, Call.delta, hred]
    · rw [Finset.card_insert_of_notMem (by simp [hred])]
      simp [Call.Redundant, Call.delta, hred]
  · have hmyU : my ∈ U := hmy
    have hset : U.filter (fun v => .str other ∈ followingsOf docs' v) =
        (U.filter fun v => .str other ∈ followingsOf docs v).erase my := by
      ext v
      rw [Finset.mem_filter, hmem, Finset.mem_erase, Finset.mem_filter]
      by_cases hv : v = my
      · subst hv
        simp [Call.pair, Call.delta]
      · simp [Call.pair, hv]
    unfold followedBy
    rw [hset]
    by_cases hred : Atom.str other ∈ followingsOf docs my
    · have hin : my ∈ U.filter fun v => .str other ∈ followingsOf docs v := by
        simpa [hred] using hmyU
      have hpos := Finset.card_pos.mpr ⟨my, hin⟩
      rw [Finset.card_erase_of_mem hin]
      simp only [Call.Redundant, Call.delta, hred, not_true_eq_false, not_false_eq_true, iff_true]
      omega
    · rw [Finset.erase_eq_of_notMem (by simp [hred])]
      simp [Call.Redundant, Call.delta, hred]

/-- Who is on how many lists, for everybody else. -/
theorem followedBy_tx_of_ne {U : Finset String} {docs docs' : Store} {c : Call}
    {other u : String} {n : Int} {ws : List Write} (htx : FollowTx c other n ws)
    (h : commit docs ws = some docs') (hu : u ≠ other) :
    followedBy U docs' u = followedBy U docs u := by
  unfold followedBy
  congr 1
  ext v
  rw [Finset.mem_filter, Finset.mem_filter, mem_followingsOf_tx htx h,
    if_neg fun hboth => hu hboth.2]

/-- A follow transaction makes no user and removes none. -/
theorem isSome_tx {docs docs' : Store} {c : Call} {other : String} {n : Int} {ws : List Write}
    (htx : FollowTx c other n ws) (h : commit docs ws = some docs') (p : Path) :
    (docs' p).isSome ↔ (docs p).isSome := by
  refine ⟨fun hp => ?_, commit_isSome h⟩
  by_contra hno
  have hnone : docs' p = none := by
    refine commit_none h (by simpa using hno) fun d hd => ?_
    obtain ⟨my, ⟨_, rfl⟩ | ⟨_, rfl⟩⟩ := htx <;> simp [followWrites] at hd
  simp [hnone] at hp

theorem agrees_tx {U : Finset String} {docs docs' : Store} {c : Call} {other : String} {n : Int}
    {ws : List Write} (htx : FollowTx c other n ws) (h : commit docs ws = some docs')
    (hc : c.Between U) (hs : Agrees U docs) (hn : followersOf docs other = some n) :
    Agrees U docs' ↔ ¬ c.Redundant docs := by
  obtain ⟨hmy, hother⟩ : c.pair.1 ∈ U ∧ other ∈ U := by
    obtain ⟨my, ⟨rfl, rfl⟩ | ⟨rfl, rfl⟩⟩ := htx <;> exact hc
  have hcount : n = followedBy U docs other := by
    have := hs.counts other hother
    rw [hn] at this
    exact Option.some.inj this
  rw [← followedBy_tx htx h hmy]
  constructor
  · intro ht
    have hnew := ht.counts other hother
    rw [followersOf_tx htx h, if_pos rfl, Option.some.injEq] at hnew
    omega
  · intro hnew
    refine ⟨fun u => (hs.users u).trans (isSome_tx htx h _).symm, fun u hu => ?_⟩
    rw [followersOf_tx htx h]
    split_ifs with he
    · subst he
      rw [hnew, hcount]
    · rw [followedBy_tx_of_ne htx h he, hs.counts u hu]

/-! ## Runs of calls -/

/-- Between users with integer counters, every list of follow calls runs to its end. -/
theorem follow_calls_run_to_the_end {U : Finset String} {w : Db} {cs : List Call}
    (hU : ∀ u ∈ U, ∃ n, followersOf w.docs u = some n) (hcs : ∀ c ∈ cs, c.Between U) :
    (run callAlone w cs).isSome := by
  induction cs generalizing w with
  | nil => rfl
  | cons c cs ih =>
    obtain ⟨other, n, ws, d, _, hn, htx, hd, hc⟩ :=
      callAlone_between (hcs c List.mem_cons_self) hU
    rw [run_cons, hc]
    refine ih (fun u hu => ?_) fun c' hc' => hcs c' (List.mem_cons_of_mem _ hc')
    rw [followersOf_tx htx hd]
    split_ifs
    · exact ⟨_, rfl⟩
    · exact hU u hu

/-- Start where every counter is the number of lists that hold its user, and run follow calls
one after another, which is a run of the backend. The counters stay so exactly when no call is
redundant. -/
theorem counters_agree_iff_no_call_is_redundant (U : Finset String) (w : Db) (cs : List Call)
    (h : Agrees U w.docs) (hcs : ∀ c ∈ cs, c.Between U) :
    (∃ as t, run (step backend) (init Op Ans DartError Call () w) as = some t ∧
      run callAlone w cs = some t.world) ∧
      (AllStates callAlone (fun w => Agrees U w.docs) w cs ↔
        AllSteps callAlone (fun w c _ => ¬ c.Redundant w.docs) w cs) := by
  constructor
  · obtain ⟨w', hw'⟩ := Option.isSome_iff_exists.mp
      (follow_calls_run_to_the_end (fun u hu => ⟨_, h.counts u hu⟩) hcs)
    obtain ⟨as, t, ht, hworld, _⟩ := calls_alone_are_a_run hw'
    exact ⟨as, t, ht, hworld ▸ hw'⟩
  refine allStates_iff_allSteps (I := fun _ => True) (A := Call.Between U)
    (fun _ _ _ _ _ _ => trivial) ?_ hcs trivial h
  intro w c t hc _ hw hstep
  obtain ⟨other, n, ws, d, _, hn, htx, hd, halone⟩ :=
    callAlone_between hc fun u hu => ⟨_, hw.counts u hu⟩
  rw [hstep, Option.some.injEq] at halone
  subst halone
  exact agrees_tx htx hd hc hw hn

/-- Ann follows Bob, and then once more. -/
def followedTwice : List Call := [.followUser "ann" "bob", .followUser "ann" "bob"]

theorem freshUsers_agree : Agrees {"ann", "bob"} (freshUsers ["ann", "bob"]) := by
  refine ⟨fun u => ?_, fun u hu => ?_⟩
  · by_cases ha : u = "ann"
    · subst ha
      decide
    · by_cases hb : u = "bob"
      · subst hb
        decide
      · simp [freshUsers, ha, hb]
  · rw [Finset.mem_insert, Finset.mem_singleton] at hu
    rcases hu with rfl | rfl <;> decide

theorem followedTwice_between : ∀ c ∈ followedTwice, c.Between {"ann", "bob"} := by
  simp [followedTwice, Call.Between]

/-- Bob has two followers by the counter and one by the lists. -/
theorem a_second_follow_breaks_the_counter :
    Agrees {"ann", "bob"} (freshUsers ["ann", "bob"]) ∧
      (∀ c ∈ followedTwice, c.Between {"ann", "bob"}) ∧
      ¬ AllStates callAlone (fun w => Agrees {"ann", "bob"} w.docs)
        ⟨freshUsers ["ann", "bob"], []⟩ followedTwice := by
  refine ⟨freshUsers_agree, followedTwice_between, fun hall => ?_⟩
  have hend : ((run callAlone ⟨freshUsers ["ann", "bob"], []⟩ followedTwice).map fun w =>
      (followersOf w.docs "bob", followedBy {"ann", "bob"} w.docs "bob")) = some (some 2, 1) := by
    decide
  obtain ⟨w, hw, hcounts⟩ := Option.map_eq_some_iff.mp hend
  simp only [Prod.mk.injEq] at hcounts
  have hbob := (hall _ (List.prefix_refl _) w hw).counts "bob" (by decide)
  rw [hcounts.1, hcounts.2] at hbob
  simp at hbob

theorem counters_agree_at_a_second_follow :
    (Agrees {"ann", "bob"} (freshUsers ["ann", "bob"]) ∧
      ∀ c ∈ followedTwice, c.Between {"ann", "bob"}) ∧
      (∃ as t, run (step backend)
          (init Op Ans DartError Call () ⟨freshUsers ["ann", "bob"], []⟩) as = some t ∧
        run callAlone ⟨freshUsers ["ann", "bob"], []⟩ followedTwice = some t.world) ∧
      (AllStates callAlone (fun w => Agrees {"ann", "bob"} w.docs)
          ⟨freshUsers ["ann", "bob"], []⟩ followedTwice ↔
        AllSteps callAlone (fun w c _ => ¬ c.Redundant w.docs)
          ⟨freshUsers ["ann", "bob"], []⟩ followedTwice) :=
  ⟨⟨freshUsers_agree, followedTwice_between⟩,
    counters_agree_iff_no_call_is_redundant _ _ _ freshUsers_agree followedTwice_between⟩

end instagram
