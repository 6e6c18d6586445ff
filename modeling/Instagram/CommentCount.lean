-- The comment counter against the comments. The comment and the counter are written in one
-- transaction, but the counter goes on from a value that was read before the transaction
-- opened. So the counter counts the comments exactly while that value is still good.
import Mathlib.Data.Finset.Card
import Mathlib.Data.Finset.Insert
import Instagram.PostCalls

namespace instagram

open docs firestore async runs

/-! ## The counter and the comments -/

/-- The stored counter of a post, when it is an integer. -/
def numOfCommentsOf (docs : Store) (postKey : String) : Option Int :=
  (docs (postRef postKey)).bind commentsIn

/-- The ids of the comments of a post. -/
def IsCommentIds (docs : Store) (postKey : String) (ids : Finset String) : Prop :=
  ∀ id, id ∈ ids ↔ (docs (commentsOf postKey ++ [id])).isSome

/-- The counter is the number of documents in the Comments of the post. -/
def CommentsCounted (postKey : String) (docs : Store) : Prop :=
  ∃ ids, IsCommentIds docs postKey ids ∧ numOfCommentsOf docs postKey = some (ids.card : Int)

theorem isCommentIds_unique {docs : Store} {k : String} {ids ids' : Finset String}
    (h : IsCommentIds docs k ids) (h' : IsCommentIds docs k ids') : ids' = ids := by
  ext id
  rw [h' id, h id]

theorem numOfCommentsOf_commit {docs docs' : Store} {k : String} {commentData : Doc} {id : String}
    {n : Int} (h : commit docs (commentWrites k commentData id n) = some docs') :
    numOfCommentsOf docs' k = some (n + 1) := by
  obtain ⟨d, _, rfl⟩ := commit_commentWrites h
  unfold numOfCommentsOf
  rw [Function.update_self, Option.bind_some, commentsIn_commented]

theorem isCommentIds_commit {docs docs' : Store} {k : String} {commentData : Doc} {id : String}
    {n : Int} {ids : Finset String} (hids : IsCommentIds docs k ids)
    (h : commit docs (commentWrites k commentData id n) = some docs') :
    IsCommentIds docs' k (insert id ids) := by
  obtain ⟨d, _, rfl⟩ := commit_commentWrites h
  intro i
  rw [Function.update_of_ne (commentRef_ne_postRef k i), Finset.mem_insert]
  by_cases hi : i = id
  · subst hi
    simp
  · have hne : commentsOf k ++ [i] ≠ commentsOf k ++ [id] := by simpa using hi
    rw [Function.update_of_ne hne, hids i]
    simp [hi]

/-- A new comment keeps the counter right exactly when it counts on from the stored one. -/
theorem counted_comment {docs docs' : Store} {k : String} {commentData : Doc} {id : String}
    {n : Int} (hnew : docs (commentsOf k ++ [id]) = none) (hs : CommentsCounted k docs)
    (h : commit docs (commentWrites k commentData id n) = some docs') :
    CommentsCounted k docs' ↔ numOfCommentsOf docs k = some n := by
  obtain ⟨ids, hids, hcount⟩ := hs
  have hout : id ∉ ids := by
    intro hin
    have hsome := (hids id).mp hin
    rw [hnew] at hsome
    cases hsome
  have hids' := isCommentIds_commit hids h
  have hcard : ((insert id ids).card : Int) = ids.card + 1 := by
    rw [Finset.card_insert_of_notMem hout]
    push_cast
    rfl
  rw [hcount]
  constructor
  · rintro ⟨ids'', hids'', hcount''⟩
    obtain rfl := isCommentIds_unique hids' hids''
    rw [numOfCommentsOf_commit h, hcard, Option.some.injEq] at hcount''
    rw [Option.some.injEq]
    omega
  · intro hn
    rw [Option.some.injEq] at hn
    refine ⟨_, hids', ?_⟩
    rw [numOfCommentsOf_commit h, hcard, hn]

/-! ## Every run -/

/-- A comment on the post, by anyone. -/
def Call.Comments (k : String) : Call → Prop
  | .createNewComment postKey _ => postKey = k
  | _ => False

theorem onPost_of_comments {k : String} (c : Call) (hc : c.Comments k) : c.OnPost := by
  cases c with
  | createNewComment postKey commentData => trivial
  | _ => exact hc.elim

theorem batch_of_comments {k : String} {c : Call} {ws : List Write} (hc : c.Comments k)
    (h : c.MayCommit ws) :
    ws = [] ∨ ∃ commentData id n, ws = commentWrites k commentData id n := by
  cases c with
  | createNewComment postKey commentData =>
    obtain rfl : postKey = k := hc
    rcases h with rfl | ⟨id, n, rfl⟩
    · exact Or.inl rfl
    · exact Or.inr ⟨commentData, id, n, rfl⟩
  | _ => exact hc.elim

/-- A comment commits only while the counter that its call read is still stored. -/
def FreshCount (k : String) (s : BackendState) (a : BackendAct) : Prop :=
  ∀ c commentData id n, Commits s a c (commentWrites k commentData id n) →
    numOfCommentsOf s.world.docs k = some n

/-- One step keeps the counter right exactly when its count is fresh. -/
theorem counted_step {k : String} {s t : BackendState} {a : BackendAct}
    (hs : OnPosts (Call.Comments k) s) (hf : FreshRefs s) (hc : CommentsCounted k s.world.docs)
    (h : step backend s a = some t) :
    CommentsCounted k t.world.docs ↔ FreshCount k s a := by
  rcases backend_step h with ⟨c, ws, hcommits, hcommit, _⟩ | ⟨hno, hdocs, _⟩
  · obtain ⟨hcall, hmay⟩ := onPosts_commits hs hcommits
    rcases batch_of_comments hcall hmay with rfl | ⟨commentData, id, n, rfl⟩
    · -- an empty transaction leaves the post and its comments alone
      rw [commit_nil, Option.some.injEq] at hcommit
      refine iff_of_true (hcommit ▸ hc) fun d commentData id n hd => ?_
      have hempty := (commits_unique hcommits hd).2
      simp [commentWrites] at hempty
    · rw [counted_comment (comment_is_new hf hcommits) hc hcommit]
      constructor
      · intro hn d commentData' id' n' hd
        obtain ⟨_, _, rfl⟩ := commentWrites_inj (commits_unique hcommits hd).2.symm
        exact hn
      · intro hfresh
        exact hfresh c commentData id n hcommits
  · rw [hdocs]
    exact iff_of_true hc fun c commentData id n hd => absurd hd (hno c _)

/-- The counter of a post counts its comments in a run of comments exactly when each comment
commits while the counter that its call read is still stored. -/
theorem the_counter_counts_iff_every_count_is_fresh (k : String) (docs : Store)
    (h0 : CommentsCounted k docs) (as : List BackendAct)
    (has : ∀ a ∈ as, a.Starts (Call.Comments k)) :
    AllStates (step backend) (fun t => CommentsCounted k t.world.docs) (backendInit docs) as ↔
      AllSteps (step backend) (fun s a _ => FreshCount k s a) (backendInit docs) as := by
  refine allStates_iff_allSteps
    (I := fun s => OnPosts (Call.Comments k) s ∧ FreshRefs s) (A := Act.Starts (Call.Comments k))
    ?_ ?_ has ⟨onPosts_init _ docs, freshRefs_init docs⟩ h0
  · rintro s a t ha ⟨hs, hf⟩ hstep
    exact ⟨onPosts_step onPost_of_comments s a t ha hs hstep,
      freshRefs_step onPost_of_comments hs ha hf hstep⟩
  · rintro s a t _ ⟨hs, hf⟩ hc hstep
    exact counted_step hs hf hc hstep

def annsComment : Doc := CommentModel.getMapForNewComment "ann" (some "ann") "nice" 1

def bobsComment : Doc := CommentModel.getMapForNewComment "bob" (some "bob") "wow" 2

/-- Ann and Bob comment on the post, and both read it before either commits. -/
def racingComments : List BackendAct :=
  [.start 0 (.createNewComment "p" annsComment), .start 1 (.createNewComment "p" bobsComment),
   .resume 0 online, .resume 1 online, .resume 0 ⟨false, "a"⟩, .resume 1 ⟨false, "b"⟩,
   .resume 0 online, .resume 1 online]

theorem racingComments_starts : ∀ a ∈ racingComments, a.Starts (Call.Comments "p") := by
  simp [racingComments, Act.Starts, Call.Comments]

theorem countedPost_counted : CommentsCounted "p" (countedPost "p") := by
  refine ⟨∅, fun id => ?_, rfl⟩
  have hnone : countedPost "p" (commentsOf "p" ++ [id]) = none :=
    if_neg (commentRef_ne_postRef "p" id)
  rw [hnone]
  simp

/-- Two comments were committed, and one is counted. -/
theorem a_racing_comment_is_not_counted :
    CommentsCounted "p" (countedPost "p") ∧ (∀ a ∈ racingComments, a.Starts (Call.Comments "p")) ∧
      ¬ AllStates (step backend) (fun t => CommentsCounted "p" t.world.docs)
        (backendInit (countedPost "p")) racingComments := by
  refine ⟨countedPost_counted, racingComments_starts, fun hall => ?_⟩
  have hend : ((run (step backend) (backendInit (countedPost "p")) racingComments).map fun t =>
      (numOfCommentsOf t.world.docs "p", (t.world.docs (commentsOf "p" ++ ["a"])).isSome,
        (t.world.docs (commentsOf "p" ++ ["b"])).isSome)) = some (some 1, true, true) := rfl
  obtain ⟨t, ht, hcounts⟩ := Option.map_eq_some_iff.mp hend
  simp only [Prod.mk.injEq] at hcounts
  obtain ⟨hcount, ha, hb⟩ := hcounts
  obtain ⟨ids, hids, hcard⟩ := hall _ (List.prefix_refl _) t ht
  have hpair : ({"a", "b"} : Finset String) ⊆ ids := by
    intro id hid
    rcases Finset.mem_insert.mp hid with rfl | hid
    · exact (hids "a").mpr ha
    · rw [Finset.mem_singleton.mp hid]
      exact (hids "b").mpr hb
  have htwo : 2 ≤ ids.card := Finset.card_le_card hpair
  rw [hcount, Option.some.injEq] at hcard
  omega

theorem the_counter_counts_at_the_race :
    (CommentsCounted "p" (countedPost "p") ∧ ∀ a ∈ racingComments, a.Starts (Call.Comments "p")) ∧
      (AllStates (step backend) (fun t => CommentsCounted "p" t.world.docs)
          (backendInit (countedPost "p")) racingComments ↔
        AllSteps (step backend) (fun s a _ => FreshCount "p" s a) (backendInit (countedPost "p"))
          racingComments) :=
  ⟨⟨countedPost_counted, racingComments_starts⟩,
    the_counter_counts_iff_every_count_is_fresh "p" (countedPost "p") countedPost_counted _
      racingComments_starts⟩

end instagram
