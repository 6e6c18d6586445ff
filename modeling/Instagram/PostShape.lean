-- The shape of post documents. A new post has the number 0 where its updaters look for the
-- list of likes, and no comment counter, and no call ever mends that. So every like and
-- every comment that finds the post raises.
import Instagram.Backend

namespace instagram

open docs firestore async runs

/-! ## Shapes -/

/-- The shape that `toggleLike` and `createNewComment` need. -/
def WellShaped (d : Doc) : Prop :=
  (∃ xs, d KEY_NUMOFLIKES = some (.list xs)) ∧ ∃ n, d KEY_NUMOFCOMMENTS = some (int n)

/-- The shape that posts have. -/
def Misshapen (d : Doc) : Prop :=
  d KEY_NUMOFLIKES = some (int 0) ∧ d KEY_NUMOFCOMMENTS = none

theorem misshapen_getMapForCreatePost (userKey : String) (username : Option String)
    (caption : String) (now now' : Int) :
    Misshapen (PostModel.getMapForCreatePost userKey username caption now now') := ⟨rfl, rfl⟩

/-- Creates the post `k`, if at all, from `getMapForCreatePost`. -/
def Call.CreatesMapped (k : String) (c : Call) : Prop :=
  ∀ postData, c = .createNewPost k postData → ∃ userKey username caption now now',
    postData = PostModel.getMapForCreatePost userKey username caption now now'

/-- A like or a comment on the post `k`. -/
def Call.Updates (k : String) : Call → Prop
  | .toggleLike postKey _ => postKey = k
  | .createNewComment postKey _ => postKey = k
  | _ => False

/-- What a like raises on a misshapen post, and what a comment raises. -/
def Call.updateError : Call → DartError
  | .toggleLike _ _ => .noSuchMethod
  | _ => .stateError

/-- An answer that delivers the existing post `k`. -/
def ReadsPost (k : String) : (o : Op) → Ans o → Prop
  | .get ref, a => ref = postRef k ∧ ∃ d, a = .ok (some d)
  | .commit _, _ => False
  | .newId _, _ => False

/-! ## What the updaters do on a misshapen post -/

/-- Whoever reads the post `k` finds it missing or misshapen. -/
def PostRely (k : String) : (o : Op) → Ans o → Prop
  | .get ref, a => ref = postRef k → ∀ d, a = .ok (some d) → Misshapen d
  | .commit _, _ => True
  | .newId _, _ => True

/-- A like or a comment on the post `k` commits nothing, and once it has read the post it
can only raise. -/
def NeverUpdates (k : String) (c : Call) (o : Op) (f : Ans o → Fire Unit) : Prop :=
  c.Updates k → (∀ ws, o = .commit ws → ws = []) ∧
    ∀ a, PostRely k o a → ReadsPost k o a → (f a).Raises c.updateError

theorem toggleLike_neverUpdates (k userKey : String) :
    (toggleLike k userKey).Awaits (PostRely k) (NeverUpdates k (.toggleLike k userKey)) := by
  have hraise : ∀ d, Misshapen d → ∀ f : Bool → Fire Unit,
      (Prog.ofExcept (dataField (some d) KEY_NUMOFLIKES) >>= fun likes =>
        Prog.ofExcept (contains likes userKey) >>= f) = .raise .noSuchMethod := by
    intro d hd f
    simp [dataField, lookup, hd.1, int, contains]
  refine get_awaits (fun _ => ⟨fun ws h => (by cases h), fun a hrely hread => ?_⟩) fun s hs => ?_
  · obtain ⟨hk, d, rfl⟩ := hread
    have hd : Misshapen d := hrely hk d rfl
    simp only [Prog.ofExcept_ok, Prog.ret_bind, toggleLikeOn, Option.isSome_some, if_true]
    rw [hraise d hd]
    rfl
  · cases s with
    | none => trivial
    | some d =>
      simp only [toggleLikeOn, Option.isSome_some, if_true]
      rw [hraise d (hs rfl d rfl)]
      trivial

theorem createNewComment_neverUpdates (k : String) (commentData : Doc) :
    (createNewComment k commentData).Awaits (PostRely k)
      (NeverUpdates k (.createNewComment k commentData)) := by
  refine get_awaits (fun _ => ⟨fun ws h => (by cases h), fun a hrely hread => ?_⟩) fun s hs => ?_
  · obtain ⟨hk, d, rfl⟩ := hread
    have hd : Misshapen d := hrely hk d rfl
    intro id
    show Prog.Raises _ (runTransaction _)
    rw [runTransaction_error (x := .stateError)]
    · rfl
    · simp [commentTx, field, hd.2]
      rfl
  · refine newDoc_awaits (fun _ => ⟨fun ws h => (by cases h), fun a _ h => h.elim⟩) fun id _ => ?_
    refine runTransaction_awaits fun ws hws _ => ⟨fun vs h => ?_, fun a _ h => h.elim⟩
    cases h
    cases s with
    | none => cases hws; rfl
    | some d =>
      have hd : Misshapen d := hs rfl d rfl
      simp [commentTx, field, hd.2] at hws
      cases hws

theorem prog_neverUpdates (k : String) (c : Call) :
    c.prog.Awaits (PostRely k) (NeverUpdates k c) := by
  by_cases hc : c.Updates k
  · cases c with
    | toggleLike postKey userKey =>
      obtain rfl : postKey = k := hc
      exact toggleLike_neverUpdates postKey userKey
    | createNewComment postKey commentData =>
      obtain rfl : postKey = k := hc
      exact createNewComment_neverUpdates postKey commentData
    | _ => exact hc.elim
  · exact awaits_of_forall (fun _ _ h => absurd h hc) _

/-! ## Every run keeps the shape -/

/-- The post `k` is missing or misshapen. -/
def PostBroken (k : String) (w : Db) : Prop := ∀ d, w.docs (postRef k) = some d → Misshapen d

/-- A commit that the calls may make keeps the post misshapen. -/
theorem postBroken_commit {k : String} (hk : IsDocId k) {c : Call} {ws : List Write}
    {docs docs' : Store} (hcreate : c.CreatesMapped k) (hmay : c.MayCommit ws)
    (hnever : c.Updates k → ws = []) (h : commit docs ws = some docs')
    (hs : ∀ d, docs (postRef k) = some d → Misshapen d) :
    ∀ d, docs' (postRef k) = some d → Misshapen d := by
  by_cases hmem : postRef k ∈ ws.map Write.ref
  · have hkey := postKey_of_mayCommit hk hmay hmem
    cases c with
    | createNewPost postKey postData =>
      cases hkey
      rcases hmay with rfl | ⟨author, hauthor, rfl⟩
      · simp at hmem
      · obtain ⟨userKey, username, caption, now, now', rfl⟩ := hcreate postData rfl
        intro d hd
        rw [docs_createWrites hauthor h, Option.some.injEq] at hd
        rw [← hd]
        exact misshapen_getMapForCreatePost _ _ _ _ _
    | updatePostImageUrl postImg postKey =>
      cases hkey
      rw [hmay] at h
      obtain ⟨d, hd, rfl⟩ := commit_update_some h
      obtain ⟨hlikes, hcomments⟩ := hs d hd
      intro e he
      rw [Function.update_self, Option.some.injEq] at he
      subst he
      constructor
      · rw [updated_of_notMem _ _ _ (by simp [KEY_NUMOFLIKES, KEY_POSTIMG]), hlikes]
      · rw [updated_of_notMem _ _ _ (by simp [KEY_NUMOFCOMMENTS, KEY_POSTIMG]), hcomments]
    | toggleLike postKey userKey =>
      cases hkey
      rw [hnever rfl] at hmem
      simp at hmem
    | createNewComment postKey commentData =>
      cases hkey
      rw [hnever rfl] at hmem
      simp at hmem
    | _ => cases hkey
  · rw [commit_of_notMem h hmem]
    exact hs

/-- What every run of such calls keeps. -/
abbrev PostGuarded (k : String) : BackendState → Prop :=
  Guarded (PostBroken k) (PostRely k) (Call.CreatesMapped k)
    fun c o f => c.Guarantee o ∧ NeverUpdates k c o f

theorem postRely_of_handle {k : String} (o : Op) (e : Env) (w w' : Db) (a : Ans o)
    (hw : PostBroken k w) (h : handle o e w = some (w', a)) : PostRely k o a := by
  cases o with
  | get ref =>
    rintro rfl d rfl
    exact hw d ((handle_get h).2 _ rfl).symm
  | commit ws => trivial
  | newId c => trivial

theorem postGuarded_step {k : String} (hk : IsDocId k) (s : BackendState) (a : BackendAct)
    (t : BackendState) (ha : a.Starts (Call.CreatesMapped k)) (hs : PostGuarded k s)
    (h : step backend s a = some t) : PostGuarded k t := by
  refine guarded_step (fun c _ => (prog_awaits c).and (prog_neverUpdates k c))
    postRely_of_handle ?_ (fun x => x.elim) s a t ha hs h
  intro c o f e w w' a hc hJ hw hhandle
  refine handle_keeps (I := fun docs => ∀ d, docs (postRef k) = some d → Misshapen d)
    (fun ws docs' ho hcommit => ?_) hw hhandle
  exact postBroken_commit hk hc (hJ.1 ws ho) (fun hup => (hJ.2 hup).1 ws ho) hcommit hw

/-- Neither field of the post `k` has its type, and each like or comment that has read the
post has raised or will. -/
structure CannotBeUpdated (k : String) (s : BackendState) : Prop where
  likes : ∀ d, s.world.docs (postRef k) = some d → ¬ ∃ xs, d KEY_NUMOFLIKES = some (.list xs)
  comments : ∀ d, s.world.docs (postRef k) = some d → ¬ ∃ n, d KEY_NUMOFCOMMENTS = some (int n)
  raises : Doomed (fun c o a => c.Updates k ∧ ReadsPost k o a) Call.updateError s

/-- Whatever runs, a post that the app creates never has the shape that its updaters need,
and every like and every comment on it raises. -/
theorem no_created_post_can_be_updated (k : String) (hk : IsDocId k) (docs : Store)
    (h : docs (postRef k) = none) (as : List BackendAct)
    (has : ∀ a ∈ as, a.Starts (Call.CreatesMapped k)) :
    AllStates (step backend) (CannotBeUpdated k) (backendInit docs) as := by
  have hrun : AllStates (step backend) (fun s => PostGuarded k s ∧
      Doomed (fun c o a => c.Updates k ∧ ReadsPost k o a) Call.updateError s)
      (backendInit docs) as := by
    refine allStates_of_keeps (A := Act.Starts (Call.CreatesMapped k)) ?_ has ⟨?_, ?_⟩
    · rintro s a t ha ⟨hs, hd⟩ hstep
      refine ⟨postGuarded_step hk s a t ha hs hstep, ?_⟩
      refine doomed_step postRely_of_handle ?_ hs hd hstep
      intro c o f ans _ hJ hrely hQ
      exact (hJ.2 hQ.1).2 ans hrely hQ.2
    · refine guarded_init () fun d hd => ?_
      have hnone : docs (postRef k) = some d := hd
      rw [h] at hnone
      cases hnone
    · intro ev hev
      simp [backendInit, init] at hev
  intro pre hpre t ht
  obtain ⟨hs, hd⟩ := hrun pre hpre t ht
  refine ⟨fun d hdoc => ?_, fun d hdoc => ?_, hd⟩
  · rintro ⟨xs, hxs⟩
    rw [(hs.world d hdoc).1] at hxs
    cases hxs
  · rintro ⟨n, hn⟩
    rw [(hs.world d hdoc).2] at hn
    cases hn

/-- Ann shares a post, likes it and comments on it. -/
def firstPost : List BackendAct :=
  [.start 0 (.createNewPost "p" (PostModel.getMapForCreatePost "ann" (some "ann") "sunset" 0 0)),
   .resume 0 online, .resume 0 online,
   .start 1 (.toggleLike "p" "ann"), .resume 1 online,
   .start 2 (.createNewComment "p" (CommentModel.getMapForNewComment "ann" (some "ann") "nice" 1)),
   .resume 2 online, .resume 2 ⟨false, "c"⟩]

theorem firstPost_starts : ∀ a ∈ firstPost, a.Starts (Call.CreatesMapped "p") := by
  simp only [firstPost, List.forall_mem_cons, Act.Starts, Call.CreatesMapped]
  simp
  exact ⟨_, _, _, _, _, rfl⟩

/-- The post is there in the wrong shape, and the like and the comment have raised. -/
theorem a_shared_post_cannot_be_liked :
    ∃ t d, run (step backend) (backendInit (freshUsers ["ann"])) firstPost = some t ∧
      t.world.docs (postRef "p") = some d ∧ ¬ WellShaped d ∧
      t.calls 1 = some (.toggleLike "p" "ann", .ended (.error .noSuchMethod)) ∧
      t.calls 2 = some (.createNewComment "p"
        (CommentModel.getMapForNewComment "ann" (some "ann") "nice" 1),
          .ended (.error .stateError)) := by
  refine ⟨_, _, rfl, rfl, ?_, rfl, rfl⟩
  rintro ⟨⟨xs, hxs⟩, _⟩
  cases hxs

theorem no_created_post_can_be_updated_at_the_first_post :
    (IsDocId "p" ∧ freshUsers ["ann"] (postRef "p") = none ∧
      ∀ a ∈ firstPost, a.Starts (Call.CreatesMapped "p")) ∧
      AllStates (step backend) (CannotBeUpdated "p") (backendInit (freshUsers ["ann"])) firstPost :=
  ⟨⟨by decide, rfl, firstPost_starts⟩,
    no_created_post_can_be_updated "p" (by decide) _ rfl _ firstPost_starts⟩

end instagram
