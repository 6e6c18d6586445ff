-- The network repositories: each method as a program over Firestore, and the system in
-- which the calls of any number of clients interleave.
import Instagram.Models

namespace instagram

open docs firestore async

/-! ## Users -/

def attemptCreateUser (userKey : String) (email : Option String) : Fire Unit := do
  let snapshot ← get (userRef userKey)
  if snapshot.isNone then
    let map ← Prog.ofExcept (UserModel.getMapForCreateUser email)
    set (userRef userKey) map

/-- `followUser` and `unfollowUser`, which differ in the list operation and in the sign.
The follower count comes from `otherSnapshot`, read before the transaction opens. -/
def changeFollow (listOp : List Atom → FieldOp Atom) (delta : Int)
    (myUserKey otherUserKey : String) : Fire Unit := do
  let mySnapshot ← get (userRef myUserKey)
  let otherSnapshot ← get (userRef otherUserKey)
  runTransaction do
    if mySnapshot.isSome && otherSnapshot.isSome then
      Tx.update (userRef myUserKey) [(KEY_FOLLOWINGS, listOp [.str otherUserKey])]
      let currentFollowers ← asInt (← field otherSnapshot KEY_FOLLOWERS)
      Tx.update (userRef otherUserKey)
        [(KEY_FOLLOWERS, .put (int (← plus currentFollowers delta)))]

def followUser (myUserKey otherUserKey : String) : Fire Unit :=
  changeFollow .arrayUnion 1 myUserKey otherUserKey

def unfollowUser (myUserKey otherUserKey : String) : Fire Unit :=
  changeFollow .arrayRemove (-1) myUserKey otherUserKey

/-! ## Posts -/

/-- The reference `collection(Users).doc(postData[user_key])`. A null key makes a generated
reference, to a document that does not exist. -/
def authorRef (postData : Doc) : Except DartError (Option Path) := do
  let userKey ← asString (lookup postData KEY_USERKEY)
  pure (userKey.map userRef)

def createNewPost (postKey : String) (postData : Doc) : Fire Unit := do
  let postSnapshot ← get (postRef postKey)
  let userRef ← match ← Prog.ofExcept (authorRef postData) with
    | some ref => pure ref
    | none => newDoc [COLLECTION_USERS]
  runTransaction do
    if postSnapshot.isNone then
      Tx.set (postRef postKey) postData
      Tx.update userRef [(KEY_MYPOSTS, .arrayUnion [.str postKey])]

/-- `updatePostImageUrl` after its read. -/
def updatePostImageUrlOn (postImg postKey : String) (postSnapshot : Snapshot) : Fire Unit := do
  if postSnapshot.isSome then
    update (postRef postKey) [(KEY_POSTIMG, .put (str postImg))]

def updatePostImageUrl (postImg postKey : String) : Fire Unit := do
  let postSnapshot ← get (postRef postKey)
  updatePostImageUrlOn postImg postKey postSnapshot

/-- `toggleLike` after its read. The update is not awaited in the source: it lands at any time
after the read. -/
def toggleLikeOn (postKey userKey : String) (postSnapshot : Snapshot) : Fire Unit := do
  if postSnapshot.isSome then
    let likes ← Prog.ofExcept (dataField postSnapshot KEY_NUMOFLIKES)
    if ← Prog.ofExcept (contains likes userKey) then
      update (postRef postKey) [(KEY_NUMOFLIKES, .arrayRemove [.str userKey])]
    else
      update (postRef postKey) [(KEY_NUMOFLIKES, .arrayUnion [.str userKey])]

def toggleLike (postKey userKey : String) : Fire Unit := do
  let postSnapshot ← get (postRef postKey)
  toggleLikeOn postKey userKey postSnapshot

/-! ## Comments -/

/-- The transaction of `createNewComment`. The comment is queued before the counter is read, and
a counter that raises drops it. -/
def commentTx (postKey : String) (commentData : Doc) (postSnapshot : Snapshot)
    (commentRef : Path) : Tx Unit := do
  if postSnapshot.isSome then
    Tx.set commentRef commentData
    let numOfComments ← asInt (← field postSnapshot KEY_NUMOFCOMMENTS)
    Tx.update (postRef postKey)
      [(KEY_NUMOFCOMMENTS, .put (int (← plus numOfComments 1))),
       (KEY_LASTCOMMENT, .put (lookup commentData KEY_COMMENT)),
       (KEY_LASTCOMMENTTIME, .put (lookup commentData KEY_COMMENTTIME)),
       (KEY_LASTCOMMENTOR, .put (lookup commentData KEY_USERNAME))]

/-- `createNewComment` after its read. -/
def createNewCommentOn (postKey : String) (commentData : Doc) (postSnapshot : Snapshot) :
    Fire Unit := do
  let commentRef ← newDoc (commentsOf postKey)
  runTransaction (commentTx postKey commentData postSnapshot commentRef)

def createNewComment (postKey : String) (commentData : Doc) : Fire Unit := do
  let postSnapshot ← get (postRef postKey)
  createNewCommentOn postKey commentData postSnapshot

/-! ## The backend -/

/-- A call of a repository method, by any client. -/
inductive Call where
  | attemptCreateUser (userKey : String) (email : Option String)
  | followUser (myUserKey otherUserKey : String)
  | unfollowUser (myUserKey otherUserKey : String)
  | createNewPost (postKey : String) (postData : Doc)
  | updatePostImageUrl (postImg postKey : String)
  | toggleLike (postKey userKey : String)
  | createNewComment (postKey : String) (commentData : Doc)

def Call.prog : Call → Fire Unit
  | .attemptCreateUser userKey email => instagram.attemptCreateUser userKey email
  | .followUser my other => instagram.followUser my other
  | .unfollowUser my other => instagram.unfollowUser my other
  | .createNewPost postKey postData => instagram.createNewPost postKey postData
  | .updatePostImageUrl postImg postKey => instagram.updatePostImageUrl postImg postKey
  | .toggleLike postKey userKey => instagram.toggleLike postKey userKey
  | .createNewComment postKey commentData => instagram.createNewComment postKey commentData

/-- Clients share nothing but the database, and nothing but calls changes it. -/
def backend : System Unit Db Op Ans DartError Call Env Empty where
  prog := Call.prog
  handle := handle
  poke x := x.elim

abbrev BackendState : Type := State Unit Db Op Ans DartError Call

abbrev BackendAct : Type := Act Call Env Empty

/-- No call has started, and the database holds these documents. -/
def backendInit (docs : Store) : BackendState := init Op Ans DartError Call () ⟨docs, []⟩

/-! ## What a call can commit -/

/-- The transaction of `changeFollow` when it read `n` followers. -/
def followWrites (listOp : List Atom → FieldOp Atom) (delta : Int) (my other : String) (n : Int) :
    List Write :=
  [.update (userRef my) [(KEY_FOLLOWINGS, listOp [.str other])],
   .update (userRef other) [(KEY_FOLLOWERS, .put (int (n + delta)))]]

/-- The transaction of `createNewPost` on a free key. -/
def createWrites (postKey : String) (postData : Doc) (author : Path) : List Write :=
  [.set (postRef postKey) postData,
   .update author [(KEY_MYPOSTS, .arrayUnion [.str postKey])]]

/-- The transaction of `createNewComment` when it read the count `n`. -/
def commentWrites (postKey : String) (commentData : Doc) (id : String) (n : Int) : List Write :=
  [.set (commentsOf postKey ++ [id]) commentData,
   .update (postRef postKey)
    [(KEY_NUMOFCOMMENTS, .put (int (n + 1))),
     (KEY_LASTCOMMENT, .put (lookup commentData KEY_COMMENT)),
     (KEY_LASTCOMMENTTIME, .put (lookup commentData KEY_COMMENTTIME)),
     (KEY_LASTCOMMENTOR, .put (lookup commentData KEY_USERNAME))]]

/-- A new post is what its call wrote: the author's document is in another collection. -/
theorem docs_createWrites {docs docs' : Store} {postKey : String} {postData : Doc} {author : Path}
    (hauthor : author.head? = some COLLECTION_USERS)
    (h : commit docs (createWrites postKey postData author) = some docs') :
    docs' (postRef postKey) = some postData := by
  have hne : postRef postKey ≠ author := by
    intro he
    rw [← he, head_postRef] at hauthor
    simp [COLLECTION_POST, COLLECTION_USERS] at hauthor
  rw [createWrites, commit_cons] at h
  obtain ⟨u, hu, hrest⟩ := Option.bind_eq_some_iff.mp h
  cases hu
  rw [commit_of_notMem hrest (by simpa [Write.ref] using hne)]
  exact Function.update_self _ _ _

/-- The batches that a call can commit, whatever it reads. A transaction whose guard fails
commits an empty batch. -/
def Call.MayCommit : Call → List Write → Prop
  | .attemptCreateUser userKey email, ws =>
    ∃ map, UserModel.getMapForCreateUser email = .ok map ∧ ws = [.set (userRef userKey) map]
  | .followUser my other, ws => ws = [] ∨ ∃ n, ws = followWrites .arrayUnion 1 my other n
  | .unfollowUser my other, ws => ws = [] ∨ ∃ n, ws = followWrites .arrayRemove (-1) my other n
  | .createNewPost postKey postData, ws =>
    ws = [] ∨ ∃ author, author.head? = some COLLECTION_USERS ∧
      ws = createWrites postKey postData author
  | .updatePostImageUrl postImg postKey, ws =>
    ws = [.update (postRef postKey) [(KEY_POSTIMG, .put (str postImg))]]
  | .toggleLike postKey userKey, ws =>
    ws = [.update (postRef postKey) [(KEY_NUMOFLIKES, .arrayRemove [.str userKey])]] ∨
      ws = [.update (postRef postKey) [(KEY_NUMOFLIKES, .arrayUnion [.str userKey])]]
  | .createNewComment postKey commentData, ws =>
    ws = [] ∨ ∃ id n, ws = commentWrites postKey commentData id n

/-- The writes of these batches, one at a time. -/
inductive Call.Writes : Call → Write → Prop where
  | user {userKey : String} {email : Option String} {map : Doc}
      (hmap : UserModel.getMapForCreateUser email = .ok map) :
      Writes (.attemptCreateUser userKey email) (.set (userRef userKey) map)
  | follow (my other : String) :
      Writes (.followUser my other)
        (.update (userRef my) [(KEY_FOLLOWINGS, .arrayUnion [.str other])])
  | unfollow (my other : String) :
      Writes (.unfollowUser my other)
        (.update (userRef my) [(KEY_FOLLOWINGS, .arrayRemove [.str other])])
  | followed (my other : String) (n : Int) :
      Writes (.followUser my other) (.update (userRef other) [(KEY_FOLLOWERS, .put (int n))])
  | unfollowed (my other : String) (n : Int) :
      Writes (.unfollowUser my other) (.update (userRef other) [(KEY_FOLLOWERS, .put (int n))])
  | post (postKey : String) (postData : Doc) :
      Writes (.createNewPost postKey postData) (.set (postRef postKey) postData)
  | myPosts (postKey : String) (postData : Doc) {author : Path}
      (hauthor : author.head? = some COLLECTION_USERS) :
      Writes (.createNewPost postKey postData)
        (.update author [(KEY_MYPOSTS, .arrayUnion [.str postKey])])
  | postImg (postImg postKey : String) :
      Writes (.updatePostImageUrl postImg postKey)
        (.update (postRef postKey) [(KEY_POSTIMG, .put (str postImg))])
  | unlike (postKey userKey : String) :
      Writes (.toggleLike postKey userKey)
        (.update (postRef postKey) [(KEY_NUMOFLIKES, .arrayRemove [.str userKey])])
  | like (postKey userKey : String) :
      Writes (.toggleLike postKey userKey)
        (.update (postRef postKey) [(KEY_NUMOFLIKES, .arrayUnion [.str userKey])])
  | comment (postKey : String) (commentData : Doc) (id : String) :
      Writes (.createNewComment postKey commentData)
        (.set (commentsOf postKey ++ [id]) commentData)
  | preview (postKey : String) (commentData : Doc) (n : Int) :
      Writes (.createNewComment postKey commentData)
        (.update (postRef postKey)
          [(KEY_NUMOFCOMMENTS, .put (int n)),
           (KEY_LASTCOMMENT, .put (lookup commentData KEY_COMMENT)),
           (KEY_LASTCOMMENTTIME, .put (lookup commentData KEY_COMMENTTIME)),
           (KEY_LASTCOMMENTOR, .put (lookup commentData KEY_USERNAME))])

theorem writes_of_mayCommit {c : Call} {ws : List Write} {w : Write} (h : c.MayCommit ws)
    (hw : w ∈ ws) : c.Writes w := by
  cases c with
  | attemptCreateUser userKey email =>
    obtain ⟨map, hmap, rfl⟩ := h
    obtain rfl := List.mem_singleton.mp hw
    exact .user hmap
  | followUser my other =>
    rcases h with rfl | ⟨n, rfl⟩
    · cases hw
    · rcases List.mem_pair.mp hw with rfl | rfl
      · exact .follow my other
      · exact .followed my other _
  | unfollowUser my other =>
    rcases h with rfl | ⟨n, rfl⟩
    · cases hw
    · rcases List.mem_pair.mp hw with rfl | rfl
      · exact .unfollow my other
      · exact .unfollowed my other _
  | createNewPost postKey postData =>
    rcases h with rfl | ⟨author, hauthor, rfl⟩
    · cases hw
    · rcases List.mem_pair.mp hw with rfl | rfl
      · exact .post postKey postData
      · exact .myPosts postKey postData hauthor
  | updatePostImageUrl postImg postKey =>
    rw [show ws = _ from h] at hw
    obtain rfl := List.mem_singleton.mp hw
    exact .postImg postImg postKey
  | toggleLike postKey userKey =>
    rcases h with rfl | rfl
    · obtain rfl := List.mem_singleton.mp hw
      exact .unlike postKey userKey
    · obtain rfl := List.mem_singleton.mp hw
      exact .like postKey userKey
  | createNewComment postKey commentData =>
    rcases h with rfl | ⟨id, n, rfl⟩
    · cases hw
    · rcases List.mem_pair.mp hw with rfl | rfl
      · exact .comment postKey commentData id
      · exact .preview postKey commentData _

/-- The key of the post that a call is about. -/
def Call.postKey : Call → Option String
  | .createNewPost postKey _ => some postKey
  | .updatePostImageUrl _ postKey => some postKey
  | .toggleLike postKey _ => some postKey
  | .createNewComment postKey _ => some postKey
  | _ => none

/-- The path of a comment is longer than the path of its post, by two segments. -/
theorem comment_ne_of_length {postKey : String} {p : Path}
    (h : p.length ≤ (postRef postKey).length + 1) (id : String) :
    commentsOf postKey ++ [id] ≠ p := by
  rintro rfl
  unfold commentsOf at h
  simp only [List.length_append, List.length_singleton] at h
  omega

/-- A comment is no post. -/
theorem comment_ne_post (postKey id' id : String) :
    commentsOf postKey ++ [id'] ≠ [COLLECTION_POST, id] := by
  refine comment_ne_of_length ?_ id'
  unfold postRef docRef
  simp

theorem commentRef_ne_postRef (postKey id : String) :
    commentsOf postKey ++ [id] ≠ postRef postKey :=
  comment_ne_of_length (Nat.le_succ _) id

theorem comment_ne_postRef {k : String} (hk : IsDocId k) (postKey id : String) :
    commentsOf postKey ++ [id] ≠ postRef k := by
  unfold postRef docRef
  rw [segments_docId hk]
  exact comment_ne_post postKey id k

/-- A comment is no user. -/
theorem comment_ne_userRef (postKey id u : String) : commentsOf postKey ++ [id] ≠ userRef u := by
  simp [commentsOf, postRef, userRef, docRef, COLLECTION_POST, COLLECTION_USERS]

/-- Only the calls on a post write to it. -/
theorem postKey_of_mayCommit {c : Call} {ws : List Write} {k : String} (hk : IsDocId k)
    (h : c.MayCommit ws) (hmem : postRef k ∈ ws.map Write.ref) : c.postKey = some k := by
  obtain ⟨w, hw, href⟩ := List.mem_map.mp hmem
  cases writes_of_mayCommit h hw with
  | user | follow | unfollow | followed | unfollowed =>
    exact absurd href (userRef_ne_postRef _ k)
  | myPosts postKey postData hauthor =>
    have hhead : some COLLECTION_USERS = some COLLECTION_POST :=
      hauthor.symm.trans (congrArg List.head? href)
    simp [COLLECTION_POST, COLLECTION_USERS] at hhead
  | comment postKey commentData id => exact absurd href (comment_ne_postRef hk postKey id)
  | post | postImg | unlike | like | preview => exact congrArg some (postRef_inj.mp href)

/-- The operation, when it is a commit, is one that the call may commit. -/
def Call.Guarantee (c : Call) (o : Op) : Prop := ∀ ws, o = .commit ws → c.MayCommit ws

theorem guarantee_get (c : Call) (ref : Path) : c.Guarantee (.get ref) :=
  fun _ h => by cases h

theorem guarantee_newId (c : Call) (ref : Path) : c.Guarantee (.newId ref) :=
  fun _ h => by cases h

theorem guarantee_commit {c : Call} {ws : List Write} (h : c.MayCommit ws) :
    c.Guarantee (.commit ws) :=
  fun _ he => by cases he; exact h

variable {A : (o : Op) → Ans o → Prop}

theorem changeFollow_awaits {c : Call} {listOp : List Atom → FieldOp Atom} {delta : Int}
    {my other : String} (hnil : c.MayCommit [])
    (h : ∀ n, c.MayCommit (followWrites listOp delta my other n)) :
    (changeFollow listOp delta my other).Awaits A fun o _ => c.Guarantee o := by
  unfold changeFollow
  refine get_awaits (guarantee_get _ _) fun mine _ => ?_
  refine get_awaits (guarantee_get _ _) fun others _ => ?_
  refine runTransaction_awaits fun ws hws => guarantee_commit ?_
  split at hws
  · simp only [tx_update_bind, tx_lift_bind, except_bind_ok] at hws
    obtain ⟨v, _, n, _, m, hm, hws⟩ := hws
    cases n with
    | none => cases hm
    | some n => cases hm; cases hws; exact h n
  · cases hws; exact hnil

theorem createNewPost_awaits (postKey : String) (postData : Doc) :
    (createNewPost postKey postData).Awaits A fun o _ =>
      (Call.createNewPost postKey postData).Guarantee o := by
  unfold createNewPost
  refine get_awaits (guarantee_get _ _) fun snapshot _ => ?_
  refine ofExcept_awaits fun ref href => ?_
  have htx : ∀ author : Path, author.head? = some COLLECTION_USERS → (runTransaction do
      if snapshot.isNone then
        Tx.set (postRef postKey) postData
        Tx.update author [(KEY_MYPOSTS, .arrayUnion [.str postKey])]).Awaits A fun o _ =>
      (Call.createNewPost postKey postData).Guarantee o := by
    intro author hauthor
    refine runTransaction_awaits fun ws hws => guarantee_commit ?_
    split at hws
    · cases hws; exact Or.inr ⟨author, hauthor, rfl⟩
    · cases hws; exact Or.inl rfl
  cases ref with
  | none => exact newDoc_awaits (guarantee_newId _ _) fun id _ => htx _ rfl
  | some author =>
    obtain ⟨key, _, hkey⟩ := except_bind_ok.mp href
    cases key with
    | none => cases hkey
    | some key => cases hkey; exact htx _ rfl

theorem toggleLike_awaits (postKey userKey : String) :
    (toggleLike postKey userKey).Awaits A fun o _ =>
      (Call.toggleLike postKey userKey).Guarantee o := by
  refine get_awaits (guarantee_get _ _) fun snapshot _ => ?_
  unfold toggleLikeOn
  split
  · refine ofExcept_awaits fun likes _ => ofExcept_awaits fun b _ => ?_
    split
    · exact commit_awaits (guarantee_commit (Or.inl rfl))
    · exact commit_awaits (guarantee_commit (Or.inr rfl))
  · trivial

theorem createNewComment_awaits (postKey : String) (commentData : Doc) :
    (createNewComment postKey commentData).Awaits A fun o _ =>
      (Call.createNewComment postKey commentData).Guarantee o := by
  refine get_awaits (guarantee_get _ _) fun snapshot _ => ?_
  refine newDoc_awaits (guarantee_newId _ _) fun id _ => ?_
  refine runTransaction_awaits fun ws hws => guarantee_commit ?_
  unfold commentTx at hws
  split at hws
  · simp only [tx_set_bind, tx_lift_bind, except_bind_ok] at hws
    obtain ⟨v, _, n, _, m, hm, hws⟩ := hws
    cases n with
    | none => cases hm
    | some n => cases hm; cases hws; exact Or.inr ⟨id, n, rfl⟩
  · cases hws; exact Or.inl rfl

/-- Whatever a call reads, it commits only what `MayCommit` says. -/
theorem prog_awaits (c : Call) : c.prog.Awaits A fun o _ => c.Guarantee o := by
  cases c with
  | attemptCreateUser userKey email =>
    refine get_awaits (guarantee_get _ _) fun snapshot _ => ?_
    split
    · refine ofExcept_awaits fun map hmap => ?_
      exact commit_awaits (guarantee_commit ⟨map, hmap, rfl⟩)
    · trivial
  | followUser my other => exact changeFollow_awaits (Or.inl rfl) fun n => Or.inr ⟨n, rfl⟩
  | unfollowUser my other => exact changeFollow_awaits (Or.inl rfl) fun n => Or.inr ⟨n, rfl⟩
  | createNewPost postKey postData => exact createNewPost_awaits postKey postData
  | updatePostImageUrl postImg postKey =>
    refine get_awaits (guarantee_get _ _) fun snapshot _ => ?_
    unfold updatePostImageUrlOn
    split
    · exact commit_awaits (guarantee_commit rfl)
    · trivial
  | toggleLike postKey userKey => exact toggleLike_awaits postKey userKey
  | createNewComment postKey commentData => exact createNewComment_awaits postKey commentData

end instagram
