-- The posts against the `my_posts` lists of their authors. A post and its entry in the list
-- are written together, and a key names its author, so the two agree in every run, also
-- where a second create call of the same key gets through.
import Instagram.Footprint
import Instagram.PostKeys

namespace instagram

open docs firestore async runs

/-! ## The index -/

def myPostsOf (docs : Store) (u : String) : List Atom :=
  elems ((docs (userRef u)).bind (· KEY_MYPOSTS))

/-- The post `k` exists, and its `user_key` is `u`. -/
def PostBy (docs : Store) (k u : String) : Prop :=
  ∃ d, docs (postRef k) = some d ∧ d KEY_USERKEY = some (str u)

/-- No list has a post twice, and every post has an author. A key with a slash is no key of a
post or a user. -/
structure ListsFit (docs : Store) : Prop where
  nodup : ∀ u, IsDocId u → (myPostsOf docs u).Nodup
  authored : ∀ k d, IsDocId k → docs (postRef k) = some d →
    ∃ u, d KEY_USERKEY = some (str u) ∧ (docs (userRef u)).isSome

/-- The lists of the users hold just their posts, each once, and every post has an author. -/
structure PostsIndexed (docs : Store) : Prop extends ListsFit docs where
  listed : ∀ k u, IsDocId k → IsDocId u → (.str k ∈ myPostsOf docs u ↔ PostBy docs k u)

/-- The same, but for the posts that a list has lost. -/
structure IndexedBut (lost : String → String → Bool) (docs : Store) : Prop
    extends ListsFit docs where
  listed : ∀ k u, IsDocId k → IsDocId u →
    (.str k ∈ myPostsOf docs u ↔ PostBy docs k u ∧ lost k u = false)

theorem postsIndexed_iff {docs : Store} :
    PostsIndexed docs ↔ IndexedBut (fun _ _ => false) docs := by
  constructor
  · intro h
    exact ⟨h.toListsFit, fun k u hk hu => (h.listed k u hk hu).trans (by simp)⟩
  · intro h
    exact ⟨h.toListsFit, fun k u hk hu => (h.listed k u hk hu).trans (by simp)⟩

/-- A post is created under a key that was made from the user whom its data names. -/
def MadeBy (postKey : String) (postData : Doc) (u : String) : Prop :=
  postData KEY_USERKEY = some (str u) ∧
    ∃ now userModel, userModel.userKey = u ∧ postKey = getNewPostKey now userModel

/-- Any call, each create call with a key of its author. -/
def Call.Keyed (c : Call) : Prop :=
  ∀ postKey postData, c = .createNewPost postKey postData → ∃ u, MadeBy postKey postData u

/-- The same, but for the creation of a user. -/
def Call.KeyedByAuthor : Call → Prop
  | .attemptCreateUser _ _ => False
  | .createNewPost postKey postData => ∃ u, MadeBy postKey postData u
  | _ => True

theorem madeBy_unique {k u v : String} {d e : Doc} (h : MadeBy k d u) (h' : MadeBy k e v) :
    u = v := by
  obtain ⟨_, now, m, rfl, hk⟩ := h
  obtain ⟨_, now', m', rfl, hk'⟩ := h'
  exact (getNewPostKey_split (hk.symm.trans hk')).2

/-! ## The index in terms of fields -/

theorem postBy_iff {docs : Store} {k u : String} :
    PostBy docs k u ↔ fieldAt docs (postRef k) KEY_USERKEY = some (some (str u)) :=
  Option.map_eq_some_iff.symm

theorem myPostsOf_eq (docs : Store) (u : String) :
    myPostsOf docs u = elems ((fieldAt docs (userRef u) KEY_MYPOSTS).bind id) := by
  unfold myPostsOf fieldAt
  cases docs (userRef u) <;> rfl

/-- What the index reads of the documents is as before: two fields, and which documents there
are. -/
structure SameIndex (docs docs' : Store) : Prop where
  posts : ∀ k, IsDocId k →
    fieldAt docs' (postRef k) KEY_USERKEY = fieldAt docs (postRef k) KEY_USERKEY
  lists : ∀ u, IsDocId u →
    fieldAt docs' (userRef u) KEY_MYPOSTS = fieldAt docs (userRef u) KEY_MYPOSTS
  stays : ∀ p, (docs p).isSome → (docs' p).isSome

namespace SameIndex

variable {docs docs' : Store} (h : SameIndex docs docs')
include h

theorem postBy {k : String} (hk : IsDocId k) (u : String) : PostBy docs' k u ↔ PostBy docs k u := by
  rw [postBy_iff, h.posts k hk, ← postBy_iff]

theorem myPostsOf {u : String} (hu : IsDocId u) : myPostsOf docs' u = myPostsOf docs u := by
  rw [myPostsOf_eq, h.lists u hu, ← myPostsOf_eq]

theorem listsFit (hs : ListsFit docs) : ListsFit docs' := by
  refine ⟨fun u hu => h.myPostsOf hu ▸ hs.nodup u hu, fun k d hk hd => ?_⟩
  have hfield : fieldAt docs (postRef k) KEY_USERKEY = some (d KEY_USERKEY) := by
    rw [← h.posts k hk]
    exact Option.map_eq_some_iff.mpr ⟨d, hd, rfl⟩
  obtain ⟨e, he, hkey⟩ := Option.map_eq_some_iff.mp hfield
  obtain ⟨u, hu, hauthor⟩ := hs.authored k e hk he
  exact ⟨u, by rw [← hkey, hu], h.stays _ hauthor⟩

end SameIndex

/-- The index, with what a second create of the same key relies on: no document disappears,
and a post that is new has a key of its author. -/
structure IndexKept (lost : String → String → Bool) (docs now : Store) : Prop where
  indexed : IndexedBut lost now
  kept : ∀ p, (docs p).isSome → (now p).isSome
  keyed : ∀ k u, IsDocId k → docs (postRef k) = none → PostBy now k u →
    ∃ d, MadeBy k d u

theorem indexKept_init {docs : Store} (h : PostsIndexed docs) :
    IndexKept (fun _ _ => false) docs docs :=
  ⟨postsIndexed_iff.mp h, fun _ hp => hp,
    fun k u _ hnone ⟨d, hd, _⟩ => by rw [hnone] at hd; cases hd⟩

theorem SameIndex.indexKept {lost : String → String → Bool} {docs now now' : Store}
    (h : SameIndex now now') (hs : IndexKept lost docs now) : IndexKept lost docs now' := by
  refine ⟨⟨h.listsFit hs.indexed.toListsFit, fun k u hk hu => ?_⟩,
    fun p hp => h.stays p (hs.kept p hp),
    fun k u hk hnone hby => hs.keyed k u hk hnone ((h.postBy hk u).mp hby)⟩
  rw [h.myPostsOf hu, h.postBy hk]
  exact hs.indexed.listed k u hk hu

/-! ## A create that lands -/

/-- The two documents that a committed create transaction leaves. -/
theorem commit_createWrites {docs docs' : Store} {k u : String} {postData : Doc}
    (h : commit docs (createWrites k postData (userRef u)) = some docs') :
    ∃ author, docs (userRef u) = some author ∧
      docs' = Function.update (Function.update docs (postRef k) (some postData)) (userRef u)
        (some (Function.update author KEY_MYPOSTS
          (some (.list (union (elems (author KEY_MYPOSTS)) [.str k]))))) := by
  rw [createWrites, commit_cons] at h
  obtain ⟨v, hv, hrest⟩ := Option.bind_eq_some_iff.mp h
  cases hv
  obtain ⟨author, hauthor, rfl⟩ := commit_update_some hrest
  rw [Function.update_of_ne (by simp)] at hauthor
  exact ⟨author, hauthor, rfl⟩

theorem myPostsOf_create {docs docs' : Store} {k u : String} {postData : Doc}
    (h : commit docs (createWrites k postData (userRef u)) = some docs') (v : String) :
    myPostsOf docs' v = if v = u then union (myPostsOf docs u) [.str k] else myPostsOf docs v := by
  obtain ⟨author, hauthor, rfl⟩ := commit_createWrites h
  unfold myPostsOf
  split_ifs with hv
  · subst hv
    simp [hauthor]
  · rw [Function.update_of_ne (by simpa using hv), Function.update_of_ne (by simp)]

theorem postRef_create {docs docs' : Store} {k u : String} {postData : Doc}
    (h : commit docs (createWrites k postData (userRef u)) = some docs') (j : String) :
    docs' (postRef j) = if j = k then some postData else docs (postRef j) := by
  obtain ⟨author, _, rfl⟩ := commit_createWrites h
  rw [Function.update_of_ne (by simp)]
  split_ifs with hj
  · rw [hj, Function.update_self]
  · rw [Function.update_of_ne (by simpa using hj)]

theorem postBy_create {docs docs' : Store} {k u : String} {postData : Doc}
    (hmade : MadeBy k postData u)
    (h : commit docs (createWrites k postData (userRef u)) = some docs') (j v : String) :
    PostBy docs' j v ↔ if j = k then v = u else PostBy docs j v := by
  unfold PostBy
  rw [postRef_create h]
  split_ifs with hj
  · have hdata : postData KEY_USERKEY = some (str u) := hmade.1
    simp [hdata, str, eq_comm]
  · rfl

/-- A create puts its post on the list of the author, who alone has posts of that key. -/
theorem indexKept_create {lost lost' : String → String → Bool} {docs now now' : Store}
    {k u : String} {postData : Doc} (hmade : MadeBy k postData u)
    (hnone : docs (postRef k) = none)
    (hlost : ∀ j v, lost' j v = if j = k then false else lost j v)
    (h : commit now (createWrites k postData (userRef u)) = some now')
    (hs : IndexKept lost docs now) : IndexKept lost' docs now' := by
  have hown : ∀ v, IsDocId k → PostBy now k v → v = u := by
    intro v hk hby
    obtain ⟨d, hd⟩ := hs.keyed k v hk hnone hby
    exact madeBy_unique hd hmade
  refine ⟨⟨⟨fun v hv => ?_, fun j d hj hd => ?_⟩, fun j v hj hv => ?_⟩,
    fun p hp => commit_isSome h (hs.kept p hp), fun j v hj hjnone hby => ?_⟩
  · rw [myPostsOf_create h]
    split_ifs with hvu
    · subst hvu
      exact nodup_union_singleton (hs.indexed.nodup v hv) _
    · exact hs.indexed.nodup v hv
  · rw [postRef_create h] at hd
    split_ifs at hd with hjk
    · cases hd
      obtain ⟨author, hauthor, _⟩ := commit_createWrites h
      exact ⟨u, hmade.1, commit_isSome h (by simp [hauthor])⟩
    · obtain ⟨v, hv, hauthor⟩ := hs.indexed.authored j d hj hd
      exact ⟨v, hv, commit_isSome h hauthor⟩
  · rw [myPostsOf_create h, postBy_create hmade h, hlost]
    by_cases hjk : j = k
    · subst hjk
      rw [if_pos rfl, if_pos rfl]
      split_ifs with hvu
      · simp [hvu, mem_union_singleton]
      · simp only [hvu, false_and, iff_false]
        intro hmem
        exact hvu (hown v hj ((hs.indexed.listed j v hj hv).mp hmem).1)
    · rw [if_neg hjk, if_neg hjk, ← hs.indexed.listed j v hj hv]
      split_ifs with hvu
      · subst hvu
        simp [mem_union_singleton, hjk]
      · rfl
  · rw [postBy_create hmade h] at hby
    split_ifs at hby with hjk
    · subst hjk hby
      exact ⟨postData, hmade⟩
    · exact hs.keyed j v hj hjnone hby

/-! ## What a create call may commit -/

/-- A post that is read as missing was missing from the start. -/
def AbsentAtFirst (docs : Store) (ref : Path) (snapshot : Snapshot) : Prop :=
  snapshot = none → docs ref = none

/-- A create call commits nothing, or its two writes on a key that was free from the start. -/
def CreatesFree (docs : Store) (c : Call) (o : Op) : Prop :=
  ∀ postKey postData u, c = .createNewPost postKey postData → MadeBy postKey postData u →
    ∀ ws, o = .commit ws → ws = [] ∨
      (docs (postRef postKey) = none ∧ ws = createWrites postKey postData (userRef u))

theorem createNewPost_createsFree (docs : Store) (postKey : String) (postData : Doc) :
    (createNewPost postKey postData).Awaits (Answers (AbsentAtFirst docs)) fun o _ =>
      CreatesFree docs (.createNewPost postKey postData) o := by
  by_cases hmade : ∃ u, MadeBy postKey postData u
  · obtain ⟨u, hu⟩ := hmade
    have href : authorRef postData = .ok (some (userRef u)) := by
      unfold authorRef lookup
      rw [hu.1]
      rfl
    unfold createNewPost
    refine get_awaits (fun _ _ _ _ _ ws h => by cases h) fun snapshot hs => ?_
    rw [href]
    refine runTransaction_awaits fun ws hws k d v hc hmade' vs hvs => ?_
    cases hc
    cases hvs
    obtain rfl := madeBy_unique hu hmade'
    cases snapshot with
    | none =>
      cases hws
      exact Or.inr ⟨hs.1 _ rfl rfl, rfl⟩
    | some e =>
      cases hws
      exact Or.inl rfl
  · refine awaits_of_forall (fun o _ k d u hc hu => ?_) _
    cases hc
    exact absurd ⟨u, hu⟩ hmade

theorem prog_createsFree (docs : Store) (c : Call) :
    c.prog.Awaits (Answers (AbsentAtFirst docs)) fun o _ => CreatesFree docs c o := by
  cases c with
  | createNewPost postKey postData => exact createNewPost_createsFree docs postKey postData
  | _ => exact awaits_of_forall (fun o _ k d u hc => by cases hc) _

/-! ## Runs -/

/-- What a call that signs nobody up does to the index: nothing, or it creates a post on a key
that was free from the start. -/
theorem sameIndex_or_creates {docs now now' : Store} {c : Call} {ws : List Write} (hc : c.Keyed)
    (hold : ∀ userKey email, c ≠ .attemptCreateUser userKey email) (hmay : c.MayCommit ws)
    (hfree : CreatesFree docs c (.commit ws)) (h : commit now ws = some now') :
    (SameIndex now now' ∧ (ws = [] ∨ ∀ k postData, c ≠ .createNewPost k postData)) ∨
      ∃ k postData u, c = .createNewPost k postData ∧ MadeBy k postData u ∧
        docs (postRef k) = none ∧ ws = createWrites k postData (userRef u) := by
  have hframe : (∀ k, IsDocId k → ¬ c.Footprint (postRef k) KEY_USERKEY) →
      (∀ u, IsDocId u → ¬ c.Footprint (userRef u) KEY_MYPOSTS) → SameIndex now now' :=
    fun hposts hlists => ⟨fun k hk => fieldAt_of_mayCommit hmay h (hposts k hk),
      fun u hu => fieldAt_of_mayCommit hmay h (hlists u hu), fun p => commit_isSome h⟩
  cases c with
  | attemptCreateUser userKey email => exact absurd rfl (hold userKey email)
  | createNewPost k postData =>
    obtain ⟨u, hmade⟩ := hc k postData rfl
    rcases hfree k postData u rfl hmade ws rfl with rfl | ⟨hnone, rfl⟩
    · cases h
      exact Or.inl ⟨⟨fun _ _ => rfl, fun _ _ => rfl, fun _ hp => hp⟩, Or.inl rfl⟩
    · exact Or.inr ⟨k, postData, u, rfl, hmade, hnone, rfl⟩
  | createNewComment k commentData =>
    refine Or.inl ⟨hframe (fun j hj => ?_) fun u _ => ?_, Or.inr fun _ _ he => by cases he⟩
    · rintro (⟨id, hid⟩ | ⟨_, hf⟩)
      · exact comment_ne_postRef hj k id hid.symm
      · revert hf
        decide
    · rintro (⟨id, hid⟩ | ⟨hp, _⟩)
      · exact comment_ne_userRef k id u hid.symm
      · exact userRef_ne_postRef u k hp
  | followUser my other | unfollowUser my other | updatePostImageUrl postImg k
  | toggleLike k userKey =>
    refine Or.inl ⟨hframe (fun j _ => ?_) fun u _ => ?_, Or.inr fun _ _ he => by cases he⟩ <;>
      simp [Call.Footprint, KEY_USERKEY, KEY_POSTIMG, KEY_NUMOFLIKES, KEY_MYPOSTS,
        KEY_FOLLOWERS, KEY_FOLLOWINGS]

/-- Where no document disappears, what is missing when it is read was missing from the start. -/
theorem absentAtFirst_of_kept {docs now : Store} (h : ∀ p, (docs p).isSome → (now p).isSome)
    (ref : Path) : AbsentAtFirst docs ref (now ref) := by
  intro hnone
  by_contra hsome
  have hkept := h ref (Option.isSome_iff_ne_none.mpr hsome)
  simp [hnone] at hkept

theorem keyed_of_keyedByAuthor {c : Call} (hc : c.KeyedByAuthor) :
    c.Keyed ∧ ∀ userKey email, c ≠ .attemptCreateUser userKey email := by
  constructor
  · rintro postKey postData rfl
    exact hc
  · rintro userKey email rfl
    exact hc

/-- Whatever runs but the creation of users, the `my_posts` lists are the index of the posts:
each list holds just the posts of its user, each once, and no post is without its author. -/
theorem my_posts_index_the_posts (docs : Store) (h : PostsIndexed docs) (as : List BackendAct)
    (has : ∀ a ∈ as, a.Starts Call.KeyedByAuthor) :
    AllStates (step backend) (fun t => PostsIndexed t.world.docs) (backendInit docs) as := by
  have hrun := docsGuarded_run (I := IndexKept (fun _ _ => false) docs) (R := AbsentAtFirst docs)
    (G := fun c o _ => c.Guarantee o ∧ CreatesFree docs c o)
    (fun c _ => (prog_awaits c).and (prog_createsFree docs c))
    (fun now ref hs => absentAtFirst_of_kept hs.kept ref)
    (fun c ws _ _ _ hc hG hs hcommit => by
      obtain ⟨hkeyed, hold⟩ := keyed_of_keyedByAuthor hc
      rcases sameIndex_or_creates hkeyed hold (hG.1 ws rfl) hG.2 hcommit with
        ⟨hsame, _⟩ | ⟨k, postData, u, rfl, hmade, hnone, rfl⟩
      · exact hsame.indexKept hs
      · exact indexKept_create hmade hnone (by simp) hcommit hs)
    has (indexKept_init h)
  exact fun pre hpre t ht => postsIndexed_iff.mpr (hrun pre hpre t ht).world.indexed

theorem postsIndexed_freshUsers (emails : List String) : PostsIndexed (freshUsers emails) := by
  have hnone : ∀ k, freshUsers emails (postRef k) = none := by
    intro k
    by_contra hsome
    obtain ⟨d, hd⟩ := Option.ne_none_iff_exists'.mp hsome
    obtain ⟨u, hu, _⟩ := freshUsers_some hd
    exact postRef_ne_userRef k u hu
  have hlist : ∀ u, myPostsOf (freshUsers emails) u = [] := by
    intro u
    unfold myPostsOf
    cases hd : freshUsers emails (userRef u) with
    | none => rfl
    | some d =>
      obtain ⟨_, _, hmap⟩ := freshUsers_some hd
      cases hmap
      rfl
  exact ⟨⟨fun u _ => by simp [hlist], fun k d _ hd => by rw [hnone] at hd; cases hd⟩,
    fun k u _ _ => by simp [hlist, PostBy, hnone]⟩

/-- Ann, before she posts anything. -/
def annModel : UserModel := newUserModel "ann" "ann"

/-- Ann taps on Share twice. Both calls find the key free, and both write. -/
def doubleTap : List BackendAct :=
  let create := .createNewPost (getNewPostKey 7 annModel)
    (PostModel.getMapForCreatePost "ann" (some "ann") "sunset" 7 7)
  [.start 0 create, .start 1 create, .resume 0 online, .resume 1 online, .resume 0 online,
   .resume 1 online]

theorem doubleTap_starts : ∀ a ∈ doubleTap, a.Starts Call.KeyedByAuthor := by
  have hmade : MadeBy (getNewPostKey 7 annModel)
      (PostModel.getMapForCreatePost "ann" (some "ann") "sunset" 7 7) "ann" :=
    ⟨rfl, 7, annModel, rfl, rfl⟩
  simp only [doubleTap, List.forall_mem_cons, Act.Starts, Call.KeyedByAuthor]
  simpa using ⟨_, hmade⟩

theorem my_posts_index_the_posts_at_a_double_tap :
    (PostsIndexed (freshUsers ["ann"]) ∧ ∀ a ∈ doubleTap, a.Starts Call.KeyedByAuthor) ∧
      AllStates (step backend) (fun t => PostsIndexed t.world.docs)
        (backendInit (freshUsers ["ann"])) doubleTap :=
  ⟨⟨postsIndexed_freshUsers _, doubleTap_starts⟩,
    my_posts_index_the_posts _ (postsIndexed_freshUsers _) _ doubleTap_starts⟩

end instagram
