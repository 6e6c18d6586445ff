-- The feed screen. It shows the progress indicator until the feed gives it a post, and a row
-- for each post from then on. Only posts without likes and without a count decode, and the
-- rows of these raise. What the app stores has likes, so the indicator never goes away.
import Instagram.Feed
import Instagram.PostDecode
import Instagram.PostShape

namespace instagram

open docs firestore async runs streams

/-! ## The rows -/

/-- The text of `_postLikes`. -/
def PostModel.postLikes (m : PostModel) : String :=
  toString (match m.numOfLikes with
    | none => 0
    | some likes => likes.length) ++ " likes"

/-- The heart of `_postActions`, which a Consumer builds for itself. -/
def PostModel.heart (m : PostModel) (userModel : Option UserModel) : Except DartError String :=
  match m.numOfLikes, userModel with
  | some likes, some me =>
    .ok (if .str me.userKey ∈ likes then "assets/images/heart_selected.png"
      else "assets/images/heart.png")
  | _, _ => .error .noSuchMethod

/-- `_moreComments`: whether it is visible, and its text. The guard has `||` before the
comparison, so a null count is compared with 2 and any other is visible. -/
def PostModel.moreComments (m : PostModel) : Except DartError (Bool × String) :=
  match m.numOfComments with
  | none => .error .noSuchMethod
  | some n => .ok (true, toString (n - 1) ++ " more comments...")

/-- What a row shows. -/
structure PostRow where
  username : Option String
  postImg : Option String
  heart : Except DartError String
  likes : String
  caption : Option String
  lastCommentor : Option String
  lastComment : Option String
  moreComments : Bool × String

/-- `Post.build`. -/
def PostModel.build (m : PostModel) (userModel : Option UserModel) : Except DartError PostRow := do
  let moreComments ← m.moreComments
  pure { username := m.username, postImg := m.postImg, heart := m.heart userModel,
         likes := m.postLikes, caption := m.caption, lastCommentor := m.lastCommentor,
         lastComment := m.lastComment, moreComments }

/-! ## The screen over the backend -/

/-- The feed of the latest followers, and the list that the Consumer of the screen was given
last. -/
structure FeedScreenState where
  backend : BackendState
  followers : List String
  feed : FeedState
  posts : Option (List PostModel)

inductive FeedScreenAct where
  | backend (a : BackendAct)
  | rebuild (followers : List String)
  | delivery (i : ℕ) (snapshot : PostsSnapshot)

/-- A rebuild opens new streams. The Consumer keeps its list until they give one. -/
def feedScreenStep (sort : PostSort) (s : FeedScreenState) : FeedScreenAct → Option FeedScreenState
  | .backend a => (step backend s.backend a).map fun t => { s with backend := t }
  | .rebuild followers => some { s with followers, feed := feedInit followers }
  | .delivery i snapshot => (feedStep sort s.feed (i, snapshot)).map fun feed =>
    { s with feed, posts := feed.emitted.getLast?.or s.posts }

def feedScreenInit (followers : List String) (docs : Store) : FeedScreenState :=
  ⟨backendInit docs, followers, feedInit followers, none⟩

inductive FeedBody where
  | progress
  | list (rows : List (Except DartError PostRow))

/-- `FeedScreen.build`. -/
def FeedScreenState.build (s : FeedScreenState) (userModel : Option UserModel) : FeedBody :=
  match s.posts with
  | none => .progress
  | some [] => .progress
  | some posts => .list (posts.map (PostModel.build · userModel))

/-- Posts are created as `getMapForCreatePost` writes them, and a snapshot shows the posts that
are stored when it is delivered. -/
def FeedScreenAct.Fits (s : FeedScreenState) : FeedScreenAct → Prop
  | .backend a => a.Starts fun c => ∀ k, c.CreatesMapped k
  | .rebuild _ => True
  | .delivery i snapshot => ∃ q, (fetchPostsFromAllFollowers s.followers)[i]? = some q ∧
    q.Delivers s.backend.world.docs snapshot.docs

/-! ## Rows that raise -/

/-- Neither likes nor a count. -/
def PostModel.Bare (m : PostModel) : Prop := m.numOfLikes = none ∧ m.numOfComments = none

theorem bare_of_fromMap {now now' : Int} {map : Doc} {postKey : String} {reference : Path}
    {m : PostModel} (h : PostModel.fromMap now now' map postKey reference = .ok m) : m.Bare := by
  have hnull := likes_null_of_fromMap h
  simp only [PostModel.fromMap, except_bind_ok] at h
  obtain ⟨_, _, _, _, _, _, xs, hlist, _, _, _, _, _, _, _, _, n, hint, _, _, hm⟩ := h
  rw [hnull] at hlist hint
  cases hm
  cases hlist
  cases hint
  exact ⟨rfl, rfl⟩

theorem PostModel.Bare.build {m : PostModel} (h : m.Bare) (userModel : Option UserModel) :
    m.build userModel = .error .noSuchMethod := by
  unfold PostModel.build PostModel.moreComments
  rw [h.2]
  rfl

theorem bare_of_toPosts {snapshot : PostsSnapshot} {posts : List PostModel}
    (h : toPosts snapshot = .ok posts) : ∀ m ∈ posts, m.Bare := by
  unfold toPosts at h
  generalize snapshot.docs = docs at h
  induction docs generalizing posts with
  | nil =>
    cases h
    simp
  | cons e docs ih =>
    rw [List.mapM_cons] at h
    obtain ⟨m, hm, hrest⟩ := except_bind_ok.mp h
    obtain ⟨ms, hms, hposts⟩ := except_bind_ok.mp hrest
    cases hposts
    exact List.forall_mem_cons.mpr ⟨bare_of_fromMap hm, ih hms⟩

/-! ## What a delivery emits -/

/-- `P` holds of the lists of all streams, and of all feeds. -/
structure FeedAll (P : PostModel → Prop) (s : FeedState) : Prop where
  latest : ∀ posts, some posts ∈ s.latest → ∀ m ∈ posts, P m
  emitted : ∀ feed ∈ s.emitted, ∀ m ∈ feed, P m

theorem feedAll_init (P : PostModel → Prop) (followers : List String) :
    FeedAll P (feedInit followers) := by
  refine ⟨fun posts hposts => ?_, fun feed hfeed => by cases hfeed⟩
  obtain ⟨_, _, hnone⟩ := List.mem_map.mp hposts
  cases hnone

theorem feedAll_step {P : PostModel → Prop} {sort : PostSort} (hsort : SortsAsDart sort)
    {s t : FeedState} {ev : ℕ × PostsSnapshot} (hs : FeedAll P s)
    (hev : ∀ posts, toPosts ev.2 = .ok posts → ∀ m ∈ posts, P m)
    (h : feedStep sort s ev = some t) : FeedAll P t := by
  unfold feedStep at h
  split at h
  · split at h
    · cases h
      exact hs
    · rename_i posts hposts
      have hlatest : ∀ xs, some xs ∈ s.latest.set ev.1 (some posts) → ∀ m ∈ xs, P m := by
        intro xs hxs
        rcases List.mem_or_eq_of_mem_set hxs with hold | hnew
        · exact hs.latest xs hold
        · cases hnew
          exact hev posts hposts
      dsimp only at h
      split at h
      · rename_i listOfPosts hall
        cases h
        refine ⟨hlatest, fun feed hfeed => ?_⟩
        rcases List.mem_append.mp hfeed with hold | hnew
        · exact hs.emitted feed hold
        · rw [List.mem_singleton.mp hnew]
          intro m hm
          have hmem := (hsort.perm _ _).mem_iff.mp hm
          rw [combineListOfPosts_eq] at hmem
          obtain ⟨xs, hxs, hm⟩ := List.mem_flatten.mp hmem
          refine hlatest xs ?_ m hm
          rw [allSome_eq_some.mp hall]
          exact List.mem_map_of_mem hxs
      · cases h
        exact ⟨hlatest, hs.emitted⟩
  · cases h

/-- The same of the screen, with the list that it holds. -/
structure ScreenAll (P : PostModel → Prop) (s : FeedScreenState) : Prop where
  feed : FeedAll P s.feed
  posts : ∀ posts, s.posts = some posts → ∀ m ∈ posts, P m

/-- What a snapshot gives on the screen is of `P`. -/
def FeedScreenAct.Gives (P : PostModel → Prop) : FeedScreenAct → Prop
  | .backend _ => True
  | .rebuild _ => True
  | .delivery _ snapshot => ∀ posts, toPosts snapshot = .ok posts → ∀ m ∈ posts, P m

theorem screenAll_step {P : PostModel → Prop} {sort : PostSort} (hsort : SortsAsDart sort)
    {s t : FeedScreenState} {a : FeedScreenAct} (ha : a.Gives P) (hs : ScreenAll P s)
    (h : feedScreenStep sort s a = some t) : ScreenAll P t := by
  cases a with
  | backend a =>
    obtain ⟨b, _, rfl⟩ := Option.map_eq_some_iff.mp h
    exact ⟨hs.feed, hs.posts⟩
  | rebuild followers =>
    cases h
    exact ⟨feedAll_init P followers, hs.posts⟩
  | delivery i snapshot =>
    simp only [feedScreenStep, Option.map_eq_some_iff] at h
    obtain ⟨feed, hfeed, rfl⟩ := h
    have hall : FeedAll P feed := by
      refine feedAll_step hsort hs.feed ?_ hfeed
      exact ha
    refine ⟨hall, fun posts hposts => ?_⟩
    rcases Option.or_eq_some_iff.mp hposts with hnew | ⟨_, hold⟩
    · exact hall.emitted posts (List.mem_of_getLast? hnew)
    · exact hs.posts posts hold

/-! ## What the app stores -/

/-- Every stored post has likes that are not null. -/
def LikesStored (docs : Store) : Prop :=
  ∀ id d, docs [COLLECTION_POST, id] = some d → lookup d KEY_NUMOFLIKES ≠ .scalar .null

/-- A write elsewhere, or one after which the likes are not null. -/
theorem likesStored_apply {docs docs' : Store} {w : Write} (h : w.apply docs = some docs')
    (hs : LikesStored docs)
    (hw : ∀ id, w.ref = [COLLECTION_POST, id] → ∀ d, docs' [COLLECTION_POST, id] = some d →
      lookup d KEY_NUMOFLIKES ≠ .scalar .null) : LikesStored docs' := by
  intro id d hd
  by_cases href : w.ref = [COLLECTION_POST, id]
  · exact hw id href d hd
  · rw [apply_of_ne h (Ne.symm href)] at hd
    exact hs id d hd

theorem ne_post_of_head {p : Path} (h : p.head? = some COLLECTION_USERS) (id : String) :
    p ≠ [COLLECTION_POST, id] := by
  rintro rfl
  simp [COLLECTION_POST, COLLECTION_USERS] at h

/-- Users who have just signed up have no posts. -/
theorem no_post_of_freshUsers (emails : List String) (id : String) :
    freshUsers emails [COLLECTION_POST, id] = none :=
  freshUsers_none fun _ hu => ne_post_of_head rfl id hu.symm

/-- An update that puts the likes to a list, or leaves them alone. -/
theorem likesStored_update {s t : Store} {ref : Path} {ops : List (String × FieldOp Atom)}
    (h : (docs.Write.update ref ops).apply s = some t) (hs : LikesStored s)
    (hops : ∀ d, updated d ops KEY_NUMOFLIKES = d KEY_NUMOFLIKES ∨
      ∃ xs, updated d ops KEY_NUMOFLIKES = some (.list xs)) : LikesStored t := by
  refine likesStored_apply h hs fun id href d hd => ?_
  obtain rfl : ref = _ := href
  obtain ⟨e, he, rfl⟩ := Option.map_eq_some_iff.mp h
  rw [Function.update_self, Option.some.injEq] at hd
  subst hd
  unfold lookup
  rcases hops e with hsame | ⟨xs, hlist⟩
  · rw [hsame]
    exact hs id e he
  · rw [hlist]
    simp

theorem likesStored_commit {docs docs' : Store} {c : Call} {ws : List Write}
    (hcreate : ∀ k, c.CreatesMapped k) (hmay : c.MayCommit ws) (h : commit docs ws = some docs')
    (hs : LikesStored docs) : LikesStored docs' := by
  refine commit_keeps (fun w hw s t hs h => ?_) h hs
  cases writes_of_mayCommit hmay hw with
  | user | follow | unfollow | followed | unfollowed =>
    exact likesStored_apply h hs fun id href => absurd href (ne_post_of_head rfl id)
  | myPosts _ _ hauthor =>
    exact likesStored_apply h hs fun id href => absurd href (ne_post_of_head hauthor id)
  | comment postKey _ id' =>
    exact likesStored_apply h hs fun id href => absurd href (comment_ne_post postKey id' id)
  | post postKey postData =>
    obtain ⟨_, _, _, _, _, rfl⟩ := hcreate postKey postData rfl
    refine likesStored_apply h hs fun id href d hd => ?_
    obtain rfl := Option.some.inj h
    have href' : postRef postKey = [COLLECTION_POST, id] := href
    rw [← href', Function.update_self, Option.some.injEq] at hd
    subst hd
    intro hnull
    cases hnull
  | postImg postImg postKey =>
    refine likesStored_update h hs fun d => Or.inl (updated_of_notMem _ _ _ ?_)
    simp [KEY_NUMOFLIKES, KEY_POSTIMG]
  | preview postKey commentData n =>
    refine likesStored_update h hs fun d => Or.inl (updated_of_notMem _ _ _ ?_)
    simp [KEY_NUMOFLIKES, KEY_NUMOFCOMMENTS, KEY_LASTCOMMENT, KEY_LASTCOMMENTTIME,
      KEY_LASTCOMMENTOR]
  | unlike | like =>
    exact likesStored_update h hs fun d =>
      Or.inr ⟨_, by rw [updated_cons, updated_nil, Function.update_self]; rfl⟩

/-! ## Snapshots of what the app stores -/

/-- No post of such a snapshot decodes, so only the empty snapshot does. -/
theorem nil_of_toPosts {docs : Store} {q : WhereQuery} {snapshot : PostsSnapshot}
    {posts : List PostModel} (hs : LikesStored docs) (hq : q.collection = [COLLECTION_POST])
    (hdel : q.Delivers docs snapshot.docs) (h : toPosts snapshot = .ok posts) : posts = [] := by
  cases posts with
  | nil => rfl
  | cons m posts =>
    unfold toPosts at h
    cases hdocs : snapshot.docs with
    | nil =>
      rw [hdocs] at h
      cases h
    | cons e rest =>
      rw [hdocs, List.mapM_cons] at h
      obtain ⟨_, hm, _⟩ := except_bind_ok.mp h
      have hstored := ((hdel.docs e.1 e.2).mp (by rw [hdocs]; exact List.mem_cons_self)).1
      rw [hq] at hstored
      exact absurd (likes_null_of_fromMap hm) (hs e.1 e.2 hstored)

/-! ## The law -/

/-- The likes are stored, and no list holds a post. -/
structure ShowsNothing (s : FeedScreenState) : Prop where
  backend : DocsGuarded LikesStored (fun _ _ => True) (fun c => ∀ k, c.CreatesMapped k)
    (fun c o _ => c.Guarantee o) s.backend
  empty : ScreenAll (fun _ => False) s

theorem gives_nothing {s : FeedScreenState} {a : FeedScreenAct}
    (hlikes : LikesStored s.backend.world.docs) (ha : a.Fits s) : a.Gives fun _ => False := by
  cases a with
  | backend a => trivial
  | rebuild followers => trivial
  | delivery i snapshot =>
    obtain ⟨q, hq, hdel⟩ := ha
    unfold fetchPostsFromAllFollowers at hq
    rw [List.getElem?_map] at hq
    obtain ⟨following, _, rfl⟩ := Option.map_eq_some_iff.mp hq
    intro posts hposts m hm
    rw [nil_of_toPosts hlikes rfl hdel hposts] at hm
    cases hm

theorem likesStored_step {s t : BackendState} {a : BackendAct}
    (ha : a.Starts fun c => ∀ k, c.CreatesMapped k)
    (hs : DocsGuarded LikesStored (fun _ _ => True) (fun c => ∀ k, c.CreatesMapped k)
      (fun c o _ => c.Guarantee o) s) (h : step backend s a = some t) :
    DocsGuarded LikesStored (fun _ _ => True) (fun c => ∀ k, c.CreatesMapped k)
      (fun c o _ => c.Guarantee o) t :=
  docsGuarded_step (fun c _ => prog_awaits c) (fun _ _ _ => trivial)
    (fun _ ws _ _ _ hc hG hlikes hcommit => likesStored_commit hc (hG ws rfl) hcommit hlikes)
    s a t ha hs h

theorem showsNothing_step {sort : PostSort} (hsort : SortsAsDart sort) {s t : FeedScreenState}
    {a : FeedScreenAct} (ha : a.Fits s) (hs : ShowsNothing s)
    (h : feedScreenStep sort s a = some t) : ShowsNothing t := by
  refine ⟨?_, screenAll_step hsort (gives_nothing hs.backend.world ha) hs.empty h⟩
  cases a with
  | backend a =>
    obtain ⟨b, hb, rfl⟩ := Option.map_eq_some_iff.mp h
    exact likesStored_step ha hs.backend hb
  | rebuild followers =>
    cases h
    exact hs.backend
  | delivery i snapshot =>
    simp only [feedScreenStep, Option.map_eq_some_iff] at h
    obtain ⟨feed, _, rfl⟩ := h
    exact hs.backend

theorem build_eq_progress {s : FeedScreenState} (h : ScreenAll (fun _ => False) s)
    (userModel : Option UserModel) : s.build userModel = .progress := by
  unfold FeedScreenState.build
  split
  · rfl
  · rfl
  · rename_i posts hne hposts
    cases posts with
    | nil => exact (hne rfl).elim
    | cons m posts => exact (h.posts _ hposts m List.mem_cons_self).elim

theorem screenAll_init (P : PostModel → Prop) (followers : List String) (docs : Store) :
    ScreenAll P (feedScreenInit followers docs) :=
  ⟨feedAll_init P followers, fun posts hposts => by cases hposts⟩

/-- No row of a post that decodes can be built. -/
def RowsRaise (s : FeedScreenState) : Prop :=
  ∀ userModel, s.build userModel = .progress ∨ ∃ rows, s.build userModel = .list rows ∧
    ∀ row ∈ rows, row = .error .noSuchMethod

theorem rowsRaise {s : FeedScreenState} (h : ScreenAll PostModel.Bare s) : RowsRaise s := by
  intro userModel
  unfold FeedScreenState.build
  split
  · exact Or.inl rfl
  · exact Or.inl rfl
  · rename_i posts _ hposts
    refine Or.inr ⟨_, rfl, fun row hrow => ?_⟩
    obtain ⟨m, hm, rfl⟩ := List.mem_map.mp hrow
    exact (h.posts posts hposts m hm).build userModel

/-- Whatever is stored, whatever the streams deliver and however often the screen is rebuilt: it
shows the progress indicator, or a list of which every row raises. And when all stored posts
have likes, as those that the app writes have, and the snapshots show what is stored, no feed
ever holds a post, and the screen shows the progress indicator in every state. -/
theorem the_feed_screen_never_shows_a_post (sort : PostSort) (hsort : SortsAsDart sort)
    (followers : List String) (docs : Store) (as : List FeedScreenAct) :
    AllStates (feedScreenStep sort) RowsRaise (feedScreenInit followers docs) as ∧
    (LikesStored docs →
      AllSteps (feedScreenStep sort) (fun s a _ => a.Fits s) (feedScreenInit followers docs) as →
      AllStates (feedScreenStep sort) (fun s => (∀ feed ∈ s.feed.emitted, feed = []) ∧
        ∀ userModel, s.build userModel = .progress) (feedScreenInit followers docs) as) := by
  constructor
  · have hgives : ∀ a : FeedScreenAct, a.Gives PostModel.Bare := by
      intro a
      cases a with
      | delivery i snapshot => exact fun posts hposts => bare_of_toPosts hposts
      | _ => trivial
    have hall := allStates_of_keeps (A := fun _ => True)
      (fun _ a _ _ hs h => screenAll_step hsort (hgives a) hs h) (fun a (_ : a ∈ as) => trivial)
      (screenAll_init PostModel.Bare followers docs)
    exact fun pre hpre t ht => rowsRaise (hall pre hpre t ht)
  · intro hlikes hfits
    have hinit : ShowsNothing (feedScreenInit followers docs) :=
      ⟨guarded_init () hlikes, screenAll_init _ followers docs⟩
    have hstep : ∀ s (a : FeedScreenAct) t, a.Fits s → ShowsNothing s →
        feedScreenStep sort s a = some t → ShowsNothing t :=
      fun s a t ha hs h => showsNothing_step hsort ha hs h
    have hall := allStates_of_steps hstep hfits hinit
    intro pre hpre t ht
    have hs := (hall pre hpre t ht).empty
    refine ⟨fun feed hfeed => ?_, build_eq_progress hs⟩
    exact List.eq_nil_iff_forall_not_mem.mpr fun m hm => hs.feed.emitted feed hfeed m hm

/-- Ann shares a post. -/
def annSharesSunset : List FeedScreenAct :=
  [.start 0 (.createNewPost "p"
      (PostModel.getMapForCreatePost "ann" (some "ann") "sunset" 0 0)),
    .resume 0 online, .resume 0 online].map .backend

/-- A snapshot with the post. -/
def sharedSnapshot : PostsSnapshot :=
  ⟨[("p", PostModel.getMapForCreatePost "ann" (some "ann") "sunset" 0 0)], fun _ => (0, 0)⟩

theorem sharedSnapshot_fits (sort : PostSort) {s : FeedScreenState}
    (h : run (feedScreenStep sort) (feedScreenInit ["ann"] (freshUsers ["ann"])) annSharesSunset =
      some s) :
    FeedScreenAct.Fits s (.delivery 0 sharedSnapshot) := by
  obtain ⟨author, hs⟩ : ∃ author, s.backend.world.docs =
      Function.update (Function.update (freshUsers ["ann"]) (postRef "p")
        (some (PostModel.getMapForCreatePost "ann" (some "ann") "sunset" 0 0)))
        (userRef "ann") author ∧ s.followers = ["ann"] := by
    cases h
    exact ⟨_, rfl, rfl⟩
  have hother : ∀ id, id ≠ "p" → s.backend.world.docs [COLLECTION_POST, id] = none := by
    intro id hid
    have hne : [COLLECTION_POST, id] ≠ postRef "p" := fun he => hid (by cases he; rfl)
    rw [hs.1, Function.update_of_ne (ne_post_of_head rfl id).symm, Function.update_of_ne hne]
    exact no_post_of_freshUsers ["ann"] id
  refine ⟨_, by rw [hs.2]; rfl, by simp [sharedSnapshot], fun id d => ?_⟩
  by_cases hid : id = "p"
  · subst hid
    have hpost : s.backend.world.docs [COLLECTION_POST, "p"] =
        some (PostModel.getMapForCreatePost "ann" (some "ann") "sunset" 0 0) := by
      rw [hs.1, Function.update_of_ne (ne_post_of_head rfl "p").symm]
      exact Function.update_self _ _ _
    show _ ↔ s.backend.world.docs [COLLECTION_POST, "p"] = some d ∧ _
    rw [hpost, Option.some.injEq]
    constructor
    · intro hmem
      cases List.mem_singleton.mp hmem
      exact ⟨rfl, rfl⟩
    · rintro ⟨rfl, _⟩
      exact List.mem_singleton_self _
  · constructor
    · intro hmem
      exact absurd (congrArg Prod.fst (List.mem_singleton.mp hmem)) hid
    · rintro ⟨hstored, _⟩
      have hnone := hother id hid
      rw [show [COLLECTION_POST, id] = [COLLECTION_POST] ++ [id] from rfl, hstored] at hnone
      cases hnone

theorem the_feed_screen_never_shows_a_post_at_a_shared_post :
    SortsAsDart (fun (cmp : PostModel → PostModel → Int) l =>
        l.mergeSort fun a b => decide (cmp a b ≤ 0)) ∧
      AllStates (feedScreenStep fun cmp l => l.mergeSort fun a b => decide (cmp a b ≤ 0))
        (fun s => (∀ feed ∈ s.feed.emitted, feed = []) ∧
          ∀ userModel, s.build userModel = .progress)
        (feedScreenInit ["ann"] (freshUsers ["ann"]))
        (annSharesSunset ++ [.delivery 0 sharedSnapshot]) := by
  refine ⟨mergeSort_sortsAsDart, ?_⟩
  refine (the_feed_screen_never_shows_a_post _ mergeSort_sortsAsDart ["ann"] (freshUsers ["ann"])
    (annSharesSunset ++ [.delivery 0 sharedSnapshot])).2 ?_ ?_
  · intro id d hd
    rw [no_post_of_freshUsers] at hd
    cases hd
  · refine allSteps_snoc.mpr
      ⟨fun pre a hpre t u _ _ => ?_, fun t u ht _ => sharedSnapshot_fits _ ht⟩
    have hmem := hpre.subset (List.mem_append_right pre List.mem_cons_self)
    simp only [annSharesSunset, List.map_cons, List.map_nil, List.mem_cons, List.not_mem_nil,
      or_false] at hmem
    rcases hmem with rfl | rfl | rfl
    · rintro k postData he
      cases he
      exact ⟨_, _, _, _, _, rfl⟩
    · trivial
    · trivial

end instagram
