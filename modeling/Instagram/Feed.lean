-- The feed: one query for each followed user, the latest lists of posts of all of them put
-- together, and the newest post first.
import Mathlib.Data.List.Nodup
import Instagram.Models
import Instagram.Runs
import Instagram.Streams

namespace instagram

open docs firestore runs streams

/-! ## Dart's sort -/

/-- `a.compareTo(b)` of two times. -/
def compareTo (a b : Int) : Int := if a < b then -1 else if a = b then 0 else 1

/-- `List.sort` gives a permutation that the comparator orders, as long as the comparator is an
order. It need not be stable. -/
structure SortsAsDart {α : Type} (sort : (α → α → Int) → List α → List α) : Prop where
  perm : ∀ cmp l, (sort cmp l).Perm l
  sorted : ∀ cmp l, (∀ a b c, cmp a b ≤ 0 → cmp b c ≤ 0 → cmp a c ≤ 0) →
    (∀ a b, cmp a b ≤ 0 ∨ cmp b a ≤ 0) → (sort cmp l).Pairwise fun a b => cmp a b ≤ 0

/-! ## The streams -/

/-- `fetchPostsFromAllFollowers` opens one query for each followed user. -/
def fetchPostsFromAllFollowers (followings : List String) : List WhereQuery :=
  followings.map fun following =>
    { collection := [COLLECTION_POST], field := KEY_USERKEY, isEqualTo := str following }

/-- A query snapshot, with what the clock shows while each of its documents is decoded. -/
structure PostsSnapshot where
  docs : List (String × Doc)
  clock : String → Int × Int

/-- `toPosts`: each document of a snapshot, decoded. -/
def toPosts (snapshot : PostsSnapshot) : Except DartError (List PostModel) :=
  snapshot.docs.mapM fun (id, map) =>
    PostModel.fromMap (snapshot.clock id).1 (snapshot.clock id).2 map id [COLLECTION_POST, id]

/-- `combineListOfPosts`: one list after another. -/
def combineListOfPosts (listOfPosts : List (List PostModel)) : List PostModel :=
  listOfPosts.foldl (fun posts postList => posts ++ postList) []

/-- `List.sort` on posts. -/
abbrev PostSort : Type := (PostModel → PostModel → Int) → List PostModel → List PostModel

def latestToTop (sort : PostSort) (posts : List PostModel) : List PostModel :=
  sort (fun a b => compareTo b.postTime a.postTime) posts

/-- The latest list of each stream, and the feeds that were emitted so far. -/
structure FeedState where
  latest : List (Option (List PostModel))
  emitted : List (List PostModel)

def feedInit (followings : List String) : FeedState where
  latest := (fetchPostsFromAllFollowers followings).map fun _ => none
  emitted := []

/-- A snapshot is delivered on one of the streams. A document that does not decode raises in
the transformer, which then adds nothing. -/
def feedStep (sort : PostSort) (s : FeedState) (ev : ℕ × PostsSnapshot) : Option FeedState :=
  if ev.1 < s.latest.length then
    match toPosts ev.2 with
    | .error _ => some s
    | .ok posts =>
      let latest := s.latest.set ev.1 (some posts)
      match allSome latest with
      | some listOfPosts =>
        some ⟨latest, s.emitted ++ [latestToTop sort (combineListOfPosts listOfPosts)]⟩
      | none => some { s with latest := latest }
  else none

/-! ## What is delivered -/

/-- A snapshot of the stream's query, of whatever the database holds by then. -/
def IsDelivery (followings : List String) (ev : ℕ × PostsSnapshot) : Prop :=
  ∃ q docs, (fetchPostsFromAllFollowers followings)[ev.1]? = some q ∧ q.Delivers docs ev.2.docs

/-- Every document of the snapshot decodes. -/
def Decodes (snapshot : PostsSnapshot) : Prop := ∃ posts, toPosts snapshot = .ok posts

/-- The posts of a snapshot. -/
def postsOf (snapshot : PostsSnapshot) : List PostModel := (toPosts snapshot).toOption.getD []

/-- The posts of the latest snapshot that a stream has delivered. -/
def latestPosts (evs : List (ℕ × PostsSnapshot)) (i : ℕ) : List PostModel :=
  ((latestOf evs i).map postsOf).getD []

theorem combineListOfPosts_eq (ls : List (List PostModel)) :
    combineListOfPosts ls = ls.flatten := by
  unfold combineListOfPosts
  rw [List.foldl_append_eq_append, List.nil_append, List.map_id']

theorem compareTo_le_zero {a b : Int} : compareTo a b ≤ 0 ↔ a ≤ b := by
  unfold compareTo
  split_ifs <;> omega

theorem latestToTop_newest {sort : PostSort} (hsort : SortsAsDart sort) (posts : List PostModel) :
    (latestToTop sort posts).Pairwise fun a b => b.postTime ≤ a.postTime := by
  have hsorted := hsort.sorted (fun a b => compareTo b.postTime a.postTime) posts
    (fun a b c hab hbc => by rw [compareTo_le_zero] at *; omega)
    (fun a b => by rw [compareTo_le_zero, compareTo_le_zero]; omega)
  exact hsorted.imp compareTo_le_zero.mp

/-! ## The step -/

/-- The deliveries, with the posts that their snapshots decode to. -/
def decoded (evs : List (ℕ × PostsSnapshot)) : List (ℕ × List PostModel) :=
  evs.map fun ev => (ev.1, postsOf ev.2)

theorem latestOf_decoded (evs : List (ℕ × PostsSnapshot)) (i : ℕ) :
    latestOf (decoded evs) i = (latestOf evs i).map postsOf := latestOf_map postsOf evs i

/-- The state that the deliveries of a run lead to. -/
structure FeedFits (followings : List String) (evs : List (ℕ × PostsSnapshot)) (s : FeedState) :
    Prop where
  latest : s.latest = latestTable followings.length (decoded evs)
  early : (∃ i < followings.length, latestOf evs i = none) → s.emitted = []

theorem feedFits_init (followings : List String) :
    FeedFits followings [] (feedInit followings) := by
  refine ⟨?_, fun _ => rfl⟩
  unfold feedInit fetchPostsFromAllFollowers decoded
  rw [List.map_map, List.map_nil, latestTable_nil]
  show followings.map (fun _ => none) = _
  rw [List.map_const']

/-- What one delivery emits. -/
def emits (sort : PostSort) (followings : List String) (evs : List (ℕ × PostsSnapshot)) :
    List (List PostModel) :=
  if ∀ i < followings.length, (latestOf evs i).isSome then
    [latestToTop sort ((List.range followings.length).flatMap (latestPosts evs))]
  else []

/-- The combination of the latest lists, once there is one. -/
theorem combined_decoded {n : ℕ} {evs : List (ℕ × PostsSnapshot)}
    (h : ∀ i < n, (latestOf evs i).isSome) :
    allSome (latestTable n (decoded evs)) = some ((List.range n).map (latestPosts evs)) := by
  have hall : ∀ i < n, (latestOf (decoded evs) i).isSome := by
    intro i hi
    rw [latestOf_decoded, Option.isSome_map]
    exact h i hi
  have hposts : (fun i => (latestOf (decoded evs) i).getD []) = latestPosts evs := by
    funext i
    rw [latestOf_decoded]
    rfl
  rw [allSome_latestTable (decoded evs) [] hall, hposts]

theorem not_combined_decoded {n : ℕ} {evs : List (ℕ × PostsSnapshot)}
    (h : ¬ ∀ i < n, (latestOf evs i).isSome) : allSome (latestTable n (decoded evs)) = none := by
  push Not at h
  obtain ⟨i, hi, hn⟩ := h
  have hnone : latestOf evs i = none := by simpa using hn
  refine allSome_latestTable_none (decoded evs) ⟨i, hi, ?_⟩
  rw [latestOf_decoded, hnone]
  rfl

/-- A delivery that decodes is filed under its stream, and emits at most one feed. -/
theorem feedStep_eq (sort : PostSort) {followings : List String}
    {evs : List (ℕ × PostsSnapshot)} {s : FeedState} {ev : ℕ × PostsSnapshot}
    (hs : FeedFits followings evs s) (hi : ev.1 < followings.length)
    (hdec : Decodes ev.2) :
    ∃ t, feedStep sort s ev = some t ∧ FeedFits followings (evs ++ [ev]) t ∧
      t.emitted = s.emitted ++ emits sort followings (evs ++ [ev]) := by
  obtain ⟨posts, hposts⟩ := hdec
  have hpostsOf : postsOf ev.2 = posts := by
    unfold postsOf
    rw [hposts]
    rfl
  have hlength : s.latest.length = followings.length := by
    rw [hs.latest, latestTable, List.length_map, List.length_range]
  have hlatest : s.latest.set ev.1 (some posts) =
      latestTable followings.length (decoded (evs ++ [ev])) := by
    unfold decoded
    rw [List.map_append, List.map_singleton, latestTable_snoc, hpostsOf, hs.latest]
    rfl
  unfold feedStep emits
  rw [if_pos (hlength ▸ hi), hposts]
  dsimp only
  rw [hlatest]
  by_cases hall : ∀ i < followings.length, (latestOf (evs ++ [ev]) i).isSome
  · rw [combined_decoded hall, if_pos hall]
    refine ⟨_, rfl, ⟨rfl, fun ⟨i, hi, hn⟩ => ?_⟩, ?_⟩
    · have hsome := hall i hi
      rw [hn] at hsome
      cases hsome
    · rw [combineListOfPosts_eq, List.flatMap_def]
  · rw [not_combined_decoded hall, if_neg hall]
    refine ⟨_, rfl, ⟨rfl, fun ⟨i, hi, hn⟩ => ?_⟩, (List.append_nil _).symm⟩
    exact hs.early ⟨i, hi, latestOf_none_of_snoc hn⟩

theorem stream_of_delivery {followings : List String} {ev : ℕ × PostsSnapshot}
    (h : IsDelivery followings ev) : ev.1 < followings.length := by
  obtain ⟨q, _, hq, _⟩ := h
  obtain ⟨hlt, _⟩ := List.getElem?_eq_some_iff.mp hq
  simpa [fetchPostsFromAllFollowers] using hlt

/-- A run of deliveries goes through, and files them all. -/
theorem feed_run (sort : PostSort) {followings : List String} {evs : List (ℕ × PostsSnapshot)}
    (hdel : ∀ ev ∈ evs, IsDelivery followings ev) (hdec : ∀ ev ∈ evs, Decodes ev.2) :
    ∃ s, run (feedStep sort) (feedInit followings) evs = some s ∧ FeedFits followings evs s := by
  induction evs using List.reverseRecOn with
  | nil => exact ⟨_, rfl, feedFits_init followings⟩
  | append_singleton evs ev ih =>
    obtain ⟨s, hrun, hs⟩ := ih (fun e he => hdel e (by simp [he])) fun e he => hdec e (by simp [he])
    have hi := stream_of_delivery (hdel ev (by simp))
    obtain ⟨t, hstep, ht, _⟩ := feedStep_eq sort hs hi (hdec ev (by simp))
    exact ⟨t, by rw [run_snoc, hrun]; exact hstep, ht⟩

/-! ## Whose posts -/

theorem fromMap_key {now now' : Int} {map : Doc} {postKey : String} {reference : Path}
    {m : PostModel} (h : PostModel.fromMap now now' map postKey reference = .ok m) :
    m.postKey = postKey ∧ asString (lookup map KEY_USERKEY) = .ok m.userKey := by
  simp only [PostModel.fromMap, except_bind_ok] at h
  obtain ⟨userKey, huser, _, _, _, _, _, _, _, _, _, _, _, _, _, _, _, _, _, _, hm⟩ := h
  cases hm
  exact ⟨rfl, huser⟩

/-- Decoding keeps the documents, one by one. -/
theorem toPosts_forall₂ {snapshot : PostsSnapshot} {posts : List PostModel}
    (h : toPosts snapshot = .ok posts) :
    List.Forall₂ (fun e m => m.postKey = e.1 ∧ asString (lookup e.2 KEY_USERKEY) = .ok m.userKey)
      snapshot.docs posts := by
  unfold toPosts at h
  generalize snapshot.docs = docs at h
  induction docs generalizing posts with
  | nil =>
    cases h
    exact .nil
  | cons e docs ih =>
    rw [List.mapM_cons] at h
    obtain ⟨m, hm, hrest⟩ := except_bind_ok.mp h
    obtain ⟨ms, hms, hposts⟩ := except_bind_ok.mp hrest
    cases hposts
    exact .cons (fromMap_key hm) (ih hms)

theorem map_postKey {docs : List (String × Doc)} {posts : List PostModel}
    (h : List.Forall₂ (fun e m => m.postKey = e.1 ∧
      asString (lookup e.2 KEY_USERKEY) = .ok m.userKey) docs posts) :
    posts.map PostModel.postKey = docs.map Prod.fst := by
  induction h with
  | nil => rfl
  | cons he _ ih => rw [List.map_cons, List.map_cons, he.1, ih]

theorem userKey_of_mem {f : String} {docs : List (String × Doc)} {posts : List PostModel}
    (h : List.Forall₂ (fun e m => m.postKey = e.1 ∧
      asString (lookup e.2 KEY_USERKEY) = .ok m.userKey) docs posts)
    (hf : ∀ e ∈ docs, e.2 KEY_USERKEY = some (str f)) : ∀ m ∈ posts, m.userKey = some f := by
  induction h with
  | nil => exact fun m hm => by cases hm
  | @cons e m docs posts he _ ih =>
    intro m' hm'
    rcases List.mem_cons.mp hm' with rfl | hm'
    · have huser := he.2
      unfold lookup at huser
      rw [hf e List.mem_cons_self] at huser
      exact (Except.ok.inj huser).symm
    · exact ih (fun e' he' => hf e' (List.mem_cons_of_mem _ he')) m' hm'

/-- The latest posts of a stream are those of its snapshot, each once, and all by its user. -/
theorem latestPosts_spec {followings : List String} {evs : List (ℕ × PostsSnapshot)}
    (hdel : ∀ ev ∈ evs, IsDelivery followings ev) (hdec : ∀ ev ∈ evs, Decodes ev.2) {i : ℕ}
    {snapshot : PostsSnapshot} (h : latestOf evs i = some snapshot) :
    ∃ f, followings[i]? = some f ∧
      (latestPosts evs i).map PostModel.postKey = snapshot.docs.map Prod.fst ∧
      (snapshot.docs.map Prod.fst).Nodup ∧ ∀ m ∈ latestPosts evs i, m.userKey = some f := by
  have hmem := latestOf_mem h
  obtain ⟨q, docs, hq, hdelivers⟩ := hdel _ hmem
  obtain ⟨posts, hposts⟩ := hdec _ hmem
  have hlatest : latestPosts evs i = posts := by
    unfold latestPosts postsOf
    rw [h, Option.map_some, Option.getD_some, hposts]
    rfl
  unfold fetchPostsFromAllFollowers at hq
  rw [List.getElem?_map] at hq
  obtain ⟨f, hf, rfl⟩ := Option.map_eq_some_iff.mp hq
  have hdecoded := toPosts_forall₂ hposts
  rw [hlatest]
  exact ⟨f, hf, map_postKey hdecoded, hdelivers.ids,
    userKey_of_mem hdecoded fun e he => ((hdelivers.docs e.1 e.2).mp he).2⟩

/-- Whose post it is, and which. -/
def PostModel.owned (m : PostModel) : Option String × String := (m.userKey, m.postKey)

/-- Put together, no post stands twice, when no user is followed twice. -/
theorem owned_nodup {followings : List String} (hnodup : followings.Nodup)
    {evs : List (ℕ × PostsSnapshot)} (hdel : ∀ ev ∈ evs, IsDelivery followings ev)
    (hdec : ∀ ev ∈ evs, Decodes ev.2) (n : ℕ) :
    (((List.range n).flatMap (latestPosts evs)).map PostModel.owned).Nodup := by
  rw [List.map_flatMap]
  refine List.nodup_flatMap.mpr ⟨fun i _ => ?_, ?_⟩
  · cases hi : latestOf evs i with
    | none => simp [latestPosts, hi]
    | some snapshot =>
      obtain ⟨f, _, hkeys, hids, _⟩ := latestPosts_spec hdel hdec hi
      refine List.Nodup.of_map Prod.snd ?_
      rw [List.map_map]
      show ((latestPosts evs i).map PostModel.postKey).Nodup
      rw [hkeys]
      exact hids
  · refine List.pairwise_lt_range.imp fun {i j} hlt => ?_
    intro key hi hj
    obtain ⟨m, hm, rfl⟩ := List.mem_map.mp hi
    obtain ⟨m', hm', he⟩ := List.mem_map.mp hj
    -- both streams would be of the same user
    have huser : m'.userKey = m.userKey := congrArg Prod.fst he
    cases hsi : latestOf evs i with
    | none => simp [latestPosts, hsi] at hm
    | some snapshot =>
      cases hsj : latestOf evs j with
      | none => simp [latestPosts, hsj] at hm'
      | some snapshot' =>
        obtain ⟨f, hf, _, _, hall⟩ := latestPosts_spec hdel hdec hsi
        obtain ⟨f', hf', _, _, hall'⟩ := latestPosts_spec hdel hdec hsj
        rw [hall m hm, hall' m' hm', Option.some.injEq] at huser
        subst huser
        have hij : i = j :=
          (List.getElem?_inj (List.getElem?_eq_some_iff.mp hf).1 hnodup).mp (hf.trans hf'.symm)
        omega

/-! ## The law -/

/-- The feed is what the latest snapshots of all streams hold, newest first. -/
structure IsFeed (followings : List String) (evs : List (ℕ × PostsSnapshot))
    (feed : List PostModel) : Prop where
  perm : feed.Perm ((List.range followings.length).flatMap (latestPosts evs))
  newest : feed.Pairwise fun a b => b.postTime ≤ a.postTime

/-- Each post of the latest snapshot of a followed user stands in the feed exactly once, and
every post in the feed is one of these. -/
structure EachOnce (followings : List String) (evs : List (ℕ × PostsSnapshot))
    (feed : List PostModel) : Prop where
  once : ∀ i f snapshot, followings[i]? = some f → latestOf evs i = some snapshot →
    ∀ id ∈ snapshot.docs.map Prod.fst, (feed.map PostModel.owned).count (some f, id) = 1
  own : ∀ m ∈ feed, ∃ i f snapshot, followings[i]? = some f ∧ latestOf evs i = some snapshot ∧
    m.userKey = some f ∧ m.postKey ∈ snapshot.docs.map Prod.fst

theorem eachOnce_of_isFeed {followings : List String} (hnodup : followings.Nodup)
    {evs : List (ℕ × PostsSnapshot)} (hdel : ∀ ev ∈ evs, IsDelivery followings ev)
    (hdec : ∀ ev ∈ evs, Decodes ev.2) {feed : List PostModel} (h : IsFeed followings evs feed) :
    EachOnce followings evs feed := by
  constructor
  · intro i f snapshot hf hi id hid
    obtain ⟨f', hf', hkeys, _, hall⟩ := latestPosts_spec hdel hdec hi
    obtain rfl : f = f' := Option.some.inj (hf.symm.trans hf')
    rw [(h.perm.map PostModel.owned).count_eq]
    refine List.count_eq_one_of_mem (owned_nodup hnodup hdel hdec _) ?_
    rw [← hkeys] at hid
    obtain ⟨m, hm, rfl⟩ := List.mem_map.mp hid
    have hlt := (List.getElem?_eq_some_iff.mp hf).1
    refine List.mem_map.mpr ⟨m, List.mem_flatMap.mpr ⟨i, List.mem_range.mpr hlt, hm⟩, ?_⟩
    unfold PostModel.owned
    rw [hall m hm]
  · intro m hm
    obtain ⟨i, _, hm⟩ := List.mem_flatMap.mp (h.perm.mem_iff.mp hm)
    cases hi : latestOf evs i with
    | none => simp [latestPosts, hi] at hm
    | some snapshot =>
      obtain ⟨f, hf, hkeys, _, hall⟩ := latestPosts_spec hdel hdec hi
      exact ⟨i, f, snapshot, hf, hi, hall m hm, hkeys ▸ List.mem_map_of_mem hm⟩

/-- One delivery of a snapshot that decodes: no feed before each stream has delivered, and the
feed of the latest snapshots from then on. -/
theorem feed_of_delivery {sort : PostSort} (hsort : SortsAsDart sort) {followings : List String}
    {evs : List (ℕ × PostsSnapshot)} {ev : ℕ × PostsSnapshot} {s : FeedState}
    (hdel : ∀ e ∈ evs ++ [ev], IsDelivery followings e) (hdec : ∀ e ∈ evs ++ [ev], Decodes e.2)
    (hs : FeedFits followings evs s) :
    ∃ t, feedStep sort s ev = some t ∧
      ((∃ i < followings.length, latestOf (evs ++ [ev]) i = none) →
        s.emitted = [] ∧ t.emitted = []) ∧
      ((∀ i < followings.length, (latestOf (evs ++ [ev]) i).isSome) →
        ∃ feed, t.emitted = s.emitted ++ [feed] ∧ IsFeed followings (evs ++ [ev]) feed ∧
          (followings.Nodup → EachOnce followings (evs ++ [ev]) feed)) := by
  have hi := stream_of_delivery (hdel ev (by simp))
  obtain ⟨t, hstep, ht, hemitted⟩ := feedStep_eq sort hs hi (hdec ev (by simp))
  refine ⟨t, hstep, fun hmissing => ⟨?_, ht.early hmissing⟩, fun hall => ?_⟩
  · obtain ⟨i, hi, hn⟩ := hmissing
    exact hs.early ⟨i, hi, latestOf_none_of_snoc hn⟩
  · unfold emits at hemitted
    rw [if_pos hall] at hemitted
    have hfeed : IsFeed followings (evs ++ [ev])
        (latestToTop sort ((List.range followings.length).flatMap (latestPosts (evs ++ [ev])))) :=
      ⟨hsort.perm _ _, latestToTop_newest hsort _⟩
    exact ⟨_, hemitted, hfeed, fun hnodup => eachOnce_of_isFeed hnodup hdel hdec hfeed⟩

/-- At every delivery of every run: no feed comes before each stream has delivered. From then
on each delivery emits one feed, which is what the latest snapshots hold, newest first. And when
no user is followed twice, each post of theirs stands in it once, and no other. -/
theorem the_feed_loses_and_repeats_nothing (sort : PostSort) (hsort : SortsAsDart sort)
    (followings : List String) (evs : List (ℕ × PostsSnapshot))
    (ev : ℕ × PostsSnapshot) (hdel : ∀ e ∈ evs ++ [ev], IsDelivery followings e)
    (hdec : ∀ e ∈ evs ++ [ev], Decodes e.2) :
    ∃ s t, run (feedStep sort) (feedInit followings) evs = some s ∧ feedStep sort s ev = some t ∧
      ((∃ i < followings.length, latestOf (evs ++ [ev]) i = none) →
        s.emitted = [] ∧ t.emitted = []) ∧
      ((∀ i < followings.length, (latestOf (evs ++ [ev]) i).isSome) →
        ∃ feed, t.emitted = s.emitted ++ [feed] ∧ IsFeed followings (evs ++ [ev]) feed ∧
          (followings.Nodup → EachOnce followings (evs ++ [ev]) feed)) := by
  have hdel' : ∀ e ∈ evs, IsDelivery followings e := fun e he => hdel e (by simp [he])
  have hdec' : ∀ e ∈ evs, Decodes e.2 := fun e he => hdec e (by simp [he])
  obtain ⟨s, hrun, hs⟩ := feed_run sort hdel' hdec'
  obtain ⟨t, hstep, hemits⟩ := feed_of_delivery hsort hdel hdec hs
  exact ⟨s, t, hrun, hstep, hemits⟩

/-! ## A feed -/

/-- A merge sort sorts as Dart does. -/
theorem mergeSort_sortsAsDart :
    SortsAsDart fun (cmp : PostModel → PostModel → Int) l =>
      l.mergeSort fun a b => decide (cmp a b ≤ 0) := by
  refine ⟨fun cmp l => List.mergeSort_perm _ _, fun cmp l htrans htotal => ?_⟩
  have hsorted : (l.mergeSort fun a b => decide (cmp a b ≤ 0)).Pairwise
      fun a b => decide (cmp a b ≤ 0) = true :=
    List.pairwise_mergeSort (fun a b c => by simpa using htrans a b c)
      (fun a b => by simpa using htotal a b) l
  exact hsorted.imp of_decide_eq_true

/-- A post that decodes, as it has neither likes nor a count. -/
def plainPost (userKey : String) (time : Int) : Doc :=
  mapOf [(KEY_USERKEY, str userKey), (KEY_POSTTIME, timestamp time)]

/-- The posts of Ann and of Bob. -/
def twoPosts : Store := fun ref =>
  if ref = [COLLECTION_POST, "a"] then some (plainPost "ann" 1)
  else if ref = [COLLECTION_POST, "b"] then some (plainPost "bob" 2)
  else none

def annsSnapshot : PostsSnapshot := ⟨[("a", plainPost "ann" 1)], fun _ => (0, 0)⟩

def bobsSnapshot : PostsSnapshot := ⟨[("b", plainPost "bob" 2)], fun _ => (0, 0)⟩

theorem twoPosts_delivers {following id : String} {time : Int}
    (h : (following = "ann" ∧ id = "a" ∧ time = 1) ∨ (following = "bob" ∧ id = "b" ∧ time = 2)) :
    WhereQuery.Delivers ⟨[COLLECTION_POST], KEY_USERKEY, str following⟩ twoPosts
      [(id, plainPost following time)] := by
  refine ⟨by simp, fun i d => ?_⟩
  rw [List.mem_singleton, Prod.mk.injEq]
  have hstored : twoPosts ([COLLECTION_POST] ++ [i]) = some d ↔
      (i = "a" ∧ plainPost "ann" 1 = d) ∨ (i = "b" ∧ plainPost "bob" 2 = d) := by
    unfold twoPosts
    by_cases ha : i = "a"
    · simp [ha]
    · by_cases hb : i = "b"
      · simp [hb]
      · simp [ha, hb]
  have hann : plainPost "ann" 1 KEY_USERKEY = some (str "ann") := rfl
  have hbob : plainPost "bob" 2 KEY_USERKEY = some (str "bob") := rfl
  rw [hstored]
  rcases h with ⟨rfl, rfl, rfl⟩ | ⟨rfl, rfl, rfl⟩
  · constructor
    · rintro ⟨rfl, rfl⟩
      exact ⟨Or.inl ⟨rfl, rfl⟩, hann⟩
    · rintro ⟨⟨rfl, rfl⟩ | ⟨rfl, rfl⟩, huser⟩
      · exact ⟨rfl, rfl⟩
      · rw [hbob] at huser
        simp [str] at huser
  · constructor
    · rintro ⟨rfl, rfl⟩
      exact ⟨Or.inr ⟨rfl, rfl⟩, hbob⟩
    · rintro ⟨⟨rfl, rfl⟩ | ⟨rfl, rfl⟩, huser⟩
      · rw [hann] at huser
        simp [str] at huser
      · exact ⟨rfl, rfl⟩

theorem twoPosts_deliveries :
    ∀ e ∈ [(1, bobsSnapshot)] ++ [(0, annsSnapshot)], IsDelivery ["ann", "bob"] e := by
  intro e he
  simp only [List.cons_append, List.nil_append, List.mem_cons, List.not_mem_nil, or_false] at he
  rcases he with rfl | rfl
  · exact ⟨_, twoPosts, rfl, twoPosts_delivers (Or.inr ⟨rfl, rfl, rfl⟩)⟩
  · exact ⟨_, twoPosts, rfl, twoPosts_delivers (Or.inl ⟨rfl, rfl, rfl⟩)⟩

theorem twoPosts_decode : ∀ e ∈ [(1, bobsSnapshot)] ++ [(0, annsSnapshot)], Decodes e.2 := by
  intro e he
  simp only [List.cons_append, List.nil_append, List.mem_cons, List.not_mem_nil, or_false] at he
  rcases he with rfl | rfl <;> exact ⟨_, rfl⟩

theorem the_feed_loses_and_repeats_nothing_at_two_posts :
    ∃ s t, run (feedStep fun cmp l => l.mergeSort fun a b => decide (cmp a b ≤ 0))
        (feedInit ["ann", "bob"]) [(1, bobsSnapshot)] = some s ∧
      feedStep (fun cmp l => l.mergeSort fun a b => decide (cmp a b ≤ 0)) s (0, annsSnapshot) =
        some t ∧
      ((∃ i < 2, latestOf ([(1, bobsSnapshot)] ++ [(0, annsSnapshot)]) i = none) →
        s.emitted = [] ∧ t.emitted = []) ∧
      ((∀ i < 2, (latestOf ([(1, bobsSnapshot)] ++ [(0, annsSnapshot)]) i).isSome) →
        ∃ feed, t.emitted = s.emitted ++ [feed] ∧
          IsFeed ["ann", "bob"] ([(1, bobsSnapshot)] ++ [(0, annsSnapshot)]) feed ∧
          (["ann", "bob"].Nodup →
            EachOnce ["ann", "bob"] ([(1, bobsSnapshot)] ++ [(0, annsSnapshot)]) feed)) :=
  the_feed_loses_and_repeats_nothing _ mergeSort_sortsAsDart ["ann", "bob"] [(1, bobsSnapshot)]
    (0, annsSnapshot) twoPosts_deliveries twoPosts_decode

end instagram
