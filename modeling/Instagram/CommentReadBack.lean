-- The comments of a post, read at the path of its document. `fetchAllComments` takes a path, and
-- for the path of a post its query, its decoder and `createNewComment` fit together: in every
-- state of every run the comments that were committed come back, each as it was written.
import Instagram.CounterBounds

namespace instagram

open docs firestore async runs

/-! ## The path of a post -/

/-- The path of the post's document, as a string. -/
def postPath (k : String) : String := COLLECTION_POST ++ "/" ++ k

theorem segments_postPath (k : String) : segments (postPath k) = postRef k :=
  segments_append_slash COLLECTION_POST k

theorem fetchAllComments_postPath {k : String} (hk : IsDocId k) (hne : k ≠ "") :
    fetchAllComments (postPath k) =
      .ok { collection := commentsOf k, orderBy := KEY_COMMENTTIME } := by
  have hsegments : segments (postPath k) = [COLLECTION_POST, k] := by
    rw [segments_postPath, postRef, docRef, segments_docId hk]
    rfl
  have hplain : "" ∉ segments (postPath k) := by
    simp [hsegments, COLLECTION_POST, hne.symm]
  unfold fetchAllComments commentsOf
  rw [documentWithPath_docRef hplain, docRef, List.nil_append, if_pos (by simp [hsegments]),
    segments_postPath]

/-! ## What is filed -/

/-- A call on a post. The comments are written by the comments screen. -/
def Call.Composed (c : Call) : Prop :=
  c.OnSomePost ∧ ∀ k commentData, c = .createNewComment k commentData →
    ∃ userKey username comment time,
      commentData = CommentModel.getMapForNewComment userKey username comment time

/-- The comments that were committed on the post `k`, each with its id. -/
def filed (k : String) (h : List (Call × List Write)) : List (String × Doc) :=
  h.filterMap fun
    | (.createNewComment postKey commentData, .set ref _ :: _) =>
      if postKey = k then ref.getLast?.map (·, commentData) else none
    | _ => none

theorem filed_snoc (k : String) (h : List (Call × List Write)) (e : Call × List Write) :
    filed k (h ++ [e]) = filed k h ++ filed k [e] := by
  unfold filed
  rw [List.filterMap_append]

theorem filed_comment (k : String) (commentData : Doc) (id : String) (n : Int) :
    filed k [(.createNewComment k commentData, commentWrites k commentData id n)] =
      [(id, commentData)] := by
  simp [filed, commentWrites]

/-- A batch files a comment on the post, or none. -/
theorem filed_other {k : String} {c : Call} {ws : List Write} (hmay : c.MayCommit ws)
    (hno : ∀ data id n, c = .createNewComment k data → ws ≠ commentWrites k data id n) :
    filed k [(c, ws)] = [] := by
  cases c with
  | createNewComment postKey data =>
    rcases hmay with rfl | ⟨id, n, rfl⟩
    · rfl
    · have hk : postKey ≠ k := by
        rintro rfl
        exact hno data id n rfl rfl
      simp [filed, commentWrites, hk]
  | _ => rfl

/-- What is filed is what the calls wrote. -/
theorem map_snd_filed (k : String) {h : List (Call × List Write)}
    (hmay : ∀ e ∈ h, e.1.MayCommit e.2) :
    (filed k h).map Prod.snd = commentsCommitted k h := by
  induction h using List.reverseRecOn with
  | nil => rfl
  | append_singleton h e ih =>
    obtain ⟨c, ws⟩ := e
    have hlast : c.MayCommit ws := hmay (c, ws) (by simp)
    rw [filed_snoc, commentsCommitted_snoc, List.map_append,
      ih fun e he => hmay e (by simp [he])]
    congr 1
    by_cases hset : ∃ data id n, c = .createNewComment k data ∧ ws = commentWrites k data id n
    · obtain ⟨data, id, n, rfl, rfl⟩ := hset
      rw [filed_comment]
      simp [commentsCommitted, commentWrites]
    · have hno : ∀ data id n, c = .createNewComment k data → ws ≠ commentWrites k data id n :=
        fun data id n hc hws => hset ⟨data, id, n, hc, hws⟩
      rw [filed_other hlast hno]
      rcases commentsCommitted_one (k := k) hlast with hnil | ⟨data, id, n, rfl, hone⟩
      · rw [hnil, List.map_nil]
      · exfalso
        cases c with
        | createNewComment postKey data' =>
          have hk : postKey = k := by
            by_contra hne
            simp [commentsCommitted, hne] at hone
          subst hk
          have hdata : data' = data := by simpa [commentsCommitted, commentWrites] using hone
          exact hno data id n (by rw [hdata]) rfl
        | _ => cases hone

/-- The Comments of the post hold what is filed, each under its own id. -/
structure Filed (k : String) (s : BackendState) : Prop where
  ids : ((filed k (history s)).map Prod.fst).Nodup
  docs : ∀ id d, (id, d) ∈ filed k (history s) ↔ s.world.docs (commentsOf k ++ [id]) = some d
  composed : ∀ e ∈ filed k (history s), ∃ userKey username comment time,
    e.2 = CommentModel.getMapForNewComment userKey username comment time

theorem filed_step {k : String} (hk : IsDocId k) {s t : BackendState} {a : BackendAct}
    (hcalls : OnPosts Call.Composed s) (hrefs : FreshRefs s) (hs : Filed k s)
    (h : step backend s a = some t) : Filed k t := by
  rcases backend_step h with ⟨c, ws, hcommits, hcommit, hhist⟩ | ⟨_, hdocs, hhist⟩
  · obtain ⟨⟨hcall, hcomposed⟩, hmay⟩ := onPosts_commits hcalls hcommits
    by_cases hset : ∃ data id n, c = .createNewComment k data ∧ ws = commentWrites k data id n
    · obtain ⟨data, id, n, rfl, rfl⟩ := hset
      have hnew := comment_is_new hrefs hcommits
      obtain ⟨d, _, hdocs⟩ := commit_commentWrites hcommit
      have hfresh : ∀ d', (id, d') ∉ filed k (history s) := fun d' hmem => by
        rw [(hs.docs id d').mp hmem] at hnew
        cases hnew
      refine ⟨?_, fun id' d' => ?_, ?_⟩
      · rw [hhist, filed_snoc, filed_comment, List.map_append]
        refine List.nodup_append.mpr ⟨hs.ids, List.nodup_singleton _, fun x hx y hy he => ?_⟩
        obtain ⟨⟨x', d'⟩, hmem, rfl⟩ := List.mem_map.mp hx
        obtain rfl : y = id := List.mem_singleton.mp hy
        obtain rfl : x' = y := he
        exact hfresh d' hmem
      · rw [hhist, filed_snoc, filed_comment, List.mem_append, List.mem_singleton, hs.docs, hdocs,
          Function.update_of_ne (comment_ne_postRef hk k id')]
        by_cases hid : id' = id
        · subst hid
          rw [Function.update_self, hnew]
          simp [eq_comm]
        · have hne : commentsOf k ++ [id'] ≠ commentsOf k ++ [id] := by simpa using hid
          rw [Function.update_of_ne hne]
          simp [hid]
      · rw [hhist, filed_snoc, filed_comment]
        intro e he
        rcases List.mem_append.mp he with hold | hlast
        · exact hs.composed e hold
        · obtain rfl := List.mem_singleton.mp hlast
          exact hcomposed k data rfl
    · have hno : ∀ data id n, c = .createNewComment k data → ws ≠ commentWrites k data id n :=
        fun data id n hc hws => hset ⟨data, id, n, hc, hws⟩
      have hsame := (count_untouched hk hcall hmay hcommit hno).2
      have hfiled : filed k (history t) = filed k (history s) := by
        rw [hhist, filed_snoc, filed_other hmay hno, List.append_nil]
      refine ⟨by rw [hfiled]; exact hs.ids, fun id d => ?_, by rw [hfiled]; exact hs.composed⟩
      rw [hfiled, hsame]
      exact hs.docs id d
  · refine ⟨by rw [hhist]; exact hs.ids, fun id d => ?_, by rw [hhist]; exact hs.composed⟩
    rw [hhist, hdocs]
    exact hs.docs id d

/-! ## What a snapshot decodes to -/

/-- The model holds all that the comments screen wrote: writing its fields again gives the same
data. -/
def Rebuilds (m : CommentModel) (commentData : Doc) : Prop :=
  ∃ userKey comment, m.userKey = some userKey ∧ m.comment = some comment ∧
    commentData = CommentModel.getMapForNewComment userKey m.username comment m.commentTime

theorem pairwise_of_forall₂ {β δ : Type} {R : β → δ → Prop} {P : δ → δ → Prop}
    {Q : β → β → Prop} (hPQ : ∀ a b x y, R a x → R b y → P x y → Q a b) {l : List β} {l' : List δ}
    (h : List.Forall₂ R l l') (hp : l'.Pairwise P) : l.Pairwise Q := by
  induction h with
  | nil => exact List.Pairwise.nil
  | cons hax hrest ih =>
    obtain ⟨hfirst, hp⟩ := List.pairwise_cons.mp hp
    refine List.pairwise_cons.mpr ⟨fun b hb => ?_, ih hp⟩
    obtain ⟨i, hi, rfl⟩ := List.getElem_of_mem hb
    have hi' := hrest.length_eq ▸ hi
    exact hPQ _ _ _ _ hax (hrest.get hi hi') (hfirst _ (List.getElem_mem hi'))

/-- Each of these documents decodes, to a model of its data under its id. -/
theorem toComments_ok (now : Int) (q : Query) {snapshot : List (String × Doc)}
    (h : ∀ e ∈ snapshot, ∃ userKey username comment time,
      e.2 = CommentModel.getMapForNewComment userKey username comment time) :
    ∃ ms, toComments now q snapshot = .ok ms ∧
      List.Forall₂ (fun m e => Rebuilds m e.2 ∧ m.commentKey = e.1) ms snapshot := by
  induction snapshot with
  | nil => exact ⟨[], rfl, .nil⟩
  | cons e snapshot ih =>
    obtain ⟨ms, hms, hall⟩ := ih fun e he => h e (List.mem_cons_of_mem _ he)
    obtain ⟨userKey, username, comment, time, hdata⟩ := h e List.mem_cons_self
    obtain ⟨id, d⟩ := e
    obtain rfl : d = _ := hdata
    refine ⟨⟨username, some userKey, some comment, time, id, q.collection ++ [id]⟩ :: ms, ?_,
      .cons ⟨⟨userKey, comment, rfl, rfl, rfl⟩, rfl⟩ hall⟩
    unfold toComments at hms ⊢
    simp only [List.mapM_cons, hms, fromMap_getMapForNewComment]
    rfl

theorem lookup_commentTime {m : CommentModel} {d : Doc} (h : Rebuilds m d) :
    lookup d KEY_COMMENTTIME = timestamp m.commentTime := by
  obtain ⟨userKey, comment, _, _, rfl⟩ := h
  rfl

/-- A snapshot of the query holds what is filed. -/
theorem snapshot_perm_filed {k : String} {s : BackendState} (hs : Filed k s) {q : Query}
    (hq : q = { collection := commentsOf k, orderBy := KEY_COMMENTTIME })
    {snapshot : List (String × Doc)} (hsnap : q.Delivers s.world.docs snapshot) :
    snapshot.Perm (filed k (history s)) := by
  subst hq
  refine (List.perm_ext_iff_of_nodup hsnap.ids.of_map hs.ids.of_map).mpr fun ⟨id, d⟩ => ?_
  rw [hsnap.docs, hs.docs]
  refine and_iff_left_of_imp fun hd => ?_
  obtain ⟨userKey, username, comment, time, hdata⟩ := hs.composed _ ((hs.docs id d).mpr hd)
  obtain rfl : d = _ := hdata
  rfl

/-- Written comments come back. In every run of comments of the screen, likes and new images, on
a post that had no comments, the query at the path of the post reads the collection that the
comments go to. Every snapshot of it decodes, to the comments committed so far: each once, with
all that was written, and the latest first. -/
theorem comments_read_back_at_the_path_of_the_post (k : String) (hk : IsDocId k) (hne : k ≠ "")
    (docs : Store) (h0 : ∀ id, docs (commentsOf k ++ [id]) = none) (as : List BackendAct)
    (has : ∀ a ∈ as, a.Starts Call.Composed) :
    ∃ q, fetchAllComments (postPath k) = .ok q ∧ q.collection = commentsOf k ∧
      AllStates (step backend) (fun t => ∀ now snapshot, q.Delivers t.world.docs snapshot →
        ∃ ms l, toComments now q snapshot = .ok ms ∧
          l.Perm (commentsCommitted k (history t)) ∧ List.Forall₂ Rebuilds ms l ∧
          (ms.map CommentModel.commentKey).Nodup ∧
          ms.Pairwise fun a b => b.commentTime ≤ a.commentTime) (backendInit docs) as := by
  refine ⟨_, fetchAllComments_postPath hk hne, rfl, ?_⟩
  have hpost : ∀ c : Call, c.Composed → c.OnPost := fun c hc => hc.1.1
  have hinit : Filed k (backendInit docs) := by
    refine ⟨List.nodup_nil, fun id d => ?_, fun e he => by cases he⟩
    have hnone : (backendInit docs).world.docs (commentsOf k ++ [id]) = none := h0 id
    rw [hnone]
    simp [filed, history, backendInit, init]
  have hrun : AllStates (step backend) (fun s => OnPosts Call.Composed s ∧ FreshRefs s ∧ Filed k s)
      (backendInit docs) as := by
    refine allStates_of_keeps ?_ has ⟨onPosts_init _ docs, freshRefs_init docs, hinit⟩
    rintro s a t ha ⟨hcalls, hrefs, hs⟩ h
    exact ⟨onPosts_step hpost s a t ha hcalls h, freshRefs_step hpost hcalls ha hrefs h,
      filed_step hk hcalls hrefs hs h⟩
  intro pre hpre t ht now snapshot hsnap
  obtain ⟨_, _, hs⟩ := hrun pre hpre t ht
  have hmay := history_run Call.Composed docs (fun a ha => has a (hpre.subset ha)) pre
    (List.prefix_refl _) t ht
  have hperm := snapshot_perm_filed hs rfl hsnap
  obtain ⟨ms, hms, hall⟩ := toComments_ok now
    { collection := commentsOf k, orderBy := KEY_COMMENTTIME }
    fun e he => hs.composed e (hperm.subset he)
  refine ⟨ms, snapshot.map Prod.snd, hms, ?_, ?_, ?_, ?_⟩
  · rw [← map_snd_filed k fun e he => (hmay e he).2]
    exact hperm.map Prod.snd
  · exact List.forall₂_map_right_iff.mpr (hall.imp fun _ _ h => h.1)
  · have hkeys : ms.map CommentModel.commentKey = snapshot.map Prod.fst := by
      rw [← List.forall₂_eq_eq_eq]
      exact List.forall₂_map_left_iff.mpr (List.forall₂_map_right_iff.mpr
        (hall.imp fun _ _ h => h.2))
    rw [hkeys]
    exact hsnap.ids
  · refine pairwise_of_forall₂ (fun a b x y hax hby hle => ?_) hall hsnap.ordered
    simp only [lookup_commentTime hax.1, lookup_commentTime hby.1, valueLe, timestamp, Atom.le,
      decide_eq_true_eq] at hle
    exact hle

theorem firstComment_composed : ∀ a ∈ firstComment, a.Starts Call.Composed := by
  have hp : IsDocId "p" := by decide
  have hcall : (Call.createNewComment "p"
      (CommentModel.getMapForNewComment "bob" (some "bob") "nice" 1)).Composed := by
    refine ⟨⟨trivial, fun k hk => ?_⟩, fun k data he => ?_⟩
    · cases hk
      exact hp
    · cases he
      exact ⟨_, _, _, _, rfl⟩
  simp [firstComment, Act.Starts, hcall]

theorem countedPost_without_comments (k id : String) :
    countedPost k (commentsOf k ++ [id]) = none :=
  if_neg (commentRef_ne_postRef k id)

theorem comments_read_back_at_the_path_of_the_post_at_the_first :
    ("p" ≠ "" ∧ ∀ a ∈ firstComment, a.Starts Call.Composed) ∧
      ∃ q, fetchAllComments (postPath "p") = .ok q ∧ q.collection = commentsOf "p" ∧
        AllStates (step backend) (fun t => ∀ now snapshot, q.Delivers t.world.docs snapshot →
          ∃ ms l, toComments now q snapshot = .ok ms ∧
            l.Perm (commentsCommitted "p" (history t)) ∧ List.Forall₂ Rebuilds ms l ∧
            (ms.map CommentModel.commentKey).Nodup ∧
            ms.Pairwise fun a b => b.commentTime ≤ a.commentTime)
          (backendInit (countedPost "p")) firstComment :=
  ⟨⟨by decide, firstComment_composed⟩,
    comments_read_back_at_the_path_of_the_post "p" (by decide) (by decide) (countedPost "p")
      (countedPost_without_comments "p") firstComment firstComment_composed⟩

end instagram
