-- The three features of a post: its likes, its image and its comments. They all update the
-- same document, but each its own fields, and each call reads only the fields of its own
-- feature. So each feature goes on as if the other two were not there.
import Instagram.Footprint
import Instagram.PostCalls
import Instagram.Projection

namespace instagram

open docs firestore async runs

/-! ## What belongs to a feature -/

inductive Feature where
  | likes
  | image
  | comments
  deriving DecidableEq, Repr

def Call.feature : Call → Option Feature
  | .toggleLike _ _ => some .likes
  | .updatePostImageUrl _ _ => some .image
  | .createNewComment _ _ => some .comments
  | _ => none

/-- The fields of a post that belong to the feature. -/
def Feature.fields : Feature → List String
  | .likes => [KEY_NUMOFLIKES]
  | .image => [KEY_POSTIMG]
  | .comments => previewKeys

/-- The fields of every post, and for the comments also every document in the Comments. -/
def Feature.Owns (F : Feature) (p : Path) (f : String) : Prop :=
  (∃ k, IsDocId k ∧ p = postRef k ∧ f ∈ F.fields) ∨
    (F = .comments ∧ ∃ k id, IsDocId k ∧ p = commentsOf k ++ [id])

/-- The fields of a post that no feature has. -/
def fixedKeys : List String := [KEY_USERKEY, KEY_USERNAME, KEY_CAPTION, KEY_POSTTIME]

/-- The call is of the feature. -/
def Call.isOf (F : Feature) (c : Call) : Bool := decide (c.feature = some F)

/-- A like, a comment or a new image, of a document of the collection `Posts`. -/
def Call.OnSomePost (c : Call) : Prop := c.OnPost ∧ ∀ k, c.postKey = some k → IsDocId k

theorem onPost_of_onSomePost (c : Call) (hc : c.OnSomePost) : c.OnPost := hc.1

/-- No field belongs to two features. -/
theorem fields_disjoint {F F' : Feature} {f : String} (h : f ∈ F.fields) (h' : f ∈ F'.fields) :
    F' = F := by
  cases F <;> cases F' <;> simp [Feature.fields, previewKeys] at h h' <;>
    first | rfl | (subst h; revert h'; decide) | (subst h'; revert h; decide)

/-- What a call can change belongs to its own feature and to no other. -/
theorem feature_of_footprint {c : Call} {F : Feature} {p : Path} {f : String}
    (hc : c.OnSomePost) (howns : F.Owns p f) (h : c.Footprint p f) : c.feature = some F := by
  obtain ⟨hpost, hkey⟩ := hc
  cases c with
  | updatePostImageUrl postImg postKey =>
    obtain ⟨rfl, rfl⟩ := h
    rcases howns with ⟨k, hk, _, hf⟩ | ⟨_, k, id, _, he⟩
    · have himage : KEY_POSTIMG ∈ Feature.image.fields := by simp [Feature.fields]
      rw [← fields_disjoint hf himage]
      rfl
    · exact absurd he.symm (comment_ne_postRef (hkey postKey rfl) k id)
  | toggleLike postKey userKey =>
    obtain ⟨rfl, rfl⟩ := h
    rcases howns with ⟨k, hk, _, hf⟩ | ⟨_, k, id, _, he⟩
    · have hlikes : KEY_NUMOFLIKES ∈ Feature.likes.fields := by simp [Feature.fields]
      rw [← fields_disjoint hf hlikes]
      rfl
    · exact absurd he.symm (comment_ne_postRef (hkey postKey rfl) k id)
  | createNewComment postKey commentData =>
    rcases howns with ⟨k, hk, rfl, hf⟩ | ⟨rfl, _⟩
    · rcases h with ⟨id, he⟩ | ⟨_, hpreview⟩
      · exact absurd he.symm (comment_ne_postRef hk postKey id)
      · rw [← fields_disjoint hf (show f ∈ Feature.comments.fields from hpreview)]
        rfl
    · rfl
  | _ => exact hpost.elim

/-- A call touches only documents of its own feature. -/
theorem owns_of_mayCommit {c : Call} {F : Feature} {ws : List Write} {w : Write}
    (hc : c.OnSomePost) (hF : c.feature = some F) (h : c.MayCommit ws) (hw : w ∈ ws) :
    ∃ f, F.Owns w.ref f := by
  obtain ⟨hpost, hkey⟩ := hc
  cases writes_of_mayCommit h hw with
  | postImg postImg postKey =>
    cases hF
    exact ⟨KEY_POSTIMG, Or.inl ⟨postKey, hkey postKey rfl, rfl, by simp [Feature.fields]⟩⟩
  | unlike postKey userKey | like postKey userKey =>
    cases hF
    exact ⟨KEY_NUMOFLIKES, Or.inl ⟨postKey, hkey postKey rfl, rfl, by simp [Feature.fields]⟩⟩
  | comment postKey commentData id =>
    cases hF
    exact ⟨KEY_COMMENT, Or.inr ⟨rfl, postKey, id, hkey postKey rfl, rfl⟩⟩
  | preview postKey commentData n =>
    cases hF
    exact ⟨KEY_LASTCOMMENT, Or.inl ⟨postKey, hkey postKey rfl, rfl,
      by simp [Feature.fields, previewKeys]⟩⟩
  | _ => exact hpost.elim

/-! ## What a call reads -/

theorem field_congr {s s' : Snapshot} {f : String} (h : s.map (· f) = s'.map (· f)) :
    field s f = field s' f ∧ dataField s f = dataField s' f := by
  cases s with
  | none =>
    cases s' with
    | none => exact ⟨rfl, rfl⟩
    | some d' => cases h
  | some d =>
    cases s' with
    | none => cases h
    | some d' =>
      have hd : d f = d' f := Option.some.inj h
      simp [field, dataField, lookup, hd]

theorem toggleLikeOn_congr {s s' : Snapshot}
    (h : s.map (· KEY_NUMOFLIKES) = s'.map (· KEY_NUMOFLIKES)) (postKey userKey : String) :
    toggleLikeOn postKey userKey s = toggleLikeOn postKey userKey s' := by
  unfold toggleLikeOn
  rw [isSome_of_field h, (field_congr h).2]

theorem updatePostImageUrlOn_congr {s s' : Snapshot} {f : String} (h : s.map (· f) = s'.map (· f))
    (postImg postKey : String) :
    updatePostImageUrlOn postImg postKey s = updatePostImageUrlOn postImg postKey s' := by
  unfold updatePostImageUrlOn
  rw [isSome_of_field h]

theorem createNewCommentOn_congr {s s' : Snapshot}
    (h : s.map (· KEY_NUMOFCOMMENTS) = s'.map (· KEY_NUMOFCOMMENTS)) (postKey : String)
    (commentData : Doc) :
    createNewCommentOn postKey commentData s = createNewCommentOn postKey commentData s' := by
  unfold createNewCommentOn commentTx
  rw [isSome_of_field h, (field_congr h).1]

/-- The field that a call of the feature reads. -/
def Feature.reads : Feature → String
  | .likes => KEY_NUMOFLIKES
  | .image => KEY_POSTIMG
  | .comments => KEY_NUMOFCOMMENTS

theorem reads_mem_fields (F : Feature) : F.reads ∈ F.fields := by
  cases F <;> simp [Feature.reads, Feature.fields, previewKeys]

/-- A call does the same on two snapshots that agree in the field it reads. -/
theorem after_read {c : Call} {F : Feature} (hF : c.feature = some F) {ref : Path}
    {f : Except DartError Snapshot → Fire Unit} (hat : c.At (.get ref) f) {s s' : Snapshot}
    (h : s.map (· F.reads) = s'.map (· F.reads)) :
    c.postKey.map postRef = some ref ∧ f (.ok s) = f (.ok s') := by
  cases c with
  | updatePostImageUrl postImg postKey =>
    cases hF
    obtain ⟨rfl, rfl⟩ := hat
    exact ⟨rfl, updatePostImageUrlOn_congr h postImg postKey⟩
  | toggleLike postKey userKey =>
    cases hF
    obtain ⟨rfl, rfl⟩ := hat
    exact ⟨rfl, toggleLikeOn_congr h postKey userKey⟩
  | createNewComment postKey commentData =>
    cases hF
    obtain ⟨rfl, rfl⟩ := hat
    exact ⟨rfl, createNewCommentOn_congr h postKey commentData⟩
  | _ => cases hF

/-! ## One feature without the others -/

/-- The databases agree in what belongs to the feature. Comments also need the generated
references, which they alone ask for. -/
structure FeatureSeen (F : Feature) (w w' : Db) : Prop where
  docs : AgreeOn F.Owns w.docs w'.docs
  issued : F = .comments → w.issued = w'.issued

theorem featureSeen_get {c : Call} {F : Feature} {ref : Path}
    {f : Except DartError Snapshot → Fire Unit} {e : Env} {w w' u : Db}
    {a : Except DartError Snapshot} (hc : c.OnSomePost) (hF : c.feature = some F)
    (hat : c.At (.get ref) f) (hV : FeatureSeen F w u) (h : handle (.get ref) e w = some (w', a)) :
    ∃ u' a', handle (.get ref) e u = some (u', a') ∧ FeatureSeen F w' u' ∧ f a' = f a := by
  have hself : (none : Snapshot).map (· F.reads) = (none : Snapshot).map (· F.reads) := rfl
  obtain ⟨k, hk, rfl⟩ : ∃ k, c.postKey = some k ∧ postRef k = ref :=
    Option.map_eq_some_iff.mp (after_read hF hat hself).1
  have hread := hV.docs (postRef k) F.reads (Or.inl ⟨k, hc.2 k hk, rfl, reads_mem_fields F⟩)
  obtain ⟨a', ha', hsame⟩ := handle_get_alike (isSome_of_field hread) h
  obtain ⟨rfl, _⟩ := handle_get h
  refine ⟨u, a', ha', hV, ?_⟩
  rcases hsame with rfl | ⟨rfl, rfl⟩
  · rfl
  · exact ((after_read hF hat hread).2).symm

theorem featureSeen_newId {c : Call} {F : Feature} {q : Path} {f : String → Fire Unit} {e : Env}
    {w w' u : Db} {id : String} (hc : c.OnSomePost) (hF : c.feature = some F)
    (hat : c.At (.newId q) f) (hV : FeatureSeen F w u)
    (h : handle (.newId q) e w = some (w', id)) :
    ∃ u' id', handle (.newId q) e u = some (u', id') ∧ FeatureSeen F w' u' ∧ f id' = f id := by
  cases c with
  | createNewComment postKey commentData =>
    cases hF
    obtain ⟨rfl, _⟩ := hat
    have hissued := hV.issued rfl
    have hdoc : (w.docs (commentsOf postKey ++ [e.autoId])).isSome =
        (u.docs (commentsOf postKey ++ [e.autoId])).isSome :=
      isSome_of_field (hV.docs _ KEY_COMMENT
        (Or.inr ⟨rfl, postKey, e.autoId, hc.2 postKey rfl, rfl⟩))
    simp only [handle] at h ⊢
    rw [← hissued, ← hdoc]
    split_ifs at h ⊢ with hcond
    cases h
    exact ⟨_, _, rfl, ⟨hV.docs, fun _ => rfl⟩, rfl⟩
  | _ => exact hat.elim

theorem featureSeen_commit {c : Call} {F : Feature} {ws : List Write} {e : Env} {w w' u : Db}
    {a : Except DartError Unit} (hc : c.OnSomePost) (hF : c.feature = some F)
    (hmay : c.MayCommit ws) (hV : FeatureSeen F w u)
    (h : handle (.commit ws) e w = some (w', a)) :
    ∃ u', handle (.commit ws) e u = some (u', a) ∧ FeatureSeen F w' u' := by
  have hX : ∀ v ∈ ws, ∃ f, F.Owns v.ref f := fun v hv => owns_of_mayCommit hc hF hmay hv
  have hdocs : (commit w.docs ws).isSome = (commit u.docs ws).isSome := by
    rw [Bool.eq_iff_iff]
    constructor
    · intro hs
      obtain ⟨d, hd⟩ := Option.isSome_iff_exists.mp hs
      obtain ⟨d', hd', _⟩ := agreeOn_commit hX hV.docs hd
      rw [hd']
      rfl
    · intro hs
      obtain ⟨d, hd⟩ := Option.isSome_iff_exists.mp hs
      obtain ⟨d', hd', _⟩ := agreeOn_commit hX hV.docs.symm hd
      rw [hd']
      rfl
  obtain ⟨u', hu', ⟨rfl, rfl⟩ | ⟨hw, hu, hwi, hui⟩⟩ := handle_commit_alike hdocs h
  · exact ⟨u', hu', hV⟩
  · obtain ⟨d', hd', hagree⟩ := agreeOn_commit hX hV.docs hw
    rw [hu, Option.some.injEq] at hd'
    refine ⟨u', hu', ?_, fun hcomments => ?_⟩
    · rw [hd']
      exact hagree
    · rw [hwi, hui]
      exact hV.issued hcomments

/-- A call of another feature is not seen. -/
theorem featureSeen_other {c : Call} {F : Feature} {o : Op} {f : Ans o → Fire Unit} {e : Env}
    {w w' u : Db} {a : Ans o} (hc : c.OnSomePost) (hF : c.feature ≠ some F) (hat : c.At o f)
    (hV : FeatureSeen F w u) (h : handle o e w = some (w', a)) : FeatureSeen F w' u := by
  cases o with
  | get ref =>
    rw [(handle_get h).1]
    exact hV
  | newId q =>
    refine ⟨?_, fun hcomments => ?_⟩
    · rw [(handle_newId h).1]
      exact hV.docs
    · subst hcomments
      cases c with
      | createNewComment postKey commentData => exact absurd rfl hF
      | _ => exact hat.elim
  | commit ws =>
    rcases handle_commit h with ⟨_, hissued, _, hcommit⟩ | ⟨_, rfl, _⟩
    · refine ⟨fun p g hown => ?_, fun hcomments => ?_⟩
      · rw [fieldAt_of_mayCommit (mayCommit_of_at hat) hcommit
          fun hfoot => hF (feature_of_footprint hc hown hfoot)]
        exact hV.docs p g hown
      · rw [hissued]
        exact hV.issued hcomments
    · exact hV

/-- Each feature is separate from the other two. -/
theorem features_separate (F : Feature) :
    Separate backend (Call.isOf F) (FeatureSeen F) (fun _ => True) Call.OnSomePost Call.At where
  own := by
    intro c o f e w u w' a hown hc hat _ hV hhandle
    have hF : c.feature = some F := of_decide_eq_true hown
    cases o with
    | get ref => exact featureSeen_get hc hF hat hV hhandle
    | newId q => exact featureSeen_newId hc hF hat hV hhandle
    | commit ws =>
      obtain ⟨u', hu', hV'⟩ := featureSeen_commit hc hF (mayCommit_of_at hat) hV hhandle
      exact ⟨u', a, hu', hV', rfl⟩
  other := by
    intro c o f e w u w' a hother hc hat _ hV hhandle
    exact featureSeen_other hc (fun hF => hother (decide_eq_true hF)) hat hV hhandle
  poke := fun x => x.elim

/-! ## The fields of no feature -/

theorem fixed_notMem_fields {f : String} (hf : f ∈ fixedKeys) (F : Feature) : f ∉ F.fields := by
  intro hmem
  simp only [fixedKeys, List.mem_cons, List.not_mem_nil, or_false] at hf
  rcases hf with rfl | rfl | rfl | rfl <;> revert hmem <;> cases F <;> decide

theorem fixed_not_footprint {c : Call} (hc : c.OnSomePost) {k f : String} (hk : IsDocId k)
    (hf : f ∈ fixedKeys) : ¬ c.Footprint (postRef k) f := by
  intro h
  cases c with
  | updatePostImageUrl postImg postKey =>
    obtain ⟨_, rfl⟩ := h
    exact fixed_notMem_fields hf .image (by simp [Feature.fields])
  | toggleLike postKey userKey =>
    obtain ⟨_, rfl⟩ := h
    exact fixed_notMem_fields hf .likes (by simp [Feature.fields])
  | createNewComment postKey commentData =>
    rcases h with ⟨id, he⟩ | ⟨_, hpreview⟩
    · exact comment_ne_postRef hk postKey id he.symm
    · exact fixed_notMem_fields hf .comments hpreview
  | _ => exact hc.1.elim

/-- Every post has the author, the caption and the time that it had in `docs`. -/
def FixedAs (docs docs' : Store) : Prop :=
  ∀ k f, IsDocId k → f ∈ fixedKeys → fieldAt docs' (postRef k) f = fieldAt docs (postRef k) f

theorem fixedAs_step {docs : Store} (s : BackendState) (a : BackendAct) (t : BackendState)
    (ha : a.Starts Call.OnSomePost) (hs : OnPosts Call.OnSomePost s ∧ FixedAs docs s.world.docs)
    (h : step backend s a = some t) : OnPosts Call.OnSomePost t ∧ FixedAs docs t.world.docs := by
  obtain ⟨hon, hfix⟩ := hs
  refine ⟨onPosts_step onPost_of_onSomePost s a t ha hon h, fun k f hk hf => ?_⟩
  rcases backend_step h with ⟨c, ws, hc, hcommit, _⟩ | ⟨_, hdocs, _⟩
  · obtain ⟨hcall, hmay⟩ := onPosts_commits hon hc
    rw [fieldAt_of_mayCommit hmay hcommit (fixed_not_footprint hcall hk hf), hfix k f hk hf]
  · rw [hdocs, hfix k f hk hf]

/-! ## The law -/

/-- Whatever likes, comments and image updates interleave, the author, the caption and the
time of a post stay. And what belongs to one feature, and how its calls end, is what the run
without the steps of the other two gives. -/
theorem features_of_posts_are_independent (docs : Store) (as : List BackendAct)
    (has : ∀ a ∈ as, a.Starts Call.OnSomePost) (t : BackendState)
    (ht : run (step backend) (backendInit docs) as = some t) :
    FixedAs docs t.world.docs ∧
    ∀ F : Feature, ∃ t',
      run (step backend) (backendInit docs) (ownSteps (Call.isOf F) as) = some t' ∧
      AgreeOn F.Owns t.world.docs t'.world.docs ∧
      ∀ i, t'.calls i = (t.calls i).filter fun c => c.1.isOf F := by
  constructor
  · exact (run_keeps (A := Act.Starts Call.OnSomePost) fixedAs_step has
      ⟨onPosts_init _ docs, fun _ _ _ _ => rfl⟩ ht).2
  · intro F
    have hseen : FeatureSeen F ⟨docs, []⟩ ⟨docs, []⟩ := ⟨fun _ _ _ => rfl, fun _ => rfl⟩
    obtain ⟨t', ht', hproj⟩ := projects_run (features_separate F)
      (onPosts_step onPost_of_onSomePost) has trivial hseen ht
    exact ⟨t', ht', hproj.world.docs, hproj.calls⟩

/-- A post of Ann's, with likes and a comment counter. -/
def annsPost : Store := fun ref =>
  if ref = postRef "p" then
    some (mapOf [(KEY_USERKEY, str "ann"), (KEY_NUMOFLIKES, .list []), (KEY_NUMOFCOMMENTS, int 0)])
  else none

/-- Bob likes the post and comments on it while Ann replaces its image. -/
def busyPost : List BackendAct :=
  [.start 0 (.toggleLike "p" "bob"), .start 1 (.updatePostImageUrl "sunset.png" "p"),
   .start 2 (.createNewComment "p" (CommentModel.getMapForNewComment "bob" (some "bob") "wow" 1)),
   .resume 0 online, .resume 1 online, .resume 2 online, .resume 1 online,
   .resume 2 ⟨false, "c"⟩, .resume 0 online, .resume 2 online]

theorem busyPost_starts : ∀ a ∈ busyPost, a.Starts Call.OnSomePost := by
  have hp : IsDocId "p" := by decide
  simp [busyPost, Act.Starts, Call.OnSomePost, Call.OnPost, Call.postKey, hp]

theorem features_of_posts_are_independent_at_a_busy_post :
    ∃ t, run (step backend) (backendInit annsPost) busyPost = some t ∧
      FixedAs annsPost t.world.docs ∧
      ∀ F : Feature, ∃ t',
        run (step backend) (backendInit annsPost) (ownSteps (Call.isOf F) busyPost) = some t' ∧
        AgreeOn F.Owns t.world.docs t'.world.docs ∧
        ∀ i, t'.calls i = (t.calls i).filter fun c => c.1.isOf F :=
  ⟨_, rfl, features_of_posts_are_independent annsPost busyPost busyPost_starts _ rfl⟩

end instagram
