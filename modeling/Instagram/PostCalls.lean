-- The calls on posts, await by await. Each of them reads its post first, and that one
-- snapshot decides what it commits. A comment gets a generated reference, and until the
-- comment is committed nobody else knows that reference.
import Instagram.Backend

namespace instagram

open docs firestore async runs

/-! ## What a snapshot decides -/

/-- The stored list of likes, when it is a list. -/
def likesIn (d : Doc) : Option (List Atom) :=
  match d KEY_NUMOFLIKES with
  | some (.list xs) => some xs
  | _ => none

/-- The stored number of comments, when it is an integer. -/
def commentsIn (d : Doc) : Option Int :=
  match d KEY_NUMOFCOMMENTS with
  | some (.scalar (.int n)) => some n
  | _ => none

theorem likesIn_some {d : Doc} {xs : List Atom} (h : likesIn d = some xs) :
    d KEY_NUMOFLIKES = some (.list xs) := by
  unfold likesIn at h
  split at h
  · rename_i ys hys
    rw [hys, Option.some.inj h]
  · cases h

theorem commentsIn_some {d : Doc} {n : Int} (h : commentsIn d = some n) :
    d KEY_NUMOFCOMMENTS = some (int n) := by
  unfold commentsIn at h
  split at h
  · rename_i m hm
    rw [hm, Option.some.inj h]
    rfl
  · cases h

/-- Takes the like back or gives it, as the snapshot says. -/
def likeWrites (postKey userKey : String) (liked : Bool) : List Write :=
  if liked then [.update (postRef postKey) [(KEY_NUMOFLIKES, .arrayRemove [.str userKey])]]
  else [.update (postRef postKey) [(KEY_NUMOFLIKES, .arrayUnion [.str userKey])]]

theorem toggleLikeOn_some {d : Doc} {xs : List Atom} (h : likesIn d = some xs)
    (postKey userKey : String) :
    toggleLikeOn postKey userKey (some d) =
      .await (.commit (likeWrites postKey userKey (decide (.str userKey ∈ xs)))) .ofExcept := by
  unfold toggleLikeOn likeWrites
  simp only [Option.isSome_some, if_true, dataField, lookup, likesIn_some h, Option.getD_some,
    contains, Prog.ofExcept_ok, Prog.ret_bind]
  by_cases hliked : decide (Atom.str userKey ∈ xs) = true
  · rw [if_pos hliked, if_pos hliked]
    rfl
  · rw [if_neg hliked, if_neg hliked]
    rfl

theorem commentTx_some {d : Doc} {n : Int} (h : commentsIn d = some n) (postKey : String)
    (commentData : Doc) (id : String) :
    (commentTx postKey commentData (some d) (commentsOf postKey ++ [id])).run [] =
      .ok ((), commentWrites postKey commentData id n) := by
  unfold commentTx
  simp [field, commentsIn_some h, int]
  rfl

/-- A counter that is missing or no integer raises, and takes the queued comment with it. -/
theorem commentTx_raises {d : Doc} (h : commentsIn d = none) (postKey : String)
    (commentData : Doc) (ref : Path) :
    ∃ x, (commentTx postKey commentData (some d) ref).run [] = .error x := by
  unfold commentTx
  unfold commentsIn at h
  simp only [Option.isSome_some, if_true, tx_set_bind, tx_lift_bind, field, Option.bind_some]
  cases hd : d KEY_NUMOFCOMMENTS with
  | none => exact ⟨_, rfl⟩
  | some v =>
    rw [hd] at h
    cases v with
    | list xs => exact ⟨_, rfl⟩
    | scalar a =>
      cases a with
      | int n => cases h
      | _ => exact ⟨_, rfl⟩

/-- A transaction that does not raise had nothing to do, or counted on from the snapshot. -/
theorem commentTx_ok {postKey : String} {commentData : Doc} {snapshot : Snapshot} {id : String}
    {ws : List Write}
    (h : (commentTx postKey commentData snapshot (commentsOf postKey ++ [id])).run [] =
      .ok ((), ws)) :
    (snapshot = none ∧ ws = []) ∨
      ∃ d n, snapshot = some d ∧ commentsIn d = some n ∧
        ws = commentWrites postKey commentData id n := by
  cases snapshot with
  | none =>
    cases h
    exact Or.inl ⟨rfl, rfl⟩
  | some d =>
    cases hd : commentsIn d with
    | none =>
      obtain ⟨x, hx⟩ := commentTx_raises hd postKey commentData (commentsOf postKey ++ [id])
      rw [hx] at h
      cases h
    | some n =>
      rw [commentTx_some hd] at h
      cases h
      exact Or.inr ⟨d, n, rfl, hd, rfl⟩

/-- A like, a comment or a new image. -/
def Call.OnPost : Call → Prop
  | .updatePostImageUrl _ _ => True
  | .toggleLike _ _ => True
  | .createNewComment _ _ => True
  | _ => False

/-- Where a call on a post waits, and what it does with the answer. -/
def Call.At : Call → (o : Op) → (Ans o → Fire Unit) → Prop
  | .updatePostImageUrl postImg postKey, .get ref, f =>
    ref = postRef postKey ∧ f = fun a => Prog.ofExcept a >>= updatePostImageUrlOn postImg postKey
  | .updatePostImageUrl postImg postKey, .commit ws, f =>
    ws = [.update (postRef postKey) [(KEY_POSTIMG, .put (str postImg))]] ∧ f = .ofExcept
  | .toggleLike postKey userKey, .get ref, f =>
    ref = postRef postKey ∧ f = fun a => Prog.ofExcept a >>= toggleLikeOn postKey userKey
  | .toggleLike postKey userKey, .commit ws, f =>
    (∃ liked, ws = likeWrites postKey userKey liked) ∧ f = .ofExcept
  | .createNewComment postKey commentData, .get ref, f =>
    ref = postRef postKey ∧ f = fun a => Prog.ofExcept a >>= createNewCommentOn postKey commentData
  | .createNewComment postKey commentData, .newId c, f =>
    c = commentsOf postKey ∧ ∃ snapshot, f = fun id =>
      runTransaction (commentTx postKey commentData snapshot (c ++ [id]))
  | .createNewComment postKey commentData, .commit ws, f =>
    (∃ snapshot id, (commentTx postKey commentData snapshot (commentsOf postKey ++ [id])).run [] =
      .ok ((), ws)) ∧ f = .ofExcept
  | _, _, _ => False

variable {A : (o : Op) → Ans o → Prop}

theorem toggleLike_at (postKey userKey : String) :
    (toggleLike postKey userKey).Awaits A (Call.toggleLike postKey userKey).At := by
  refine get_awaits ⟨rfl, rfl⟩ fun snapshot _ => ?_
  unfold toggleLikeOn
  split
  · refine ofExcept_awaits fun likes _ => ofExcept_awaits fun b _ => ?_
    split
    · exact commit_awaits ⟨⟨true, rfl⟩, rfl⟩
    · exact commit_awaits ⟨⟨false, rfl⟩, rfl⟩
  · trivial

theorem prog_at {c : Call} (hc : c.OnPost) : c.prog.Awaits A c.At := by
  cases c with
  | updatePostImageUrl postImg postKey =>
    refine get_awaits ⟨rfl, rfl⟩ fun snapshot _ => ?_
    unfold updatePostImageUrlOn
    split
    · exact commit_awaits ⟨rfl, rfl⟩
    · trivial
  | toggleLike postKey userKey => exact toggleLike_at postKey userKey
  | createNewComment postKey commentData =>
    refine get_awaits ⟨rfl, rfl⟩ fun snapshot _ => ?_
    refine newDoc_awaits ⟨rfl, snapshot, rfl⟩ fun id _ => ?_
    exact runTransaction_awaits fun ws hws => ⟨⟨snapshot, id, hws⟩, rfl⟩
  | _ => exact hc.elim

theorem mayCommit_of_at {c : Call} {ws : List Write} {f : Except DartError Unit → Fire Unit}
    (h : c.At (.commit ws) f) : c.MayCommit ws := by
  cases c with
  | updatePostImageUrl postImg postKey => exact h.1
  | toggleLike postKey userKey =>
    obtain ⟨⟨liked, rfl⟩, _⟩ := h
    cases liked
    · exact Or.inr rfl
    · exact Or.inl rfl
  | createNewComment postKey commentData =>
    obtain ⟨⟨snapshot, id, hws⟩, _⟩ := h
    rcases commentTx_ok hws with ⟨_, rfl⟩ | ⟨_, n, _, _, rfl⟩
    · exact Or.inl rfl
    · exact Or.inr ⟨id, n, rfl⟩
  | _ => exact h.elim

/-- A commit is the last thing that a call waits for. -/
theorem ends_after_commit {c : Call} {ws : List Write} {f : Except DartError Unit → Fire Unit}
    (h : c.At (.commit ws) f) : f = .ofExcept := by
  cases c with
  | updatePostImageUrl postImg postKey => exact h.2
  | toggleLike postKey userKey => exact h.2
  | createNewComment postKey commentData => exact h.2
  | _ => exact h.elim

/-- Every call is one of `C`, and waits where a call on a post can. -/
abbrev OnPosts (C : Call → Prop) : BackendState → Prop :=
  Guarded (fun _ : Db => True) (fun _ _ => True) C Call.At

theorem onPosts_init (C : Call → Prop) (docs : Store) : OnPosts C (backendInit docs) :=
  guarded_init () trivial

theorem onPosts_step {C : Call → Prop} (hC : ∀ c, C c → c.OnPost) (s : BackendState)
    (a : BackendAct) (t : BackendState) (ha : a.Starts C) (hs : OnPosts C s)
    (h : step backend s a = some t) : OnPosts C t :=
  guarded_step (fun c hc => prog_at (hC c hc)) (fun _ _ _ _ _ _ _ => trivial)
    (fun _ _ _ _ _ _ _ _ _ _ _ => trivial) (fun x => x.elim) s a t ha hs h

/-! ## The references of new comments -/

/-- The batch sets the document. -/
def Sets (ws : List Write) (p : Path) : Prop := ∃ d, .set p d ∈ ws

theorem sets_commentWrites {postKey : String} {commentData : Doc} {id : String} {n : Int}
    {p : Path} :
    Sets (commentWrites postKey commentData id n) p ↔ p = commentsOf postKey ++ [id] := by
  unfold Sets commentWrites
  simp

theorem commentWrites_inj {postKey : String} {commentData commentData' : Doc} {id id' : String}
    {n n' : Int}
    (h : commentWrites postKey commentData id n = commentWrites postKey commentData' id' n') :
    commentData' = commentData ∧ id' = id ∧ n' = n := by
  simp [commentWrites, int] at h
  exact ⟨h.1.2.symm, h.1.1.symm, h.2.1.symm⟩

/-- Only a comment sets a document. -/
theorem sets_of_mayCommit {c : Call} (hc : c.OnPost) {ws : List Write} {p : Path}
    (h : c.MayCommit ws) (hsets : Sets ws p) :
    ∃ postKey commentData id n, c = .createNewComment postKey commentData ∧
      ws = commentWrites postKey commentData id n ∧ p = commentsOf postKey ++ [id] := by
  cases c with
  | updatePostImageUrl postImg postKey =>
    obtain ⟨d, hd⟩ := hsets
    rw [show ws = _ from h] at hd
    simp at hd
  | toggleLike postKey userKey =>
    obtain ⟨d, hd⟩ := hsets
    rcases h with rfl | rfl <;> simp at hd
  | createNewComment postKey commentData =>
    rcases h with rfl | ⟨id, n, rfl⟩
    · obtain ⟨d, hd⟩ := hsets
      cases hd
    · exact ⟨postKey, commentData, id, n, rfl, rfl, sets_commentWrites.mp hsets⟩
  | _ => exact hc.elim

/-- The call waits for the commit of this batch. -/
def Committing (p : Parked Unit Op Ans DartError Unit) (ws : List Write) : Prop :=
  ∃ f, p = .waiting (.commit ws) f

theorem not_committing_ended {r : Except DartError Unit} {ws : List Write} :
    ¬ Committing (.ended r) ws := by
  rintro ⟨f, hf⟩
  cases hf

theorem not_committing_ofExcept {x : Except DartError Unit} {ws : List Write} :
    ¬ Committing ((Prog.ofExcept x : Fire Unit).settle ()).2 ws := by
  cases x <;> exact not_committing_ended

/-- A transaction that has begun waits for its own batch. -/
theorem run_of_committing {body : Tx Unit} {ws : List Write}
    (h : Committing ((runTransaction body).settle ()).2 ws) : body.run [] = .ok ((), ws) := by
  obtain ⟨f, hf⟩ := h
  unfold runTransaction at hf
  split at hf
  · rename_i vs hvs
    cases hf
    exact hvs
  · cases hf

/-- A call that starts waits for its read. -/
theorem not_committing_start {c : Call} (hc : c.OnPost) {ws : List Write} :
    ¬ Committing (c.prog.settle ()).2 ws := by
  rintro ⟨f, hf⟩
  cases c with
  | updatePostImageUrl postImg postKey => cases hf
  | toggleLike postKey userKey => cases hf
  | createNewComment postKey commentData => cases hf
  | _ => exact hc.elim

/-- A comment asks for a reference before it commits. -/
theorem not_committing_after_get {postKey : String} {commentData : Doc} {ref : Path}
    {f : Except DartError Snapshot → Fire Unit} {a : Except DartError Snapshot} {ws : List Write}
    (h : (Call.createNewComment postKey commentData).At (.get ref) f) :
    ¬ Committing ((f a).settle ()).2 ws := by
  obtain ⟨_, rfl⟩ := h
  rintro ⟨g, hg⟩
  cases a <;> cases hg

/-- With its reference, a comment can only set that one document. -/
theorem sets_after_newId {c : Call} {q : Path} {f : String → Fire Unit} {id : String}
    {ws : List Write} {p : Path} (h : c.At (.newId q) f)
    (hw : Committing ((f id).settle ()).2 ws) (hsets : Sets ws p) : p = q ++ [id] := by
  cases c with
  | createNewComment postKey commentData =>
    obtain ⟨rfl, snapshot, rfl⟩ := h
    rcases commentTx_ok (run_of_committing hw) with ⟨_, rfl⟩ | ⟨_, n, _, _, rfl⟩
    · obtain ⟨d, hd⟩ := hsets
      cases hd
    · exact sets_commentWrites.mp hsets
  | _ => exact h.elim

/-- Who waits for a commit is a call of `C` that may commit this. -/
theorem mayCommit_of_committing {C : Call → Prop} {s : BackendState} {i : ℕ} {c : Call}
    {p : Parked Unit Op Ans DartError Unit} {ws : List Write} (hs : OnPosts C s)
    (hi : s.calls i = some (c, p)) (hp : Committing p ws) : C c ∧ c.MayCommit ws := by
  obtain ⟨f, rfl⟩ := hp
  obtain ⟨hc, hat, _⟩ := hs.calls i c _ hi
  exact ⟨hc, mayCommit_of_at hat⟩

theorem onPosts_commits {C : Call → Prop} {s : BackendState} {a : BackendAct} {c : Call}
    {ws : List Write} (hs : OnPosts C s) (h : Commits s a c ws) : C c ∧ c.MayCommit ws := by
  obtain ⟨i, e, k, _, hi, _⟩ := h
  exact mayCommit_of_committing hs hi ⟨k, rfl⟩

/-- A reference that waits to be set was handed out, names no document yet, and waits in one
call only. -/
structure FreshRefs (s : BackendState) : Prop where
  free : ∀ i c p ws ref, s.calls i = some (c, p) → Committing p ws → Sets ws ref →
    ref ∈ s.world.issued ∧ s.world.docs ref = none
  unique : ∀ i j c d p q ws vs ref, s.calls i = some (c, p) → s.calls j = some (d, q) →
    Committing p ws → Committing q vs → Sets ws ref → Sets vs ref → i = j

theorem freshRefs_init (docs : Store) : FreshRefs (backendInit docs) :=
  ⟨fun _ _ _ _ _ hi => (by cases hi), fun _ _ _ _ _ _ _ _ _ hi => (by cases hi)⟩

/-- The new entry of a step that hands out no reference waits to set nothing. -/
theorem freshRefs_update {s : BackendState} {w : Db} {m : Unit} {tr : List (Event Op Ans Call)}
    {i : ℕ} {c : Call} {p : Parked Unit Op Ans DartError Unit} (hs : FreshRefs s)
    (hissued : ∀ ref ∈ s.world.issued, ref ∈ w.issued)
    (hdocs : ∀ j d q ws ref, j ≠ i → s.calls j = some (d, q) → Committing q ws → Sets ws ref →
      s.world.docs ref = none → w.docs ref = none)
    (hnew : ∀ ws ref, Committing p ws → Sets ws ref →
      (ref ∈ w.issued ∧ w.docs ref = none) ∧ ref ∉ s.world.issued) :
    FreshRefs ⟨m, w, Function.update s.calls i (some (c, p)), tr⟩ := by
  constructor
  · intro j d q ws ref hj hq hsets
    rcases update_eq_some hj with ⟨rfl, he⟩ | ⟨hne, hold⟩
    · cases he
      exact (hnew ws ref hq hsets).1
    · obtain ⟨hin, hnone⟩ := hs.free j d q ws ref hold hq hsets
      exact ⟨hissued ref hin, hdocs j d q ws ref hne hold hq hsets hnone⟩
  · intro j k d e q r ws vs ref hj hk hq hr hws hvs
    rcases update_eq_some hj with ⟨rfl, he⟩ | ⟨hne, hold⟩
    · rcases update_eq_some hk with ⟨rfl, _⟩ | ⟨_, hold'⟩
      · rfl
      · cases he
        exact absurd (hs.free k e r vs ref hold' hr hvs).1 (hnew ws ref hq hws).2
    · rcases update_eq_some hk with ⟨rfl, he⟩ | ⟨_, hold'⟩
      · cases he
        exact absurd (hs.free j d q ws ref hold hq hws).1 (hnew vs ref hr hvs).2
      · exact hs.unique j k d e q r ws vs ref hold hold' hq hr hws hvs

/-- The same for a step that changes nothing in the database, and whose new entry sets nothing. -/
theorem freshRefs_idle {s : BackendState} {m : Unit} {tr : List (Event Op Ans Call)} {i : ℕ}
    {c : Call} {p : Parked Unit Op Ans DartError Unit} (hs : FreshRefs s)
    (hnew : ∀ ws ref, Committing p ws → ¬ Sets ws ref) :
    FreshRefs ⟨m, s.world, Function.update s.calls i (some (c, p)), tr⟩ :=
  freshRefs_update hs (fun _ hr => hr) (fun _ _ _ _ _ _ _ _ _ hnone => hnone)
    fun ws ref hw hsets => absurd hsets (hnew ws ref hw)

theorem freshRefs_step {C : Call → Prop} (hC : ∀ c, C c → c.OnPost) {s t : BackendState}
    {a : BackendAct} (hs : OnPosts C s) (ha : a.Starts C) (hf : FreshRefs s)
    (h : step backend s a = some t) : FreshRefs t := by
  have ht := onPosts_step hC s a t ha hs h
  cases a with
  | start i c =>
    obtain ⟨_, rfl⟩ := step_start h
    exact freshRefs_idle hf fun ws ref hw => absurd hw (not_committing_start (hC c ha))
  | resume i e =>
    obtain ⟨c, o, k, w, a, hi, hw, rfl⟩ := step_resume h
    obtain ⟨hc, hat, _⟩ := hs.calls i c _ hi
    cases o with
    | get ref =>
      obtain ⟨rfl, _⟩ := handle_get hw
      refine freshRefs_idle hf fun ws ref hcommit hsets => ?_
      -- only a comment sets a document, and it does not commit yet
      obtain ⟨hc', hmay⟩ := mayCommit_of_committing ht (Function.update_self _ _ _) hcommit
      obtain ⟨_, _, _, _, rfl, _, _⟩ := sets_of_mayCommit (hC c hc') hmay hsets
      exact absurd hcommit (not_committing_after_get hat)
    | newId q =>
      obtain ⟨hdocs, hnone⟩ := handle_newId hw
      obtain ⟨hfresh, hissued⟩ := handle_newId_issued hw
      refine freshRefs_update hf (fun ref hr => by rw [hissued]; exact List.mem_append_left _ hr)
        (fun _ _ _ _ _ _ _ _ _ hn => by rw [hdocs]; exact hn) fun ws ref hcommit hsets => ?_
      obtain rfl := sets_after_newId hat hcommit hsets
      exact ⟨⟨by rw [hissued]; simp, by rw [hdocs]; exact hnone⟩, hfresh⟩
    | commit ws =>
      obtain rfl := ends_after_commit hat
      rcases handle_commit hw with ⟨_, hissued, _, hcommit⟩ | ⟨_, rfl, _⟩
      · refine freshRefs_update hf (fun ref hr => by rw [hissued]; exact hr) ?_
          fun vs ref hv _ => absurd hv not_committing_ofExcept
        intro j d q vs ref hne hj hq hsets hnone
        -- another call's reference is not among those that this batch sets
        refine commit_none hcommit hnone fun d' hd' => ?_
        exact hne (hf.unique j i d c q _ vs ws ref hj hi hq ⟨_, rfl⟩ hsets ⟨d', hd'⟩)
      · exact freshRefs_idle hf fun vs ref hv => absurd hv not_committing_ofExcept
  | poke x => exact x.elim

/-! ## A committed comment -/

/-- The post after a comment: its counter and its preview are new. -/
def commented (d : Doc) (commentData : Doc) (n : Int) : Doc :=
  updated d [(KEY_NUMOFCOMMENTS, .put (int (n + 1))),
    (KEY_LASTCOMMENT, .put (lookup commentData KEY_COMMENT)),
    (KEY_LASTCOMMENTTIME, .put (lookup commentData KEY_COMMENTTIME)),
    (KEY_LASTCOMMENTOR, .put (lookup commentData KEY_USERNAME))]

theorem commentsIn_commented (d commentData : Doc) (n : Int) :
    commentsIn (commented d commentData n) = some (n + 1) := rfl

/-- The two documents that a comment leaves. -/
theorem commit_commentWrites {docs docs' : Store} {postKey : String} {commentData : Doc}
    {id : String} {n : Int}
    (h : commit docs (commentWrites postKey commentData id n) = some docs') :
    ∃ d, docs (postRef postKey) = some d ∧
      docs' = Function.update (Function.update docs (commentsOf postKey ++ [id])
        (some commentData)) (postRef postKey) (some (commented d commentData n)) := by
  rw [commentWrites, commit_cons] at h
  obtain ⟨u, hu, hrest⟩ := Option.bind_eq_some_iff.mp h
  cases hu
  obtain ⟨d, hd, rfl⟩ := commit_update_some hrest
  rw [Function.update_of_ne (commentRef_ne_postRef postKey id).symm] at hd
  exact ⟨d, hd, rfl⟩

/-- A comment that is committed was not there before. -/
theorem comment_is_new {s : BackendState} (hf : FreshRefs s) {a : BackendAct}
    {postKey : String} {commentData : Doc} {id : String} {n : Int} {c : Call}
    (h : Commits s a c (commentWrites postKey commentData id n)) :
    s.world.docs (commentsOf postKey ++ [id]) = none := by
  obtain ⟨i, e, k, _, hi, _⟩ := h
  exact (hf.free i c _ _ _ hi ⟨k, rfl⟩ (sets_commentWrites.mpr rfl)).2

end instagram
