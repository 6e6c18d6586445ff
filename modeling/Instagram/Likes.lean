-- Likes. The branch of a like is chosen from a snapshot that may be old when the update
-- lands, but the update is an array operation on one user key. So the likes of one user
-- depend on the steps of that user only.
import Instagram.PostCalls
import Instagram.Projection

namespace instagram

open docs firestore async runs

/-! ## The list of likes -/

/-- The stored list of likes of a post, when there is one. -/
def likesOf (docs : Store) (postKey : String) : Option (List Atom) :=
  (docs (postRef postKey)).bind likesIn

/-- The user is on the list of likes. -/
def liked (docs : Store) (postKey userKey : String) : Bool :=
  decide (.str userKey ∈ (likesOf docs postKey).getD [])

/-- What one like does to the list. `back` says that it is taken back. -/
def toggled (xs : List Atom) (userKey : String) (back : Bool) : List Atom :=
  if back then difference xs [.str userKey] else union xs [.str userKey]

theorem nodup_toggled {xs : List Atom} (h : xs.Nodup) (userKey : String) (back : Bool) :
    (toggled xs userKey back).Nodup := by
  cases back
  · exact nodup_union_singleton h _
  · exact nodup_difference h _

/-- A like moves its own user, on or off the list, and nobody else. -/
theorem mem_toggled {xs : List Atom} {u v : String} {back : Bool} :
    .str u ∈ toggled xs v back ↔ if u = v then back = false else .str u ∈ xs := by
  unfold toggled
  cases back
  · simp only [Bool.false_eq_true, if_false, mem_union_singleton, Atom.str.injEq]
    by_cases hu : u = v
    · simp [hu]
    · simp [hu]
  · simp only [if_true, mem_difference_singleton, ne_eq, Atom.str.injEq]
    by_cases hu : u = v
    · simp [hu]
    · simp [hu]

theorem likesOf_some {docs : Store} {k : String} {xs : List Atom} (h : likesOf docs k = some xs) :
    ∃ d, docs (postRef k) = some d ∧ likesIn d = some xs :=
  Option.bind_eq_some_iff.mp h

theorem likeWrites_eq (k v : String) (back : Bool) :
    likeWrites k v back = [.update (postRef k)
      [(KEY_NUMOFLIKES, if back then .arrayRemove [.str v] else .arrayUnion [.str v])]] := by
  unfold likeWrites
  cases back <;> rfl

/-- On a post with a list of likes, a like always lands. -/
theorem commit_likeWrites {docs : Store} {k : String} {xs : List Atom}
    (h : likesOf docs k = some xs) (v : String) (back : Bool) :
    ∃ docs', commit docs (likeWrites k v back) = some docs' ∧
      likesOf docs' k = some (toggled xs v back) := by
  obtain ⟨d, hd, hxs⟩ := likesOf_some h
  refine ⟨_, by rw [likeWrites_eq]; exact commit_update _ hd, ?_⟩
  unfold likesOf likesIn toggled
  rw [Function.update_self, Option.bind_some, updated_cons, updated_nil, Function.update_self,
    likesIn_some hxs]
  cases back <;> rfl

theorem likesOf_commit {docs docs' : Store} {k v : String} {back : Bool} {xs : List Atom}
    (hxs : likesOf docs k = some xs) (h : commit docs (likeWrites k v back) = some docs') :
    likesOf docs' k = some (toggled xs v back) := by
  obtain ⟨docs'', hc, hlikes⟩ := commit_likeWrites hxs v back
  obtain rfl : docs'' = docs' := Option.some.inj (hc.symm.trans h)
  exact hlikes

theorem liked_of_likesOf {docs : Store} {k : String} {xs : List Atom}
    (h : likesOf docs k = some xs) (u : String) : liked docs k u = decide (.str u ∈ xs) := by
  unfold liked
  rw [h, Option.getD_some]

theorem liked_commit {docs docs' : Store} {k u v : String} {back : Bool}
    (hsome : (likesOf docs k).isSome) (h : commit docs (likeWrites k v back) = some docs') :
    liked docs' k u = if u = v then !back else liked docs k u := by
  obtain ⟨xs, hxs⟩ := Option.isSome_iff_exists.mp hsome
  rw [liked_of_likesOf (likesOf_commit hxs h), liked_of_likesOf hxs, Bool.eq_iff_iff,
    decide_eq_true_eq, mem_toggled]
  split_ifs <;> simp

/-- The branch of a like is whether its user is on the list when it reads. -/
theorem toggleLikeOn_liked {docs : Store} {k : String} (hsome : (likesOf docs k).isSome)
    (u : String) :
    toggleLikeOn k u (docs (postRef k)) =
      .await (.commit (likeWrites k u (liked docs k u))) .ofExcept := by
  obtain ⟨xs, hxs⟩ := Option.isSome_iff_exists.mp hsome
  obtain ⟨d, hd, hlist⟩ := likesOf_some hxs
  rw [hd, toggleLikeOn_some hlist, liked_of_likesOf hxs]

/-! ## What every run keeps -/

/-- A like of the post, by anyone. -/
def Call.Likes (k : String) : Call → Prop
  | .toggleLike postKey _ => postKey = k
  | _ => False

theorem onPost_of_likes {k : String} (c : Call) (hc : c.Likes k) : c.OnPost := by
  cases c with
  | toggleLike postKey userKey => trivial
  | _ => exact hc.elim

/-- The post has a list of likes, and nobody is on it twice. -/
def LikesListed (k : String) (docs : Store) : Prop := ∃ xs, likesOf docs k = some xs ∧ xs.Nodup

theorem LikesListed.isSome {k : String} {docs : Store} (h : LikesListed k docs) :
    (likesOf docs k).isSome := by
  obtain ⟨xs, hxs, _⟩ := h
  rw [hxs]
  rfl

theorem likesListed_commit {k v : String} {back : Bool} {docs docs' : Store}
    (hs : LikesListed k docs) (h : commit docs (likeWrites k v back) = some docs') :
    LikesListed k docs' := by
  obtain ⟨xs, hxs, hnodup⟩ := hs
  exact ⟨_, likesOf_commit hxs h, nodup_toggled hnodup v back⟩

/-- The post keeps its list, and every call is a like of it that waits where a like can. -/
abbrev LikesGuarded (k : String) : BackendState → Prop :=
  Guarded (fun w : Db => LikesListed k w.docs) (fun _ _ => True) (Call.Likes k) Call.At

/-- A like waits for the read of its post, or for the commit of one of its two branches. -/
theorem like_waits {k : String} {c : Call} {o : Op} {f : Ans o → Fire Unit} (hc : c.Likes k)
    (h : c.At o f) : ∃ v, c = .toggleLike k v ∧
      (o = .get (postRef k) ∨ ∃ back, o = .commit (likeWrites k v back)) := by
  cases c with
  | toggleLike postKey v =>
    obtain rfl : postKey = k := hc
    refine ⟨v, rfl, ?_⟩
    cases o with
    | get ref => exact Or.inl (by rw [h.1])
    | commit ws =>
      obtain ⟨back, rfl⟩ := h.1
      exact Or.inr ⟨back, rfl⟩
    | newId q => exact h.elim
  | _ => exact hc.elim

/-- What the likes of a post keep, they keep in any order. -/
theorem likes_guarded_step {k : String} {I : Store → Prop}
    (hI : ∀ v back docs docs', I docs → commit docs (likeWrites k v back) = some docs' → I docs')
    (s : BackendState) (a : BackendAct) (t : BackendState) (ha : a.Starts (Call.Likes k))
    (hs : Guarded (fun w : Db => I w.docs) (fun _ _ => True) (Call.Likes k) Call.At s)
    (h : step backend s a = some t) :
    Guarded (fun w : Db => I w.docs) (fun _ _ => True) (Call.Likes k) Call.At t := by
  refine guarded_step (fun c hc => prog_at (onPost_of_likes c hc))
    (fun _ _ _ _ _ _ _ => trivial) ?_ (fun x => x.elim) s a t ha hs h
  intro c o f e w w' a hc hat hw hhandle
  refine handle_keeps (I := I) (fun ws docs' ho hcommit => ?_) hw hhandle
  obtain ⟨v, _, rfl | ⟨back, rfl⟩⟩ := like_waits hc hat
  · cases ho
  · cases ho
    exact hI v back _ _ hw hcommit

theorem likesGuarded_step (k : String) (s : BackendState) (a : BackendAct) (t : BackendState)
    (ha : a.Starts (Call.Likes k)) (hs : LikesGuarded k s) (h : step backend s a = some t) :
    LikesGuarded k t :=
  likes_guarded_step (fun _ _ _ _ hs h => likesListed_commit hs h) s a t ha hs h

/-! ## One user without the others -/

/-- A like by the user. -/
def Call.likedBy (u : String) : Call → Bool
  | .toggleLike _ userKey => decide (userKey = u)
  | _ => false

/-- Both posts have lists of likes, and the user is on both or on neither. -/
structure LikeSeen (k u : String) (w w' : Db) : Prop where
  left : (likesOf w.docs k).isSome
  right : (likesOf w'.docs k).isSome
  liked : liked w.docs k u = liked w'.docs k u

theorem isSome_likes_commit {k v : String} {back : Bool} {docs docs' : Store}
    (hs : (likesOf docs k).isSome) (h : commit docs (likeWrites k v back) = some docs') :
    (likesOf docs' k).isSome := by
  obtain ⟨xs, hxs⟩ := Option.isSome_iff_exists.mp hs
  rw [likesOf_commit hxs h]
  rfl

theorem isSome_commit_likes {k : String} {docs : Store} (hs : (likesOf docs k).isSome)
    (v : String) (back : Bool) : (commit docs (likeWrites k v back)).isSome := by
  obtain ⟨xs, hxs⟩ := Option.isSome_iff_exists.mp hs
  obtain ⟨docs', hc, _⟩ := commit_likeWrites hxs v back
  rw [hc]
  rfl

theorem isSome_doc_of_likes {k : String} {docs : Store} (hs : (likesOf docs k).isSome) :
    (docs (postRef k)).isSome := by
  obtain ⟨xs, hxs⟩ := Option.isSome_iff_exists.mp hs
  obtain ⟨d, hd, _⟩ := likesOf_some hxs
  rw [hd]
  rfl

/-- A read shows the user the same branch, with and without the others. -/
theorem likeSeen_get {k u : String} {c : Call} {f : Except DartError Snapshot → Fire Unit}
    {e : Env} {w w' v : Db} {a : Except DartError Snapshot}
    (hc : c = .toggleLike k u) (hat : c.At (.get (postRef k)) f) (hV : LikeSeen k u w v)
    (h : handle (.get (postRef k)) e w = some (w', a)) :
    ∃ v' a', handle (.get (postRef k)) e v = some (v', a') ∧ LikeSeen k u w' v' ∧ f a' = f a := by
  subst hc
  obtain ⟨_, rfl⟩ := hat
  have hdoc : (w.docs (postRef k)).isSome = (v.docs (postRef k)).isSome := by
    rw [isSome_doc_of_likes hV.left, isSome_doc_of_likes hV.right]
  obtain ⟨a', ha', hsame⟩ := handle_get_alike hdoc h
  obtain ⟨rfl, _⟩ := handle_get h
  refine ⟨v, a', ha', hV, ?_⟩
  rcases hsame with rfl | ⟨rfl, rfl⟩
  · rfl
  · show toggleLikeOn k u _ = toggleLikeOn k u _
    rw [toggleLikeOn_liked hV.left, toggleLikeOn_liked hV.right, hV.liked]

/-- A like of the user lands in both. -/
theorem likeSeen_commit {k u v : String} {back : Bool} {e : Env} {w w' x : Db}
    {a : Except DartError Unit} (hV : LikeSeen k u w x)
    (h : handle (.commit (likeWrites k v back)) e w = some (w', a)) :
    ∃ x', handle (.commit (likeWrites k v back)) e x = some (x', a) ∧ LikeSeen k u w' x' := by
  have hdocs : (commit w.docs (likeWrites k v back)).isSome =
      (commit x.docs (likeWrites k v back)).isSome := by
    rw [isSome_commit_likes hV.left, isSome_commit_likes hV.right]
  obtain ⟨x', hx', ⟨rfl, rfl⟩ | ⟨hw, hx, _, _⟩⟩ := handle_commit_alike hdocs h
  · exact ⟨x', hx', hV⟩
  · refine ⟨x', hx', isSome_likes_commit hV.left hw, isSome_likes_commit hV.right hx, ?_⟩
    rw [liked_commit hV.left hw, liked_commit hV.right hx, hV.liked]

/-- A like of somebody else is not seen. -/
theorem likeSeen_commit_other {k u v : String} {back : Bool} {e : Env} {w w' x : Db}
    {a : Except DartError Unit} (hne : u ≠ v) (hV : LikeSeen k u w x)
    (h : handle (.commit (likeWrites k v back)) e w = some (w', a)) : LikeSeen k u w' x := by
  rcases handle_commit h with ⟨_, _, _, hcommit⟩ | ⟨_, rfl, _⟩
  · refine ⟨isSome_likes_commit hV.left hcommit, hV.right, ?_⟩
    rw [liked_commit hV.left hcommit, if_neg hne, hV.liked]
  · exact hV

/-- The likes of one user are separate from those of all others. -/
theorem likes_separate (k u : String) :
    Separate backend (Call.likedBy u) (LikeSeen k u) (fun w : Db => LikesListed k w.docs)
      (Call.Likes k) Call.At where
  own := by
    intro c o f e w x w' a hown hc hat _ hV hhandle
    obtain ⟨v, rfl, ho⟩ := like_waits hc hat
    obtain rfl : v = u := by simpa [Call.likedBy] using hown
    rcases ho with rfl | ⟨back, rfl⟩
    · exact likeSeen_get rfl hat hV hhandle
    · obtain ⟨x', hx', hV'⟩ := likeSeen_commit hV hhandle
      exact ⟨x', a, hx', hV', rfl⟩
  other := by
    intro c o f e w x w' a hother hc hat _ hV hhandle
    obtain ⟨v, rfl, rfl | ⟨back, rfl⟩⟩ := like_waits hc hat
    · rw [(handle_get hhandle).1]
      exact hV
    · have hne : u ≠ v := by
        rintro rfl
        exact hother (by simp [Call.likedBy])
      exact likeSeen_commit_other hne hV hhandle
  poke := fun x => x.elim

/-! ## Calls that do not overlap -/

/-- At most one call of the user is under way. A call is under way until its update has
landed or failed. -/
def NoOverlap (u : String) (s : BackendState) : Prop :=
  ∀ i j c d o q f g, s.calls i = some (c, .waiting o f) → s.calls j = some (d, .waiting q g) →
    c.likedBy u = true → d.likedBy u = true → i = j

/-- The likes that the user has committed. -/
def togglesOf (u : String) (h : List (Call × List Write)) : ℕ := h.countP fun e => e.1.likedBy u

/-- Each committed like has flipped the user's membership, and one that waits for its commit
is about to. -/
structure Flips (docs : Store) (k u : String) (s : BackendState) : Prop where
  member : liked s.world.docs k u = Bool.not^[togglesOf u (history s)] (liked docs k u)
  pending : ∀ i p back, s.calls i = some (.toggleLike k u, p) →
    Committing p (likeWrites k u back) → back = liked s.world.docs k u

theorem likeWrites_inj {k u : String} {b b' : Bool} (h : likeWrites k u b = likeWrites k u b') :
    b = b' := by
  rw [likeWrites_eq, likeWrites_eq] at h
  cases b <;> cases b' <;> simp_all

theorem togglesOf_snoc (u : String) (h : List (Call × List Write)) (c : Call) (ws : List Write) :
    togglesOf u (h ++ [(c, ws)]) = togglesOf u h + if c.likedBy u then 1 else 0 := by
  unfold togglesOf
  simp [List.countP_append, List.countP_cons]

/-- A step that leaves the list alone, and after which the new entry is about to flip. -/
theorem flips_update {docs : Store} {k u : String} {s : BackendState} {w : Db} {m : Unit}
    {tr : List (Event Op Ans Call)} {i : ℕ} {c : Call} {p : Parked Unit Op Ans DartError Unit}
    (hf : Flips docs k u s) (hdocs : w.docs = s.world.docs)
    (htr : tr.filterMap committed = history s)
    (hnew : ∀ back, c = .toggleLike k u → Committing p (likeWrites k u back) →
      back = liked s.world.docs k u) :
    Flips docs k u ⟨m, w, Function.update s.calls i (some (c, p)), tr⟩ := by
  refine ⟨?_, ?_⟩
  · show liked w.docs k u = Bool.not^[togglesOf u (tr.filterMap committed)] _
    rw [hdocs, htr]
    exact hf.member
  · intro j q back hj hq
    show back = liked w.docs k u
    rw [hdocs]
    rcases update_eq_some hj with ⟨rfl, he⟩ | ⟨_, hold⟩
    · cases he
      exact hnew back rfl hq
    · exact hf.pending j q back hold hq

theorem flips_resume_get {docs : Store} {k u : String} {s : BackendState} {i : ℕ} {v : String}
    {f : Except DartError Snapshot → Fire Unit} {e : Env} {w : Db}
    {a : Except DartError Snapshot} (hs : LikesListed k s.world.docs) (hf : Flips docs k u s)
    (hat : (Call.toggleLike k v).At (.get (postRef k)) f)
    (hw : handle (.get (postRef k)) e s.world = some (w, a)) :
    Flips docs k u ⟨((f a).settle s.mem).1, w,
      Function.update s.calls i (some (.toggleLike k v, ((f a).settle s.mem).2)),
      s.trace ++ [⟨i, .toggleLike k v, .get (postRef k), a⟩]⟩ := by
  obtain ⟨rfl, hread⟩ := handle_get hw
  obtain ⟨_, rfl⟩ := hat
  refine flips_update hf rfl (by simp [history, committed]) fun back he hcommit => ?_
  cases he
  cases a with
  | error x => exact absurd hcommit (not_committing_ofExcept (x := .error x))
  | ok snapshot =>
    obtain rfl := hread snapshot rfl
    -- the branch is taken from the list as it stands now
    have hwait : Committing ((toggleLikeOn k u (s.world.docs (postRef k))).settle ()).2
        (likeWrites k u back) := hcommit
    rw [toggleLikeOn_liked hs.isSome] at hwait
    obtain ⟨g, hg⟩ := hwait
    injection hg with ho _
    injection ho with hws
    exact (likeWrites_inj hws).symm

theorem flips_resume_commit {docs : Store} {k u : String} {s : BackendState} {i : ℕ} {v : String}
    {back : Bool} {e : Env} {w : Db} {a : Except DartError Unit}
    (hs : LikesListed k s.world.docs) (hf : Flips docs k u s) (halone : NoOverlap u s)
    (hi : s.calls i = some (.toggleLike k v, .waiting (.commit (likeWrites k v back)) .ofExcept))
    (hw : handle (.commit (likeWrites k v back)) e s.world = some (w, a)) :
    Flips docs k u ⟨((Prog.ofExcept a : Fire Unit).settle s.mem).1, w,
      Function.update s.calls i
        (some (.toggleLike k v, ((Prog.ofExcept a : Fire Unit).settle s.mem).2)),
      s.trace ++ [⟨i, .toggleLike k v, .commit (likeWrites k v back), a⟩]⟩ := by
  rcases handle_commit hw with ⟨rfl, _, _, hcommit⟩ | ⟨⟨x, rfl⟩, rfl, _⟩
  · have hliked := liked_commit (u := u) hs.isSome hcommit
    have hmember := hf.member
    by_cases hv : v = u
    · subst hv
      have hback := hf.pending i _ back hi ⟨_, rfl⟩
      constructor
      · rw [history_commit, togglesOf_snoc, if_pos (by simp [Call.likedBy]),
          Function.iterate_succ_apply', ← hmember, hliked, if_pos rfl, hback]
      · intro j q b hj hq
        rcases update_eq_some hj with ⟨rfl, he⟩ | ⟨hne, hold⟩
        · cases he
          exact absurd hq not_committing_ofExcept
        · -- no other call of the user is under way
          obtain ⟨g, rfl⟩ := hq
          have hown : (Call.toggleLike k v).likedBy v = true := by simp [Call.likedBy]
          exact absurd (halone j i _ _ _ _ _ _ hold hi hown hown) hne
    · rw [if_neg (Ne.symm hv)] at hliked
      constructor
      · rw [history_commit, togglesOf_snoc, if_neg (by simp [Call.likedBy, hv]), Nat.add_zero,
          ← hmember, hliked]
      · intro j q b hj hq
        show b = liked w.docs k u
        rw [hliked]
        rcases update_eq_some hj with ⟨rfl, he⟩ | ⟨_, hold⟩
        · cases he
          exact absurd rfl hv
        · exact hf.pending j q b hold hq
  · refine flips_update hf rfl (by simp [history, committed]) fun b _ hb => ?_
    exact absurd hb not_committing_ofExcept

theorem flips_step {docs : Store} {k u : String} (s : BackendState) (a : BackendAct)
    (t : BackendState) (ha : a.Starts (Call.Likes k)) (halone : NoOverlap u s)
    (hs : LikesGuarded k s ∧ Flips docs k u s) (h : step backend s a = some t) :
    LikesGuarded k t ∧ Flips docs k u t := by
  obtain ⟨hguard, hf⟩ := hs
  refine ⟨likesGuarded_step k s a t ha hguard h, ?_⟩
  cases a with
  | start i c =>
    obtain ⟨_, rfl⟩ := step_start h
    refine flips_update hf rfl rfl fun back _ hb => ?_
    exact absurd hb (not_committing_start (onPost_of_likes c ha))
  | resume i e =>
    obtain ⟨c, o, f, w, a, hi, hw, rfl⟩ := step_resume h
    obtain ⟨hc, hat, _⟩ := hguard.calls i c _ hi
    obtain ⟨v, rfl, rfl | ⟨back, rfl⟩⟩ := like_waits hc hat
    · exact flips_resume_get hguard.world hf hat hw
    · obtain rfl := ends_after_commit hat
      exact flips_resume_commit hguard.world hf halone hi hw
  | poke x => exact x.elim

/-! ## The law -/

/-- What user `u` did and got is the same in both states: whether the user is on the list,
where each call of the user stands, and which branches the calls have asked for. -/
structure SameLikes (k u : String) (t t' : BackendState) : Prop where
  liked : liked t.world.docs k u = liked t'.world.docs k u
  calls : ∀ i, t'.calls i = (t.calls i).filter fun c => c.1.likedBy u
  asked : t'.trace.map Event.asked = (t.trace.filter fun ev => ev.call.likedBy u).map Event.asked

/-- Whatever likes of a post interleave, nobody is on the list twice. Each user's calls and
place on the list are what the user's own steps alone give. And when the calls of a user do not
overlap, each committed one flips the user's place on the list. -/
theorem likes_of_different_users_do_not_interfere (k : String) (docs : Store) (xs : List Atom)
    (hlist : likesOf docs k = some xs) (hnodup : xs.Nodup) (as : List BackendAct)
    (has : ∀ a ∈ as, a.Starts (Call.Likes k)) :
    AllStates (step backend) (fun t => LikesListed k t.world.docs) (backendInit docs) as ∧
    ∀ t, run (step backend) (backendInit docs) as = some t → ∀ u,
      (∃ t', run (step backend) (backendInit docs) (ownSteps (Call.likedBy u) as) = some t' ∧
        SameLikes k u t t') ∧
      (AllStates (step backend) (NoOverlap u) (backendInit docs) as →
        liked t.world.docs k u = Bool.not^[togglesOf u (history t)] (liked docs k u)) := by
  have h0 : LikesListed k docs := ⟨xs, hlist, hnodup⟩
  have hinit : LikesGuarded k (backendInit docs) := guarded_init () h0
  have hguard : AllStates (step backend) (LikesGuarded k) (backendInit docs) as :=
    allStates_of_keeps (likesGuarded_step k) has hinit
  refine ⟨fun pre hpre t ht => (hguard pre hpre t ht).world, fun t ht u => ⟨?_, fun halone => ?_⟩⟩
  · have hseen : LikeSeen k u ⟨docs, []⟩ ⟨docs, []⟩ := ⟨h0.isSome, h0.isSome, rfl⟩
    obtain ⟨t', ht', hproj⟩ :=
      projects_run (likes_separate k u) (likesGuarded_step k) has h0 hseen ht
    exact ⟨t', ht', hproj.world.liked, hproj.calls, hproj.trace⟩
  · have hflips : Flips docs k u (backendInit docs) := ⟨rfl, fun _ _ _ hi => by cases hi⟩
    have hrun := allStates_while flips_step has halone ⟨hinit, hflips⟩
    exact (hrun as (List.prefix_refl _) t ht).2.member

/-- A post that Bob likes. -/
def likedPost : Store := fun ref =>
  if ref = postRef "p" then some (mapOf [(KEY_NUMOFLIKES, .list [.str "bob"])]) else none

/-- Ann likes the post twice at once, and Bob takes his like back in between. -/
def crossedLikes : List BackendAct :=
  [.start 0 (.toggleLike "p" "ann"), .start 1 (.toggleLike "p" "bob"),
   .start 2 (.toggleLike "p" "ann"), .resume 0 online, .resume 1 online, .resume 2 online,
   .resume 2 online, .resume 1 online, .resume 0 online]

theorem crossedLikes_starts : ∀ a ∈ crossedLikes, a.Starts (Call.Likes "p") := by
  simp [crossedLikes, Act.Starts, Call.Likes]

theorem likes_of_different_users_do_not_interfere_at_crossed_likes :
    (likesOf likedPost "p" = some [.str "bob"] ∧ [Atom.str "bob"].Nodup ∧
      ∀ a ∈ crossedLikes, a.Starts (Call.Likes "p")) ∧
      AllStates (step backend) (fun t => LikesListed "p" t.world.docs) (backendInit likedPost)
        crossedLikes :=
  ⟨⟨rfl, by decide, crossedLikes_starts⟩,
    (likes_of_different_users_do_not_interfere "p" likedPost [.str "bob"] rfl (by decide)
      crossedLikes crossedLikes_starts).1⟩

end instagram
