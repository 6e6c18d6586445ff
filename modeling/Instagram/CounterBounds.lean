-- Bounds on the counters. A follow or a comment writes a counter that it read before its
-- transaction, so a race can lose what was counted in between. It can never invent: what a
-- call reads was stored before, and was within the bounds that held then.
import Instagram.Knowledge
import Instagram.Footprint
import Instagram.Follow
import Instagram.CommentCount
import Instagram.Comments

namespace instagram

open docs firestore async runs

/-! ## Followers -/

/-- The follows and the unfollows of a user that were committed so far. -/
def followCounts (u : String) (h : List (Call × List Write)) : ℕ × ℕ :=
  (followsOn u h, unfollowsOn u h)

/-- At least `lo` less the unfollows, at most `hi` and the follows. -/
def InBounds (lo hi : Int) (g : ℕ × ℕ) (n : Int) : Prop := lo - g.2 ≤ n ∧ n ≤ hi + g.1

theorem InBounds.mono {lo hi n : Int} {g g' : ℕ × ℕ} (h : InBounds lo hi g n) (hle : g ≤ g') :
    InBounds lo hi g' n := by
  obtain ⟨h₁, h₂⟩ := Prod.le_def.mp hle
  obtain ⟨hlo, hhi⟩ := h
  constructor <;> omega

theorem followCounts_mono (u : String) (h l : List (Call × List Write)) :
    followCounts u h ≤ followCounts u (h ++ l) := by
  unfold followCounts followsOn unfollowsOn
  rw [List.countP_append, List.countP_append]
  exact Prod.mk_le_mk.mpr ⟨by omega, by omega⟩

/-- A user's document that is read has a counter in bounds. -/
def FollowersRead (u : String) (lo hi : Int) (g : ℕ × ℕ) : (o : Op) → Ans o → Prop
  | .get ref, a => ∀ d n, ref = userRef u → a = .ok (some d) → d KEY_FOLLOWERS = some (int n) →
    InBounds lo hi g n
  | _, _ => True

/-- A transaction on the counter goes on from a number in bounds. -/
def FollowersPut (u : String) (lo hi : Int) (c : Call) (g : ℕ × ℕ) (o : Op)
    (_ : Ans o → Fire Unit) : Prop :=
  ∀ ws n, o = .commit ws → FollowTx c u n ws → InBounds lo hi g n

theorem asInt_some {v : Value} {n : Int} (h : asInt v = .ok (some n)) : v = int n := by
  unfold asInt at h
  split at h
  · cases h
    rfl
  · cases h
  · cases h

theorem field_ok {s : Snapshot} {k : String} {v : Value} (h : field s k = .ok v) :
    ∃ d, s = some d ∧ d k = some v := by
  unfold field at h
  split at h
  · rename_i v' hv
    cases h
    exact Option.bind_eq_some_iff.mp hv
  · cases h

variable {u : String} {lo hi : Int}

theorem changeFollow_knows {c : Call} {listOp : List Atom → FieldOp Atom} {delta : Int}
    {my other : String}
    (htx : ∀ n m, FollowTx c u m (followWrites listOp delta my other n) → other = u ∧ m = n)
    (g : ℕ × ℕ) :
    (changeFollow listOp delta my other).Knows (FollowersRead u lo hi) (FollowersPut u lo hi c)
      g := by
  unfold changeFollow
  have hget : ∀ g ref (k : Ans (.get ref) → Fire Unit), FollowersPut u lo hi c g (.get ref) k :=
    fun _ _ _ ws n ho => by cases ho
  refine ⟨hget _ _ _, fun g₁ mine _ _ => ?_⟩
  cases mine with
  | error x => trivial
  | ok mine =>
    refine ⟨hget _ _ _, fun g₂ others _ hread => ?_⟩
    cases others with
    | error x => trivial
    | ok others =>
      -- the transaction opens at once, so what it counts from was read just now
      show (runTransaction _).Knows _ _ g₂
      unfold runTransaction
      split
      · rename_i ws hws
        refine ⟨fun ws' m ho hm => ?_, fun g₃ a _ _ => ?_⟩
        · cases ho
          split at hws
          · simp only [tx_update_bind, tx_lift_bind, except_bind_ok] at hws
            obtain ⟨v, hv, n, hn, r, hr, hws⟩ := hws
            cases n with
            | none => cases hr
            | some n =>
              cases hr
              cases hws
              obtain ⟨rfl, rfl⟩ := htx n m hm
              obtain ⟨d, rfl, hd⟩ := field_ok hv
              exact hread d m rfl rfl (asInt_some hn ▸ hd)
          · cases hws
            exact absurd hm not_followTx_nil
        · cases a <;> trivial
      · trivial

/-- Whatever a call reads, its transaction on the counter of `u` goes on from what it read. -/
theorem prog_knows_followers (c : Call) (g : ℕ × ℕ) :
    c.prog.Knows (FollowersRead u lo hi) (FollowersPut u lo hi c) g := by
  have hother : ¬ c.IsFollow → c.prog.Knows (FollowersRead u lo hi) (FollowersPut u lo hi c) g := by
    refine fun hc => knows_of_forall (fun g o k ws n _ htx => ?_) _ g
    obtain ⟨my, ⟨rfl, _⟩ | ⟨rfl, _⟩⟩ := htx
    · exact absurd trivial hc
    · exact absurd trivial hc
  cases c with
  | followUser my other =>
    refine changeFollow_knows (fun n m hm => ?_) g
    exact (followTx_unique ⟨my, Or.inl ⟨rfl, rfl⟩⟩ hm).imp Eq.symm id
  | unfollowUser my other =>
    refine changeFollow_knows (fun n m hm => ?_) g
    exact (followTx_unique ⟨my, Or.inr ⟨rfl, rfl⟩⟩ hm).imp Eq.symm id
  | _ => exact hother id

/-- A batch is a follow transaction, or leaves the counter as it is, or sets it to zero. -/
theorem followers_commit {c : Call} {ws : List Write} {docs docs' : Store} (hmay : c.MayCommit ws)
    (h : commit docs ws = some docs') :
    (∃ other n, FollowTx c other n ws) ∨ followersOf docs' u = followersOf docs u ∨
      followersOf docs' u = some 0 := by
  have hframe : ¬ c.Footprint (userRef u) KEY_FOLLOWERS →
      followersOf docs' u = followersOf docs u := by
    intro hout
    unfold followersOf
    rw [bind_of_fieldAt (fun v => v) (fieldAt_of_mayCommit hmay h hout)]
  have hfollow : c.IsFollow → (∃ other n, FollowTx c other n ws) ∨
      followersOf docs' u = followersOf docs u ∨ followersOf docs' u = some 0 := by
    intro hc
    rcases followTx_of_mayCommit hc hmay with rfl | htx
    · cases h
      exact Or.inr (Or.inl rfl)
    · exact Or.inl htx
  cases c with
  | attemptCreateUser userKey email =>
    obtain ⟨map, hmap, rfl⟩ := hmay
    by_cases hu : u = userKey
    · subst hu
      cases h
      cases email with
      | none => cases hmap
      | some email =>
        cases hmap
        right
        right
        unfold followersOf
        rw [Function.update_self]
        rfl
    · exact Or.inr (Or.inl (hframe fun hfoot => hu (userRef_inj.mp hfoot)))
  | followUser my other => exact hfollow trivial
  | unfollowUser my other => exact hfollow trivial
  | createNewPost postKey postData =>
    refine Or.inr (Or.inl (hframe ?_))
    rintro (hpost | ⟨_, hfield⟩)
    · exact userRef_ne_postRef u postKey hpost
    · exact absurd hfield (by decide)
  | updatePostImageUrl postImg postKey =>
    exact Or.inr (Or.inl (hframe fun hfoot => userRef_ne_postRef u postKey hfoot.1))
  | toggleLike postKey userKey =>
    exact Or.inr (Or.inl (hframe fun hfoot => userRef_ne_postRef u postKey hfoot.1))
  | createNewComment postKey commentData =>
    refine Or.inr (Or.inl (hframe ?_))
    rintro (⟨id, hcomment⟩ | ⟨hpost, _⟩)
    · exact comment_ne_userRef postKey id u hcomment.symm
    · exact userRef_ne_postRef u postKey hpost

/-- A follow transaction that goes on from a number in bounds leaves one in bounds. -/
theorem inBounds_tx {c : Call} {n : Int} {ws : List Write} (htx : FollowTx c u n ws)
    {h : List (Call × List Write)} (hn : InBounds lo hi (followCounts u h) n) :
    InBounds lo hi (followCounts u (h ++ [(c, ws)])) (n + c.delta) := by
  unfold InBounds followCounts followsOn unfollowsOn at *
  obtain ⟨my, ⟨rfl, rfl⟩ | ⟨rfl, rfl⟩⟩ := htx
  · simp [Call.follows, Call.unfollows, Call.delta, followWrites] at hn ⊢
    omega
  · simp [Call.follows, Call.unfollows, Call.delta, followWrites] at hn ⊢
    omega

/-- What every run keeps of one counter. -/
structure FollowersBounded (u : String) (lo hi : Int) (s : BackendState) : Prop where
  calls : CallsGuarded (fun _ => True) s
  know : CallsKnow (FollowersRead u lo hi) (FollowersPut u lo hi) (fun _ => True) s
    (followCounts u (history s))
  stored : ∀ n, followersOf s.world.docs u = some n → InBounds lo hi (followCounts u (history s)) n
  put : ∀ e ∈ history s, ∀ n, FollowTx e.1 u n e.2 →
    InBounds lo hi (followCounts u (history s)) (n + e.1.delta)

theorem followersRead_of_handle {g : ℕ × ℕ} {w w' : Db} {o : Op} {e : Env} {a : Ans o}
    (hw : ∀ n, followersOf w.docs u = some n → InBounds lo hi g n)
    (h : handle o e w = some (w', a)) : FollowersRead u lo hi g o a := by
  cases o with
  | get ref =>
    rintro d n rfl rfl hd
    have hread := (handle_get h).2 _ rfl
    exact hw n (by simp [followersOf, ← hread, hd, int])
  | commit ws => trivial
  | newId c => trivial

theorem followersBounded_step (hlo : lo ≤ 0) (hhi : 0 ≤ hi) (s : BackendState) (a : BackendAct)
    (t : BackendState) (hs : FollowersBounded u lo hi s) (h : step backend s a = some t) :
    FollowersBounded u lo hi t := by
  have hle : followCounts u (history s) ≤ followCounts u (history t) := by
    rcases backend_step h with ⟨c, ws, _, _, hhist⟩ | ⟨_, _, hhist⟩
    · rw [hhist]
      exact followCounts_mono u _ _
    · rw [hhist]
  have hsum : ∀ c ws n, Commits s a c ws → history t = history s ++ [(c, ws)] →
      FollowTx c u n ws → InBounds lo hi (followCounts u (history t)) (n + c.delta) := by
    rintro c ws n ⟨i, e, k, _, hi, _⟩ hhist htx
    rw [hhist]
    exact inBounds_tx htx ((hs.know i c _ hi).2.1 ws n rfl htx)
  refine ⟨callsGuarded_step _ s a t (starts_any a) hs.calls h, ?_, ?_, ?_⟩
  · exact callsKnow_step (fun c _ g => prog_knows_followers c g)
      (fun c g g' o k hgg' hput ws n ho htx => (hput ws n ho htx).mono hgg') (starts_any a) hle
      (fun o e w a hw => followersRead_of_handle hs.stored hw) hs.know h
  · intro n hn
    rcases backend_step h with ⟨c, ws, hcommits, hcommit, hhist⟩ | ⟨_, hdocs, _⟩
    · obtain ⟨_, hmay⟩ := mayCommit_of_commits hs.calls hcommits
      rcases followers_commit (u := u) hmay hcommit with ⟨other, m, htx⟩ | hsame | hzero
      · rw [followersOf_tx htx hcommit] at hn
        split at hn
        · rename_i hu
          subst hu
          cases hn
          exact hsum c ws m hcommits hhist htx
        · exact (hs.stored n hn).mono hle
      · rw [hsame] at hn
        exact (hs.stored n hn).mono hle
      · rw [hzero] at hn
        cases hn
        constructor <;> omega
    · rw [hdocs] at hn
      exact (hs.stored n hn).mono hle
  · intro e he n htx
    rcases backend_step h with ⟨c, ws, hcommits, _, hhist⟩ | ⟨_, _, hhist⟩
    · rcases List.mem_append.mp (hhist ▸ he) with hold | hnew
      · exact (hs.put e hold n htx).mono hle
      · obtain rfl := List.mem_singleton.mp hnew
        exact hsum c ws n hcommits hhist htx
    · exact (hs.put e (hhist ▸ he) n htx).mono hle

theorem followersBounded_init {docs : Store}
    (h0 : ∀ n, followersOf docs u = some n → lo ≤ n ∧ n ≤ hi) :
    FollowersBounded u lo hi (backendInit docs) := by
  refine ⟨callsGuarded_init _ docs, nofun, fun n hn => ?_, nofun⟩
  obtain ⟨hl, hh⟩ := h0 n hn
  constructor
  · simpa [followCounts, history, unfollowsOn, backendInit, init] using hl
  · simpa [followCounts, history, followsOn, backendInit, init] using hh

theorem followersBounded_run (hlo : lo ≤ 0) (hhi : 0 ≤ hi) {docs : Store}
    (h0 : ∀ n, followersOf docs u = some n → lo ≤ n ∧ n ≤ hi) (as : List BackendAct) :
    AllStates (step backend) (FollowersBounded u lo hi) (backendInit docs) as :=
  allStates_of_keeps (A := fun _ => True) (fun s a t _ => followersBounded_step hlo hhi s a t)
    (fun _ _ => trivial) (followersBounded_init h0)

/-- Bounds that 64 bits hold, hold what is between them. -/
theorem InBounds.inInt64 {g : ℕ × ℕ} {n : Int} (h : InBounds lo hi g n)
    (hmin : InInt64 (lo - g.2)) (hmax : InInt64 (hi + g.1)) : InInt64 n :=
  ⟨hmin.1.trans h.1, h.2.trans hmax.2⟩

/-- Races can lose follows, but never invent them. Whatever calls interleave, in every state the
follower counter of a user is at least its first bound less the unfollows committed so far, and
at most its first bound and the follows committed so far. This is so as long as 64 bits hold both
bounds, and then no sum that was stored so far has left them. -/
theorem followers_stay_in_bounds (u : String) (lo hi : Int) (hlo : lo ≤ 0) (hhi : 0 ≤ hi)
    (docs : Store) (h0 : ∀ n, followersOf docs u = some n → lo ≤ n ∧ n ≤ hi)
    (as : List BackendAct) :
    AllStates (step backend) (fun t =>
      InInt64 (lo - unfollowsOn u (history t)) → InInt64 (hi + followsOn u (history t)) →
        (∀ n, followersOf t.world.docs u = some n →
          lo - unfollowsOn u (history t) ≤ n ∧ n ≤ hi + followsOn u (history t)) ∧
        ∀ e ∈ history t, ∀ n, FollowTx e.1 u n e.2 →
          wrapInt64 (n + e.1.delta) = n + e.1.delta)
      (backendInit docs) as := by
  have hrun := followersBounded_run hlo hhi h0 as
  intro pre hpre t ht hmin hmax
  obtain ⟨_, _, hstored, hput⟩ := hrun pre hpre t ht
  exact ⟨hstored, fun e he n htx =>
    wrapInt64_of_inInt64 ((hput e he n htx).inInt64 hmin hmax)⟩

theorem followers_stay_in_bounds_at_the_race :
    ((0 : Int) ≤ 0 ∧ ∀ n, followersOf (freshUsers ["ann", "bob", "cat"]) "cat" = some n →
        0 ≤ n ∧ n ≤ 0) ∧
      ∃ t, run (step backend) (backendInit (freshUsers ["ann", "bob", "cat"])) racingFollows =
          some t ∧
        followsOn "cat" (history t) = 2 ∧ unfollowsOn "cat" (history t) = 0 ∧
        followersOf t.world.docs "cat" = some 1 ∧
        ∀ n, followersOf t.world.docs "cat" = some n → 0 ≤ n ∧ n ≤ 2 := by
  have h0 : ∀ n, followersOf (freshUsers ["ann", "bob", "cat"]) "cat" = some n → 0 ≤ n ∧ n ≤ 0 := by
    intro n hn
    have hzero : followersOf (freshUsers ["ann", "bob", "cat"]) "cat" = some 0 := rfl
    rw [hzero, Option.some.injEq] at hn
    omega
  obtain ⟨t, ht, hfollows, hunfollows, hcount⟩ : ∃ t,
      run (step backend) (backendInit (freshUsers ["ann", "bob", "cat"])) racingFollows = some t ∧
      followsOn "cat" (history t) = 2 ∧ unfollowsOn "cat" (history t) = 0 ∧
      followersOf t.world.docs "cat" = some 1 := ⟨_, rfl, by decide, by decide, by decide⟩
  obtain ⟨hbounds, _⟩ := followers_stay_in_bounds "cat" 0 0 le_rfl le_rfl _ h0 racingFollows
    racingFollows (List.prefix_refl _) t ht (by rw [hunfollows]; decide) (by rw [hfollows]; decide)
  refine ⟨⟨le_rfl, h0⟩, t, ht, hfollows, hunfollows, hcount, fun n hn => ?_⟩
  have hn' := hbounds n hn
  rw [hunfollows, hfollows] at hn'
  simpa using hn'

/-! ## Comments -/

/-- A post that is read has a counter of at least `lo`, and at most `lo` and what was added. -/
def CountRead (k : String) (lo : Int) (g : ℕ) : (o : Op) → Ans o → Prop
  | .get ref, a => ∀ d n, ref = postRef k → a = .ok (some d) → commentsIn d = some n →
    lo ≤ n ∧ n ≤ lo + g
  | _, _ => True

/-- A comment counts on from such a number. -/
def CountPut (k : String) (lo : Int) (c : Call) (g : ℕ) (o : Op) (_ : Ans o → Fire Unit) : Prop :=
  ∀ commentData id n, c = .createNewComment k commentData →
    o = .commit (commentWrites k commentData id n) → lo ≤ n ∧ n ≤ lo + g

variable {k : String}

theorem createNewComment_knows (commentData : Doc) (g : ℕ) :
    (createNewComment k commentData).Knows (CountRead k lo)
      (CountPut k lo (.createNewComment k commentData)) g := by
  refine ⟨fun _ _ _ _ ho => (by cases ho), fun g₁ snapshot _ hread => ?_⟩
  cases snapshot with
  | error x => trivial
  | ok snapshot =>
    refine ⟨fun _ _ _ _ ho => (by cases ho), fun g₂ id hle _ => ?_⟩
    show (runTransaction (commentTx k commentData snapshot (commentsOf k ++ [id]))).Knows _ _ g₂
    cases hrun : (commentTx k commentData snapshot (commentsOf k ++ [id])).run [] with
    | error x =>
      rw [runTransaction_error hrun]
      trivial
    | ok r =>
      obtain ⟨_, ws⟩ := r
      rw [runTransaction_ok hrun]
      refine ⟨fun data id' n _ ho => ?_, fun g₃ a _ _ => by cases a <;> trivial⟩
      cases ho
      rcases commentTx_ok hrun with ⟨_, hnil⟩ | ⟨d, m, rfl, hd, hws⟩
      · simp [commentWrites] at hnil
      · -- the number was read when no more was known than now
        obtain ⟨rfl, rfl, rfl⟩ := commentWrites_inj hws.symm
        obtain ⟨hlo, hhi⟩ := hread d n rfl rfl hd
        exact ⟨hlo, by omega⟩

theorem prog_knows_count (c : Call) (g : ℕ) :
    c.prog.Knows (CountRead k lo) (CountPut k lo c) g := by
  have hother : (∀ commentData, c ≠ .createNewComment k commentData) →
      c.prog.Knows (CountRead k lo) (CountPut k lo c) g :=
    fun hne => knows_of_forall (fun _ _ _ data _ _ hc => absurd hc (hne data)) _ g
  cases c with
  | createNewComment postKey commentData =>
    by_cases hk : postKey = k
    · subst hk
      exact createNewComment_knows commentData g
    · refine hother fun data he => hk ?_
      cases he
      rfl
  | _ => exact hother fun _ he => by cases he

/-- What every run keeps of the counter of a post, when `g` comments have been added to it. -/
structure CountBounded (k : String) (lo : Int) (s : BackendState) (g : ℕ) : Prop where
  calls : OnPosts Call.OnSomePost s
  refs : FreshRefs s
  know : CallsKnow (CountRead k lo) (CountPut k lo) (fun _ => True) s g
  ids : ∃ ids, IsCommentIds s.world.docs k ids ∧ (ids.card : Int) = lo + g
  stored : ∃ n, numOfCommentsOf s.world.docs k = some n ∧ lo ≤ n ∧ n ≤ lo + g

/-- A batch that adds no comment to the post leaves its counter and its comments as they are. -/
theorem count_untouched {c : Call} {ws : List Write} {docs docs' : Store} (hk : IsDocId k)
    (hc : c.OnSomePost) (hmay : c.MayCommit ws) (h : commit docs ws = some docs')
    (hno : ∀ data id n, c = .createNewComment k data → ws ≠ commentWrites k data id n) :
    numOfCommentsOf docs' k = numOfCommentsOf docs k ∧
      ∀ id, docs' (commentsOf k ++ [id]) = docs (commentsOf k ++ [id]) := by
  by_cases hnil : ws = []
  · subst hnil
    cases h
    exact ⟨rfl, fun _ => rfl⟩
  constructor
  · refine bind_of_fieldAt (fun v => commentsIn fun _ => v)
      (fieldAt_of_mayCommit hmay h fun hfoot => ?_)
    have hfeature := feature_of_footprint (F := .comments) hc
      (Or.inl ⟨k, hk, rfl, by simp [Feature.fields, previewKeys]⟩) hfoot
    cases c with
    | createNewComment postKey data =>
      rcases hfoot with ⟨id, he⟩ | ⟨he, _⟩
      · exact comment_ne_postRef hk postKey id he.symm
      · obtain rfl := postRef_inj.mp he
        rcases hmay with rfl | ⟨id, n, rfl⟩
        · exact hnil rfl
        · exact hno data id n rfl rfl
    | _ => cases hfeature
  · intro id
    by_cases hset : ∃ k' data id' n, c = .createNewComment k' data ∧
        ws = commentWrites k' data id' n
    · obtain ⟨k', data, id', n, rfl, rfl⟩ := hset
      obtain ⟨d, _, rfl⟩ := commit_commentWrites h
      have hother : commentsOf k ++ [id] ≠ commentsOf k' ++ [id'] := by
        intro he
        have hpost : commentsOf k = commentsOf k' := (List.append_inj' he rfl).1
        obtain rfl : k = k' := postRef_inj.mp (List.append_inj' hpost rfl).1
        exact hno data id' n rfl rfl
      rw [Function.update_of_ne (comment_ne_postRef (hc.2 k' rfl) k id),
        Function.update_of_ne hother]
    · refine comment_untouched hc hmay h (fun k' data id' n he hws => ?_) k id
      exact hset ⟨k', data, id', n, he, hws⟩

theorem countRead_of_handle {g : ℕ} {w w' : Db} {o : Op} {e : Env} {a : Ans o}
    (hw : ∃ n, numOfCommentsOf w.docs k = some n ∧ lo ≤ n ∧ n ≤ lo + g)
    (h : handle o e w = some (w', a)) : CountRead k lo g o a := by
  obtain ⟨n, hn, hbounds⟩ := hw
  cases o with
  | get ref =>
    rintro d m rfl rfl hd
    have hread := (handle_get h).2 _ rfl
    unfold numOfCommentsOf at hn
    rw [← hread, Option.bind_some, hd, Option.some.injEq] at hn
    exact hn ▸ hbounds
  | commit ws => trivial
  | newId c => trivial

/-- A comment on the post takes the bound up by one, and everything else leaves it. -/
theorem countBounded_step (hk : IsDocId k) (s : BackendState) (a : BackendAct) (t : BackendState)
    (ha : a.Starts Call.OnSomePost) {g : ℕ} (hs : CountBounded k lo s g)
    (h : step backend s a = some t) : ∃ g', g ≤ g' ∧ CountBounded k lo t g' := by
  have hcalls := onPosts_step onPost_of_onSomePost s a t ha hs.calls h
  have hrefs := freshRefs_step onPost_of_onSomePost hs.calls ha hs.refs h
  have hknow : ∀ g', g ≤ g' →
      CallsKnow (CountRead k lo) (CountPut k lo) (fun _ => True) t g' :=
    fun g' hle => callsKnow_step (fun c _ => prog_knows_count c)
      (fun c g g' o k' hgg' hput data id n hc ho => by
        obtain ⟨hlo, hhi⟩ := hput data id n hc ho
        exact ⟨hlo, by omega⟩)
      (starts_any a) hle (fun o e w a hw => countRead_of_handle hs.stored hw) hs.know h
  have hsame : numOfCommentsOf t.world.docs k = numOfCommentsOf s.world.docs k →
      (∀ id, t.world.docs (commentsOf k ++ [id]) = s.world.docs (commentsOf k ++ [id])) →
      ∃ g', g ≤ g' ∧ CountBounded k lo t g' := by
    intro hcount hdocs
    obtain ⟨ids, hids, hcard⟩ := hs.ids
    refine ⟨g, le_rfl, hcalls, hrefs, hknow g le_rfl, ⟨ids, fun id => ?_, hcard⟩, ?_⟩
    · rw [hdocs]
      exact hids id
    · rw [hcount]
      exact hs.stored
  rcases backend_step h with ⟨c, ws, hcommits, hcommit, _⟩ | ⟨_, hdocs, _⟩
  · obtain ⟨hcall, hmay⟩ := onPosts_commits hs.calls hcommits
    by_cases hset : ∃ data id n, c = .createNewComment k data ∧ ws = commentWrites k data id n
    · obtain ⟨data, id, n, rfl, rfl⟩ := hset
      obtain ⟨ids, hids, hcard⟩ := hs.ids
      have hnew := comment_is_new hs.refs hcommits
      have hout : id ∉ ids := fun hin => by
        have hsome := (hids id).mp hin
        rw [hnew] at hsome
        cases hsome
      obtain ⟨i, e, f, _, hi, _⟩ := hcommits
      obtain ⟨hlo, hhi⟩ := (hs.know i _ _ hi).2.1 data id n rfl rfl
      refine ⟨g + 1, by omega, hcalls, hrefs, hknow _ (by omega),
        ⟨_, isCommentIds_commit hids hcommit, ?_⟩, n + 1, numOfCommentsOf_commit hcommit, ?_, ?_⟩
      · rw [Finset.card_insert_of_notMem hout]
        push_cast
        omega
      · omega
      · push_cast
        omega
    · obtain ⟨hcount, hcomments⟩ := count_untouched hk hcall hmay hcommit
        fun data id n hc hws => hset ⟨data, id, n, hc, hws⟩
      exact hsame hcount hcomments
  · exact hsame (by rw [hdocs]) fun id => by rw [hdocs]

/-- Races can lose comments from the count, but never invent them. On a post whose counter was
right at first, it is at least that first number in every state of every run of likes, comments
and new images, and never more than the comments that there are. -/
theorem the_comment_counter_never_runs_ahead (k : String) (hk : IsDocId k) (docs : Store)
    (ids : Finset String) (h0 : IsCommentIds docs k ids)
    (hcount : numOfCommentsOf docs k = some (ids.card : Int)) (as : List BackendAct)
    (has : ∀ a ∈ as, a.Starts Call.OnSomePost) :
    AllStates (step backend) (fun t => ∃ ids' n, IsCommentIds t.world.docs k ids' ∧
      numOfCommentsOf t.world.docs k = some n ∧ (ids.card : Int) ≤ n ∧ n ≤ ids'.card)
      (backendInit docs) as := by
  have hinit : CountBounded k ids.card (backendInit docs) 0 :=
    ⟨onPosts_init _ docs, freshRefs_init docs, fun _ _ _ hi => (by cases hi), ⟨ids, h0, by simp⟩,
      ids.card, hcount, le_rfl, by simp⟩
  have hrun := allStates_of_keeps (I := fun s => ∃ g, CountBounded k ids.card s g)
    (A := Act.Starts Call.OnSomePost) (fun s a t ha hs h => by
      obtain ⟨g, hg⟩ := hs
      obtain ⟨g', _, hg'⟩ := countBounded_step hk s a t ha hg h
      exact ⟨g', hg'⟩) has ⟨0, hinit⟩
  intro pre hpre t ht
  obtain ⟨g, hg⟩ := hrun pre hpre t ht
  obtain ⟨ids', hids', hcard⟩ := hg.ids
  obtain ⟨n, hn, hlo, hhi⟩ := hg.stored
  exact ⟨ids', n, hids', hn, hlo, by omega⟩

/-- Ann and Bob comment on the post at the same time, and its counter loses one of them. -/
theorem racingComments_on_some_post : ∀ a ∈ racingComments, a.Starts Call.OnSomePost := by
  have hp : IsDocId "p" := by decide
  simp [racingComments, Act.Starts, Call.OnSomePost, Call.OnPost, Call.postKey, hp]

theorem the_comment_counter_never_runs_ahead_at_the_race :
    (IsCommentIds (countedPost "p") "p" ∅ ∧ ∀ a ∈ racingComments, a.Starts Call.OnSomePost) ∧
      AllStates (step backend) (fun t => ∃ ids' n, IsCommentIds t.world.docs "p" ids' ∧
        numOfCommentsOf t.world.docs "p" = some n ∧ ((∅ : Finset String).card : Int) ≤ n ∧
          n ≤ ids'.card) (backendInit (countedPost "p")) racingComments := by
  have hids : IsCommentIds (countedPost "p") "p" ∅ := by
    intro id
    have hnone : countedPost "p" (commentsOf "p" ++ [id]) = none :=
      if_neg (commentRef_ne_postRef "p" id)
    simp [hnone]
  exact ⟨⟨hids, racingComments_on_some_post⟩, the_comment_counter_never_runs_ahead "p" (by decide)
    (countedPost "p") ∅ hids rfl racingComments racingComments_on_some_post⟩

end instagram
