-- The likes of one user. A like asks for the branch that its read gave it, so it flips the
-- user's place on the list exactly when that place is still the one it read.
import Instagram.Likes
import Mathlib.Algebra.Ring.Parity
import Mathlib.Data.Finset.Card

namespace instagram

open docs firestore async runs

/-! ## Flips -/

/-- Each committed like of the user has flipped the user's place on the list. -/
def Flipped (docs : Store) (k u : String) (t : BackendState) : Prop :=
  liked t.world.docs k u = Bool.not^[togglesOf u (history t)] (liked docs k u)

/-- A like of the user that lands finds the user where its read did. -/
def Fresh (k u : String) (s : BackendState) (a : BackendAct) (_ : BackendState) : Prop :=
  ∀ back, Commits s a (.toggleLike k u) (likeWrites k u back) → back = liked s.world.docs k u

/-- The post has a list of likes, and every call is a like of it. -/
abbrev LikesKept (k : String) : BackendState → Prop :=
  Guarded (fun w : Db => (likesOf w.docs k).isSome) (fun _ _ => True) (Call.Likes k) Call.At

theorem likesKept_step (k : String) (s : BackendState) (a : BackendAct) (t : BackendState)
    (ha : a.Starts (Call.Likes k)) (hs : LikesKept k s) (h : step backend s a = some t) :
    LikesKept k t :=
  likes_guarded_step (fun _ _ _ _ hs h => isSome_likes_commit hs h) s a t ha hs h

/-- Only likes of the post are committed. -/
theorem like_of_commits {k : String} {s : BackendState} {a : BackendAct} {c : Call}
    {ws : List Write} (hs : LikesKept k s) (h : Commits s a c ws) :
    ∃ v back, c = .toggleLike k v ∧ ws = likeWrites k v back := by
  obtain ⟨i, e, f, _, hi, _⟩ := h
  obtain ⟨hc, hat, _⟩ := hs.calls i c _ hi
  obtain ⟨v, rfl, ho | ⟨back, ho⟩⟩ := like_waits hc hat
  · cases ho
  · cases ho
    exact ⟨v, back, rfl, rfl⟩

theorem flipped_step (docs : Store) (k u : String) (s : BackendState) (a : BackendAct)
    (t : BackendState) (hs : LikesKept k s) (hf : Flipped docs k u s)
    (h : step backend s a = some t) : Flipped docs k u t ↔ Fresh k u s a t := by
  unfold Flipped at hf ⊢
  rcases backend_step h with ⟨c, ws, hcommits, hdocs, hhist⟩ | ⟨hno, hdocs, hhist⟩
  · obtain ⟨v, back, rfl, rfl⟩ := like_of_commits hs hcommits
    rw [liked_commit hs.world hdocs, hhist, togglesOf_snoc]
    by_cases hv : v = u
    · subst hv
      simp only [Call.likedBy, if_true, decide_true]
      rw [Function.iterate_succ_apply', ← hf]
      constructor
      · intro hflip b hb
        obtain rfl := likeWrites_inj (commits_unique hcommits hb).2
        simpa using hflip
      · intro hfresh
        rw [hfresh back hcommits]
    · have hfresh : Fresh k u s a t := by
        intro b hb
        obtain ⟨hcall, _⟩ := commits_unique hcommits hb
        cases hcall
        exact absurd rfl hv
      simp [Call.likedBy, hv, Ne.symm hv, hf, hfresh]
  · rw [hdocs, hhist]
    exact ⟨fun _ b hb => absurd hb (hno _ _), fun _ => hf⟩

/-! ## Counting the calls -/

/-- The call has ended without an exception. -/
def landed : Option (Call × Parked Unit Op Ans DartError Unit) → Bool
  | some (_, .ended (.ok _)) => true
  | _ => false

/-- The step starts a like of the user. -/
def startsLikeOf (u : String) : BackendAct → Bool
  | .start _ c => c.likedBy u
  | _ => false

/-- Every like of the user has ended without an exception. -/
def AllLanded (u : String) (t : BackendState) : Prop :=
  ∀ i c p, t.calls i = some (c, p) → c.likedBy u = true → landed (some (c, p)) = true

/-- `ids` are the user's calls, and as many likes are committed as have landed. -/
structure Tally (u : String) (as : List BackendAct) (t : BackendState) (ids : Finset ℕ) :
    Prop where
  started : ids.card = as.countP (startsLikeOf u)
  mem : ∀ i, i ∈ ids ↔ ∃ c p, t.calls i = some (c, p) ∧ c.likedBy u = true
  landed : togglesOf u (history t) = (ids.filter fun i => landed (t.calls i)).card

theorem card_filter_update {β : Type} {f : ℕ → Option β} {q : Option β → Bool} {i : ℕ}
    {x : Option β} (ids : Finset ℕ) (hi : q (f i) = false) :
    (ids.filter fun j => q (Function.update f i x j)).card =
      (ids.filter fun j => q (f j)).card + if i ∈ ids ∧ q x = true then 1 else 0 := by
  split
  · rename_i h
    have hset : (ids.filter fun j => q (Function.update f i x j)) =
        insert i (ids.filter fun j => q (f j)) := by
      ext j
      by_cases hj : j = i
      · subst hj
        simp [h.1, h.2]
      · simp [hj]
    rw [hset, Finset.card_insert_of_notMem (by simp [hi])]
  · rename_i h
    have hset : (ids.filter fun j => q (Function.update f i x j)) =
        ids.filter fun j => q (f j) := by
      refine Finset.filter_congr fun j hmem => ?_
      by_cases hj : j = i
      · subst hj
        have hx : q x = false := by simpa [hmem] using h
        rw [Function.update_self, hi, hx]
      · rw [Function.update_of_ne hj]
    rw [hset, Nat.add_zero]

/-- A like ends without an exception only when its update lands. -/
theorem landed_resume {k : String} {s : BackendState} {i : ℕ} {c : Call} {o : Op}
    {f : Ans o → Fire Unit} {e : Env} {w : Db} {a : Ans o} (hs : LikesKept k s)
    (hi : s.calls i = some (c, .waiting o f)) (hw : handle o e s.world = some (w, a)) :
    landed (some (c, ((f a).settle s.mem).2)) = (committed ⟨i, c, o, a⟩).isSome := by
  obtain ⟨hc, hat, _⟩ := hs.calls i c _ hi
  obtain ⟨v, rfl, rfl | ⟨back, rfl⟩⟩ := like_waits hc hat
  · obtain ⟨_, hread⟩ := handle_get hw
    obtain ⟨_, rfl⟩ := hat
    cases a with
    | error x => rfl
    | ok snapshot =>
      obtain rfl := hread snapshot rfl
      show landed (some (_, ((toggleLikeOn k v (s.world.docs (postRef k))).settle ()).2)) = _
      rw [toggleLikeOn_liked hs.world]
      rfl
  · obtain rfl := ends_after_commit hat
    cases a <;> rfl

theorem togglesOf_event (u : String) (tr : List (Event Op Ans Call)) (ev : Event Op Ans Call) :
    togglesOf u ((tr ++ [ev]).filterMap committed) = togglesOf u (tr.filterMap committed) +
      if ev.call.likedBy u = true ∧ (committed ev).isSome = true then 1 else 0 := by
  rw [List.filterMap_append]
  rcases hev : committed ev with _ | ⟨c, ws⟩
  · simp [hev]
  · have hcall : c = ev.call := by
      unfold committed at hev
      split at hev
      · cases hev
        rfl
      · cases hev
    rw [List.filterMap_cons_some hev, List.filterMap_nil, togglesOf_snoc, hcall]
    simp

theorem tally_start {u : String} {as : List BackendAct} {s : BackendState} {ids : Finset ℕ}
    {i : ℕ} {c : Call} {p : Parked Unit Op Ans DartError Unit} (h : Tally u as s ids)
    (hi : s.calls i = none) (hp : landed (some (c, p)) = false) :
    ∃ ids', Tally u (as ++ [.start i c])
      { s with calls := Function.update s.calls i (some (c, p)) } ids' := by
  have hnew : i ∉ ids := by
    intro hmem
    obtain ⟨d, q, hd, _⟩ := (h.mem i).mp hmem
    simp [hi] at hd
  have hfree : landed (s.calls i) = false := by rw [hi]; rfl
  have hstarts : (as ++ [Act.start i c]).countP (startsLikeOf u) =
      as.countP (startsLikeOf u) + if c.likedBy u then 1 else 0 := by
    rw [List.countP_append, List.countP_singleton]
    rfl
  by_cases hc : c.likedBy u = true
  · refine ⟨insert i ids, ?_, fun j => ?_, ?_⟩
    · rw [Finset.card_insert_of_notMem hnew, h.started, hstarts, if_pos hc]
    · rw [Finset.mem_insert]
      by_cases hj : j = i
      · subst hj
        simp [hc]
      · simp only [hj, false_or, Function.update_of_ne hj]
        exact h.mem j
    · show togglesOf u (history s) = _
      rw [h.landed, card_filter_update _ hfree, if_neg (by simp [hp]), Finset.filter_insert,
        if_neg (by simp [hfree])]
      rfl
  · refine ⟨ids, ?_, fun j => ?_, ?_⟩
    · rw [h.started, hstarts, if_neg hc]
      rfl
    · by_cases hj : j = i
      · subst hj
        simp [hc, hnew]
      · simp only [Function.update_of_ne hj]
        exact h.mem j
    · show togglesOf u (history s) = _
      rw [h.landed, card_filter_update _ hfree, if_neg (by simp [hp])]
      rfl

theorem tally_step {k u : String} {as : List BackendAct} {s t : BackendState} {a : BackendAct}
    {ids : Finset ℕ} (ha : a.Starts (Call.Likes k)) (hs : LikesKept k s) (h : Tally u as s ids)
    (hstep : step backend s a = some t) : ∃ ids', Tally u (as ++ [a]) t ids' := by
  cases a with
  | start i c =>
    obtain ⟨hi, rfl⟩ := step_start hstep
    obtain ⟨v, rfl⟩ : ∃ v, c = .toggleLike k v := by
      cases c with
      | toggleLike postKey v => exact ⟨v, by rw [show postKey = k from ha]⟩
      | _ => exact ha.elim
    exact tally_start h hi rfl
  | resume i e =>
    obtain ⟨c, o, f, w, b, hi, hw, rfl⟩ := step_resume hstep
    have hwaits : landed (s.calls i) = false := by rw [hi]; rfl
    have hmem : i ∈ ids ↔ c.likedBy u = true := by
      rw [h.mem, hi]
      simp
    refine ⟨ids, ?_, fun j => ?_, ?_⟩
    · rw [h.started]
      simp [List.countP_append, startsLikeOf]
    · by_cases hj : j = i
      · subst hj
        simp [hmem]
      · simp only [Function.update_of_ne hj]
        exact h.mem j
    · show togglesOf u ((s.trace ++ [_]).filterMap committed) = _
      rw [togglesOf_event, card_filter_update _ hwaits, landed_resume hs hi hw]
      simp only [hmem]
      exact congrArg (· + _) h.landed
  | poke x => exact x.elim

theorem tally_run {k u : String} {docs : Store} (hlist : (likesOf docs k).isSome)
    {as : List BackendAct} (has : ∀ a ∈ as, a.Starts (Call.Likes k)) {t : BackendState}
    (h : run (step backend) (backendInit docs) as = some t) : ∃ ids, Tally u as t ids := by
  induction as using List.reverseRecOn generalizing t with
  | nil =>
    cases h
    exact ⟨∅, rfl, fun i => by simp [backendInit, init], rfl⟩
  | append_singleton as a ih =>
    have hpre : ∀ b ∈ as, b.Starts (Call.Likes k) := fun b hb => has b (by simp [hb])
    obtain ⟨s, hrun, hlast⟩ := run_snoc_some h
    obtain ⟨ids, hids⟩ := ih hpre hrun
    have hkept := run_keeps (likesKept_step k) hpre (guarded_init () hlist) hrun
    exact tally_step (has a (by simp)) hkept hids hlast

/-- When all likes of the user have landed, each call has committed one. -/
theorem togglesOf_of_allLanded {k u : String} {docs : Store} (hlist : (likesOf docs k).isSome)
    {as : List BackendAct} (has : ∀ a ∈ as, a.Starts (Call.Likes k)) {t : BackendState}
    (h : run (step backend) (backendInit docs) as = some t) (hall : AllLanded u t) :
    togglesOf u (history t) = as.countP (startsLikeOf u) := by
  obtain ⟨ids, hids⟩ := tally_run hlist has h
  rw [hids.landed, ← hids.started, Finset.filter_true_of_mem]
  intro i hi
  obtain ⟨c, p, hcall, hc⟩ := (hids.mem i).mp hi
  rw [hcall]
  exact hall i c p hcall hc

/-! ## One after another -/

/-- Alone, a like flips its user's place. -/
theorem toggleLike_alone {k u : String} {w : Db} (hlist : (likesOf w.docs k).isSome) :
    ∃ w', callAlone w (.toggleLike k u) = some w' ∧ (likesOf w'.docs k).isSome ∧
      liked w'.docs k u = !liked w.docs k u := by
  obtain ⟨d, hd⟩ := Option.isSome_iff_exists.mp (isSome_doc_of_likes hlist)
  obtain ⟨docs', hcommit⟩ := Option.isSome_iff_exists.mp
    (isSome_commit_likes hlist u (liked w.docs k u))
  refine ⟨{ w with docs := docs' }, ?_, isSome_likes_commit hlist hcommit, ?_⟩
  · have hread : (toggleLike k u).alone handle (fun _ => online) () w =
        (toggleLikeOn k u (w.docs (postRef k))).alone handle (fun _ => online) () w := by
      rw [hd]
      exact alone_get _ hd
    unfold callAlone
    rw [Call.prog, hread, toggleLikeOn_liked hlist, alone_commit hcommit]
    rfl
  · rw [liked_commit hlist hcommit, if_pos rfl]

theorem toggleLikes_alone (k u : String) (n : ℕ) {w : Db} (hlist : (likesOf w.docs k).isSome) :
    ∃ w', run callAlone w (List.replicate n (.toggleLike k u)) = some w' ∧
      liked w'.docs k u = Bool.not^[n] (liked w.docs k u) := by
  induction n generalizing w with
  | zero => exact ⟨w, rfl, rfl⟩
  | succ n ih =>
    obtain ⟨v, hv, hkeeps, hflip⟩ := toggleLike_alone (u := u) hlist
    obtain ⟨w', hw', hrest⟩ := ih hkeeps
    refine ⟨w', ?_, ?_⟩
    · rw [List.replicate_succ, run_cons, hv]
      exact hw'
    · rw [hrest, hflip, Function.iterate_succ_apply]

/-- The user's place is what `n` likes one after another make of it. -/
def AsOneAfterAnother (docs : Store) (k u : String) (n : ℕ) (t : BackendState) : Prop :=
  ∃ w, run callAlone ⟨docs, []⟩ (List.replicate n (.toggleLike k u)) = some w ∧
    liked t.world.docs k u = liked w.docs k u

theorem asOneAfterAnother_iff {docs : Store} {k u : String} {n : ℕ} {t : BackendState}
    (hlist : (likesOf docs k).isSome) : AsOneAfterAnother docs k u n t ↔
      liked t.world.docs k u = Bool.not^[n] (liked docs k u) := by
  obtain ⟨w, hw, hflips⟩ := toggleLikes_alone k u n (w := ⟨docs, []⟩) hlist
  constructor
  · rintro ⟨w', hw', hsame⟩
    obtain rfl : w = w' := Option.some.inj (hw.symm.trans hw')
    rw [hsame, hflips]
  · intro h
    exact ⟨w, hw, by rw [h, hflips]⟩

theorem eq_iterate_not {a b : Bool} {n : ℕ} : a = Bool.not^[n] b ↔ (a ≠ b ↔ Odd n) := by
  by_cases hn : Odd n
  · rw [Bool.involutive_not.iterate_odd hn]
    cases a <;> cases b <;> simp [hn]
  · rw [Bool.involutive_not.iterate_even (Nat.not_odd_iff_even.mp hn)]
    cases a <;> cases b <;> simp [hn]

/-! ## The law -/

/-- Whatever likes of a post interleave, the likes of one user act as if they came one after
another, in every state, exactly when each one that lands finds the user where its read did.
When all have landed, the user is flipped by an odd number of calls. -/
theorem likes_of_one_user_act_in_turn_iff_each_is_fresh (k u : String) (docs : Store)
    (hlist : (likesOf docs k).isSome) (as : List BackendAct)
    (has : ∀ a ∈ as, a.Starts (Call.Likes k)) :
    (AllStates (step backend)
        (fun t => AsOneAfterAnother docs k u (togglesOf u (history t)) t)
        (backendInit docs) as ↔
      AllSteps (step backend) (Fresh k u) (backendInit docs) as) ∧
    ∀ t, run (step backend) (backendInit docs) as = some t → AllLanded u t →
      togglesOf u (history t) = as.countP (startsLikeOf u) ∧
      (AsOneAfterAnother docs k u (togglesOf u (history t)) t ↔
        (liked t.world.docs k u ≠ liked docs k u ↔ Odd (as.countP (startsLikeOf u)))) := by
  refine ⟨?_, fun t ht hall => ?_⟩
  · simp only [asOneAfterAnother_iff hlist]
    refine allStates_iff_allSteps (I := LikesKept k) (likesKept_step k) ?_ has
      (guarded_init () hlist) rfl
    exact fun s a t _ hs hf h => flipped_step docs k u s a t hs hf h
  · have hcount := togglesOf_of_allLanded hlist has ht hall
    refine ⟨hcount, ?_⟩
    rw [asOneAfterAnother_iff hlist, hcount]
    exact eq_iterate_not

/-- Ann taps the heart twice, and both calls read the post before either update lands. -/
def heartTwice : List BackendAct :=
  [.start 0 (.toggleLike "p" "ann"), .start 1 (.toggleLike "p" "ann"), .resume 0 online,
   .resume 1 online, .resume 0 online, .resume 1 online]

theorem heartTwice_starts : ∀ a ∈ heartTwice, a.Starts (Call.Likes "p") := by
  simp [heartTwice, Act.Starts, Call.Likes]

/-- Both likes land, and Ann likes the post, as if one of them had not been. -/
theorem a_double_tap_likes :
    ¬∀ (k u : String) (docs : Store), (likesOf docs k).isSome → ∀ as : List BackendAct,
      (∀ a ∈ as, a.Starts (Call.Likes k)) → ∀ t,
      run (step backend) (backendInit docs) as = some t → AllLanded u t →
        (liked t.world.docs k u ≠ liked docs k u ↔ Odd (as.countP (startsLikeOf u))) := by
  intro h
  have hend : (run (step backend) (backendInit likedPost) heartTwice).map (fun t =>
      (liked t.world.docs "p" "ann", landed (t.calls 0), landed (t.calls 1))) =
        some (true, true, true) := by decide
  have hothers : ∀ i, (run (step backend) (backendInit likedPost) heartTwice).map
      (fun t => (t.calls (i + 2)).isNone) = some true := fun i => rfl
  obtain ⟨t, ht, hvalues⟩ := Option.map_eq_some_iff.mp hend
  simp only [Prod.mk.injEq] at hvalues
  obtain ⟨hliked, h0, h1⟩ := hvalues
  have hall : AllLanded "ann" t := by
    intro i c p hi _
    rw [← hi]
    rcases i with _ | _ | i
    · exact h0
    · exact h1
    · have hnone := hothers i
      rw [ht, Option.map_some, hi] at hnone
      cases hnone
  have hodd := h "p" "ann" likedPost rfl heartTwice heartTwice_starts t ht hall
  have hbefore : liked likedPost "p" "ann" = false := by decide
  rw [hliked, hbefore] at hodd
  revert hodd
  decide

theorem likes_of_one_user_act_in_turn_at_a_double_tap :
    ((likesOf likedPost "p").isSome ∧ ∀ a ∈ heartTwice, a.Starts (Call.Likes "p")) ∧
      (AllStates (step backend)
          (fun t => AsOneAfterAnother likedPost "p" "ann" (togglesOf "ann" (history t)) t)
          (backendInit likedPost) heartTwice ↔
        AllSteps (step backend) (Fresh "p" "ann") (backendInit likedPost) heartTwice) :=
  ⟨⟨rfl, heartTwice_starts⟩,
    (likes_of_one_user_act_in_turn_iff_each_is_fresh "p" "ann" likedPost rfl heartTwice
      heartTwice_starts).1⟩

end instagram
