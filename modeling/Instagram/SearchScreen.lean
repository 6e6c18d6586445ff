-- The search screen. A tap on a user follows or unfollows by `amIFollowingThisUser`, whose
-- guard gives false on every list that is not empty. So every tap follows.
import Instagram.AuthState
import Instagram.FollowLists

namespace instagram

open docs firestore async runs

/-! ## The screen -/

/-- The guard asks `isNotEmpty`. -/
def UserModelState.amIFollowingThisUser (s : UserModelState) (otherUserKey : String) : Bool :=
  match s.userModel with
  | none => false
  | some userModel =>
    match userModel.followings with
    | none => false
    | some followings =>
      if !followings.isEmpty then false else decide (.str otherUserKey ∈ followings)

/-- What the rows are built from, with the database behind them. -/
structure SearchScreen where
  myUserModelState : UserModelState
  db : Db

/-- The handler of a row, which raises on a null model. It needs only the user model. -/
def onRowTap (s : UserModelState) (otherUserKey : String) : Except DartError Call :=
  match s.userModel with
  | none => .error .noSuchMethod
  | some me =>
    .ok (if s.amIFollowingThisUser otherUserKey then .unfollowUser me.userKey otherUserKey
      else .followUser me.userKey otherUserKey)

def SearchScreen.onTap (s : SearchScreen) (otherUserKey : String) : Except DartError Call :=
  onRowTap s.myUserModelState otherUserKey

/-- The text of a row. -/
def SearchScreen.trailing (s : SearchScreen) (otherUserKey : String) : String :=
  if s.myUserModelState.amIFollowingThisUser otherUserKey then "following" else "not following"

/-- A tap, up to the delivery of the user's own document after the transaction. -/
def tap (s : SearchScreen) (otherUserKey : String) : Option SearchScreen :=
  match s.myUserModelState.userModel, s.onTap otherUserKey with
  | some me, .ok c => do
    let db ← callAlone s.db c
    let model ← (UserModel.fromSnapshot me.userKey (db.docs (userRef me.userKey))).toOption
    pure ⟨{ s.myUserModelState with userModel := some model }, db⟩
  | _, _ => none

/-! ## What a tap does -/

/-- The guard lets only the empty list through, and nobody is on that. -/
theorem amIFollowingThisUser_false (s : UserModelState) (otherUserKey : String) :
    s.amIFollowingThisUser otherUserKey = false := by
  unfold UserModelState.amIFollowingThisUser
  split
  · rfl
  · split
    · rfl
    · rename_i followings _
      cases followings <;> simp

theorem onTap_follows {s : SearchScreen} {me : UserModel}
    (hme : s.myUserModelState.userModel = some me) (b : String) :
    s.onTap b = .ok (.followUser me.userKey b) := by
  unfold SearchScreen.onTap onRowTap
  rw [hme, amIFollowingThisUser_false]
  rfl

theorem fromMap_followings {map : Doc} {userKey : String} {reference : Path} {m : UserModel}
    (h : UserModel.fromMap map userKey reference = .ok m) (xs : List Atom) :
    UserModel.fromMap (Function.update map KEY_FOLLOWINGS (some (.list xs))) userKey reference =
      .ok { m with followings := some xs } := by
  have hother : ∀ f, f ≠ KEY_FOLLOWINGS →
      lookup (Function.update map KEY_FOLLOWINGS (some (.list xs))) f = lookup map f := by
    intro f hf
    unfold lookup
    rw [Function.update_of_ne hf]
  simp only [UserModel.fromMap, except_bind_ok] at h
  obtain ⟨profileImg, hprofileImg, username, husername, email, hemail, myPosts, hmyPosts,
    likedPosts, hlikedPosts, followers, hfollowers, followings, hfollowings, hm⟩ := h
  cases hm
  simp only [UserModel.fromMap]
  rw [hother _ (by decide), hother _ (by decide), hother _ (by decide), hother _ (by decide),
    hother _ (by decide), hother _ (by decide), hprofileImg, husername, hemail, hmyPosts,
    hlikedPosts, hfollowers]
  simp [lookup, asList]
  rfl

/-- The user is signed in, the own document decodes, and `b` has `n` followers. -/
structure Tappable (my b : String) (n : Int) (s : SearchScreen) : Prop where
  model : ∃ me, s.myUserModelState.userModel = some me ∧ me.userKey = my
  stored : ∃ me, UserModel.fromSnapshot my (s.db.docs (userRef my)) = .ok me
  count : followersOf s.db.docs b = some n

/-- `b` is on the user's stored list. -/
def following (docs : Store) (my b : String) : Bool := decide (.str b ∈ followingsOf docs my)

theorem fromMap_userKey {map : Doc} {userKey : String} {reference : Path} {m : UserModel}
    (h : UserModel.fromMap map userKey reference = .ok m) : m.userKey = userKey := by
  simp only [UserModel.fromMap, except_bind_ok] at h
  obtain ⟨_, _, _, _, _, _, _, _, _, _, _, _, _, _, hm⟩ := h
  cases hm
  rfl

/-- Alone, a follow puts `b` on the list and counts one more follower, whatever was there. -/
theorem followUser_alone {my b : String} {n : Int} {w : Db} {mine : Doc} (hb : b ≠ my)
    (hmine : w.docs (userRef my) = some mine) (hcount : followersOf w.docs b = some n) :
    ∃ w', callAlone w (.followUser my b) = some w' ∧ followersOf w'.docs b = some (n + 1) ∧
      following w'.docs my b = true ∧ ∃ xs, w'.docs (userRef my) =
        some (Function.update mine KEY_FOLLOWINGS (some (.list xs))) := by
  obtain ⟨docs', hcommit, halone⟩ :=
    changeFollow_alone .arrayUnion 1 (by rw [hmine]; rfl) hcount
  have htx : FollowTx (.followUser my b) b n (followWrites .arrayUnion 1 my b n) :=
    ⟨my, Or.inl ⟨rfl, rfl⟩⟩
  refine ⟨{ w with docs := docs' }, ?_, ?_, ?_, ?_⟩
  · unfold callAlone
    rw [Call.prog, followUser, halone]
    rfl
  · rw [followersOf_commit hcommit, if_pos rfl]
  · unfold following
    rw [decide_eq_true_eq, mem_followingsOf_tx htx hcommit, if_pos ⟨rfl, rfl⟩]
    rfl
  · obtain ⟨mine', _, hmine', _, hdocs'⟩ := commit_followWrites hcommit
    obtain rfl : mine' = mine := Option.some.inj (hmine'.symm.trans hmine)
    refine ⟨union (elems (mine' KEY_FOLLOWINGS)) [.str b], ?_⟩
    show docs' (userRef my) = _
    rw [hdocs', Function.update_of_ne (by simpa using hb.symm), Function.update_self]
    rfl

/-- A tap follows, whoever is on the list. The own document still decodes after it. -/
theorem tap_follows {my b : String} {n : Int} {s : SearchScreen} (hb : b ≠ my)
    (hs : Tappable my b n s) :
    ∃ t, tap s b = some t ∧ Tappable my b (n + 1) t ∧ following t.db.docs my b = true := by
  obtain ⟨⟨me, hme, rfl⟩, ⟨stored, hstored⟩, hcount⟩ := hs
  obtain ⟨mine, hmine⟩ : ∃ mine, s.db.docs (userRef me.userKey) = some mine := by
    cases hd : s.db.docs (userRef me.userKey) with
    | none => simp [hd, UserModel.fromSnapshot] at hstored
    | some mine => exact ⟨mine, rfl⟩
  rw [hmine] at hstored
  obtain ⟨w, hcall, hfollowers, hfollowing, xs, hown⟩ := followUser_alone hb hmine hcount
  have hdecodes := fromMap_followings hstored xs
  have hsnapshot : UserModel.fromSnapshot me.userKey (w.docs (userRef me.userKey)) =
      .ok { stored with followings := some xs } := by
    rw [hown]
    exact hdecodes
  refine ⟨⟨{ s.myUserModelState with userModel := some { stored with followings := some xs } }, w⟩,
    ?_, ⟨⟨_, rfl, fromMap_userKey hdecodes⟩, ⟨_, hsnapshot⟩, hfollowers⟩, hfollowing⟩
  unfold tap
  rw [onTap_follows hme, hme]
  simp only [hcall, hsnapshot, Option.bind_eq_bind, Option.bind_some]
  rfl

/-! ## Many taps -/

theorem taps_follow {my b : String} (hb : b ≠ my) (k : ℕ) {n : Int} {s : SearchScreen}
    (hs : Tappable my b n s) :
    ∃ t, run tap s (List.replicate k b) = some t ∧ Tappable my b (n + k) t ∧
      following t.db.docs my b = (following s.db.docs my b || decide (0 < k)) := by
  induction k generalizing n s with
  | zero => exact ⟨s, rfl, by simpa using hs, by simp⟩
  | succ k ih =>
    obtain ⟨u, hu, hnext, hin⟩ := tap_follows hb hs
    obtain ⟨t, ht, hlast, hmem⟩ := ih hnext
    refine ⟨t, ?_, ?_, ?_⟩
    · rw [List.replicate_succ, run_cons, hu]
      exact ht
    · have hcount : n + ((k + 1 : ℕ) : Int) = n + 1 + k := by omega
      rw [hcount]
      exact hlast
    · rw [hmem, hin]
      simp

theorem taps_decide {my b : String} (hb : b ≠ my) (k : ℕ) {n : Int} {s : SearchScreen}
    (hs : Tappable my b n s) :
    AllSteps tap (fun s _ _ => s.onTap b = .ok (.followUser my b)) s (List.replicate k b) := by
  refine allSteps_of_keeps (I := fun s => ∃ n, Tappable my b n s) (A := (· = b)) ?_ ?_
    (fun a ha => List.eq_of_mem_replicate ha) ⟨n, hs⟩
  · rintro s a t rfl ⟨n, hs⟩ h
    obtain ⟨u, hu, hnext, _⟩ := tap_follows hb hs
    obtain rfl : u = t := Option.some.inj (hu.symm.trans h)
    exact ⟨n + 1, hnext⟩
  · rintro s a t rfl ⟨n, ⟨me, hme, rfl⟩, _, _⟩ _
    exact onTap_follows hme a

/-! ## The law -/

/-- The call that a tap should make: off the list, or onto it. -/
def toggle (docs : Store) (my b : String) : Call :=
  if following docs my b then .unfollowUser my b else .followUser my b

/-- Taps on `b` toggle the follow: each one decides by the list, each one flips the place on it,
the counter moves with it, and the text shows it. -/
structure TogglesFollow (my b : String) (n : Int) (k : ℕ) (s t : SearchScreen) : Prop where
  decides : AllSteps tap (fun s _ _ => s.onTap b = .ok (toggle s.db.docs my b)) s
    (List.replicate k b)
  flips : following t.db.docs my b = Bool.not^[k] (following s.db.docs my b)
  counts : followersOf t.db.docs b =
    some (n + (following t.db.docs my b).toNat - (following s.db.docs my b).toNat)
  shows : t.trailing b = if following t.db.docs my b then "following" else "not following"

theorem trailing_eq (s : SearchScreen) (b : String) : s.trailing b = "not following" := by
  unfold SearchScreen.trailing
  rw [amIFollowingThisUser_false]
  rfl

/-- A signed-in user whose own list is the stored one taps `k` times on another user `b`. All
taps run, every one follows, and so `b` gets `k` followers more and stays on the list. They
toggle the follow only when there is no tap and `b` is not on the list. -/
theorem taps_toggle_the_follow_iff_there_is_none (s : SearchScreen) (me : UserModel) (b : String)
    (n : Int) (hme : s.myUserModelState.userModel = some me)
    (hstored : ∃ stored, UserModel.fromSnapshot me.userKey (s.db.docs (userRef me.userKey)) =
      .ok stored)
    (hb : b ≠ me.userKey) (hcount : followersOf s.db.docs b = some n) (k : ℕ) :
    ∃ t, run tap s (List.replicate k b) = some t ∧
      (TogglesFollow me.userKey b n k s t ↔ k = 0 ∧ following s.db.docs me.userKey b = false) ∧
      AllSteps tap (fun s _ _ => s.onTap b = .ok (.followUser me.userKey b)) s
        (List.replicate k b) ∧
      followersOf t.db.docs b = some (n + k) ∧
      following t.db.docs me.userKey b = (following s.db.docs me.userKey b || decide (0 < k)) := by
  have hs : Tappable me.userKey b n s := ⟨⟨me, hme, rfl⟩, hstored, hcount⟩
  obtain ⟨t, ht, hlast, hmember⟩ := taps_follow hb k hs
  have hfollows := taps_decide hb k hs
  refine ⟨t, ht, ?_, hfollows, hlast.count, hmember⟩
  constructor
  · intro h
    have hshows := h.shows
    rw [trailing_eq] at hshows
    -- the text never shows a follow, so there is none
    have hno : following t.db.docs me.userKey b = false := by
      by_contra hyes
      rw [if_pos (by simpa using hyes)] at hshows
      exact absurd hshows (by decide)
    rw [hno] at hmember
    have hk : ¬0 < k := by
      intro hpos
      simp [hpos] at hmember
    exact ⟨by omega, by simpa [hk] using hmember.symm⟩
  · rintro ⟨rfl, hno⟩
    cases ht
    refine ⟨fun pre a hpre => ?_, rfl, ?_, ?_⟩
    · exact absurd (List.prefix_nil.mp hpre) (by simp)
    · rw [hcount]
      simp
    · rw [trailing_eq, hno]
      rfl

/-- Ann, before she follows anybody. -/
def annAlone : UserModel := newUserModel "ann" "ann"

def annAndBob : SearchScreen := ⟨⟨some annAlone, none⟩, ⟨freshUsers ["ann", "bob"], []⟩⟩

theorem annAndBob_stored :
    UserModel.fromSnapshot annAlone.userKey (annAndBob.db.docs (userRef annAlone.userKey)) =
      .ok annAlone := by decide

/-- After two taps Ann still follows Bob, and he has two followers. -/
theorem a_second_tap_follows_again :
    ¬∀ (s : SearchScreen) (me : UserModel) (b : String) (n : Int),
      s.myUserModelState.userModel = some me →
      UserModel.fromSnapshot me.userKey (s.db.docs (userRef me.userKey)) = .ok me →
      b ≠ me.userKey → followersOf s.db.docs b = some n → ∀ k,
        ∃ t, run tap s (List.replicate k b) = some t ∧ TogglesFollow me.userKey b n k s t := by
  intro h
  obtain ⟨t, ht, htoggles⟩ :=
    h annAndBob annAlone "bob" 0 rfl annAndBob_stored (by decide) (by decide) 2
  have hend : (run tap annAndBob (List.replicate 2 "bob")).map
      (fun t => following t.db.docs "ann" "bob") = some true := by decide
  rw [ht, Option.map_some, Option.some.injEq] at hend
  have hflips : following t.db.docs "ann" "bob" = _ := htoggles.flips
  rw [hend] at hflips
  revert hflips
  decide

theorem taps_toggle_the_follow_iff_at_two_taps :
    (annAndBob.myUserModelState.userModel = some annAlone ∧
      UserModel.fromSnapshot annAlone.userKey (annAndBob.db.docs (userRef annAlone.userKey)) =
        .ok annAlone ∧ followersOf annAndBob.db.docs "bob" = some 0) ∧
      ∃ t, run tap annAndBob (List.replicate 2 "bob") = some t ∧
        ¬TogglesFollow "ann" "bob" 0 2 annAndBob t ∧ followersOf t.db.docs "bob" = some 2 := by
  obtain ⟨t, ht, hiff, _, hcount, _⟩ := taps_toggle_the_follow_iff_there_is_none annAndBob annAlone
    "bob" 0 rfl ⟨annAlone, annAndBob_stored⟩ (by decide) (by decide) 2
  refine ⟨⟨rfl, annAndBob_stored, by decide⟩, t, ht, ?_, hcount⟩
  intro htoggles
  exact absurd (hiff.mp htoggles).1 (by omega)

end instagram
