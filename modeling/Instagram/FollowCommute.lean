-- Follow calls on different pairs commute, when they run one after another. The abstract view
-- takes each `followings` list as a set. On it a call is a function, and the functions of
-- different pairs commute, so only the order within each pair matters.
import Mathlib.Data.Set.Insert
import Instagram.FollowLists

namespace instagram

open docs firestore async runs

/-! ## The abstract view -/

/-- A field as the law sees it: the followings are a set, and any other field is its value. -/
inductive Seen where
  | value (v : Option Value)
  | users (s : Set Atom)

def seen (f : String) : Option Value → Seen
  | some (.list xs) => if f = KEY_FOLLOWINGS then .users {x | x ∈ xs} else .value (some (.list xs))
  | v => .value v

abbrev View : Type := Path → String → Option Seen

/-- Every field of every document. -/
def view (docs : Store) : View := fun p f => (docs p).map fun d => seen f (d f)

def Seen.members : Seen → Set Atom
  | .users s => s
  | .value _ => ∅

/-- An integer moves by `delta`. -/
def Seen.add (delta : Int) : Seen → Seen
  | .value (some (.scalar (.int n))) => .value (some (int (n + delta)))
  | s => s

/-- A decision whether `u` is on a list. -/
def Seen.decide (u : String) (on : Prop) (s : Seen) : Seen :=
  .users {x | (x = .str u ∧ on) ∨ (x ≠ .str u ∧ x ∈ s.members)}

/-- A follow call commits its transaction: both users exist, and the count is an integer. -/
def Call.Lands (v : View) (c : Call) : Prop :=
  c.IsFollow ∧ (v (userRef c.pair.1) KEY_FOLLOWERS).isSome ∧
    ∃ n, v (userRef c.pair.2) KEY_FOLLOWERS = some (.value (some (int n)))

/-- What a call that lands does to one field. -/
def Call.onField (c : Call) (p : Path) (f : String) (s : Seen) : Seen :=
  if p = userRef c.pair.1 ∧ f = KEY_FOLLOWINGS then
    s.decide c.pair.2 (c.delta = 1)
  else if p = userRef c.pair.2 ∧ f = KEY_FOLLOWERS then s.add c.delta
  else s

open Classical in
/-- What a call does to the view. -/
noncomputable def Call.effect (v : View) (c : Call) : View :=
  if c.Lands v then fun p f => (v p f).map (c.onField p f) else v

theorem effect_of_lands {v : View} {c : Call} (h : c.Lands v) (p : Path) (f : String) :
    c.effect v p f = (v p f).map (c.onField p f) := by
  rw [Call.effect, if_pos h]

theorem effect_of_not_lands {v : View} {c : Call} (h : ¬ c.Lands v) : c.effect v = v := if_neg h

/-! ## Effects of different pairs commute -/

theorem add_add (m n : Int) (s : Seen) : (s.add m).add n = (s.add n).add m := by
  cases s with
  | users xs => rfl
  | value v =>
    rcases v with _ | (_ | _ | k | _ | _) | xs <;> simp [Seen.add, int]
    omega

theorem decide_comm {u v : String} (h : u ≠ v) (p q : Prop) (s : Seen) :
    (s.decide u p).decide v q = (s.decide v q).decide u p := by
  have hatom : ∀ x : Atom, x = .str u → x ≠ .str v := by
    rintro x rfl he
    exact h (Atom.str.inj he)
  refine congrArg Seen.users (Set.ext fun x => ?_)
  have hx := hatom x
  simp only [Seen.decide, Seen.members, Set.mem_ofPred_eq]
  tauto

theorem onField_followings (c : Call) (p : Path) (s : Seen) :
    c.onField p KEY_FOLLOWINGS s =
      if p = userRef c.pair.1 then s.decide c.pair.2 (c.delta = 1) else s := by
  simp [Call.onField, followers_ne_followings.symm]

theorem onField_followers (c : Call) (p : Path) (s : Seen) :
    c.onField p KEY_FOLLOWERS s = if p = userRef c.pair.2 then s.add c.delta else s := by
  simp [Call.onField, followers_ne_followings]

theorem onField_other {c : Call} {p : Path} {f : String}
    (hlist : ¬ (p = userRef c.pair.1 ∧ f = KEY_FOLLOWINGS))
    (hcount : ¬ (p = userRef c.pair.2 ∧ f = KEY_FOLLOWERS)) : c.onField p f = id := by
  funext s
  unfold Call.onField
  rw [if_neg hlist, if_neg hcount]
  rfl

theorem onField_comm {c d : Call} (h : c.pair ≠ d.pair) (p : Path) (f : String) (s : Seen) :
    d.onField p f (c.onField p f s) = c.onField p f (d.onField p f s) := by
  by_cases hlist : f = KEY_FOLLOWINGS
  · subst hlist
    simp only [onField_followings]
    split_ifs with hc hd hd
    · -- the list of one user: the two calls decide about different users
      refine decide_comm (fun he => h (Prod.ext ?_ he)) _ _ s
      exact userRef_inj.mp (hd.symm.trans hc)
    all_goals rfl
  · by_cases hcount : f = KEY_FOLLOWERS
    · subst hcount
      simp only [onField_followers]
      split_ifs
      · exact add_add _ _ s
      all_goals rfl
    · simp only [onField_other (fun h => hlist h.2) (fun h => hcount h.2), id]

theorem add_isInt (delta : Int) (s : Seen) :
    (∃ n, s.add delta = .value (some (int n))) ↔ ∃ n, s = .value (some (int n)) := by
  constructor
  · rintro ⟨n, hn⟩
    cases s with
    | users xs => cases hn
    | value v =>
      rcases v with _ | (_ | _ | k | _ | _) | xs
      case some.scalar.int => exact ⟨k, rfl⟩
      all_goals cases hn
  · rintro ⟨n, rfl⟩
    exact ⟨n + delta, rfl⟩

/-- No call changes whether another call lands. -/
theorem lands_effect (v : View) (c d : Call) : d.Lands (c.effect v) ↔ d.Lands v := by
  by_cases hc : c.Lands v
  · unfold Call.Lands
    rw [effect_of_lands hc, effect_of_lands hc, Option.isSome_map]
    refine and_congr_right fun _ => and_congr_right fun _ => ?_
    cases v (userRef d.pair.2) KEY_FOLLOWERS with
    | none => simp
    | some s =>
      simp only [Option.map_some, Option.some.injEq, onField_followers]
      split_ifs
      · exact add_isInt _ s
      · rfl
  · rw [effect_of_not_lands hc]

/-- Calls on different pairs have the same effect in either order. -/
theorem effect_comm (v : View) (c d : Call) (h : c.pair ≠ d.pair) :
    d.effect (c.effect v) = c.effect (d.effect v) := by
  by_cases hc : c.Lands v
  · have hc' : c.Lands (d.effect v) := (lands_effect v d c).mpr hc
    by_cases hd : d.Lands v
    · have hd' : d.Lands (c.effect v) := (lands_effect v c d).mpr hd
      funext p f
      rw [effect_of_lands hc', effect_of_lands hd', effect_of_lands hc, effect_of_lands hd]
      cases v p f with
      | none => rfl
      | some s => exact congrArg some (onField_comm h p f s)
    · rw [effect_of_not_lands hd, effect_of_not_lands (mt (lands_effect v c d).mp hd)]
  · rw [effect_of_not_lands hc, effect_of_not_lands (mt (lands_effect v d c).mp hc)]

/-! ## The code against the view -/

theorem members_seen (v : Option Value) : (seen KEY_FOLLOWINGS v).members = {x | x ∈ elems v} := by
  rcases v with _ | a | xs <;> simp [seen, Seen.members, elems]

theorem view_followers {docs : Store} {u : String} {n : Int} :
    view docs (userRef u) KEY_FOLLOWERS = some (.value (some (int n))) ↔
      followersOf docs u = some n := by
  unfold view followersOf
  cases docs (userRef u) with
  | none => simp
  | some d =>
    rcases hd : d KEY_FOLLOWERS with _ | (_ | _ | k | _ | _) | xs <;>
      simp [seen, hd, int, followers_ne_followings]

theorem lands_view {docs : Store} {c : Call} :
    c.Lands (view docs) ↔ c.IsFollow ∧ (docs (userRef c.pair.1)).isSome ∧
      ∃ n, followersOf docs c.pair.2 = some n := by
  unfold Call.Lands
  simp only [view_followers]
  simp [view]

theorem view_update {docs : Store} {q : Path} {d : Doc} (hd : docs q = some d) (g : String)
    (v : Value) (p : Path) (f : String) :
    view (Function.update docs q (some (Function.update d g (some v)))) p f =
      if p = q ∧ f = g then some (seen g (some v)) else view docs p f := by
  unfold view
  by_cases hp : p = q
  · subst hp
    by_cases hf : f = g
    · subst hf
      simp
    · simp [hd, hf]
  · simp [hp]

theorem view_followWrites {docs docs' : Store} {listOp : List Atom → FieldOp Atom} {delta : Int}
    {my other : String} {n : Int}
    (h : commit docs (followWrites listOp delta my other n) = some docs') (p : Path) (f : String) :
    view docs' p f =
      if p = userRef other ∧ f = KEY_FOLLOWERS then some (.value (some (int (n + delta))))
      else if p = userRef my ∧ f = KEY_FOLLOWINGS then
        some (seen KEY_FOLLOWINGS
          (some ((listOp [.str other]).apply ((docs (userRef my)).bind (· KEY_FOLLOWINGS)))))
      else view docs p f := by
  obtain ⟨mine, others, hmine, hothers, rfl⟩ := commit_followWrites h
  rw [view_update hothers, view_update hmine, hmine]
  rfl

/-- The list operation of a follow call, on the view, is its decision. -/
theorem seen_listOp {c : Call} {other : String} {n : Int} {ws : List Write}
    (htx : FollowTx c other n ws) :
    ∃ listOp my, c.IsFollow ∧ ws = followWrites listOp c.delta my other n ∧ c.pair = (my, other) ∧
      ∀ old, seen KEY_FOLLOWINGS (some ((listOp [.str other]).apply old)) =
        (seen KEY_FOLLOWINGS old).decide other (c.delta = 1) := by
  obtain ⟨my, ⟨rfl, rfl⟩ | ⟨rfl, rfl⟩⟩ := htx
  · refine ⟨_, my, trivial, rfl, rfl, fun old => congrArg Seen.users (Set.ext fun x => ?_)⟩
    rw [members_seen]
    simp only [Set.mem_ofPred_eq, mem_union_singleton, Call.delta]
    tauto
  · refine ⟨_, my, trivial, rfl, rfl, fun old => congrArg Seen.users (Set.ext fun x => ?_)⟩
    rw [members_seen]
    simp only [Set.mem_ofPred_eq, mem_difference_singleton, Call.delta]
    tauto

/-- A committed follow transaction has the effect of its call. -/
theorem view_tx {docs docs' : Store} {c : Call} {other : String} {n : Int} {ws : List Write}
    (htx : FollowTx c other n ws) (hn : followersOf docs other = some n)
    (h : commit docs ws = some docs') : view docs' = c.effect (view docs) := by
  obtain ⟨listOp, my, hc, rfl, hpair, hlist⟩ := seen_listOp htx
  obtain ⟨mine, _, hmine, _, _⟩ := commit_followWrites h
  have hlands : c.Lands (view docs) :=
    lands_view.mpr ⟨hc, by simp [hpair, hmine], n, by rw [hpair]; exact hn⟩
  funext p f
  rw [effect_of_lands hlands, view_followWrites h]
  by_cases hlistField : p = userRef my ∧ f = KEY_FOLLOWINGS
  · obtain ⟨rfl, rfl⟩ := hlistField
    have hold : view docs (userRef my) KEY_FOLLOWINGS =
        some (seen KEY_FOLLOWINGS ((docs (userRef my)).bind (· KEY_FOLLOWINGS))) := by
      simp [view, hmine]
    rw [if_neg fun hp => followers_ne_followings hp.2.symm, if_pos ⟨rfl, rfl⟩, hlist, hold,
      Option.map_some, onField_followings, hpair, if_pos rfl]
  · rw [if_neg hlistField]
    split_ifs with hcount
    · obtain ⟨rfl, rfl⟩ := hcount
      rw [view_followers.mpr hn, Option.map_some, onField_followers, hpair, if_pos rfl]
      rfl
    · rw [onField_other (by simpa only [hpair] using hlistField)
        (by simpa only [hpair] using hcount), Option.map_id_apply]

/-- A call that does not land changes nothing, however it ends. -/
theorem changeFollow_skips (w : Db) (listOp : List Atom → FieldOp Atom) (delta : Int)
    {my other : String}
    (h : ¬ ((w.docs (userRef my)).isSome ∧ ∃ n, followersOf w.docs other = some n)) :
    ∃ r, (changeFollow listOp delta my other).alone handle (fun _ => online) () w =
      some ((), w, r) := by
  unfold changeFollow
  rcases alone_get_or_raise (userRef my) w _ with hmine | hraise
  swap
  · exact ⟨_, hraise⟩
  rw [hmine]
  rcases alone_get_or_raise (userRef other) w _ with hothers | hraise
  swap
  · exact ⟨_, hraise⟩
  rw [hothers]
  cases hother : w.docs (userRef other) with
  | none =>
    rw [Option.isSome_none, Bool.and_false, runTransaction_ok rfl, alone_commit (commit_nil _)]
    exact ⟨_, rfl⟩
  | some d =>
    cases hmy : w.docs (userRef my) with
    | none =>
      rw [Option.isSome_none, Bool.false_and, runTransaction_ok rfl, alone_commit (commit_nil _)]
      exact ⟨_, rfl⟩
    | some mine =>
      -- the count is no integer, so the body of the transaction raises
      have hcount : ∀ n, d KEY_FOLLOWERS ≠ some (int n) := by
        intro n hn
        exact h ⟨by simp [hmy], n, by simp [followersOf, hother, hn, int]⟩
      rw [Option.isSome_some, Option.isSome_some, Bool.and_true, if_pos rfl]
      have hraise : ∀ {body : Tx Unit} x, body.run [] = .error x →
          ∃ r, (runTransaction body).alone handle (fun _ => online) () w = some ((), w, r) :=
        fun x hx => ⟨.error x, by rw [runTransaction_error hx]; rfl⟩
      rcases hv : d KEY_FOLLOWERS with _ | (_ | _ | n | _ | _) | xs
      case none => exact hraise .stateError (by simp [field, hv]; rfl)
      case some.scalar.null => exact hraise .noSuchMethod (by simp [field, hv]; rfl)
      case some.scalar.int => exact absurd hv (hcount n)
      all_goals exact hraise .typeError (by simp [field, hv]; rfl)

/-! ## Runs of calls -/

theorem prog_follow {c : Call} (hc : c.IsFollow) :
    ∃ listOp, c.prog = changeFollow listOp c.delta c.pair.1 c.pair.2 ∧
      ∀ n, FollowTx c c.pair.2 n (followWrites listOp c.delta c.pair.1 c.pair.2 n) := by
  cases c with
  | followUser my other => exact ⟨.arrayUnion, rfl, fun n => ⟨my, Or.inl ⟨rfl, rfl⟩⟩⟩
  | unfollowUser my other => exact ⟨.arrayRemove, rfl, fun n => ⟨my, Or.inr ⟨rfl, rfl⟩⟩⟩
  | _ => exact hc.elim

/-- A follow call that runs alone always ends, and has its effect. -/
theorem callAlone_effect (w : Db) {c : Call} (hc : c.IsFollow) :
    ∃ w', callAlone w c = some w' ∧ view w'.docs = c.effect (view w.docs) := by
  obtain ⟨listOp, hprog, htx⟩ := prog_follow hc
  unfold callAlone
  rw [hprog]
  by_cases hlands : c.Lands (view w.docs)
  · obtain ⟨_, hmy, n, hn⟩ := lands_view.mp hlands
    obtain ⟨d, hd, halone⟩ := changeFollow_alone listOp c.delta hmy hn
    exact ⟨{ w with docs := d }, by rw [halone]; rfl, view_tx (htx n) hn hd⟩
  · rw [effect_of_not_lands hlands]
    obtain ⟨r, hr⟩ := changeFollow_skips w listOp c.delta fun h => hlands (lands_view.mpr ⟨hc, h⟩)
    exact ⟨w, by rw [hr]; rfl, rfl⟩

/-- A sequence of follow calls has the effects of its calls. -/
theorem callsAlone_effect (w : Db) {cs : List Call} (hcs : ∀ c ∈ cs, c.IsFollow) :
    ∃ v, run callAlone w cs = some v ∧ view v.docs = cs.foldl Call.effect (view w.docs) := by
  induction cs generalizing w with
  | nil => exact ⟨w, rfl, rfl⟩
  | cons c cs ih =>
    obtain ⟨u, hu, heffect⟩ := callAlone_effect w (hcs c List.mem_cons_self)
    obtain ⟨v, hv, hview⟩ := ih u fun d hd => hcs d (List.mem_cons_of_mem _ hd)
    exact ⟨v, by rw [run_cons, hu]; exact hv, by rw [hview, heffect]; rfl⟩

/-! ## A follow that is taken back -/

/-- The view of a state in which `b` is not on the list of `a`. -/
def View.without (v : View) (a b : String) : View := fun p f =>
  if p = userRef a ∧ f = KEY_FOLLOWINGS then (v p f).map (Seen.decide b False) else v p f

theorem decide_decide (u : String) (p q : Prop) (s : Seen) :
    (s.decide u p).decide u q = s.decide u q := by
  refine congrArg Seen.users (Set.ext fun x => ?_)
  simp only [Seen.decide, Seen.members, Set.mem_ofPred_eq]
  tauto

theorem add_neg (s : Seen) : (s.add 1).add (-1) = s := by
  cases s with
  | users xs => rfl
  | value v =>
    rcases v with _ | (_ | _ | k | _ | _) | xs <;> simp [Seen.add, int]

/-- A follow and the unfollow after it leave `b` off the list of `a`, and the rest as it was. -/
theorem effect_follow_unfollow {v : View} {a b : String} (h : (Call.followUser a b).Lands v) :
    (Call.unfollowUser a b).effect ((Call.followUser a b).effect v) = v.without a b := by
  have h' : (Call.unfollowUser a b).Lands ((Call.followUser a b).effect v) :=
    (lands_effect v _ (.unfollowUser a b)).mpr h
  funext p f
  rw [effect_of_lands h', effect_of_lands h, Option.map_map]
  unfold View.without
  split_ifs with hlist
  · obtain ⟨rfl, rfl⟩ := hlist
    congr 1
    funext s
    simp [onField_followings, Call.pair, Call.delta, decide_decide]
  · by_cases hcount : p = userRef b ∧ f = KEY_FOLLOWERS
    · obtain ⟨rfl, rfl⟩ := hcount
      rw [show _ ∘ _ = id from funext fun s => by
        simp [onField_followers, Call.pair, Call.delta, add_neg], Option.map_id_apply]
    · rw [onField_other (c := .unfollowUser a b) hlist hcount,
        onField_other (c := .followUser a b) hlist hcount, Function.id_comp, Option.map_id_apply]

/-- Taking `b` off the list of `a` commutes with the calls on other pairs. -/
theorem without_effect (v : View) {a b : String} {c : Call} (h : c.pair ≠ (a, b)) :
    c.effect (v.without a b) = (c.effect v).without a b := by
  have hlands : c.Lands (v.without a b) ↔ c.Lands v := by
    simp [Call.Lands, View.without, followers_ne_followings]
  by_cases hc : c.Lands v
  · funext p f
    rw [effect_of_lands (hlands.mpr hc)]
    unfold View.without
    split_ifs with hlist
    · obtain ⟨rfl, rfl⟩ := hlist
      rw [effect_of_lands hc, Option.map_map, Option.map_map]
      congr 1
      funext s
      simp only [Function.comp_apply, onField_followings]
      split_ifs with hp
      · refine (decide_comm (fun he => h (Prod.ext ?_ he.symm)) _ _ s)
        exact (userRef_inj.mp hp).symm
      · rfl
    · rw [effect_of_lands hc]
  · rw [effect_of_not_lands hc, effect_of_not_lands (mt hlands.mp hc)]

theorem without_calls (v : View) {a b : String} {cs : List Call}
    (h : ∀ c ∈ cs, c.pair ≠ (a, b)) :
    cs.foldl Call.effect (v.without a b) = (cs.foldl Call.effect v).without a b := by
  induction cs generalizing v with
  | nil => rfl
  | cons c cs ih =>
    rw [List.foldl_cons, List.foldl_cons, without_effect v (h c List.mem_cons_self)]
    exact ih _ fun d hd => h d (List.mem_cons_of_mem _ hd)

theorem followersOf_congr {docs docs' : Store} {u : String}
    (h : view docs (userRef u) KEY_FOLLOWERS = view docs' (userRef u) KEY_FOLLOWERS) :
    followersOf docs u = followersOf docs' u := by
  ext n
  rw [← view_followers, ← view_followers, h]

theorem mem_followingsOf_view {docs : Store} {u : String} {x : Atom} :
    x ∈ followingsOf docs u ↔
      ∃ s, view docs (userRef u) KEY_FOLLOWINGS = some s ∧ x ∈ s.members := by
  unfold followingsOf view
  cases docs (userRef u) with
  | none => simp
  | some d => simp [members_seen]

/-! ## The laws -/

/-- The same users with the same fields, the followings taken as sets. -/
def SameUsers (docs docs' : Store) : Prop :=
  ∀ u f, view docs (userRef u) f = view docs' (userRef u) f

/-- The calls of each pair stand in the same order in both sequences. -/
def SamePerPair (cs cs' : List Call) : Prop :=
  ∀ p, cs.filter (fun c => decide (c.pair = p)) = cs'.filter (fun c => decide (c.pair = p))

/-- A follow, calls on other pairs, and the unfollow: against those other calls alone, the
count of `b` is restored, and `b` is off the list of `a`. That takes two users who exist and a
count that is an integer. Without them the follow and the unfollow do nothing. -/
structure TakenBack (docs docs' docs'' : Store) (a b : String) : Prop where
  count : followersOf docs' b = followersOf docs'' b
  list : (docs (userRef a)).isSome → (followersOf docs b).isSome →
    ∀ x, x ∈ followingsOf docs' a ↔ x ∈ followingsOf docs'' a ∧ x ≠ .str b
  skipped : ¬ ((docs (userRef a)).isSome ∧ (followersOf docs b).isSome) → SameUsers docs' docs''

theorem takenBack (w : Db) {a b : String} {cs : List Call}
    (hcs : ∀ c ∈ cs, c.IsFollow ∧ c.pair ≠ (a, b)) :
    ∃ v v', run callAlone w (.followUser a b :: (cs ++ [.unfollowUser a b])) = some v ∧
      run callAlone w cs = some v' ∧ TakenBack w.docs v.docs v'.docs a b := by
  have hfollow : ∀ c ∈ Call.followUser a b :: (cs ++ [.unfollowUser a b]), c.IsFollow := by
    intro c hc
    simp only [List.mem_cons, List.mem_append, List.not_mem_nil, or_false] at hc
    rcases hc with rfl | hc | rfl
    · trivial
    · exact (hcs c hc).1
    · trivial
  obtain ⟨v, hv, hview⟩ := callsAlone_effect w hfollow
  obtain ⟨v', hv', hview'⟩ := callsAlone_effect w fun c hc => (hcs c hc).1
  refine ⟨v, v', hv, hv', ?_⟩
  -- the unfollow may come right after the follow
  have hfront := foldl_move_front Call.pair (a := Call.unfollowUser a b) effect_comm
    (fun c hc => (hcs c hc).2) ((Call.followUser a b).effect (view w.docs)) []
  rw [List.append_nil] at hfront
  rw [List.foldl_cons, hfront, List.foldl_cons] at hview
  by_cases hlands : (Call.followUser a b).Lands (view w.docs)
  · rw [effect_follow_unfollow hlands, without_calls _ fun c hc => (hcs c hc).2, ← hview'] at hview
    obtain ⟨_, ha, n, hb⟩ := lands_view.mp hlands
    refine ⟨followersOf_congr ?_, fun _ _ x => ?_, fun hno => ?_⟩
    · rw [hview, View.without, if_neg fun h => followers_ne_followings h.2]
    · rw [mem_followingsOf_view, mem_followingsOf_view, hview, View.without,
        if_pos ⟨rfl, rfl⟩]
      cases view v'.docs (userRef a) KEY_FOLLOWINGS with
      | none => simp
      | some s => simp [Seen.decide, Seen.members, and_comm]
    · exact absurd ⟨ha, by rw [show followersOf w.docs b = some n from hb]; rfl⟩ hno
  · have hlands' : ¬ (Call.unfollowUser a b).Lands (view w.docs) := hlands
    rw [effect_of_not_lands hlands, effect_of_not_lands hlands', ← hview'] at hview
    refine ⟨followersOf_congr (by rw [hview]), fun ha hb => ?_, fun _ u f => by rw [hview]⟩
    obtain ⟨n, hn⟩ := Option.isSome_iff_exists.mp hb
    exact (hlands (lands_view.mpr ⟨trivial, ha, n, hn⟩)).elim

/-- Whatever users exist, a sequence of follow calls ends in the same users for every order
that keeps the order within each pair. And an unfollow takes its follow back, whatever calls
on other pairs come between. -/
theorem follow_calls_of_different_pairs_commute (w : Db) :
    (∀ cs cs', (∀ c ∈ cs, c.IsFollow) → (∀ c ∈ cs', c.IsFollow) → SamePerPair cs cs' →
      ∃ v v', run callAlone w cs = some v ∧ run callAlone w cs' = some v' ∧
        SameUsers v.docs v'.docs) ∧
    ∀ a b cs, (∀ c ∈ cs, c.IsFollow ∧ c.pair ≠ (a, b)) →
      ∃ v v', run callAlone w (.followUser a b :: (cs ++ [.unfollowUser a b])) = some v ∧
        run callAlone w cs = some v' ∧ TakenBack w.docs v.docs v'.docs a b := by
  refine ⟨fun cs cs' hcs hcs' hsame => ?_, fun a b cs hcs => takenBack w hcs⟩
  obtain ⟨v, hv, hview⟩ := callsAlone_effect w hcs
  obtain ⟨v', hv', hview'⟩ := callsAlone_effect w hcs'
  refine ⟨v, v', hv, hv', fun u f => ?_⟩
  rw [hview, hview', foldl_reorder Call.pair effect_comm hsame]

/-- Bob's account is gone, and Ann still has him on her list. -/
def danglingFollow : Store := fun ref =>
  if ref = userRef "ann" then
    some (mapOf [(KEY_FOLLOWERS, int 0), (KEY_FOLLOWINGS, .list [.str "bob"])])
  else none

/-- A follow and an unfollow of Bob leave him on the list, which no calls at all give without
him. -/
theorem a_missing_user_stays_on_the_list :
    ∃ v, run callAlone ⟨danglingFollow, []⟩ [.followUser "ann" "bob", .unfollowUser "ann" "bob"] =
        some v ∧
      run callAlone ⟨danglingFollow, []⟩ [] = some ⟨danglingFollow, []⟩ ∧
      ¬ ∀ x, x ∈ followingsOf v.docs "ann" ↔
        x ∈ followingsOf danglingFollow "ann" ∧ x ≠ .str "bob" := by
  refine ⟨⟨danglingFollow, []⟩, rfl, rfl, fun hall => ?_⟩
  have hbob : Atom.str "bob" ∈ followingsOf danglingFollow "ann" := by decide
  exact ((hall _).mp hbob).2 rfl

end instagram
