-- The shape of user documents. `attemptCreateUser` writes all seven fields, and every later
-- write to a user gives one of them a value of its type, so every user document decodes.
import Instagram.Follow

namespace instagram

open docs firestore async runs

/-! ## Shapes -/

/-- The fields of `getMapForCreateUser`. -/
def userKeys : List String :=
  [KEY_PROFILEIMG, KEY_USERNAME, KEY_EMAIL, KEY_LIKEDPOSTS, KEY_FOLLOWERS, KEY_FOLLOWINGS,
   KEY_MYPOSTS]

/-- The user name is what stands before the first `@` of the email. -/
def NamedByEmail (username email : String) : Prop :=
  '@' ∉ username.toList ∧ (email = username ∨ ∃ domain, email = username ++ "@" ++ domain)

/-- Just the seven fields, each with the type that `UserModel` declares for it. -/
structure UserShape (d : Doc) : Prop where
  keys : ∀ f, (d f).isSome ↔ f ∈ userKeys
  profileImg : ∃ s, d KEY_PROFILEIMG = some (str s)
  names : ∃ username email, d KEY_USERNAME = some (str username) ∧
    d KEY_EMAIL = some (str email) ∧ NamedByEmail username email
  likedPosts : ∃ xs, d KEY_LIKEDPOSTS = some (.list xs)
  followers : ∃ n, d KEY_FOLLOWERS = some (int n)
  followings : ∃ xs, d KEY_FOLLOWINGS = some (.list xs)
  myPosts : ∃ xs, d KEY_MYPOSTS = some (.list xs)

theorem userShape_getMapForCreateUser {email : Option String} {d : Doc}
    (h : UserModel.getMapForCreateUser email = .ok d) : UserShape d := by
  cases email with
  | none => cases h
  | some email =>
    cases h
    refine ⟨fun f => isSome_mapOf _ f, ⟨_, rfl⟩, ⟨beforeAt email, email, rfl, rfl, ?_⟩, ⟨_, rfl⟩,
      ⟨_, rfl⟩, ⟨_, rfl⟩, ⟨_, rfl⟩⟩
    exact ⟨at_notMem_beforeAt email, email_beforeAt email⟩

/-- A field that is there may change as long as it keeps its type. -/
theorem UserShape.put {d : Doc} (h : UserShape d) {f : String} {v : Value}
    (hf : (f = KEY_FOLLOWERS ∧ ∃ n, v = int n) ∨
      ((f = KEY_FOLLOWINGS ∨ f = KEY_MYPOSTS) ∧ ∃ xs, v = .list xs)) :
    UserShape (Function.update d f (some v)) := by
  have hkeys : f ∈ userKeys →
      ∀ k, (Function.update d f (some v) k).isSome ↔ k ∈ userKeys := by
    intro hmem k
    by_cases hk : k = f
    · subst hk
      simpa using hmem
    · rw [Function.update_of_ne hk]
      exact h.keys k
  obtain ⟨_, hprofileImg, hnames, hlikedPosts, hfollowers, hfollowings, hmyPosts⟩ := h
  rcases hf with ⟨rfl, n, rfl⟩ | ⟨rfl | rfl, xs, rfl⟩
  · exact ⟨hkeys (by decide), hprofileImg, hnames, hlikedPosts, ⟨n, Function.update_self _ _ _⟩,
      hfollowings, hmyPosts⟩
  · exact ⟨hkeys (by decide), hprofileImg, hnames, hlikedPosts, hfollowers,
      ⟨xs, Function.update_self _ _ _⟩, hmyPosts⟩
  · exact ⟨hkeys (by decide), hprofileImg, hnames, hlikedPosts, hfollowers, hfollowings,
      ⟨xs, Function.update_self _ _ _⟩⟩

/-! ## Decoding -/

/-- The model has the fields of the document, unchanged. -/
structure UserModel.Decodes (m : UserModel) (key : String) (d : Doc) : Prop where
  userKey : m.userKey = key
  profileImg : m.profileImg.map str = d KEY_PROFILEIMG
  email : m.email.map str = d KEY_EMAIL
  myPosts : m.myPosts.map .list = d KEY_MYPOSTS
  followers : m.followers.map int = d KEY_FOLLOWERS
  likedPosts : m.likedPosts.map .list = d KEY_LIKEDPOSTS
  username : m.username.map str = d KEY_USERNAME
  followings : m.followings.map .list = d KEY_FOLLOWINGS
  reference : m.reference = userRef key

theorem UserShape.decodes {d : Doc} (h : UserShape d) (userKey : String) :
    ∃ m, UserModel.fromSnapshot userKey (some d) = .ok m ∧ m.Decodes userKey d := by
  obtain ⟨_, ⟨profileImg, hprofileImg⟩, ⟨username, email, husername, hemail, _⟩,
    ⟨likedPosts, hlikedPosts⟩, ⟨followers, hfollowers⟩, ⟨followings, hfollowings⟩,
    ⟨myPosts, hmyPosts⟩⟩ := h
  refine ⟨⟨userKey, profileImg, email, myPosts, followers, likedPosts, username, followings,
    userRef userKey⟩, ?_, ?_⟩
  · simp only [UserModel.fromSnapshot, UserModel.fromMap, lookup, hprofileImg, husername, hemail,
      hmyPosts, hlikedPosts, hfollowers, hfollowings]
    rfl
  · constructor <;> simp [hprofileImg, husername, hemail, hmyPosts, hlikedPosts, hfollowers,
      hfollowings]

/-! ## What every commit keeps -/

/-- Every user document has the shape. -/
def UsersShaped (docs : Store) : Prop := ∀ u d, docs (userRef u) = some d → UserShape d

theorem usersShaped_set {s t : Store} {ref : Path} {e : Doc} (hs : UsersShaped s)
    (he : ∀ u, ref = userRef u → UserShape e) (h : (docs.Write.set ref e).apply s = some t) :
    UsersShaped t := by
  cases h
  intro u d hd
  by_cases hu : userRef u = ref
  · rw [hu, Function.update_self] at hd
    cases hd
    exact he u hu.symm
  · rw [Function.update_of_ne hu] at hd
    exact hs u d hd

theorem usersShaped_update {s t : Store} {ref : Path} {f : String} {op : FieldOp Atom}
    (hs : UsersShaped s)
    (hop : (f = KEY_FOLLOWERS ∧ ∃ n, ∀ old, op.apply old = int n) ∨
      ((f = KEY_FOLLOWINGS ∨ f = KEY_MYPOSTS) ∧ ∀ old, ∃ xs, op.apply old = .list xs))
    (h : (docs.Write.update ref [(f, op)]).apply s = some t) : UsersShaped t := by
  obtain ⟨e, he, rfl⟩ := Option.map_eq_some_iff.mp h
  intro u d hd
  by_cases hu : userRef u = ref
  · rw [hu, Function.update_self] at hd
    cases hd
    refine (hs u e (hu ▸ he)).put ?_
    rcases hop with ⟨hf, n, hn⟩ | ⟨hf, hlist⟩
    · exact Or.inl ⟨hf, n, hn _⟩
    · exact Or.inr ⟨hf, hlist _⟩
  · rw [Function.update_of_ne hu] at hd
    exact hs u d hd

/-- A write to a path that is no user's keeps the shapes. -/
theorem usersShaped_elsewhere {s t : Store} {w : Write} (h : w.apply s = some t)
    (hs : UsersShaped s) (hw : ∀ u, w.ref ≠ userRef u) : UsersShaped t := by
  intro u d hd
  rw [apply_of_ne h (hw u).symm] at hd
  exact hs u d hd

theorem usersShaped_commit {docs docs' : Store} {c : Call} {ws : List Write} (hmay : c.MayCommit ws)
    (h : commit docs ws = some docs') (hs : UsersShaped docs) : UsersShaped docs' := by
  refine commit_keeps (fun w hw s t hs h => ?_) h hs
  cases writes_of_mayCommit hmay hw with
  | user hmap => exact usersShaped_set hs (fun _ _ => userShape_getMapForCreateUser hmap) h
  | follow | unfollow =>
    exact usersShaped_update hs (Or.inr ⟨Or.inl rfl, fun _ => ⟨_, rfl⟩⟩) h
  | followed | unfollowed => exact usersShaped_update hs (Or.inl ⟨rfl, _, fun _ => rfl⟩) h
  | myPosts => exact usersShaped_update hs (Or.inr ⟨Or.inr rfl, fun _ => ⟨_, rfl⟩⟩) h
  | comment postKey commentData id =>
    exact usersShaped_elsewhere h hs (comment_ne_userRef postKey id)
  | post | postImg | unlike | like | preview =>
    exact usersShaped_elsewhere h hs fun u => postRef_ne_userRef _ u

/-! ## How a follow call ends -/

/-- A user who is read is missing or has the shape. -/
def ReadsShaped (ref : Path) (snapshot : Snapshot) : Prop :=
  ∀ u, ref = userRef u → ∀ d, snapshot = some d → UserShape d

/-- A follow call fails only with one of its requests. -/
def FailsByRequest (c : Call) (r : Except DartError Unit) : Prop :=
  c.IsFollow → ∀ x, r = .error x → x.OfRequest

theorem changeFollow_ends (listOp : List Atom → FieldOp Atom) (delta : Int) (my other : String) :
    (changeFollow listOp delta my other).Ends (Answers ReadsShaped)
      fun r => ∀ x, r = .error x → x.OfRequest := by
  unfold changeFollow
  refine get_ends (fun x hx y hy => by cases hy; exact hx.2 x rfl) fun mine _ => ?_
  refine get_ends (fun x hx y hy => by cases hy; exact hx.2 x rfl) fun others hothers => ?_
  refine runTransaction_ends (fun ws x hx y hy => by cases hy; exact hx x rfl)
    (fun x hx => by cases hx) fun x hx => ?_
  -- the transaction's body raises on no user that has the shape
  split_ifs at hx with hboth
  · obtain ⟨d, rfl⟩ := Option.isSome_iff_exists.mp (Bool.and_eq_true_iff.mp hboth).2
    obtain ⟨n, hn⟩ := (hothers.1 _ rfl other rfl d rfl).followers
    simp [field, hn] at hx
    cases hx
  · cases hx

theorem prog_failsByRequest (c : Call) :
    c.prog.Ends (Answers ReadsShaped) (FailsByRequest c) := by
  cases c with
  | followUser my other => exact (changeFollow_ends _ _ my other).mono fun r hr _ => hr
  | unfollowUser my other => exact (changeFollow_ends _ _ my other).mono fun r hr _ => hr
  | _ => exact ends_of_forall (fun _ hc => hc.elim) _

/-! ## Runs -/

/-- The user documents have the shape, and whatever is read of them has it. -/
abbrev ShapeGuarded : BackendState → Prop :=
  DocsGuarded UsersShaped ReadsShaped (fun _ => True) fun c o _ => c.Guarantee o

theorem shapeGuarded_step {s t : BackendState} {a : BackendAct} (hs : ShapeGuarded s)
    (h : step backend s a = some t) : ShapeGuarded t := by
  refine docsGuarded_step (fun c _ => prog_awaits c) ?_ ?_ s a t (starts_any a) hs h
  · rintro docs ref hshaped u rfl d hd
    exact hshaped u d hd
  · exact fun c ws _ docs docs' _ hG hshaped hc => usersShaped_commit (hG ws rfl) hc hshaped

/-- Every user document has the shape and decodes to its own fields, no follow call fails on
reading a user, and no user is created without an email. -/
structure UsersDecode (s : BackendState) : Prop where
  shaped : UsersShaped s.world.docs
  decoded : ∀ u d, s.world.docs (userRef u) = some d →
    ∃ m, UserModel.fromSnapshot u (some d) = .ok m ∧ m.Decodes u d
  follows : ∀ i c r, s.calls i = some (c, .ended r) → FailsByRequest c r
  emails : ∀ u ws, (.attemptCreateUser u none, ws) ∉ history s

/-- From an empty collection of users on, every user document decodes, whatever runs. -/
theorem every_user_document_decodes (docs : Store) (h : ∀ u, docs (userRef u) = none)
    (as : List BackendAct) : AllStates (step backend) UsersDecode (backendInit docs) as := by
  have has : ∀ a ∈ as, a.Starts fun _ : Call => True := fun a _ => starts_any a
  have hstart : UsersShaped docs := fun u d hd => by rw [h u] at hd; cases hd
  have hprog : ∀ c : Call, True → c.prog.Awaits (Answers ReadsShaped) fun o _ => c.Guarantee o :=
    fun c _ => prog_awaits c
  have hread : ∀ docs ref, UsersShaped docs → ReadsShaped ref (docs ref) := by
    rintro docs ref hs u rfl d hd
    exact hs u d hd
  have hcommit : ∀ (c : Call) ws (_ : Ans (.commit ws) → Fire Unit) docs docs', True →
      c.Guarantee (.commit ws) → UsersShaped docs → commit docs ws = some docs' →
      UsersShaped docs' :=
    fun c ws _ docs docs' _ hG hs hc => usersShaped_commit (hG ws rfl) hc hs
  have hshaped := docsGuarded_run hprog hread hcommit has hstart
  have hends := docsGuarded_ends hprog (fun c _ => prog_failsByRequest c) hread hcommit has hstart
  have hhistory := history_run (fun _ => True) docs has
  intro pre hpre t ht
  have hs : UsersShaped t.world.docs := (hshaped pre hpre t ht).world
  refine ⟨hs, fun u d hd => (hs u d hd).decodes u, hends pre hpre t ht, fun u ws hmem => ?_⟩
  obtain ⟨map, hmap, _⟩ := (hhistory pre hpre t ht _ hmem).2
  cases hmap

/-- Ann signs up on two devices, and follows herself before the second write lands. -/
def racingSignUps : List BackendAct :=
  [.start 0 (.attemptCreateUser "ann" (some "ann@mail.com")),
   .start 1 (.attemptCreateUser "ann" (some "ann@mail.com")),
   .resume 0 online, .resume 1 online, .resume 0 online,
   .start 2 (.followUser "ann" "ann"), .resume 2 online, .resume 2 online, .resume 2 online,
   .resume 1 online]

theorem every_user_document_decodes_at_racing_sign_ups :
    (∀ u, (fun _ => none : Store) (userRef u) = none) ∧
      AllStates (step backend) UsersDecode (backendInit fun _ => none) racingSignUps :=
  ⟨fun _ => rfl, every_user_document_decodes _ (fun _ => rfl) _⟩

end instagram
