-- The whole app: the registrations and logins of any number of devices, the share screens, and
-- the rows, hearts and comments of all devices, over one database. Together they refine the
-- backend, so what holds of the documents in all its runs holds of the whole.
import Instagram.Clients
import Instagram.ScreensPosts
import Instagram.SharePost
import Instagram.UserDocument
import Instagram.UserShape

namespace instagram

open docs firestore async runs

variable {same : User → User → Bool}

/-! ## The calls that are made -/

/-- The calls of the repositories as the app makes them. Nobody is ever unfollowed, and posts
are created under keys without a slash, as `getMapForCreatePost` writes them. -/
def Call.Made : Call → Prop
  | .unfollowUser _ _ => False
  | .createNewPost postKey postData => IsDocId postKey ∧ ∃ userKey username caption now now',
      postData = PostModel.getMapForCreatePost userKey username caption now now'
  | _ => True

/-! ## Registrations and logins -/

def appClient (same : User → User → Bool) : Client Db Op Ans DartError Env where
  M := AppMem
  W := AppWorld
  Req := AppOp
  Reply := AppAns
  κ := AppCall
  δ := AppEnv
  η := AppPoke
  sys := app same
  look := AppWorld.db
  put db w := { w with db }
  req := .store
  reply _ a := a
  env := AppEnv.db

/-- The program asks Firestore only by calls that are made. -/
abbrev AppMakes (same : User → User → Bool) {ρ : Type} (p : AppProg ρ) : Prop :=
  (appClient same).Calls Call.prog Call.Made p

theorem keeps_makes : Keeps (appClient same).Own (fun _ => True)
    fun _ p => AppMakes same p where
  toCompositional := Client.compositional_calls
  modifyAuth _ := .read fun _ => .write _ (.ret _)
  showSnackBar message := by
    refine .read fun m => ?_
    split
    · exact .write _ (.ret _)
    · exact .raise _
  simpleSnackbar message := by
    refine .read fun m => ?_
    split
    · exact .write _ (.ret _)
    · exact .raise _

/-- The document of a user is created by a whole call. -/
theorem makes_attemptCreateUser (userKey : String) (email : Option String) :
    AppMakes same (repository (attemptCreateUser userKey email)) :=
  Client.Calls.of_call (K := appClient same) (c := Call.attemptCreateUser userKey email) trivial

theorem own_of_ne {o : AppOp} (h : ∀ q, o ≠ .store q) : (appClient same).Own o := h

/-- A sign-in request, and its answer that comes later. -/
theorem makes_signIn {o : AppOp} (ho : (appClient same).Own o)
    (k : AppAns o → Except DartError UserCredential) :
    AppMakes same (.await o fun a => signInAnswer (k a)) :=
  keeps_makes.await ho fun a =>
    keeps_makes.signInAnswer (fun _ => own_of_ne (by simp)) (k a)

theorem makes_rootConsumer : AppMakes same rootConsumer := by
  have hclear : AppMakes same clear := by
    rw [clear_eq]
    refine .read fun m => ?_
    split
    · exact .write _ (.await (own_of_ne (by simp)) fun _ => .read fun _ => .write _ (.ret _))
    · exact .read fun _ => .write _ (.ret _)
  have hinit : AppMakes same initUserModel := by
    rw [initUserModel_eq]
    refine .read fun m => ?_
    split
    · exact .raise _
    · exact .write _ (.ret _)
  rw [rootConsumer_eq]
  refine .read fun m => ?_
  split
  · exact hclear
  · exact hinit
  · exact .ret _

theorem makes_loginWithFacebook : AppMakes same loginWithFacebook := by
  refine keeps_makes.bind (keeps_makes.modifyAuth trivial) fun _ =>
    keeps_makes.bind (keeps_makes.modifyAuth trivial) fun _ =>
    keeps_makes.bind (keeps_makes.await (own_of_ne (by simp)) keeps_makes.ofExcept) fun result => ?_
  cases result.status with
  | loggedIn =>
    refine keeps_makes.bind (makes_signIn (o := .signInWithCredential result.accessToken)
      (own_of_ne (by simp)) id) fun c =>
      keeps_makes.bind (keeps_makes.modifyAuth trivial) fun _ => ?_
    cases c.user with
    | none => exact keeps_makes.bind (keeps_makes.simpleSnackbar _) fun _ =>
        keeps_makes.modifyAuth trivial
    | some user => exact keeps_makes.bind (makes_attemptCreateUser _ _) fun _ =>
        keeps_makes.modifyAuth trivial
  | cancelledByUser => exact keeps_makes.simpleSnackbar _
  | error => exact keeps_makes.bind (keeps_makes.simpleSnackbar _) fun _ =>
      keeps_makes.facebookLogOut (own_of_ne (by simp))

theorem makes_app (c : AppCall) : AppMakes same c.prog := by
  cases c with
  | registerUser email password =>
    have hrequest : AppMakes same
        (createUserWithEmailAndPassword (trim email) (trim password)) :=
      makes_signIn (o := .createUserWithEmailAndPassword _ _) (own_of_ne (by simp)) id
    refine keeps_makes.bind (keeps_makes.modifyAuth trivial) fun _ => keeps_makes.bind
      (keeps_makes.storeCredential (fun _ => trivial) hrequest registerMessage) fun u => ?_
    cases u with
    | none => exact keeps_makes.showSnackBar _
    | some user => exact makes_attemptCreateUser user.uid user.email
  | logIn email password =>
    have hrequest : AppMakes same
        (signInWithEmailAndPassword (trim email) (trim password)) :=
      makes_signIn (o := .signInWithEmailAndPassword _ _) (own_of_ne (by simp)) id
    refine keeps_makes.bind (keeps_makes.modifyAuth trivial) fun _ => keeps_makes.bind
      (keeps_makes.storeCredential (fun _ => trivial) hrequest logInMessage) fun u => ?_
    cases u with
    | none => exact keeps_makes.showSnackBar _
    | some user => exact .ret _
  | loginWithFacebook => exact makes_loginWithFacebook
  | signOut =>
    refine keeps_makes.bind (keeps_makes.modifyAuth trivial) fun _ => keeps_makes.bind
      (keeps_makes.modifyAuth trivial) fun _ => keeps_makes.bind
      (keeps_makes.read fun m => keeps_makes.ret _) fun s => ?_
    split
    · refine keeps_makes.bind (keeps_makes.modifyAuth trivial) fun _ => keeps_makes.bind
        (keeps_makes.closeSessions ?_ ?_ ?_) fun _ => keeps_makes.modifyAuth trivial
      · exact own_of_ne (by simp)
      · exact own_of_ne (by simp)
      · exact own_of_ne (by simp)
    · exact keeps_makes.modifyAuth trivial
  | rootConsumer => exact makes_rootConsumer

/-- The writes of others are the steps of the other clients. -/
theorem app_serves : (appClient same).Serves backend (fun _ => True)
    (fun x : AppPoke => ∀ ws, x ≠ .write ws) Call.Made where
  look_put _ _ := rfl
  asks o e w w' a h := by
    obtain ⟨⟨db, r⟩, hdb, hr⟩ := Option.map_eq_some_iff.mp h
    cases hr
    exact hdb
  own o e w w' a ho h := by
    rcases handle_db h with hsame | ⟨q, rfl⟩
    · exact hsame
    · exact absurd rfl (ho q)
  poke x m w m' w' hx h := by
    rcases poke_db h with hsame | ⟨ws, rfl, _⟩
    · exact hsame
    · exact absurd rfl (hx ws)
  calls c _ := makes_app c

/-! ## Share screens -/

/-- Besides what happens on the screen, other devices upload images. -/
inductive SharingPoke where
  | here (x : SharePoke)
  | elsewhere (path : String) (url : DownloadUrl)

def sharing :
    System ShareMem ShareWorld ShareOp ShareAns DartError ShareCall ShareEnv SharingPoke where
  prog := sharePostProcedure
  handle := shareHandle
  poke x m w :=
    match x with
    | .here x => sharePoke x m w
    | .elsewhere path url => some (m, { w with objects := (path, url) :: w.objects })

def shareClient : Client Db Op Ans DartError Env where
  M := ShareMem
  W := ShareWorld
  Req := ShareOp
  Reply := ShareAns
  κ := ShareCall
  δ := ShareEnv
  η := SharingPoke
  sys := sharing
  look := ShareWorld.db
  put db w := { w with db }
  req := .store
  reply _ a := a
  env := ShareEnv.db

abbrev ShareMakes {ρ : Type} (p : ShareProg ρ) : Prop := shareClient.Calls Call.prog Call.Made p

theorem compositional_shareMakes :
    Compositional shareClient.Own fun ρ (p : ShareProg ρ) => ShareMakes p :=
  Client.compositional_calls

theorem makes_ofContext {ρ : Type} {f : ShareMem → ShareProg ρ} (h : ∀ m, ShareMakes (f m)) :
    ShareMakes (ofContext f) := by
  refine .read fun m => ?_
  split
  · exact h m
  · exact .raise _

theorem makes_pop : ShareMakes pop := makes_ofContext fun _ => .write _ (.ret _)

theorem makes_uploadImage (postKey : String) : ShareMakes (uploadImage postKey) := by
  have hresize : ShareMakes (.await .resize .ofExcept : ShareProg Unit) :=
    compositional_shareMakes.await (fun _ h => by cases h) compositional_shareMakes.ofExcept
  refine .catchError (.bind hresize fun _ => ?_) fun _ => .ret _
  exact .bind (.read fun _ => .write _ (.ret _)) fun _ => .ret _

theorem makes_sharePostProcedure {c : ShareCall} (hc : IsDocId c.postKey) :
    ShareMakes (sharePostProcedure c) := by
  unfold sharePostProcedure
  refine .bind (.read fun _ => .write _ (.ret _)) fun _ => ?_
  refine .bind (makes_uploadImage c.postKey) fun _ => ?_
  refine .bind (makes_ofContext fun _ => .ret _) fun usermodel => ?_
  cases usermodel with
  | none => exact .raise _
  | some usermodel =>
    refine .bind (.read fun m => .ret m) fun m => ?_
    refine .bind (Client.Calls.of_call (c := Call.createNewPost c.postKey _)
      ⟨hc, _, _, _, _, _, rfl⟩) fun _ => ?_
    refine .bind (compositional_shareMakes.await (fun _ h => by cases h)
      compositional_shareMakes.ofExcept) fun postImgLink => ?_
    refine .bind (Client.Calls.of_call (c := Call.updatePostImageUrl postImgLink c.postKey)
      trivial) fun _ => ?_
    exact .bind makes_pop fun _ => makes_pop

theorem share_serves : shareClient.Serves backend (fun c : ShareCall => IsDocId c.postKey)
    (fun x : SharingPoke => ∀ ws, x ≠ .here (.write ws)) Call.Made where
  look_put _ _ := rfl
  asks o e w w' a h := (share_store h).2
  own o e w w' a ho h := by
    cases o with
    | resize =>
      simp only [shareClient, sharing, shareHandle] at h
      split at h <;> cases h <;> rfl
    | getDownloadURL path =>
      simp only [shareClient, sharing, shareHandle] at h
      split at h <;> cases h <;> rfl
    | store q => exact absurd rfl (ho q)
  poke x m w m' w' hx h := by
    cases x with
    | here x =>
      cases x with
      | uploadFinishes i url =>
        obtain ⟨path, _, hp⟩ := Option.map_eq_some_iff.mp h
        cases hp
        rfl
      | uploadFails i =>
        obtain ⟨path, _, hp⟩ := Option.map_eq_some_iff.mp h
        cases hp
        rfl
      | write ws => exact absurd rfl (hx ws)
      | _ =>
        cases h
        rfl
    | elsewhere path url =>
      cases h
      rfl
  calls c hc := makes_sharePostProcedure hc

/-! ## Rows, hearts and comments -/

def screensClient : Client Db Op Ans DartError Env where
  M := ℕ → Device
  W := Db
  Req := Op
  Reply := Ans
  κ := ScreenCall
  δ := Env
  η := ScreenPoke
  sys := screens
  look := id
  put db _ := db
  req := id
  reply _ a := a
  env := id

theorem made_of_starts {h : ScreenCall} {m : ℕ → Device} {c : Call}
    (hh : ∀ c, h.tap ≠ .elsewhere c) (hc : h.starts m = .ok (some c)) : c.Made := by
  rcases starts_some hc with ⟨b, my, _, rfl⟩ | ⟨k, my, _, rfl⟩ | ⟨_, _, k, _, d, _, _, rfl⟩ | he
  · trivial
  · trivial
  · trivial
  · exact absurd he (hh c)

theorem screens_serve : screensClient.Serves backend
    (fun h : ScreenCall => ∀ c, h.tap ≠ .elsewhere c) (fun _ => True) Call.Made where
  look_put _ _ := rfl
  asks _ _ _ _ _ h := h
  own o _ _ _ _ ho _ := absurd rfl (ho o)
  poke x m w m' w' _ h := screens_wraps.poke x m w m' w' h
  calls h hh := by
    refine .read fun m => ?_
    split
    · exact .raise _
    · exact .ret _
    · rename_i c hc
      exact .bind (Client.Calls.of_call (made_of_starts hh hc)) fun _ =>
        .read fun _ => .write _ (.ret _)

/-! ## The whole -/

/-- The app of each device, the share screens that are opened, and all other screens. -/
inductive Part where
  | app (device : ℕ)
  | share (screen : ℕ)
  | screens
  deriving DecidableEq, Repr

def Part.client (same : User → User → Bool) : Part → Client Db Op Ans DartError Env
  | .app _ => appClient same
  | .share _ => shareClient
  | .screens => screensClient

/-- The calls of a part. Keys of posts have no slash, and the screens make no call for others. -/
def Part.Starts (same : User → User → Bool) : (p : Part) → (p.client same).κ → Prop
  | .app _ => fun _ => True
  | .share _ => fun c : ShareCall => IsDocId c.postKey
  | .screens => fun h : ScreenCall => ∀ c, h.tap ≠ .elsewhere c

/-- What happens besides the calls. The writes of others are steps of the other parts. -/
def Part.Happens (same : User → User → Bool) : (p : Part) → (p.client same).η → Prop
  | .app _ => fun x : AppPoke => ∀ ws, x ≠ .write ws
  | .share _ => fun x : SharingPoke => ∀ ws, x ≠ .here (.write ws)
  | .screens => fun _ => True

theorem part_serves (p : Part) :
    (p.client same).Serves backend (p.Starts same) (p.Happens same) Call.Made := by
  cases p with
  | app device => exact app_serves
  | share screen => exact share_serves
  | screens => exact screens_serve

abbrev WholeAct (same : User → User → Bool) : Type := (p : Part) × (p.client same).Act

/-- A step of the whole app. -/
def WholeAct.OfApp (a : WholeAct same) : Prop :=
  (a.1.client same).Allows (a.1.Starts same) (a.1.Happens same) a.2

/-- The whole app before anything has happened, over these documents. -/
def wholeInit (same : User → User → Bool) (docs : Store) (m : (p : Part) → (p.client same).M)
    (w : (p : Part) → (p.client same).W) : Joint (Part.client same) :=
  jointInit (Part.client same) ⟨docs, []⟩ m w

/-- The whole app refines the backend. Whatever the devices do, and in whatever order, the
documents are those of a run of the repositories' calls, and every one of these is a call that
the app makes. -/
theorem the_whole_app_refines_the_backend (docs : Store) (m : (p : Part) → (p.client same).M)
    (w : (p : Part) → (p.client same).W) (as : List (WholeAct same)) (has : ∀ a ∈ as, a.OfApp) :
    AllStates (jointStep (Part.client same)) (fun x => ∃ bs b, (∀ a ∈ bs, a.Starts Call.Made) ∧
      run (step backend) (backendInit docs) bs = some b ∧ b.world = x.world)
      (wholeInit same docs m w) as := by
  intro pre hpre x hx
  obtain ⟨bs, b, hbs, hb, hjoined⟩ :=
    joint_refines part_serves ⟨docs, []⟩ m w as has pre hpre x hx
  exact ⟨bs, b, hbs, hb, hjoined.world⟩

def annsMemory : (p : Part) → (p.client sameUid).M
  | .app _ => AppMem.initial
  | .share _ => annShares
  | .screens => annsDevice

def annsWorld : (p : Part) → (p.client sameUid).W
  | .app _ => signedOutWorld fun _ => none
  | .share _ => ⟨[], ⟨fun _ => none, []⟩⟩
  | .screens => ⟨fun _ => none, []⟩

def onApp (a : AppAct) : WholeAct sameUid := ⟨.app 0, a⟩
def onShare (a : Act ShareCall ShareEnv SharingPoke) : WholeAct sameUid := ⟨.share 0, a⟩
def onScreens (a : ScreensAct) : WholeAct sameUid := ⟨.screens, a⟩

def annsAccount : AppEnv := granted ⟨"ann", some "ann@mail.com"⟩

/-- Ann registers, shares a post, and taps its heart. -/
def annsDay : List (WholeAct sameUid) :=
  [onApp (.start 0 (.registerUser "ann@mail.com" "secret")), onApp (.resume 0 annsAccount),
   onApp (.resume 0 annsAccount), onApp (.resume 0 annsAccount), onApp (.resume 0 annsAccount),
   onShare (.start 0 annPost), onShare (.resume 0 shareOnline), onShare (.resume 0 shareOnline),
   onShare (.resume 0 shareOnline), onScreens (.start 0 ⟨0, .heart "p"⟩),
   onScreens (.resume 0 online)]

theorem annsDay_ofApp : ∀ a ∈ annsDay, a.OfApp := by
  simp only [annsDay, List.forall_mem_cons]
  refine ⟨trivial, trivial, trivial, trivial, trivial, ?_, trivial, trivial, trivial, ?_, trivial,
    by simp⟩
  · show IsDocId "p"
    decide
  · intro c he
    cases he

theorem the_whole_app_refines_the_backend_at_anns_day :
    (∀ a ∈ annsDay, a.OfApp) ∧
      AllStates (jointStep (Part.client sameUid)) (fun x => ∃ bs b,
        (∀ a ∈ bs, a.Starts Call.Made) ∧
        run (step backend) (backendInit fun _ => none) bs = some b ∧ b.world = x.world)
        (wholeInit sameUid (fun _ => none) annsMemory annsWorld) annsDay :=
  ⟨annsDay_ofApp, the_whole_app_refines_the_backend _ _ _ annsDay annsDay_ofApp⟩

/-! ## What is stored -/

/-- Every user document decodes to its fields, nobody has a negative number of followers, every
post has the number 0 for its likes and no counter of comments, and no post has a comment. -/
structure Stored (docs : Store) : Prop where
  users : ∀ u d, docs (userRef u) = some d →
    ∃ m, UserModel.fromSnapshot u (some d) = .ok m ∧ m.Decodes u d
  followers : ∀ u n, followersOf docs u = some n → 0 ≤ n
  posts : ∀ k d, IsDocId k → docs (postRef k) = some d → Misshapen d
  comments : ∀ k id, IsDocId k → docs (commentsOf k ++ [id]) = none

/-- What every run of calls that are made keeps of the posts and of what is under them. -/
structure PostsStored (b : BackendState) : Prop where
  calls : CallsGuarded Call.Made b
  posts : ∀ k, IsDocId k → PostGuarded k b
  comments : ∀ k id, IsDocId k → b.world.docs (commentsOf k ++ [id]) = none

theorem Call.Made.createsMapped {c : Call} (h : c.Made) (k : String) : c.CreatesMapped k := by
  rintro postData rfl
  exact h.2

theorem Call.Made.follows {c : Call} (h : c.Made) : c.Follows := by
  rintro my other rfl
  exact h

theorem postsStored_step (s : BackendState) (a : BackendAct) (t : BackendState)
    (ha : a.Starts Call.Made) (hs : PostsStored s) (h : step backend s a = some t) :
    PostsStored t := by
  have hmapped : ∀ k, a.Starts (Call.CreatesMapped k) := by
    intro k
    cases a with
    | start i c => exact Call.Made.createsMapped ha k
    | resume i e => trivial
    | poke x => trivial
  refine ⟨callsGuarded_step _ s a t ha hs.calls h,
    fun k hk => postGuarded_step hk s a t (hmapped k) (hs.posts k hk) h, fun k id hk => ?_⟩
  rcases backend_step h with ⟨c, ws, hcommits, hcommit, _⟩ | ⟨_, hdocs, _⟩
  · obtain ⟨hmade, hmay⟩ := mayCommit_of_commits hs.calls hcommits
    obtain ⟨i, e, f, _, hi, _⟩ := hcommits
    obtain ⟨_, ⟨_, hguard⟩, _⟩ := (hs.posts k hk).calls i c _ hi
    refine no_comment_commit ?_ hmay (fun hu => (hguard hu).1 ws rfl) hcommit (hs.comments k id hk)
    rintro k' d rfl
    exact hmade.1
  · rw [hdocs]
    exact hs.comments k id hk

theorem shaped_run {bs : List BackendAct} {b : BackendState}
    (hb : run (step backend) (backendInit fun _ => none) bs = some b) :
    UsersShaped b.world.docs := by
  have hinit : ShapeGuarded (backendInit fun _ => none) := guarded_init () fun u d hd => by cases hd
  have hguarded := run_keeps (A := fun _ => True) (fun _ _ _ _ hs h => shapeGuarded_step hs h)
    (fun _ _ => trivial) hinit hb
  exact hguarded.world

theorem stored_run {bs : List BackendAct} {b : BackendState}
    (hbs : ∀ a ∈ bs, a.Starts Call.Made)
    (hb : run (step backend) (backendInit fun _ => none) bs = some b) : Stored b.world.docs := by
  have hposts : PostsStored b :=
    run_keeps postsStored_step hbs ⟨callsGuarded_init _ _,
      fun k _ => guarded_init () fun d hd => (by cases hd), fun _ _ _ => rfl⟩ hb
  have hmade := history_run Call.Made (fun _ => none) hbs bs (List.prefix_refl _) b hb
  refine ⟨fun u d hd => (shaped_run hb u d hd).decodes u, fun u n hn => ?_,
    fun k d hk => (hposts.posts k hk).world d, hposts.comments⟩
  have hnobody : ∀ n : Int, followersOf (fun _ => none) u = some n → 0 ≤ n ∧ n ≤ 0 :=
    fun _ h => by cases h
  have hbounded :=
    followersBounded_run le_rfl le_rfl hnobody bs bs (List.prefix_refl _) b hb
  have hbound : 0 - (unfollowsOn u (history b) : Int) ≤ n := (hbounded.stored n hn).1
  rw [unfollowsOn_zero fun e he => ⟨(hmade e he).1.follows, (hmade e he).2⟩] at hbound
  simpa using hbound

/-- A step of the whole app loses no document. -/
theorem isSome_whole {docs : Store} {x y : Joint (Part.client same)} {a : WholeAct same}
    (ha : a.OfApp) (hx : Backed backend Call.Made ⟨docs, []⟩ x)
    (h : jointStep (Part.client same) x a = some y) (p : Path) (hp : (x.world.docs p).isSome) :
    (y.world.docs p).isSome :=
  backed_keeps part_serves (T := fun u v : Db => ∀ p, (u.docs p).isSome → (v.docs p).isSome)
    (fun _ _ h => h) (fun _ _ _ h h' p hp => h' p (h p hp)) (fun _ _ _ h p => isSome_backend h p)
    ha hx h p hp

/-- From the empty database on, in every run of the whole app, whatever registrations, logins,
shares, taps and typing interleave and whatever requests fail: every user document decodes, no
number of followers is negative, every post has the number 0 for its likes and no counter of
comments, and no comment is ever stored. And no step loses a document. -/
theorem what_the_whole_app_stores (m : (p : Part) → (p.client same).M)
    (w : (p : Part) → (p.client same).W) (as : List (WholeAct same)) (has : ∀ a ∈ as, a.OfApp) :
    AllStates (jointStep (Part.client same)) (fun x => Stored x.world.docs)
      (wholeInit same (fun _ => none) m w) as ∧
    AllSteps (jointStep (Part.client same)) (fun x _ y => ∀ p, (x.world.docs p).isSome →
      (y.world.docs p).isSome) (wholeInit same (fun _ => none) m w) as := by
  have hbacked := joint_refines (B := backend) part_serves ⟨fun _ => none, []⟩ m w as has
  constructor
  · intro pre hpre x hx
    obtain ⟨bs, b, hbs, hb, hjoined⟩ := hbacked pre hpre x hx
    rw [← hjoined.world]
    exact stored_run hbs hb
  · intro pre a hpre x y hx hy
    have hmem : a ∈ as := hpre.subset (List.mem_append_right pre List.mem_cons_self)
    exact isSome_whole (has a hmem)
      (hbacked pre ((List.prefix_append _ _).trans hpre) x hx) hy

theorem what_the_whole_app_stores_at_anns_day :
    (∀ a ∈ annsDay, a.OfApp) ∧
      AllStates (jointStep (Part.client sameUid)) (fun x => Stored x.world.docs)
        (wholeInit sameUid (fun _ => none) annsMemory annsWorld) annsDay :=
  ⟨annsDay_ofApp, (what_the_whole_app_stores annsMemory annsWorld annsDay annsDay_ofApp).1⟩

example : (run (jointStep (Part.client sameUid))
    (wholeInit sameUid (fun _ => none) annsMemory annsWorld) annsDay).map (fun x =>
      ((x.world.docs (userRef "ann")).isSome, (x.world.docs (postRef "p")).isSome,
        ((x.clients .screens).calls 0).isSome)) = some (true, true, true) := by decide

end instagram
