-- What the whole app shows. The feeds and the lists of users of all devices read what the whole
-- app stores, whenever their streams deliver. A list leaves out who is signed in on its device.
import Instagram.FeedScreen
import Instagram.UserList
import Instagram.WholeApp

namespace instagram

open docs firestore async runs

variable {same : User → User → Bool} {sort : PostSort}

/-! ## Feeds and lists beside the whole app -/

/-- The whole app, and the feed and the list of users of each device. -/
structure Shown (same : User → User → Bool) where
  whole : Joint (Part.client same)
  feeds : ℕ → FeedScreenState
  lists : ℕ → UserListState

/-- The database as it stands, with no call under way. -/
def Shown.backend (s : Shown same) : BackendState := init Op Ans DartError Call () s.whole.world

/-- What a feed or a list holds of the database is brought up to date before it is read. -/
def Shown.feed (s : Shown same) (device : ℕ) : FeedScreenState :=
  { s.feeds device with backend := s.backend }

def Shown.list (s : Shown same) (device : ℕ) : UserListState :=
  { s.lists device with backend := s.backend }

/-- `FirebaseAuth.instance.currentUser` of a device. -/
def Shown.currentUser (s : Shown same) (device : ℕ) : Option String :=
  let world : AppWorld := (s.whole.clients (.app device)).world
  world.currentUser.map Account.uid

inductive ShownAct (same : User → User → Bool) where
  | whole (a : WholeAct same)
  | feed (device : ℕ) (a : FeedScreenAct)
  | list (device : ℕ) (a : UserListAct)

def shownStep (same : User → User → Bool) (sort : PostSort) (s : Shown same) :
    ShownAct same → Option (Shown same)
  | .whole a => (jointStep (Part.client same) s.whole a).map fun whole => { s with whole }
  | .feed device a => (feedScreenStep sort (s.feed device) a).map fun feed =>
    { s with feeds := Function.update s.feeds device feed }
  | .list device a => (userListStep (s.currentUser device) (s.list device) a).map fun list =>
    { s with lists := Function.update s.lists device list }

/-- The calls are those of the whole app, and a snapshot shows what is stored when it is
delivered. -/
def ShownAct.Fits (s : Shown same) : ShownAct same → Prop
  | .whole a => a.OfApp
  | .feed device a => (∀ b, a ≠ .backend b) ∧ a.Fits (s.feed device)
  | .list device a => (∀ b, a ≠ .backend b) ∧ a.Delivers (s.list device)

def shownInit (same : User → User → Bool) (m : (p : Part) → (p.client same).M)
    (w : (p : Part) → (p.client same).W) : Shown same :=
  ⟨wholeInit same (fun _ => none) m w, fun _ => feedScreenInit [] fun _ => none,
    fun _ => userListInit fun _ => none⟩

/-- Who was signed in on a device when its list was delivered last. -/
def viewers (s : Shown same) (a : ShownAct same) (viewer : ℕ → Option String) :
    ℕ → Option String :=
  match a with
  | .list device (.snapshot _) =>
    Function.update viewer device ((s.currentUser device).or (viewer device))
  | _ => viewer

abbrev watchedShown (same : User → User → Bool) (sort : PostSort) :
    Shown same × (ℕ → Option String) → ShownAct same →
      Option (Shown same × (ℕ → Option String)) :=
  watch (shownStep same sort) viewers

/-! ## What is kept -/

/-- A list is empty, or that of others for the user whom it was delivered to. -/
def ListKept (docs : Store) (viewer : Option String) (list : UserListState) : Prop :=
  ∀ us, list.data = some us → us = [] ∨ ∃ uid, viewer = some uid ∧ ListsOthers uid docs us

/-- No feed holds a post, and the lists are of others. -/
structure ShownKept (s : Shown same) (viewer : ℕ → Option String) : Prop where
  whole : Backed backend Call.Made ⟨fun _ => none, []⟩ s.whole
  feeds : ∀ device, ScreenAll (fun _ => False) (s.feeds device)
  lists : ∀ device, ListKept s.whole.world.docs (viewer device) (s.lists device)

/-- Posts that the app stores have likes. -/
theorem likesStored_run {bs : List BackendAct} {b : BackendState}
    (hbs : ∀ a ∈ bs, a.Starts Call.Made)
    (hb : run (step backend) (backendInit fun _ => none) bs = some b) :
    LikesStored b.world.docs := by
  have hmapped : ∀ a ∈ bs, a.Starts fun c => ∀ k, c.CreatesMapped k := by
    intro a ha
    have hmade := hbs a ha
    cases a with
    | start i c => exact fun k => Call.Made.createsMapped hmade k
    | resume i e => trivial
    | poke x => trivial
  have hguarded := run_keeps (fun _ _ _ ha hs h => likesStored_step ha hs h) hmapped
    (guarded_init () fun _ _ hd => by cases hd) hb
  exact hguarded.world

variable {s t : Shown same} {viewer : ℕ → Option String}

theorem ShownKept.likes (hs : ShownKept s viewer) : LikesStored s.whole.world.docs := by
  obtain ⟨bs, b, hbs, hb, hjoined⟩ := hs.whole
  rw [← hjoined.world]
  exact likesStored_run hbs hb

theorem ShownKept.shaped (hs : ShownKept s viewer) : UsersShaped s.whole.world.docs := by
  obtain ⟨bs, b, _, hb, hjoined⟩ := hs.whole
  rw [← hjoined.world]
  exact shaped_run hb

theorem ShownKept.feed (hs : ShownKept s viewer) (device : ℕ) :
    ScreenAll (fun _ => False) (s.feed device) :=
  ⟨(hs.feeds device).feed, (hs.feeds device).posts⟩

/-! ## Steps -/

theorem kept_of_whole {a : WholeAct same} (ha : a.OfApp) (hs : ShownKept s viewer)
    (h : shownStep same sort s (.whole a) = some t) : ShownKept t viewer := by
  obtain ⟨whole, hwhole, rfl⟩ := Option.map_eq_some_iff.mp h
  refine ⟨backed_step part_serves ha hs.whole hwhole, hs.feeds, fun device us hus => ?_⟩
  refine (hs.lists device us hus).imp_right ?_
  rintro ⟨uid, huid, hothers⟩
  exact ⟨uid, huid, hothers.mono (isSome_whole ha hs.whole hwhole)⟩

/-- A feed is given nothing, as no stored post decodes. -/
theorem kept_of_feed (hsort : SortsAsDart sort) {device : ℕ} {a : FeedScreenAct}
    (ha : a.Fits (s.feed device)) (hs : ShownKept s viewer)
    (h : shownStep same sort s (.feed device a) = some t) : ShownKept t viewer := by
  obtain ⟨feed, hfeed, rfl⟩ := Option.map_eq_some_iff.mp h
  have hafter := screenAll_step hsort (gives_nothing hs.likes ha) (hs.feed device) hfeed
  refine ⟨hs.whole, ?_, hs.lists⟩
  exact (Function.forall_update_iff _ fun _ feed => ScreenAll (fun _ => False) feed).mpr
    ⟨hafter, fun device' _ => hs.feeds device'⟩

/-- A list is delivered to who is signed in. -/
theorem list_of_snapshot {device : ℕ} {snapshot : List (String × Doc)} {uid : String}
    (hs : ShownKept s viewer)
    (hdel : CollectionDelivers [COLLECTION_USERS] s.whole.world.docs snapshot)
    (huser : s.currentUser device = some uid)
    (h : shownStep same sort s (.list device (.snapshot snapshot)) = some t) :
    ∃ us, t = { s with lists := Function.update s.lists device ⟨s.backend, some us⟩ } ∧
      ListsOthers uid s.whole.world.docs us ∧ ListsAll uid s.whole.world.docs us := by
  obtain ⟨list, hlist, rfl⟩ := Option.map_eq_some_iff.mp h
  rw [huser] at hlist
  obtain ⟨us, rfl, hothers, hall⟩ := listed_of_snapshot hs.shaped hdel hlist
  exact ⟨us, rfl, hothers, hall⟩

theorem kept_of_list {device : ℕ} {snapshot : List (String × Doc)} (hs : ShownKept s viewer)
    (hdel : CollectionDelivers [COLLECTION_USERS] s.whole.world.docs snapshot)
    (h : shownStep same sort s (.list device (.snapshot snapshot)) = some t) :
    ShownKept t (viewers s (.list device (.snapshot snapshot)) viewer) := by
  have hlists : ∀ list, ListKept s.whole.world.docs
      ((s.currentUser device).or (viewer device)) list →
      ∀ device', ListKept s.whole.world.docs
        (Function.update viewer device ((s.currentUser device).or (viewer device)) device')
        (Function.update s.lists device list device') := by
    intro list hlist device'
    by_cases hd : device' = device
    · subst hd
      rw [Function.update_self, Function.update_self]
      exact hlist
    · rw [Function.update_of_ne hd, Function.update_of_ne hd]
      exact hs.lists device'
  cases huser : s.currentUser device with
  | some uid =>
    obtain ⟨us, rfl, hothers, _⟩ := list_of_snapshot hs hdel huser h
    refine ⟨hs.whole, hs.feeds, hlists _ fun us' hus => Or.inr ⟨uid, by rw [huser]; rfl, ?_⟩⟩
    cases hus
    exact hothers
  | none =>
    obtain ⟨list, hlist, rfl⟩ := Option.map_eq_some_iff.mp h
    rw [huser] at hlist
    refine ⟨hs.whole, hs.feeds, hlists _ ?_⟩
    rw [huser, Option.none_or]
    rcases step_unlisted hlist with rfl | hnil
    · exact hs.lists device
    · intro us hus
      rw [hnil] at hus
      exact Or.inl (Option.some.inj hus).symm

theorem shownKept_step (hsort : SortsAsDart sort) {a : ShownAct same} (ha : a.Fits s)
    (hs : ShownKept s viewer) (h : shownStep same sort s a = some t) :
    ShownKept t (viewers s a viewer) := by
  cases a with
  | whole a => exact kept_of_whole ha hs h
  | feed device a => exact kept_of_feed hsort ha.2 hs h
  | list device a =>
    cases a with
    | backend b => exact absurd rfl (ha.1 b)
    | snapshot snapshot => exact kept_of_list hs ha.2 h

/-! ## The law -/

/-- From the empty database on, whatever the whole app does and whenever the streams deliver:
the feed of every device shows the progress indicator in every state. A list of users holds
everybody but who is signed in, as stored, when it is delivered. Later it may be late, but it
shows only others who exist and have a name, nobody twice, and a tap on any row follows. -/
theorem what_the_whole_app_shows (sort : PostSort) (hsort : SortsAsDart sort)
    (m : (p : Part) → (p.client same).M) (w : (p : Part) → (p.client same).W)
    (as : List (ShownAct same))
    (hfits : AllSteps (watchedShown same sort) (fun s a _ => a.Fits s.1)
      (shownInit same m w, fun _ => none) as) :
    AllStates (watchedShown same sort) (fun s =>
        (∀ device userModel, (s.1.feed device).build userModel = .progress) ∧
        ∀ device us, (s.1.list device).data = some us → us = [] ∨ ∃ uid, s.2 device = some uid ∧
          ListsOthers uid s.1.whole.world.docs us ∧ RowsFollow uid s.1.whole.world us)
      (shownInit same m w, fun _ => none) as ∧
    AllSteps (watchedShown same sort) (fun s a t => ∀ device snapshot uid,
        a = .list device (.snapshot snapshot) → s.1.currentUser device = some uid →
        ∃ us, (t.1.list device).data = some us ∧ ListsAll uid s.1.whole.world.docs us)
      (shownInit same m w, fun _ => none) as := by
  have hinit : ShownKept (shownInit same m w) fun _ => none :=
    ⟨backed_init _ m w, fun _ => screenAll_init _ [] _, fun _ us hus => by cases hus⟩
  have hstep : ∀ s (a : ShownAct same) t, a.Fits s.1 → ShownKept s.1 s.2 →
      watchedShown same sort s a = some t → ShownKept t.1 t.2 := by
    intro s a t ha hs h
    obtain ⟨ht, hviewer⟩ := watch_some h
    rw [hviewer]
    exact shownKept_step hsort ha hs ht
  constructor
  · intro pre hpre s hrun
    have hs := allStates_of_steps hstep hfits hinit pre hpre s hrun
    refine ⟨fun device => build_eq_progress (hs.feed device),
      fun device us hus => (hs.lists device us hus).imp_right ?_⟩
    rintro ⟨uid, huid, hothers⟩
    exact ⟨uid, huid, hothers, rowsFollow hs.shaped hothers⟩
  · refine allSteps_of_steps hstep ?_ hfits hinit
    rintro s a t ha hs h device snapshot uid rfl huser
    obtain ⟨us, ht, _, hall⟩ := list_of_snapshot hs ha.2 huser (watch_some h).1
    refine ⟨us, ?_, hall⟩
    rw [ht]
    exact congrArg UserListState.data (Function.update_self device _ s.1.lists)

/-- A registration on a device, with the answers that it waits for. -/
def registers (device : ℕ) (account : Account) (email : String) : List (ShownAct sameUid) :=
  [.start 0 (.registerUser email "secret"), .resume 0 (granted account),
    .resume 0 (granted account), .resume 0 (granted account), .resume 0 (granted account)].map
    fun a : AppAct => .whole ⟨.app device, a⟩

/-- Bob and Ann register, and Ann's feed is of Bob's posts. -/
def twoRegister : List (ShownAct sameUid) :=
  registers 1 ⟨"bob", some "bob@mail.com"⟩ "bob@mail.com" ++
    registers 0 ⟨"ann", some "ann@mail.com"⟩ "ann@mail.com" ++ [.feed 0 (.rebuild ["bob"])]

def annsDoc : Doc :=
  mapOf
    [(KEY_PROFILEIMG, str ""), (KEY_USERNAME, str "ann"), (KEY_EMAIL, str "ann@mail.com"),
     (KEY_LIKEDPOSTS, .list []), (KEY_FOLLOWERS, int 0), (KEY_FOLLOWINGS, .list []),
     (KEY_MYPOSTS, .list [])]

def feedOfBob : ShownAct sameUid := .feed 0 (.delivery 0 ⟨[], fun _ => (0, 0)⟩)
def listOfAnn : ShownAct sameUid := .list 0 (.snapshot [("ann", annsDoc), ("bob", bobsDoc)])

def twoUsers : Store :=
  Function.update (Function.update (fun _ => none) (userRef "bob") (some bobsDoc)) (userRef "ann")
    (some annsDoc)

theorem twoUsers_delivers :
    CollectionDelivers [COLLECTION_USERS] twoUsers [("ann", annsDoc), ("bob", bobsDoc)] := by
  refine ⟨by simp, fun id d => ?_⟩
  simp only [List.mem_cons, List.not_mem_nil, or_false, Prod.mk.injEq]
  by_cases hann : id = "ann"
  · subst hann
    have hdoc : twoUsers ([COLLECTION_USERS] ++ ["ann"]) = some annsDoc := rfl
    rw [hdoc, Option.some.injEq]
    constructor
    · rintro (⟨_, rfl⟩ | ⟨hbob, _⟩)
      · exact ⟨by decide, rfl⟩
      · simp at hbob
    · rintro ⟨_, rfl⟩
      exact Or.inl ⟨rfl, rfl⟩
  · by_cases hbob : id = "bob"
    · subst hbob
      have hdoc : twoUsers ([COLLECTION_USERS] ++ ["bob"]) = some bobsDoc := rfl
      rw [hdoc, Option.some.injEq]
      constructor
      · rintro (⟨hann', _⟩ | ⟨_, rfl⟩)
        · exact absurd hann' hann
        · exact ⟨by decide, rfl⟩
      · rintro ⟨_, rfl⟩
        exact Or.inr ⟨rfl, rfl⟩
    · have hne : ∀ name, IsDocId name → id ≠ name → [COLLECTION_USERS] ++ [id] ≠ userRef name := by
        intro name hname hid he
        rw [userRef_docId hname] at he
        exact hid (by simpa using he)
      have hnone : twoUsers ([COLLECTION_USERS] ++ [id]) = none := by
        unfold twoUsers
        rw [Function.update_of_ne (hne "ann" (by decide) hann),
          Function.update_of_ne (hne "bob" (by decide) hbob)]
      rw [hnone]
      simp [hann, hbob]

/-- No post is stored. -/
theorem noPost_delivers {q : WhereQuery} (hq : q.collection = [COLLECTION_POST]) :
    q.Delivers twoUsers [] := by
  refine ⟨by simp, fun id d => ?_⟩
  have hnone : twoUsers [COLLECTION_POST, id] = none := by
    unfold twoUsers
    rw [Function.update_of_ne (ne_post_of_head rfl id).symm,
      Function.update_of_ne (ne_post_of_head rfl id).symm]
  rw [hq]
  show _ ↔ twoUsers [COLLECTION_POST, id] = some d ∧ _
  rw [hnone]
  simp

theorem register_fits (s : Shown sameUid) : ∀ a ∈ twoRegister, a.Fits s := by
  simp only [twoRegister, registers, List.map_cons, List.map_nil, List.cons_append,
    List.nil_append, List.forall_mem_cons]
  exact ⟨trivial, trivial, trivial, trivial, trivial, trivial, trivial, trivial, trivial, trivial,
    ⟨fun b hb => (by cases hb), trivial⟩, by simp⟩

theorem looks_fit (sort : PostSort) :
    AllSteps (watchedShown sameUid sort) (fun s a _ => a.Fits s.1)
      (shownInit sameUid annsMemory annsWorld, fun _ => none)
      (twoRegister ++ [feedOfBob] ++ [listOfAnn]) := by
  refine allSteps_snoc.mpr ⟨allSteps_snoc.mpr ⟨?_, ?_⟩, ?_⟩
  · exact fun pre a hpre s _ _ _ =>
      register_fits s.1 a (hpre.subset (List.mem_append_right pre List.mem_cons_self))
  · intro s t hs _
    obtain ⟨hdocs, hfollowers⟩ : s.1.whole.world.docs = twoUsers ∧
        (s.1.feeds 0).followers = ["bob"] := by
      cases hs
      exact ⟨rfl, rfl⟩
    obtain ⟨q, hq, hposts⟩ : ∃ q, (fetchPostsFromAllFollowers (s.1.feeds 0).followers)[0]? =
        some q ∧ q.collection = [COLLECTION_POST] := by
      rw [hfollowers]
      exact ⟨_, rfl, rfl⟩
    refine ⟨fun b hb => (by cases hb), q, hq, ?_⟩
    show q.Delivers s.1.whole.world.docs []
    rw [hdocs]
    exact noPost_delivers hposts
  · intro s t hs _
    have hdocs : s.1.whole.world.docs = twoUsers := by
      cases hs
      rfl
    refine ⟨fun b hb => (by cases hb), ?_⟩
    show CollectionDelivers [COLLECTION_USERS] s.1.whole.world.docs _
    rw [hdocs]
    exact twoUsers_delivers

/-- Ann's feed goes on to show the progress indicator, and her list holds Bob. -/
theorem what_the_whole_app_shows_at_two_users :
    SortsAsDart (fun (cmp : PostModel → PostModel → Int) l =>
        l.mergeSort fun a b => decide (cmp a b ≤ 0)) ∧
      AllSteps (watchedShown sameUid fun cmp l => l.mergeSort fun a b => decide (cmp a b ≤ 0))
        (fun s a t => ∀ device snapshot uid, a = .list device (.snapshot snapshot) →
          s.1.currentUser device = some uid →
          ∃ us, (t.1.list device).data = some us ∧ ListsAll uid s.1.whole.world.docs us)
        (shownInit sameUid annsMemory annsWorld, fun _ => none)
        (twoRegister ++ [feedOfBob] ++ [listOfAnn]) :=
  ⟨mergeSort_sortsAsDart, (what_the_whole_app_shows _ mergeSort_sortsAsDart annsMemory annsWorld _
    (looks_fit _)).2⟩

end instagram
