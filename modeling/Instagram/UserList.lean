-- The users of the search screen. `toUsersExceptMe` leaves out the user who looks and decodes
-- everybody else, and a tap on a row follows the user of that row. The list is as old as its
-- last snapshot, while the users go on changing behind it.
import Instagram.SearchScreen
import Instagram.UserShape

namespace instagram

open docs firestore async runs

/-! ## The stream of users -/

/-- What a snapshot of a whole collection holds: every document of it, each once. -/
structure CollectionDelivers (collection : Path) (docs : Store) (snapshot : List (String × Doc)) :
    Prop where
  ids : (snapshot.map Prod.fst).Nodup
  docs : ∀ id d, (id, d) ∈ snapshot ↔ IsDocId id ∧ docs (collection ++ [id]) = some d

/-- `toUsersExceptMe`. With no user signed in, the first document raises on `_user.uid`. -/
def toUsersExceptMe (user : Option String) (snapshot : List (String × Doc)) :
    Except DartError (List UserModel) :=
  snapshot.foldlM (fun users (id, map) =>
    match user with
    | none => .error .noSuchMethod
    | some uid =>
      if uid ≠ id then do
        let model ← UserModel.fromSnapshot id (some map)
        pure (users ++ [model])
      else pure users) []

/-! ## The screen over the backend -/

/-- The backend, and the last list that the stream gave to the screen. -/
structure UserListState where
  backend : BackendState
  data : Option (List UserModel)

/-- A step of the backend, or a snapshot of `getAllUsersWithoutMe` that is delivered. -/
inductive UserListAct where
  | backend (a : BackendAct)
  | snapshot (docs : List (String × Doc))

/-- A snapshot that raises adds no list to the stream. -/
def userListStep (user : Option String) (s : UserListState) : UserListAct → Option UserListState
  | .backend a => (step backend s.backend a).map fun t => { s with backend := t }
  | .snapshot docs =>
    match toUsersExceptMe user docs with
    | .ok users => some { s with data := some users }
    | .error _ => some s

def userListInit (docs : Store) : UserListState := ⟨backendInit docs, none⟩

/-- A snapshot shows the users who are stored when it is delivered. -/
def UserListAct.Delivers (s : UserListState) : UserListAct → Prop
  | .backend _ => True
  | .snapshot docs => CollectionDelivers [COLLECTION_USERS] s.backend.world.docs docs

/-! ## Decoding a snapshot -/

theorem userRef_docId {id : String} (h : IsDocId id) : userRef id = [COLLECTION_USERS] ++ [id] := by
  unfold userRef docRef
  rw [segments_docId h]

/-- Documents of the shape decode, all but the own one. -/
theorem foldlM_toUsersExceptMe (uid : String) (users : List UserModel)
    {snapshot : List (String × Doc)} (h : ∀ e ∈ snapshot, UserShape e.2) :
    ∃ us, snapshot.foldlM (fun users (id, map) =>
        if uid ≠ id then do
          let model ← UserModel.fromSnapshot id (some map)
          pure (users ++ [model])
        else (pure users : Except DartError (List UserModel))) users = .ok (users ++ us) ∧
      List.Forall₂ (fun m e => m.Decodes e.1 e.2) us (snapshot.filter fun e => uid ≠ e.1) := by
  induction snapshot generalizing users with
  | nil => exact ⟨[], by simp; rfl, .nil⟩
  | cons e snapshot ih =>
    obtain ⟨id, d⟩ := e
    have hrest : ∀ e ∈ snapshot, UserShape e.2 := fun e he => h e (List.mem_cons_of_mem _ he)
    rw [List.foldlM_cons]
    by_cases hid : uid ≠ id
    · obtain ⟨m, hm, hdecodes⟩ := (h (id, d) List.mem_cons_self).decodes id
      obtain ⟨us, hus, hall⟩ := ih (users ++ [m]) hrest
      refine ⟨m :: us, ?_, ?_⟩
      · simp only [if_pos hid, hm]
        rw [List.append_cons]
        exact hus
      · rw [List.filter_cons_of_pos (by simpa using hid)]
        exact .cons hdecodes hall
    · obtain ⟨us, hus, hall⟩ := ih users hrest
      refine ⟨us, ?_, ?_⟩
      · simp only [if_neg hid]
        exact hus
      · rw [List.filter_cons_of_neg (by simpa using hid)]
        exact hall

theorem toUsersExceptMe_ok (uid : String) {snapshot : List (String × Doc)}
    (h : ∀ e ∈ snapshot, UserShape e.2) :
    ∃ us, toUsersExceptMe (some uid) snapshot = .ok us ∧
      List.Forall₂ (fun m e => m.Decodes e.1 e.2) us (snapshot.filter fun e => uid ≠ e.1) := by
  obtain ⟨us, hus, hall⟩ := foldlM_toUsersExceptMe uid [] h
  exact ⟨us, hus, hall⟩

/-- Without a user, any document raises. -/
theorem toUsersExceptMe_none {snapshot : List (String × Doc)} (h : snapshot ≠ []) :
    toUsersExceptMe none snapshot = .error .noSuchMethod := by
  cases snapshot with
  | nil => exact absurd rfl h
  | cons e snapshot => rfl

/-! ## What the list shows -/

/-- The list is without `uid`, has nobody twice, and only users who exist and have a name. -/
structure ListsOthers (uid : String) (docs : Store) (users : List UserModel) : Prop where
  once : (users.map UserModel.userKey).Nodup
  others : uid ∉ users.map UserModel.userKey
  exist : ∀ m ∈ users, (docs (userRef m.userKey)).isSome
  named : ∀ m ∈ users, m.username.isSome

/-- Everybody else is on the list, as stored. -/
structure ListsAll (uid : String) (docs : Store) (users : List UserModel) : Prop where
  all : ∀ id d, IsDocId id → id ≠ uid → docs (userRef id) = some d →
    ∃ m ∈ users, m.Decodes id d
  stored : ∀ m ∈ users, ∃ d, docs (userRef m.userKey) = some d ∧ m.Decodes m.userKey d

theorem mem_of_forall₂ {β δ : Type} {R : β → δ → Prop} {l : List β} {l' : List δ}
    (h : List.Forall₂ R l l') {b : β} (hb : b ∈ l) : ∃ d ∈ l', R b d := by
  induction h with
  | nil => cases hb
  | cons hR _ ih =>
    rcases List.mem_cons.mp hb with rfl | hb
    · exact ⟨_, List.mem_cons_self, hR⟩
    · obtain ⟨d, hd, hbd⟩ := ih hb
      exact ⟨d, List.mem_cons_of_mem _ hd, hbd⟩

theorem lists_of_snapshot {uid : String} {docs : Store} {snapshot : List (String × Doc)}
    {us : List UserModel} (hshaped : UsersShaped docs)
    (hsnap : CollectionDelivers [COLLECTION_USERS] docs snapshot)
    (hall : List.Forall₂ (fun m e => m.Decodes e.1 e.2) us (snapshot.filter fun e => uid ≠ e.1)) :
    ListsOthers uid docs us ∧ ListsAll uid docs us := by
  have hkeys : us.map UserModel.userKey = (snapshot.filter fun e => uid ≠ e.1).map Prod.fst := by
    rw [← List.forall₂_eq_eq_eq]
    exact List.forall₂_map_left_iff.mpr (List.forall₂_map_right_iff.mpr
      (hall.imp fun _ _ h => h.userKey))
  have hstored : ∀ m ∈ us, ∃ d, docs (userRef m.userKey) = some d ∧ m.Decodes m.userKey d := by
    intro m hm
    obtain ⟨⟨id, d⟩, he, hdecodes⟩ := mem_of_forall₂ hall hm
    obtain ⟨hid, hd⟩ := (hsnap.docs id d).mp (List.mem_filter.mp he).1
    obtain rfl : m.userKey = id := hdecodes.userKey
    exact ⟨d, by rw [userRef_docId hid]; exact hd, hdecodes⟩
  refine ⟨⟨?_, ?_, ?_, ?_⟩, ⟨?_, hstored⟩⟩
  · rw [hkeys]
    exact (hsnap.ids.sublist (List.filter_sublist.map _))
  · rw [hkeys]
    intro hmem
    obtain ⟨e, he, rfl⟩ := List.mem_map.mp hmem
    simpa using (List.mem_filter.mp he).2
  · intro m hm
    obtain ⟨d, hd, _⟩ := hstored m hm
    rw [hd]
    rfl
  · intro m hm
    obtain ⟨d, hd, hdecodes⟩ := hstored m hm
    obtain ⟨username, _, husername, _⟩ := (hshaped _ d hd).names
    have hname := hdecodes.username
    rw [husername] at hname
    exact Option.isSome_map.symm.trans (congrArg Option.isSome hname)
  · intro id d hid hne hd
    rw [userRef_docId hid] at hd
    have hmem : (id, d) ∈ snapshot.filter fun e => uid ≠ e.1 :=
      List.mem_filter.mpr ⟨(hsnap.docs id d).mpr ⟨hid, hd⟩, by simpa using hne.symm⟩
    obtain ⟨m, hm, hdecodes⟩ := mem_of_forall₂ hall.flip hmem
    exact ⟨m, hm, hdecodes⟩

theorem ListsOthers.mono {uid : String} {docs docs' : Store} {users : List UserModel}
    (h : ListsOthers uid docs users) (hdocs : ∀ p, (docs p).isSome → (docs' p).isSome) :
    ListsOthers uid docs' users :=
  ⟨h.once, h.others, fun m hm => hdocs _ (h.exist m hm), h.named⟩

/-! ## Rows that are tapped -/

/-- A tap on any row follows the user of the row, who gets one follower more. -/
def RowsFollow (uid : String) (w : Db) (users : List UserModel) : Prop :=
  ∀ m ∈ users, ∀ s : SearchScreen, s.db = w →
    (∃ me, s.myUserModelState.userModel = some me ∧ me.userKey = uid) →
    (w.docs (userRef uid)).isSome →
    ∃ n t, followersOf w.docs m.userKey = some n ∧ tap s m.userKey = some t ∧
      followersOf t.db.docs m.userKey = some (n + 1) ∧ following t.db.docs uid m.userKey = true

theorem rowsFollow {uid : String} {w : Db} {users : List UserModel} (hshaped : UsersShaped w.docs)
    (h : ListsOthers uid w.docs users) : RowsFollow uid w users := by
  rintro m hm s rfl hme hown
  have hne : m.userKey ≠ uid := fun he => h.others (he ▸ List.mem_map_of_mem hm)
  obtain ⟨d, hd⟩ := Option.isSome_iff_exists.mp (h.exist m hm)
  obtain ⟨n, hn⟩ := (hshaped _ d hd).followers
  obtain ⟨own, hown⟩ := Option.isSome_iff_exists.mp hown
  obtain ⟨stored, hstored, _⟩ := (hshaped uid own hown).decodes uid
  have hcount : followersOf s.db.docs m.userKey = some n := by
    unfold followersOf
    rw [hd, Option.bind_some, hn]
    rfl
  obtain ⟨t, ht, hlast, hfollowing⟩ :=
    tap_follows hne ⟨hme, ⟨stored, by rw [hown, hstored]⟩, hcount⟩
  exact ⟨n, t, hcount, ht, hlast.count, hfollowing⟩

/-! ## Runs -/

/-- The users have their shape, and the list shows others only. -/
structure ListFits (uid : String) (s : UserListState) : Prop where
  backend : DocsGuarded UsersShaped ReadsShaped (fun _ => True) (fun c o _ => c.Guarantee o)
    s.backend
  listed : ∀ us, s.data = some us → ListsOthers uid s.backend.world.docs us

/-- A list that a snapshot gives is that of everybody else. -/
theorem listed_of_snapshot {uid : String} {s t : UserListState} {snapshot : List (String × Doc)}
    (hshaped : UsersShaped s.backend.world.docs)
    (hsnap : CollectionDelivers [COLLECTION_USERS] s.backend.world.docs snapshot)
    (h : userListStep (some uid) s (.snapshot snapshot) = some t) :
    ∃ us, t = { s with data := some us } ∧ ListsOthers uid s.backend.world.docs us ∧
      ListsAll uid s.backend.world.docs us := by
  have hshapes : ∀ e ∈ snapshot, UserShape e.2 := by
    rintro ⟨id, d⟩ he
    obtain ⟨hid, hd⟩ := (hsnap.docs id d).mp he
    exact hshaped id d (by rw [userRef_docId hid]; exact hd)
  obtain ⟨us, hus, hall⟩ := toUsersExceptMe_ok uid hshapes
  obtain ⟨hothers, heach⟩ := lists_of_snapshot hshaped hsnap hall
  simp only [userListStep, hus] at h
  exact ⟨us, (Option.some.inj h).symm, hothers, heach⟩

theorem listFits_step {uid : String} {s t : UserListState} {a : UserListAct}
    (hdel : a.Delivers s) (hs : ListFits uid s) (h : userListStep (some uid) s a = some t) :
    ListFits uid t := by
  cases a with
  | backend a =>
    obtain ⟨b, hb, rfl⟩ := Option.map_eq_some_iff.mp h
    exact ⟨shapeGuarded_step hs.backend hb,
      fun us hus => (hs.listed us hus).mono (isSome_backend hb)⟩
  | snapshot snapshot =>
    obtain ⟨us, rfl, hothers, _⟩ := listed_of_snapshot hs.backend.world hdel h
    refine ⟨hs.backend, fun us' hus => ?_⟩
    cases hus
    exact hothers

/-- With nobody signed in a snapshot adds no list but the empty one. -/
theorem step_unlisted {s t : UserListState} {snapshot : List (String × Doc)}
    (h : userListStep none s (.snapshot snapshot) = some t) : t = s ∨ t.data = some [] := by
  by_cases hsnap : snapshot = []
  · subst hsnap
    cases h
    exact Or.inr rfl
  · simp only [userListStep, toUsersExceptMe_none hsnap] at h
    cases h
    exact Or.inl rfl

theorem unlisted_step {s t : UserListState} {a : UserListAct}
    (hs : ∀ us, s.data = some us → us = []) (h : userListStep none s a = some t) :
    ∀ us, t.data = some us → us = [] := by
  cases a with
  | backend a =>
    obtain ⟨b, _, rfl⟩ := Option.map_eq_some_iff.mp h
    exact hs
  | snapshot snapshot =>
    rcases step_unlisted h with rfl | hnil
    · exact hs
    · intro us hus
      rw [hnil] at hus
      exact (Option.some.inj hus).symm

/-- From an empty collection of users on, whatever runs and whenever the stream delivers: each
snapshot gives the list of everybody else, as stored. Between two snapshots the list may be
late, but it never shows the user who looks, never anybody twice, nor anybody who does not
exist or has no name, and a tap on any of its rows follows. With nobody signed in, no user is
ever listed. -/
theorem the_user_list_shows_everybody_else (uid : String) (docs : Store)
    (hempty : ∀ u, docs (userRef u) = none) (as : List UserListAct)
    (hdel : AllSteps (userListStep (some uid)) (fun s a _ => a.Delivers s) (userListInit docs) as) :
    AllStates (userListStep (some uid)) (fun t => ∀ us, t.data = some us →
        ListsOthers uid t.backend.world.docs us ∧ RowsFollow uid t.backend.world us)
      (userListInit docs) as ∧
    AllSteps (userListStep (some uid)) (fun s a t => ∀ snapshot, a = .snapshot snapshot →
        ∃ us, t.data = some us ∧ ListsAll uid s.backend.world.docs us)
      (userListInit docs) as ∧
    AllStates (userListStep none) (fun t => ∀ us, t.data = some us → us = [])
      (userListInit docs) as := by
  have hstart : UsersShaped docs := fun u d hd => by rw [hempty u] at hd; cases hd
  have hinit : ListFits uid (userListInit docs) :=
    ⟨guarded_init () hstart, fun us hus => by cases hus⟩
  have hstep : ∀ s (a : UserListAct) t, a.Delivers s → ListFits uid s →
      userListStep (some uid) s a = some t → ListFits uid t :=
    fun s a t ha hs h => listFits_step ha hs h
  refine ⟨fun pre hpre t ht us hus => ?_, ?_, ?_⟩
  · have hfits := allStates_of_steps hstep hdel hinit pre hpre t ht
    have hothers := hfits.listed us hus
    exact ⟨hothers, rowsFollow hfits.backend.world hothers⟩
  · refine allSteps_of_steps hstep ?_ hdel hinit
    rintro s a t ha hs h snapshot rfl
    obtain ⟨us, rfl, _, hall⟩ := listed_of_snapshot hs.backend.world ha h
    exact ⟨us, rfl, hall⟩
  · exact allStates_of_keeps (A := fun _ => True) (fun _ _ _ _ hs h => unlisted_step hs h)
      (fun _ _ => trivial) fun us hus => by cases hus

/-- Bob signs up, and then Ann's list is delivered. -/
def bobSignsUp : List UserListAct :=
  [.start 0 (.attemptCreateUser "bob" (some "bob@mail.com")), .resume 0 online,
    .resume 0 online].map .backend

def bobsDoc : Doc :=
  mapOf
    [(KEY_PROFILEIMG, str ""), (KEY_USERNAME, str "bob"), (KEY_EMAIL, str "bob@mail.com"),
     (KEY_LIKEDPOSTS, .list []), (KEY_FOLLOWERS, int 0), (KEY_FOLLOWINGS, .list []),
     (KEY_MYPOSTS, .list [])]

/-- What Bob's sign up stores. -/
theorem bobs_snapshot_delivers {s : UserListState}
    (h : run (userListStep (some "ann")) (userListInit fun _ => none) bobSignsUp = some s) :
    CollectionDelivers [COLLECTION_USERS] s.backend.world.docs [("bob", bobsDoc)] := by
  have hdocs : s.backend.world.docs =
      Function.update (fun _ => none) (userRef "bob") (some bobsDoc) := by
    cases h
    rfl
  refine ⟨by simp, fun id d => ?_⟩
  rw [List.mem_singleton, Prod.mk.injEq, hdocs]
  by_cases hid : id = "bob"
  · subst hid
    show _ ↔ IsDocId "bob" ∧ Function.update _ (userRef "bob") _ (userRef "bob") = _
    rw [Function.update_self, Option.some.injEq]
    exact ⟨fun ⟨_, hd⟩ => ⟨by decide, hd.symm⟩, fun ⟨_, hd⟩ => ⟨rfl, hd.symm⟩⟩
  · have hne : [COLLECTION_USERS] ++ [id] ≠ userRef "bob" := fun he => hid (by cases he; rfl)
    rw [Function.update_of_ne hne]
    exact ⟨fun h => absurd h.1 hid, fun h => by cases h.2⟩

theorem the_user_list_shows_everybody_else_at_bobs_sign_up :
    (∀ u, (fun _ => none : Store) (userRef u) = none) ∧
      AllStates (userListStep (some "ann")) (fun t => ∀ us, t.data = some us →
          ListsOthers "ann" t.backend.world.docs us ∧ RowsFollow "ann" t.backend.world us)
        (userListInit fun _ => none) (bobSignsUp ++ [.snapshot [("bob", bobsDoc)]]) := by
  refine ⟨fun _ => rfl, ?_⟩
  refine (the_user_list_shows_everybody_else "ann" _ (fun _ => rfl) _ ?_).1
  refine allSteps_snoc.mpr ⟨fun pre a hpre t u _ _ => ?_, fun t u ht _ => bobs_snapshot_delivers ht⟩
  obtain ⟨b, _, rfl⟩ := List.mem_map.mp (hpre.subset (List.mem_append_right pre List.mem_cons_self))
  trivial

end instagram
