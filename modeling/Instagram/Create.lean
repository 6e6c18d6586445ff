-- Create if absent. `attemptCreateUser` and `createNewPost` look whether their document is
-- there, and write it later. The write replaces the whole document, so all depends on what is
-- committed between the look and the write.
import Instagram.FollowLists

namespace instagram

open docs firestore async runs

/-- The write step of a create call: it puts the document `d` at the path `p`. -/
def CreateTx (c : Call) (p : Path) (d : Doc) (ws : List Write) : Prop :=
  (∃ userKey email, c = .attemptCreateUser userKey email ∧ p = userRef userKey ∧
    UserModel.getMapForCreateUser email = .ok d ∧ ws = [.set p d]) ∨
  ∃ postKey author, c = .createNewPost postKey d ∧ p = postRef postKey ∧
    author.head? = some COLLECTION_USERS ∧ ws = createWrites postKey d author

/-- The write step of a create call leaves an existing document as it is, and on a free path
it gives the contents. -/
def NeverOverwrites (s : BackendState) (a : BackendAct) (t : BackendState) : Prop :=
  ∀ c p d ws, CreateTx c p d ws → Commits s a c ws →
    t.world.docs p = some ((s.world.docs p).getD d)

/-- The event has put a document at `p`, where maybe none was. Besides the create calls for `p`
only a comment can do so, when the slashes of a key spell its path. -/
def Creates (p : Path) (ev : Event Op Ans Call) : Prop :=
  ∃ c ws d, committed ev = some (c, ws) ∧ .set p d ∈ ws

/-- The call `i` has read that there is no document at `p`, and since then none was put
there. -/
def FoundFree (i : ℕ) (c : Call) (p : Path) (s : BackendState) : Prop :=
  ∃ before since, s.trace = before ++ ⟨i, c, .get p, .ok none⟩ :: since ∧
    ∀ ev ∈ since, ¬ Creates p ev

/-- When a create call writes, nobody has created its document since its own read, unless just
what it writes is there. -/
def NoneComesBetween (s : BackendState) (a : BackendAct) : Prop :=
  ∀ i e c p d ws, a = .resume i e → CreateTx c p d ws → Commits s a c ws →
    FoundFree i c p s ∨ s.world.docs p = some d

/-- A create call leaves its document behind. -/
theorem docs_createTx {docs docs' : Store} {c : Call} {p : Path} {d : Doc} {ws : List Write}
    (htx : CreateTx c p d ws) (h : commit docs ws = some docs') : docs' p = some d := by
  rcases htx with ⟨_, _, _, _, _, rfl⟩ | ⟨postKey, author, _, rfl, hauthor, rfl⟩
  · cases h
    exact Function.update_self _ _ _
  · exact docs_createWrites hauthor h

/-! ## What a waiting create call has read -/

/-- A read at `p` finds a document. -/
def FindsDoc (p : Path) : (o : Op) → Ans o → Prop
  | .get ref, a => ref = p → a ≠ .ok none
  | _, _ => True

theorem not_createTx_nil {c : Call} {p : Path} {d : Doc} : ¬ CreateTx c p d [] := by
  rintro (⟨_, _, _, _, _, hws⟩ | ⟨_, _, _, _, _, hws⟩)
  · cases hws
  · cases hws

/-- A program that has found a document at `p` creates none there. -/
theorem creates_nothing_found (c : Call) (p : Path) :
    c.prog.Awaits (FindsDoc p) fun o _ => ∀ d ws, o = .commit ws → ¬ CreateTx c p d ws := by
  cases c with
  | attemptCreateUser userKey email =>
    refine get_awaits (fun _ _ ho => by cases ho) fun snapshot hfound => ?_
    split
    · rename_i hnone
      refine ofExcept_awaits fun map _ => commit_awaits ?_
      rintro d ws _ (⟨_, _, hc, hp, _⟩ | ⟨_, _, hc, _⟩)
      · cases hc
        exact hfound hp.symm (congrArg Except.ok (Option.isNone_iff_eq_none.mp hnone))
      · cases hc
    · trivial
  | createNewPost postKey postData =>
    refine get_awaits (fun _ _ ho => by cases ho) fun snapshot hfound => ?_
    have htx : ∀ author : Path, (runTransaction do
        if snapshot.isNone then
          Tx.set (postRef postKey) postData
          Tx.update author [(KEY_MYPOSTS, .arrayUnion [.str postKey])]).Awaits (FindsDoc p)
        fun o _ => ∀ d ws, o = .commit ws →
          ¬ CreateTx (.createNewPost postKey postData) p d ws := by
      intro author
      refine runTransaction_awaits fun ws hws d vs hvs htx => ?_
      cases hvs
      split at hws
      · rename_i hnone
        rcases htx with ⟨_, _, hc, _⟩ | ⟨_, _, hc, hp, _⟩
        · cases hc
        · cases hc
          exact hfound hp.symm (congrArg Except.ok (Option.isNone_iff_eq_none.mp hnone))
      · cases hws
        exact not_createTx_nil htx
    refine ofExcept_awaits fun ref _ => ?_
    cases ref with
    | none => exact newDoc_awaits (fun _ _ ho => by cases ho) fun id _ => htx _
    | some author => exact htx author
  | followUser | unfollowUser | updatePostImageUrl | toggleLike | createNewComment =>
    refine awaits_of_forall (fun o k d ws _ htx => ?_) _
    rcases htx with ⟨_, _, hc, _⟩ | ⟨_, _, hc, _⟩
    · cases hc
    · cases hc

/-- A call has read that there is nothing at `p`, or it will create nothing there. -/
def MayCreate (i : ℕ) (c : Call) (log : List (Event Op Ans Call))
    (parked : Parked Unit Op Ans DartError Unit) : Prop :=
  ∀ p, ⟨i, c, .get p, .ok none⟩ ∈ log ∨
    parked.Awaits (FindsDoc p) fun o _ => ∀ d ws, o = .commit ws → ¬ CreateTx c p d ws

/-- What a call has read answers for what it creates. What was created stands, and after a read
that found nothing there is nothing until something is created. -/
structure CreatesRead (s : BackendState) : Prop where
  started : ∀ ev ∈ s.trace, (s.calls ev.id).isSome
  read : Logged MayCreate s
  stands : ∀ p, ∀ ev ∈ s.trace, Creates p ev → (s.world.docs p).isSome
  free : ∀ i c p, FoundFree i c p s → s.world.docs p = none

theorem createsRead_init (docs : Store) : CreatesRead (backendInit docs) := by
  refine ⟨nofun, nofun, nofun, ?_⟩
  rintro i c p ⟨before, since, htrace, _⟩
  exact absurd htrace (by simp [backendInit, init])

theorem mayCreate_resume {i : ℕ} {c : Call} {log : List (Event Op Ans Call)} {o : Op}
    {k : Ans o → Fire Unit} (h : MayCreate i c log (.waiting o k)) (a : Ans o) :
    MayCreate i c (log ++ [⟨i, c, o, a⟩]) ((k a).settle ()).2 := by
  intro p
  rcases h p with hmem | ⟨_, hk⟩
  · exact Or.inl (List.mem_append_left _ hmem)
  · by_cases hfound : FindsDoc p o a
    · exact Or.inr ((hk a hfound).settle _)
    · left
      cases o with
      | get ref =>
        obtain ⟨rfl, hnone⟩ := Classical.not_imp.mp hfound
        rw [not_not.mp hnone]
        exact List.mem_append_right _ (List.mem_singleton_self _)
      | commit | newId => exact absurd trivial hfound

/-- An event that creates nothing leaves a free path free. -/
theorem Tells.free {ev : Event Op Ans Call} {docs docs' : Store} {p : Path}
    (h : Tells ev docs docs') (hp : docs p = none) (hno : ¬ Creates p ev) : docs' p = none := by
  cases hc : committed ev with
  | none => rw [h.stays hc, hp]
  | some r =>
    obtain ⟨c, ws⟩ := r
    exact commit_none (h.lands c ws hc) hp fun d hd => hno ⟨c, ws, d, hc, hd⟩

theorem createsRead_step {s t : BackendState} {a : BackendAct} (hs : CreatesRead s)
    (h : step backend s a = some t) : CreatesRead t := by
  refine ⟨started_step hs.started h, ?_, ?_, ?_⟩
  · refine logged_step hs.started hs.read ?_ ?_ h
    · exact fun i c p => Or.inr ((creates_nothing_found c p).settle _)
    · exact fun i c o k e w a _ _ hread => mayCreate_resume hread a
  · intro p ev hev hcreates
    rcases backend_event h with ⟨htrace, hdocs⟩ | ⟨new, htrace, htells⟩
    · rw [hdocs]
      exact hs.stands p ev (htrace ▸ hev) hcreates
    · rw [htrace, List.mem_append, List.mem_singleton] at hev
      rcases hev with hold | rfl
      · exact isSome_backend h p (hs.stands p ev hold hcreates)
      · obtain ⟨c, ws, d, hc, hset⟩ := hcreates
        exact isSome_of_set_mem (htells.lands c ws hc) hset
  · rintro i c p ⟨before, since, hsplit, hsince⟩
    rcases backend_event h with ⟨htrace, hdocs⟩ | ⟨new, htrace, htells⟩
    · rw [hdocs]
      exact hs.free i c p ⟨before, since, htrace ▸ hsplit, hsince⟩
    · rw [htrace] at hsplit
      -- The new event is the read itself, or it comes after the read.
      cases since using List.reverseRecOn with
      | nil =>
        obtain ⟨_, hnew⟩ := List.append_inj' hsplit rfl
        cases hnew
        rw [htells.stays rfl]
        exact (htells.reads i c p none rfl).symm
      | append_singleton since last =>
        rw [← List.cons_append, ← List.append_assoc] at hsplit
        obtain ⟨hold, hnew⟩ := List.append_inj' hsplit rfl
        cases hnew
        have hfree := hs.free i c p
          ⟨before, since, hold, fun ev hev => hsince ev (List.mem_append_left _ hev)⟩
        exact htells.free hfree (hsince new (by simp))

/-- A create call that writes to a free path has found it free, and nobody has created the
document since. -/
theorem foundFree_of_none {s : BackendState} {i : ℕ} {e : Env} {c : Call} {p : Path} {d : Doc}
    {ws : List Write} (hs : CreatesRead s) (htx : CreateTx c p d ws)
    (hc : Commits s (.resume i e) c ws) (hp : s.world.docs p = none) : FoundFree i c p s := by
  obtain ⟨j, _, k, he, hi, _⟩ := hc
  cases he
  rcases hs.read i c _ hi p with hmem | ⟨hno, _⟩
  · obtain ⟨before, since, hsplit⟩ := List.append_of_mem (List.mem_filter.mp hmem).1
    refine ⟨before, since, hsplit, fun ev hev hcreates => ?_⟩
    have hthere := hs.stands p ev (by rw [hsplit]; simp [hev]) hcreates
    rw [hp] at hthere
    cases hthere
  · exact absurd htx (hno d ws rfl)

/-- In every run of calls of any kind, no create call overwrites a document exactly when
nobody creates the document of a create call between its read and its write, unless with the
same contents. -/
theorem creates_never_overwrite_iff_none_comes_between (docs : Store) (as : List BackendAct) :
    AllSteps (step backend) NeverOverwrites (backendInit docs) as ↔
      AllSteps (step backend) (fun s a _ => NoneComesBetween s a) (backendInit docs) as := by
  refine allSteps_congr (A := fun _ => True)
    (fun s a t _ hs hstep => createsRead_step hs hstep) ?_ (fun _ _ => trivial)
    (createsRead_init docs)
  intro s a t _ hs hstep
  have hafter : ∀ c p d ws, CreateTx c p d ws → Commits s a c ws →
      t.world.docs p = some d := by
    intro c p d ws htx hc
    rcases backend_step hstep with ⟨c', ws', hc', hcommit, _⟩ | ⟨hno, _⟩
    · obtain ⟨rfl, rfl⟩ := commits_unique hc' hc
      exact docs_createTx htx hcommit
    · exact absurd hc (hno c ws)
  constructor
  · rintro h i e c p d ws rfl htx hc
    have hkeep := h c p d ws htx hc
    rw [hafter c p d ws htx hc, Option.some.injEq] at hkeep
    cases hp : s.world.docs p with
    | none => exact Or.inl (foundFree_of_none hs htx hc hp)
    | some old =>
      rw [hp, Option.getD_some] at hkeep
      exact Or.inr (by rw [hkeep])
  · rintro h c p d ws htx hc
    rw [hafter c p d ws htx hc]
    obtain ⟨i, e, _, ha, _⟩ := id hc
    rcases h i e c p d ws ha htx hc with hfree | hp
    · rw [hs.free i c p hfree, Option.getD_none]
    · rw [hp, Option.getD_some]

/-- Ann signs in on two devices. Bob follows her between the two writes. -/
def twoDevices : List BackendAct :=
  [.start 0 (.attemptCreateUser "ann" (some "ann")),
   .start 1 (.attemptCreateUser "ann" (some "ann")),
   .resume 0 online, .resume 1 online, .resume 0 online,
   .start 2 (.followUser "bob" "ann"), .resume 2 online, .resume 2 online, .resume 2 online]

/-- The second device's write takes Ann's follower away. -/
theorem a_second_device_resets_the_user :
    ¬ AllSteps (step backend) NeverOverwrites (backendInit (freshUsers ["bob"]))
      (twoDevices ++ [.resume 1 online]) := by
  intro hall
  obtain ⟨t, u, d, ht, hu, hmap, hcall, hlands, hold, hnew⟩ : ∃ t u d,
      run (step backend) (backendInit (freshUsers ["bob"])) twoDevices = some t ∧
      step backend t (.resume 1 online) = some u ∧
      UserModel.getMapForCreateUser (some "ann") = .ok d ∧
      t.calls 1 = some (.attemptCreateUser "ann" (some "ann"),
        .waiting (.commit [.set (userRef "ann") d]) .ofExcept) ∧
      (commit t.world.docs [.set (userRef "ann") d]).isSome ∧
      followersOf t.world.docs "ann" = some 1 ∧ followersOf u.world.docs "ann" = some 0 :=
    ⟨_, _, _, rfl, rfl, rfl, rfl, rfl, rfl, rfl⟩
  have hkeep := hall twoDevices _ (List.prefix_refl _) t u ht hu
    (.attemptCreateUser "ann" (some "ann")) (userRef "ann") d _ (Or.inl ⟨_, _, rfl, rfl, hmap, rfl⟩)
    ⟨1, online, _, rfl, hcall, rfl, hlands⟩
  obtain ⟨e, he, _⟩ := followersOf_some hold
  rw [he, Option.getD_some, ← he] at hkeep
  unfold followersOf at hold hnew
  rw [hkeep, hold] at hnew
  cases hnew

end instagram
