-- The `my_posts` lists while users sign up. A sign-up that lands late writes an empty list over
-- the one that is there, so a list holds just the posts that were created since then.
import Instagram.MyPosts

namespace instagram

open docs firestore async runs

/-! ## What a list has lost -/

/-- What a call does about the post `k` on the list of `u`: a create call of `k` puts it there,
and a sign-up of `u` takes it off. -/
def Call.lists (k u : String) : Call → Option Bool
  | .attemptCreateUser userKey _ => if userKey = u then some false else none
  | .createNewPost postKey _ => if postKey = k then some true else none
  | _ => none

/-- The last committed call that does anything about `k` on the list of `u` is a sign-up. -/
def lostSince (k u : String) (h : List (Call × List Write)) : Bool :=
  (h.filterMap fun e => if e.2.isEmpty then none else e.1.lists k u).getLast? == some false

theorem lostSince_nil_batch (k u : String) (h : List (Call × List Write)) (c : Call) :
    lostSince k u (h ++ [(c, [])]) = lostSince k u h := by
  simp [lostSince]

theorem lostSince_of_lists_none {k u : String} {c : Call} (hc : c.lists k u = none)
    (h : List (Call × List Write)) (ws : List Write) :
    lostSince k u (h ++ [(c, ws)]) = lostSince k u h := by
  simp [lostSince, hc]

theorem lostSince_signUp (k u v : String) (email : Option String)
    (h : List (Call × List Write)) (w : Write) :
    lostSince k u (h ++ [(.attemptCreateUser v email, [w])]) =
      if u = v then true else lostSince k u h := by
  split_ifs with huv
  · simp [lostSince, Call.lists, huv]
  · refine lostSince_of_lists_none ?_ h _
    exact if_neg (Ne.symm huv)

theorem lostSince_create (j v k : String) (postData : Doc) (h : List (Call × List Write))
    (author : Path) :
    lostSince j v (h ++ [(.createNewPost k postData, createWrites k postData author)]) =
      if j = k then false else lostSince j v h := by
  split_ifs with hjk
  · simp [lostSince, Call.lists, createWrites, hjk]
  · refine lostSince_of_lists_none ?_ h _
    exact if_neg (Ne.symm hjk)

/-! ## The index since the last sign-up -/

/-- A list holds just the posts of its user that it has not lost, each once, and every post has
an author. -/
abbrev IndexSince (docs : Store) (h : List (Call × List Write)) : Prop :=
  IndexedBut (fun k u => lostSince k u h) docs

/-- The index, with what a second create of the same key relies on. -/
abbrev SinceKept (docs now : Store) (h : List (Call × List Write)) : Prop :=
  IndexKept (fun k u => lostSince k u h) docs now

variable {docs now now' : Store} {h : List (Call × List Write)}

/-- A sign-up writes an empty list, and no post. -/
theorem sinceKept_signUp {v : String} {email : Option String} {map : Doc}
    (hmap : UserModel.getMapForCreateUser email = .ok map)
    (hcommit : commit now [.set (userRef v) map] = some now') (hs : SinceKept docs now h) :
    SinceKept docs now' (h ++ [(.attemptCreateUser v email, [.set (userRef v) map])]) := by
  obtain rfl : Function.update now (userRef v) (some map) = now' := Option.some.inj hcommit
  have hposts : ∀ k, Function.update now (userRef v) (some map) (postRef k) = now (postRef k) :=
    fun k => Function.update_of_ne (postRef_ne_userRef k v) _ _
  have hby : ∀ k u, PostBy (Function.update now (userRef v) (some map)) k u ↔ PostBy now k u := by
    intro k u
    unfold PostBy
    rw [hposts]
  have hlist : ∀ u, myPostsOf (Function.update now (userRef v) (some map)) u =
      if u = v then [] else myPostsOf now u := by
    intro u
    unfold myPostsOf
    split_ifs with huv
    · subst huv
      rw [Function.update_self]
      cases email with
      | none => cases hmap
      | some email =>
        cases hmap
        rfl
    · rw [Function.update_of_ne (by simpa using huv)]
  have hsome : ∀ p, (now p).isSome →
      (Function.update now (userRef v) (some map) p).isSome :=
    fun p => commit_isSome hcommit
  refine ⟨⟨⟨fun u hu => ?_, fun k d hk hd => ?_⟩, fun k u hk hu => ?_⟩,
    fun p hp => hsome p (hs.kept p hp),
    fun k u hk hnone hpost => hs.keyed k u hk hnone ((hby k u).mp hpost)⟩
  · rw [hlist]
    split_ifs
    · exact List.nodup_nil
    · exact hs.indexed.nodup u hu
  · rw [hposts] at hd
    obtain ⟨u, hu, hauthor⟩ := hs.indexed.authored k d hk hd
    exact ⟨u, hu, hsome _ hauthor⟩
  · rw [hlist, hby, lostSince_signUp]
    split_ifs
    · simp
    · exact hs.indexed.listed k u hk hu

theorem sinceKept_commit {c : Call} {ws : List Write} (hc : c.Keyed) (hmay : c.MayCommit ws)
    (hfree : CreatesFree docs c (.commit ws)) (hcommit : commit now ws = some now')
    (hs : SinceKept docs now h) : SinceKept docs now' (h ++ [(c, ws)]) := by
  by_cases hnew : ∃ userKey email, c = .attemptCreateUser userKey email
  · obtain ⟨userKey, email, rfl⟩ := hnew
    obtain ⟨map, hmap, rfl⟩ := hmay
    exact sinceKept_signUp hmap hcommit hs
  · have hold : ∀ userKey email, c ≠ .attemptCreateUser userKey email :=
      fun userKey email he => hnew ⟨userKey, email, he⟩
    rcases sameIndex_or_creates hc hold hmay hfree hcommit with
      ⟨hsame, hno⟩ | ⟨k, postData, u, rfl, hmade, hnone, rfl⟩
    · have hlost : ∀ k u, lostSince k u (h ++ [(c, ws)]) = lostSince k u h := by
        rcases hno with rfl | hno
        · exact fun k u => lostSince_nil_batch k u h c
        · refine fun k u => lostSince_of_lists_none ?_ h ws
          cases c with
          | attemptCreateUser v e => exact absurd rfl (hold v e)
          | createNewPost j d => exact absurd rfl (hno j d)
          | _ => rfl
      unfold SinceKept
      simp only [hlost]
      exact hsame.indexKept hs
    · exact indexKept_create hmade hnone
        (fun j v => lostSince_create j v k postData h (userRef u)) hcommit hs

/-! ## Runs -/

/-- The calls read what was there from the start, and the lists are kept. -/
structure SinceGuarded (docs : Store) (s : BackendState) : Prop where
  calls : DocsGuarded (fun now => ∀ p, (docs p).isSome → (now p).isSome) (AbsentAtFirst docs)
    Call.Keyed (fun c o _ => c.Guarantee o ∧ CreatesFree docs c o) s
  lists : SinceKept docs s.world.docs (history s)

theorem sinceGuarded_step {s t : BackendState} {a : BackendAct} (ha : a.Starts Call.Keyed)
    (hs : SinceGuarded docs s) (hstep : step backend s a = some t) : SinceGuarded docs t := by
  constructor
  · exact docsGuarded_step (fun c _ => (prog_awaits c).and (prog_createsFree docs c))
      (fun now ref hkept => absentAtFirst_of_kept hkept ref)
      (fun c ws _ _ _ _ _ hkept hcommit p hp => commit_isSome hcommit (hkept p hp))
      s a t ha hs.calls hstep
  · rcases backend_step hstep with ⟨c, ws, hcommits, hcommit, hhist⟩ | ⟨_, hdocs, hhist⟩
    · obtain ⟨i, e, k, _, hi, _⟩ := hcommits
      obtain ⟨hc, ⟨hG, hfree⟩, _⟩ := hs.calls.calls i c _ hi
      rw [hhist]
      exact sinceKept_commit hc (hG ws rfl) hfree hcommit hs.lists
    · rw [hdocs, hhist]
      exact hs.lists

/-- Whatever runs, sign-ups too: the `my_posts` list of a user holds just the posts of that user
that were created since the last sign-up of the user was committed, each once, and no post is
without its author. -/
theorem my_posts_hold_the_posts_since_the_last_sign_up (docs : Store) (hdocs : PostsIndexed docs)
    (as : List BackendAct) (has : ∀ a ∈ as, a.Starts Call.Keyed) :
    AllStates (step backend) (fun t => IndexSince t.world.docs (history t)) (backendInit docs)
      as := by
  have hinit : SinceGuarded docs (backendInit docs) :=
    ⟨guarded_init () fun _ hp => hp, indexKept_init hdocs⟩
  have hrun := allStates_of_keeps (fun _ _ _ ha hs h => sinceGuarded_step ha hs h) has hinit
  exact fun pre hpre t ht => (hrun pre hpre t ht).lists.indexed

/-- Ann signs up on two devices, and shares a post before the second write lands. -/
def lateSignUp : List BackendAct :=
  [.start 0 (.attemptCreateUser "ann" (some "ann@mail.com")),
   .start 1 (.attemptCreateUser "ann" (some "ann@mail.com")),
   .resume 0 online, .resume 1 online, .resume 0 online,
   .start 2 (.createNewPost (getNewPostKey 7 annModel)
     (PostModel.getMapForCreatePost "ann" (some "ann") "sunset" 7 7)),
   .resume 2 online, .resume 2 online, .resume 1 online]

theorem lateSignUp_starts : ∀ a ∈ lateSignUp, a.Starts Call.Keyed := by
  have hmade : MadeBy (getNewPostKey 7 annModel)
      (PostModel.getMapForCreatePost "ann" (some "ann") "sunset" 7 7) "ann" :=
    ⟨rfl, 7, annModel, rfl, rfl⟩
  simp only [lateSignUp, List.forall_mem_cons]
  refine ⟨?_, ?_, trivial, trivial, trivial, ?_, trivial, trivial, trivial, by simp⟩
  · rintro _ _ ⟨⟩
  · rintro _ _ ⟨⟩
  · rintro _ _ ⟨⟩
    exact ⟨"ann", hmade⟩

theorem my_posts_hold_the_posts_since_the_last_sign_up_at_a_late_sign_up :
    (PostsIndexed (freshUsers []) ∧ ∀ a ∈ lateSignUp, a.Starts Call.Keyed) ∧
      AllStates (step backend) (fun t => IndexSince t.world.docs (history t))
        (backendInit (freshUsers [])) lateSignUp :=
  ⟨⟨postsIndexed_freshUsers _, lateSignUp_starts⟩,
    my_posts_hold_the_posts_since_the_last_sign_up _ (postsIndexed_freshUsers _) _
      lateSignUp_starts⟩

/-- Ann's post is there, and her list is empty. -/
example : (run (step backend) (backendInit (freshUsers [])) lateSignUp).map (fun t =>
    ((t.world.docs (postRef (getNewPostKey 7 annModel))).isSome, myPostsOf t.world.docs "ann")) =
      some (true, []) := by rfl

end instagram
