-- Serializability of the backend. A call reads its documents first and commits to them later,
-- so calls on one document can lose updates. Calls on separate documents cannot: any run of
-- them is as if they had run one after another, in any order.
import Instagram.Serial
import Instagram.Backend

namespace instagram

open docs firestore async runs

/-! ## What an operation looks at -/

/-- What stands at a path: the document, and whether the path was handed out as a new one. -/
def look (w : Db) (p : Path) : Snapshot × Prop := (w.docs p, p ∈ w.issued)

/-- The operation concerns only paths of `D`. -/
def OpWithin (D : Path → Prop) : Op → Prop
  | .get ref => D ref
  | .commit ws => ∀ w ∈ ws, D w.ref
  | .newId c => ∀ id, D (c ++ [id])

/-- Two stores that hold the same at each path of `X` take a batch on these paths alike. -/
theorem commit_alike {X : Path → Prop} {s s' t : Store} {ws : List Write}
    (hX : ∀ w ∈ ws, X w.ref) (h : ∀ p, X p → s p = s' p) (ht : commit s ws = some t) :
    ∃ t', commit s' ws = some t' ∧ ∀ p, X p → t p = t' p := by
  have hagree : AgreeOn (fun p _ => X p) s s' := fun p f hp => by
    unfold fieldAt
    rw [h p hp]
  obtain ⟨t', ht', hagree'⟩ := agreeOn_commit (fun w hw => ⟨"", hX w hw⟩) hagree ht
  refine ⟨t', ht', fun p hp => ?_⟩
  have hsome := isSome_of_field (hagree' p "" hp)
  cases hd : t p with
  | none =>
    rw [hd] at hsome
    exact (Option.isNone_iff_eq_none.mp (by simpa using hsome.symm)).symm
  | some d =>
    rw [hd] at hsome
    obtain ⟨d', hd'⟩ := Option.isSome_iff_exists.mp hsome.symm
    have hfields : ∀ f, d f = d' f := fun f => by simpa [fieldAt, hd, hd'] using hagree' p f hp
    rw [hd', funext hfields]

theorem local_get {D : Path → Prop} {ref : Path} (hD : D ref) :
    Local handle look D (.get ref) where
  frame e w w' a h x _ := by rw [(handle_get h).1]
  alike e w w' a u h hsame := by
    have hdoc : u.docs ref = w.docs ref := congrArg Prod.fst (hsame ref hD)
    obtain ⟨rfl, _⟩ := handle_get h
    refine ⟨u, ?_, hsame⟩
    simp only [handle, hdoc] at h ⊢
    split at h
    · rename_i hf
      cases h
      rw [if_pos hf]
    · rename_i hf
      rw [if_neg hf]
      split at h <;> cases h <;> rfl

theorem local_commit {D : Path → Prop} {ws : List Write} (hD : ∀ w ∈ ws, D w.ref) :
    Local handle look D (.commit ws) where
  frame e w w' a h x hx := by
    rcases handle_commit h with ⟨_, hissued, _, hcommit⟩ | ⟨_, rfl, _⟩
    · have hnot : x ∉ ws.map Write.ref := fun hmem => by
        obtain ⟨v, hv, rfl⟩ := List.mem_map.mp hmem
        exact hx (hD v hv)
      unfold look
      rw [commit_of_notMem hcommit hnot, hissued]
    · rfl
  alike e w w' a u h hsame := by
    have hdocs : ∀ p, D p → w.docs p = u.docs p := fun p hp => (congrArg Prod.fst (hsame p hp)).symm
    have hlands : (commit w.docs ws).isSome = (commit u.docs ws).isSome := by
      rw [Bool.eq_iff_iff, Option.isSome_iff_exists, Option.isSome_iff_exists]
      constructor
      · rintro ⟨t, ht⟩
        obtain ⟨t', ht', _⟩ := commit_alike hD hdocs ht
        exact ⟨t', ht'⟩
      · rintro ⟨t, ht⟩
        obtain ⟨t', ht', _⟩ := commit_alike hD (fun p hp => (hdocs p hp).symm) ht
        exact ⟨t', ht'⟩
    obtain ⟨u', hu', hchange⟩ := handle_commit_alike hlands h
    refine ⟨u', hu', fun p hp => ?_⟩
    rcases hchange with ⟨rfl, rfl⟩ | ⟨hw, hu, hwi, hui⟩
    · exact hsame p hp
    · obtain ⟨t', ht', hagree⟩ := commit_alike hD hdocs hw
      obtain rfl : t' = u'.docs := Option.some.inj (ht'.symm.trans hu)
      have hissued : (p ∈ u.issued) = (p ∈ w.issued) := congrArg Prod.snd (hsame p hp)
      unfold look
      rw [← hagree p hp, hwi, hui, hissued]

theorem local_newId {D : Path → Prop} {c : Path} (hD : ∀ id, D (c ++ [id])) :
    Local handle look D (.newId c) where
  frame e w w' a h x hx := by
    have hne : x ∉ [c ++ [a]] := fun hmem => hx (List.mem_singleton.mp hmem ▸ hD a)
    unfold look
    rw [(handle_newId h).1, (handle_newId_issued h).2]
    simp only [List.mem_append, hne, or_false]
  alike e w w' a u h hsame := by
    have href := hsame (c ++ [e.autoId]) (hD e.autoId)
    have hdoc : u.docs (c ++ [e.autoId]) = w.docs (c ++ [e.autoId]) := congrArg Prod.fst href
    have hissued : (c ++ [e.autoId] ∈ u.issued) = (c ++ [e.autoId] ∈ w.issued) :=
      congrArg Prod.snd href
    simp only [handle] at h ⊢
    split at h
    · cases h
    · rename_i hfresh
      cases h
      refine ⟨⟨u.docs, u.issued ++ [c ++ [e.autoId]]⟩, ?_, fun p hp => ?_⟩
      · rw [if_neg (by rw [hdoc, hissued]; exact hfresh)]
      · have hdocp : u.docs p = w.docs p := congrArg Prod.fst (hsame p hp)
        have hissuedp : (p ∈ u.issued) = (p ∈ w.issued) := congrArg Prod.snd (hsame p hp)
        simp only [look, List.mem_append, hdocp, hissuedp]

theorem local_of_within {D : Path → Prop} {o : Op} (h : OpWithin D o) : Local handle look D o := by
  cases o with
  | get ref => exact local_get h
  | commit ws => exact local_commit h
  | newId c => exact local_newId h

/-! ## The documents of a call -/

/-- The documents that a call may read or write, whatever it reads. -/
def Call.Documents : Call → Path → Prop
  | .attemptCreateUser userKey _, p => p = userRef userKey
  | .followUser my other, p => p = userRef my ∨ p = userRef other
  | .unfollowUser my other, p => p = userRef my ∨ p = userRef other
  | .createNewPost postKey postData, p =>
    p = postRef postKey ∨
      match authorRef postData with
      | .ok (some author) => p = author
      | _ => ∃ id, p = [COLLECTION_USERS] ++ [id]
  | .updatePostImageUrl _ postKey, p => p = postRef postKey
  | .toggleLike postKey _, p => p = postRef postKey
  | .createNewComment postKey _, p => p = postRef postKey ∨ ∃ id, p = commentsOf postKey ++ [id]

variable {A : (o : Op) → Ans o → Prop}

theorem changeFollow_within {D : Path → Prop} (listOp : List Atom → FieldOp Atom) (delta : Int)
    {my other : String} (hmy : D (userRef my)) (hother : D (userRef other)) :
    (changeFollow listOp delta my other).Awaits A fun o _ => OpWithin D o := by
  unfold changeFollow
  refine get_awaits hmy fun mine _ => ?_
  refine get_awaits hother fun others _ => ?_
  refine runTransaction_awaits fun ws hws => ?_
  split at hws
  · simp only [tx_update_bind, tx_lift_bind, except_bind_ok] at hws
    obtain ⟨v, _, n, _, m, _, hws⟩ := hws
    cases hws
    intro w hw
    rcases List.mem_pair.mp hw with rfl | rfl
    · exact hmy
    · exact hother
  · cases hws
    exact fun w hw => by cases hw

theorem createTx_within {D : Path → Prop} {postKey : String} (postData : Doc) {author : Path}
    (snapshot : Snapshot) (hpost : D (postRef postKey)) (hauthor : D author) :
    (runTransaction do
      if snapshot.isNone then
        Tx.set (postRef postKey) postData
        Tx.update author [(KEY_MYPOSTS, .arrayUnion [.str postKey])]).Awaits A
      fun o _ => OpWithin D o := by
  refine runTransaction_awaits fun ws hws => ?_
  split at hws
  · cases hws
    intro w hw
    rcases List.mem_pair.mp hw with rfl | rfl
    · exact hpost
    · exact hauthor
  · cases hws
    exact fun w hw => by cases hw

theorem createNewPost_within (postKey : String) (postData : Doc) :
    (createNewPost postKey postData).Awaits A
      fun o _ => OpWithin (Call.createNewPost postKey postData).Documents o := by
  unfold createNewPost
  refine get_awaits (Or.inl rfl) fun snapshot _ => ?_
  refine ofExcept_awaits fun ref href => ?_
  cases ref with
  | none =>
    have hnew : ∀ id,
        (Call.createNewPost postKey postData).Documents ([COLLECTION_USERS] ++ [id]) :=
      fun id => Or.inr (by rw [href]; exact ⟨id, rfl⟩)
    exact newDoc_awaits hnew fun id _ => createTx_within postData snapshot (Or.inl rfl) (hnew id)
  | some author => exact createTx_within postData snapshot (Or.inl rfl) (Or.inr (by rw [href]))

theorem toggleLike_within (postKey userKey : String) :
    (toggleLike postKey userKey).Awaits A fun o _ => OpWithin (· = postRef postKey) o := by
  refine get_awaits rfl fun snapshot _ => ?_
  unfold toggleLikeOn
  split
  · refine ofExcept_awaits fun likes _ => ofExcept_awaits fun liked _ => ?_
    split
    · exact commit_awaits fun w hw => by rw [List.mem_singleton.mp hw]; rfl
    · exact commit_awaits fun w hw => by rw [List.mem_singleton.mp hw]; rfl
  · trivial

theorem createNewComment_within (postKey : String) (commentData : Doc) :
    (createNewComment postKey commentData).Awaits A
      fun o _ => OpWithin (Call.createNewComment postKey commentData).Documents o := by
  refine get_awaits (Or.inl rfl) fun snapshot _ => ?_
  refine newDoc_awaits (fun id => Or.inr ⟨id, rfl⟩) fun id _ => ?_
  refine runTransaction_awaits fun ws hws => ?_
  unfold commentTx at hws
  split at hws
  · simp only [tx_set_bind, tx_lift_bind, except_bind_ok] at hws
    obtain ⟨v, _, n, _, m, _, hws⟩ := hws
    cases hws
    intro w hw
    rcases List.mem_pair.mp hw with rfl | rfl
    · exact Or.inr ⟨id, rfl⟩
    · exact Or.inl rfl
  · cases hws
    exact fun w hw => by cases hw

/-- Whatever a call reads, it asks only for its own documents. -/
theorem prog_within (c : Call) : c.prog.Awaits A fun o _ => OpWithin c.Documents o := by
  cases c with
  | attemptCreateUser userKey email =>
    refine get_awaits rfl fun snapshot _ => ?_
    split
    · refine ofExcept_awaits fun map _ => commit_awaits fun w hw => ?_
      rw [List.mem_singleton.mp hw]
      rfl
    · trivial
  | followUser my other => exact changeFollow_within _ _ (Or.inl rfl) (Or.inr rfl)
  | unfollowUser my other => exact changeFollow_within _ _ (Or.inl rfl) (Or.inr rfl)
  | createNewPost postKey postData => exact createNewPost_within postKey postData
  | updatePostImageUrl postImg postKey =>
    refine get_awaits rfl fun snapshot _ => ?_
    unfold updatePostImageUrlOn
    split
    · exact commit_awaits fun w hw => by rw [List.mem_singleton.mp hw]; rfl
    · trivial
  | toggleLike postKey userKey => exact toggleLike_within postKey userKey
  | createNewComment postKey commentData => exact createNewComment_within postKey commentData

/-! ## Serial runs -/

/-- Calls on separate documents are serializable. Let no two of the calls have a document in
common. Then whatever order their steps come in, and whatever fails on the way, every call ends as
it does when the calls run one after another, in any order, and the documents end the same. -/
theorem calls_on_separate_documents_are_serializable (docs : Store) (calls : ℕ → Call)
    (order : List ℕ) (hnodup : order.Nodup) (hsep : Separated Call.Documents calls order)
    (as : List BackendAct) (has : ∀ a ∈ as, a.Among calls order) (t : BackendState)
    (h : run (step backend) (backendInit docs) as = some t) :
    ∃ t', run (step backend) (backendInit docs) (serial Act.caller order as) = some t' ∧
      t'.world.docs = t.world.docs ∧ t'.calls = t.calls := by
  have hlook : ∀ o, Local backend.handle look (fun _ => True) o :=
    fun o => local_of_within (by cases o <;> simp [OpWithin])
  have hprog : ∀ c, (backend.prog c).Awaits (fun _ _ => True)
      fun o _ => Local backend.handle look c.Documents o :=
    fun c => (prog_within c).mono fun _ _ => local_of_within
  obtain ⟨t', ht', hsame⟩ := serial_of_separated hlook hprog hsep hnodup has h
  refine ⟨t', ht', funext fun p => ?_, hsame.calls.symm⟩
  exact congrArg Prod.fst (congrFun hsame.world.symm p)

/-- Ann follows Bob while Cid follows Dan. -/
def twoFollows (i : ℕ) : Call := if i = 0 then .followUser "ann" "bob" else .followUser "cid" "dan"

def twoFollowsAtOnce : List BackendAct :=
  [.start 0 (.followUser "ann" "bob"), .start 1 (.followUser "cid" "dan"), .resume 0 online,
   .resume 1 online, .resume 1 online, .resume 0 online, .resume 0 online, .resume 1 online]

theorem twoFollows_separated : Separated Call.Documents twoFollows [1, 0] := by
  intro i hi j hj hne p hp hp'
  simp only [List.mem_cons, List.not_mem_nil, or_false] at hi hj
  rcases hi with rfl | rfl <;> rcases hj with rfl | rfl
  · exact hne rfl
  · rcases hp with rfl | rfl <;> simp [twoFollows, Call.Documents] at hp'
  · rcases hp with rfl | rfl <;> simp [twoFollows, Call.Documents] at hp'
  · exact hne rfl

theorem twoFollows_among : ∀ a ∈ twoFollowsAtOnce, a.Among twoFollows [1, 0] := by
  simp [twoFollowsAtOnce, Act.Among, Act.caller, Act.StartsOf, twoFollows]

theorem calls_on_separate_documents_are_serializable_at_two_follows :
    ∃ t, run (step backend) (backendInit (freshUsers ["ann", "bob", "cid", "dan"]))
        twoFollowsAtOnce = some t ∧
      ∃ t', run (step backend) (backendInit (freshUsers ["ann", "bob", "cid", "dan"]))
          (serial Act.caller [1, 0] twoFollowsAtOnce) = some t' ∧
        t'.world.docs = t.world.docs ∧ t'.calls = t.calls :=
  ⟨_, rfl, calls_on_separate_documents_are_serializable _ twoFollows [1, 0] (by decide)
    twoFollows_separated twoFollowsAtOnce twoFollows_among _ rfl⟩

end instagram
