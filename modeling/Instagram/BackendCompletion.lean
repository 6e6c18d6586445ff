-- Every call of the backend comes to an end: it asks for two or three things and no more, and
-- from any state that a run reaches the calls in flight can all be brought to their end.
import Mathlib.Data.Set.Finite.Basic
import Instagram.Completion
import Instagram.Backend

namespace instagram

open docs firestore async runs

/-! ## Answers that are there -/

/-- The database holds finitely many documents. -/
def FewDocs (w : Db) : Prop := {p | (w.docs p).isSome}.Finite

/-- Ids of one letter, each longer than the one before it. -/
def idOf (n : ℕ) : String := String.ofList (List.replicate (n + 1) 'a')

theorem toList_idOf (n : ℕ) : (idOf n).toList = List.replicate (n + 1) 'a' :=
  String.toList_ofList

theorem idOf_injective (c : Path) : Function.Injective fun n => c ++ [idOf n] := by
  intro n m h
  have hid : idOf n = idOf m := by simpa using List.append_cancel_left h
  have hlen := congrArg (fun id => id.toList.length) hid
  simp only [toList_idOf, List.length_replicate] at hlen
  omega

/-- Among finitely many documents there is room for a new one. -/
theorem newId_answer {w : Db} (hw : FewDocs w) (c : Path) :
    ∃ e w' a, handle (.newId c) e w = some (w', a) := by
  have hfinite : ({p | (w.docs p).isSome} ∪ {p | p ∈ w.issued}).Finite :=
    hw.union w.issued.finite_toSet
  obtain ⟨_, ⟨n, rfl⟩, hfree⟩ :=
    (Set.infinite_range_of_injective (idOf_injective c)).exists_notMem_finite hfinite
  simp only [Set.mem_union, Set.mem_ofPred_eq, not_or] at hfree
  refine ⟨⟨false, idOf n⟩, _, _, if_neg ?_⟩
  rintro (hempty | hslash | hissued | hdoc)
  · have hlen := congrArg (fun id => id.toList.length) hempty
    simp [toList_idOf] at hlen
  · rw [toList_idOf] at hslash
    cases List.eq_of_mem_replicate hslash
  · exact hfree.2 hissued
  · exact hfree.1 hdoc

/-- Every operation has an answer. -/
theorem handle_answers (o : Op) {w : Db} (hw : FewDocs w) :
    ∃ e w' a, handle o e w = some (w', a) := by
  cases o with
  | get ref => exact ⟨⟨true, ""⟩, w, .error unavailable, rfl⟩
  | commit ws => exact ⟨⟨true, ""⟩, w, .error unavailable, rfl⟩
  | newId c => exact newId_answer hw c

theorem fewDocs_update {docs : Store} (ref : Path) (d : Doc)
    (h : {p | (docs p).isSome}.Finite) :
    {p | (Function.update docs ref (some d) p).isSome}.Finite := by
  refine (h.insert ref).subset fun p hp => ?_
  by_cases hpr : p = ref
  · exact Or.inl hpr
  · rw [Set.mem_ofPred_eq, Function.update_of_ne hpr] at hp
    exact Or.inr hp

theorem fewDocs_commit {docs docs' : Store} {ws : List Write} (h : {p | (docs p).isSome}.Finite)
    (hc : commit docs ws = some docs') : {p | (docs' p).isSome}.Finite := by
  refine commit_keeps (I := fun docs => {p | (docs p).isSome}.Finite) (fun w _ s t hs hw => ?_) hc h
  cases w with
  | set ref d =>
    cases hw
    exact fewDocs_update ref d hs
  | update ref fs =>
    obtain ⟨d, _, rfl⟩ := Option.map_eq_some_iff.mp hw
    exact fewDocs_update ref _ hs

/-! ## What a call asks for -/

/-- The number of answers that a call needs at most. -/
def Call.requests : Call → ℕ
  | .attemptCreateUser _ _ => 2
  | .followUser _ _ => 3
  | .unfollowUser _ _ => 3
  | .createNewPost _ _ => 3
  | .updatePostImageUrl _ _ => 2
  | .toggleLike _ _ => 2
  | .createNewComment _ _ => 3

theorem within_lift {β : Type} {x : Except DartError β} {f : β → Fire Unit} {n : ℕ}
    (h : ∀ v, (f v).Within n) : (Prog.ofExcept x >>= f).Within n := by
  cases x with
  | error e => trivial
  | ok v => exact h v

theorem within_get {ref : Path} {f : Snapshot → Fire Unit} {n : ℕ} (h : ∀ s, (f s).Within n) :
    (get ref >>= f).Within (n + 1) :=
  within_await fun _ => within_lift h

theorem within_newDoc {c : Path} {f : Path → Fire Unit} {n : ℕ} (h : ∀ ref, (f ref).Within n) :
    (newDoc c >>= f).Within (n + 1) :=
  within_await fun id => h (c ++ [id])

theorem within_commit (ws : List Write) :
    (Prog.await (.commit ws) .ofExcept : Fire Unit).Within 1 :=
  within_await fun a => within_ofExcept a 0

theorem within_runTransaction (body : Tx Unit) : (runTransaction body).Within 1 := by
  unfold runTransaction
  split
  · exact within_commit _
  · trivial

theorem changeFollow_within_three (listOp : List Atom → FieldOp Atom) (delta : Int)
    (my other : String) : (changeFollow listOp delta my other).Within 3 := by
  unfold changeFollow
  exact within_get fun _ => within_get fun _ => within_runTransaction _

theorem createNewPost_within_three (postKey : String) (postData : Doc) :
    (createNewPost postKey postData).Within 3 := by
  unfold createNewPost
  refine within_get fun snapshot => within_lift fun ref => ?_
  cases ref with
  | none => exact within_newDoc fun _ => within_runTransaction _
  | some author => exact (within_runTransaction _).mono (by omega)

theorem toggleLike_within_two (postKey userKey : String) :
    (toggleLike postKey userKey).Within 2 := by
  refine within_get fun snapshot => ?_
  unfold toggleLikeOn
  split
  · refine within_lift fun likes => within_lift fun liked => ?_
    split
    · exact within_commit _
    · exact within_commit _
  · trivial

theorem prog_within_requests (c : Call) : c.prog.Within c.requests := by
  cases c with
  | attemptCreateUser userKey email =>
    refine within_get fun snapshot => ?_
    split
    · exact within_lift fun _ => within_commit _
    · trivial
  | followUser my other => exact changeFollow_within_three _ _ my other
  | unfollowUser my other => exact changeFollow_within_three _ _ my other
  | createNewPost postKey postData => exact createNewPost_within_three postKey postData
  | updatePostImageUrl postImg postKey =>
    refine within_get fun snapshot => ?_
    unfold updatePostImageUrlOn
    split
    · exact within_commit _
    · trivial
  | toggleLike postKey userKey => exact toggleLike_within_two postKey userKey
  | createNewComment postKey commentData =>
    exact within_get fun _ => within_newDoc fun _ => within_runTransaction _

/-! ## Every call ends -/

/-- What every state of a run keeps: finitely many documents, finitely many calls, and each call
within its bound. -/
structure Ending (s : BackendState) : Prop where
  guarded : Guarded FewDocs (fun _ _ => True) (fun _ => True) (fun _ _ _ => True) s
  bounded : WithinBound Call.requests s
  few : FewCalls s

theorem fewDocs_guarded_step (s : BackendState) (a : BackendAct) (t : BackendState)
    (ha : a.Starts fun _ => True)
    (hs : Guarded FewDocs (fun _ _ => True) (fun _ => True) (fun _ _ _ => True) s)
    (h : step backend s a = some t) :
    Guarded FewDocs (fun _ _ => True) (fun _ => True) (fun _ _ _ => True) t := by
  refine guarded_step (fun c _ => awaits_of_forall (fun _ _ => trivial) _)
    (fun _ _ _ _ _ _ _ => trivial) ?_ (fun x => x.elim) s a t ha hs h
  intro c o k e w w' a _ _ hw hhandle
  exact handle_keeps (I := fun docs => {p | (docs p).isSome}.Finite)
    (fun _ _ _ hc => fewDocs_commit hw hc) hw hhandle

theorem ending_step (s : BackendState) (a : BackendAct) (t : BackendState) (hs : Ending s)
    (h : step backend s a = some t) : Ending t :=
  ⟨fewDocs_guarded_step s a t (starts_any a) hs.guarded h,
    withinBound_step prog_within_requests hs.bounded h, fewCalls_step hs.few h⟩

/-- No call waits for ever. In every state of every run a call has got no more answers than its
`requests`, with the last of them it has ended, and from there on answers alone bring every call
that has started to its end. -/
theorem every_call_can_end (docs : Store) (hfew : {p | (docs p).isSome}.Finite)
    (as : List BackendAct) :
    AllStates (step backend) (fun t =>
      (∀ i c p, t.calls i = some (c, p) → t.asked i ≤ c.requests ∧
        (t.asked i = c.requests → ∃ r, p = .ended r)) ∧
      ∃ (bs : List BackendAct) (u : BackendState), (∀ b ∈ bs, b.Answers) ∧
        run (step backend) t bs = some u ∧
        ∀ i c p, t.calls i = some (c, p) → ∃ r, u.calls i = some (c, .ended r))
      (backendInit docs) as := by
  have hrun : AllStates (step backend) Ending (backendInit docs) as :=
    allStates_of_keeps (A := fun _ => True) (fun s a t _ => ending_step s a t)
      (fun _ _ => trivial) ⟨guarded_init () hfew, withinBound_init _ _ _, fewCalls_init _ _⟩
  intro pre hpre t ht
  obtain ⟨hguarded, hbounded, ids, hids⟩ := hrun pre hpre t ht
  constructor
  · intro i c p hi
    obtain ⟨n, hn, hp⟩ := hbounded.left i c p hi
    refine ⟨by omega, fun hall => ended_of_within ?_⟩
    obtain rfl : n = 0 := by omega
    exact hp
  · obtain ⟨bs, u, hbs, hu, hended, _⟩ := finish_calls
      (fun _ o _ w _ _ hw => handle_answers o hw) fewDocs_guarded_step ids hguarded
      fun i c p hi => (hbounded.left i c p hi).imp fun _ h => h.2
    exact ⟨bs, u, hbs, hu, fun i c p hi => hended i (hids i (by rw [hi]; rfl)) c p hi⟩

theorem every_call_can_end_at_two_follows :
    {p | (freshUsers [] p).isSome}.Finite ∧
      AllStates (step backend) (fun t =>
        (∀ i c p, t.calls i = some (c, p) → t.asked i ≤ c.requests ∧
          (t.asked i = c.requests → ∃ r, p = .ended r)) ∧
        ∃ (bs : List BackendAct) (u : BackendState), (∀ b ∈ bs, b.Answers) ∧
          run (step backend) t bs = some u ∧
          ∀ i c p, t.calls i = some (c, p) → ∃ r, u.calls i = some (c, .ended r))
        (backendInit (freshUsers []))
        [.start 0 (.followUser "ann" "bob"), .start 1 (.followUser "bob" "ann")] :=
  have hfew : {p | (freshUsers [] p).isSome}.Finite := by simp [freshUsers]
  ⟨hfew, every_call_can_end _ hfew _⟩

end instagram
