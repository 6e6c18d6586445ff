-- The comments of a post. `createNewComment` writes below the post's document, and
-- `fetchAllComments` takes the post's key itself for the path of that document.
import Instagram.Backend

namespace instagram

open docs firestore async runs

/-! ## The query and its decoder -/

/-- `FirebaseFirestore.instance.doc(postKey)` raises on a key that is no document path. -/
def fetchAllComments (postKey : String) : Except DartError Query :=
  match documentWithPath [] postKey with
  | some ref => .ok { collection := ref ++ [COLLECTION_COMMENTS], orderBy := KEY_COMMENTTIME }
  | none => .error .assertion

/-- `toComments`: each document of a snapshot, decoded. -/
def toComments (now : Int) (q : Query) (snapshot : List (String × Doc)) :
    Except DartError (List CommentModel) :=
  snapshot.mapM fun (id, map) => CommentModel.fromMap now map id (q.collection ++ [id])

/-- Decoding gives a new comment back. -/
theorem fromMap_getMapForNewComment (now time : Int) (userKey : String) (username : Option String)
    (comment commentKey : String) (reference : Path) :
    CommentModel.fromMap now (CommentModel.getMapForNewComment userKey username comment time)
      commentKey reference =
      .ok ⟨username, some userKey, some comment, time, commentKey, reference⟩ := by
  cases username <;> rfl

/-! ## What is written and what is read -/

/-- The data of the comments that were committed on the post `k`. -/
def commentsCommitted (k : String) (h : List (Call × List Write)) : List Doc :=
  h.filterMap fun
    | (.createNewComment postKey commentData, ws) =>
      if postKey = k ∧ ws ≠ [] then some commentData else none
    | _ => none

/-- The model has the user and the text of the comment. -/
def Shows (m : CommentModel) (commentData : Doc) : Prop :=
  asString (lookup commentData KEY_USERNAME) = .ok m.username ∧
    asString (lookup commentData KEY_USERKEY) = .ok m.userKey ∧
    asString (lookup commentData KEY_COMMENT) = .ok m.comment

/-- In every state of the run, `fetchAllComments` reads the collection that the comments on
`k` go to, and each snapshot decodes to the comments committed on `k`, latest first. -/
def ReadsBack (k : String) (docs : Store) (as : List BackendAct) : Prop :=
  ∃ q, fetchAllComments k = .ok q ∧ q.collection = commentsOf k ∧
    AllStates (step backend) (fun t => ∀ now snapshot, q.Delivers t.world.docs snapshot →
      ∃ ms l, toComments now q snapshot = .ok ms ∧
        l.Perm (commentsCommitted k (history t)) ∧ List.Forall₂ Shows ms l ∧
        ms.Pairwise fun a b => b.commentTime ≤ a.commentTime) (backendInit docs) as

/-- A query that opens is on another collection, with fewer segments. -/
theorem collection_ne_commentsOf {k : String} {q : Query} (h : fetchAllComments k = .ok q) :
    q.collection ≠ commentsOf k := by
  unfold fetchAllComments at h
  split at h
  · rename_i ref href
    cases h
    intro he
    have hlen := congrArg List.length (List.append_inj' he rfl).1
    have hle := length_le_of_documentWithPath href
    unfold postRef docRef at hlen
    rw [List.length_append, List.length_singleton] at hlen
    omega
  · cases h

/-- On no key and in no run do the comments that are written come back. -/
theorem no_comment_is_read_back (k : String) (docs : Store) (as : List BackendAct) :
    ¬ ReadsBack k docs as := by
  rintro ⟨q, hq, hcollection, _⟩
  exact collection_ne_commentsOf hq hcollection

/-- Bob comments on the post. -/
def firstComment : List BackendAct :=
  [.start 0 (.createNewComment "p" (CommentModel.getMapForNewComment "bob" (some "bob") "nice" 1)),
   .resume 0 online, .resume 0 ⟨false, "c"⟩, .resume 0 online]

/-- The comment is stored, and opening the query raises. -/
theorem the_first_comment_is_not_read_back :
    ∃ t, run (step backend) (backendInit (countedPost "p")) firstComment = some t ∧
      t.world.docs (commentsOf "p" ++ ["c"]) =
        some (CommentModel.getMapForNewComment "bob" (some "bob") "nice" 1) ∧
      fetchAllComments "p" = .error .assertion ∧
      ¬ ReadsBack "p" (countedPost "p") firstComment := by
  refine ⟨_, rfl, rfl, rfl, ?_⟩
  rintro ⟨q, hq, _⟩
  cases hq

end instagram
