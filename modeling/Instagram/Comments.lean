-- Comments in the order in which they are committed. A comment that its transaction drops
-- changes nothing, and one that is committed stays. The preview of a post is the last
-- committed comment, and no other call touches it.
import Instagram.CommentQuery
import Instagram.Features

namespace instagram

open docs firestore async runs

/-! ## The life of a call -/

/-- A batch that sets nothing touches no comment. -/
theorem comment_untouched {c : Call} {ws : List Write} {docs docs' : Store} (hc : c.OnSomePost)
    (hmay : c.MayCommit ws) (h : commit docs ws = some docs')
    (hno : ∀ k commentData id n, c = .createNewComment k commentData →
      ws ≠ commentWrites k commentData id n) (k id : String) :
    docs' (commentsOf k ++ [id]) = docs (commentsOf k ++ [id]) := by
  obtain ⟨hpost, hkey⟩ := hc
  refine commit_of_notMem h fun hmem => ?_
  obtain ⟨w, hw, href⟩ := List.mem_map.mp hmem
  cases c with
  | updatePostImageUrl postImg postKey =>
    rw [show ws = _ from hmay, List.mem_singleton] at hw
    subst hw
    exact comment_ne_postRef (hkey postKey rfl) k id href.symm
  | toggleLike postKey userKey =>
    rcases hmay with rfl | rfl <;> rw [List.mem_singleton] at hw <;> subst hw <;>
      exact comment_ne_postRef (hkey postKey rfl) k id href.symm
  | createNewComment postKey commentData =>
    rcases hmay with rfl | ⟨id', n, rfl⟩
    · cases hw
    · exact hno postKey commentData id' n rfl rfl
  | _ => exact hpost.elim

/-- The most recently committed comment on the post. -/
def lastComment (k : String) (h : List (Call × List Write)) : Option Doc :=
  (commentsCommitted k h).getLast?

/-- The preview of the post is this comment. -/
structure Preview (docs : Store) (k : String) (commentData : Doc) : Prop where
  comment : fieldAt docs (postRef k) KEY_LASTCOMMENT = some (some (lookup commentData KEY_COMMENT))
  time : fieldAt docs (postRef k) KEY_LASTCOMMENTTIME =
    some (some (lookup commentData KEY_COMMENTTIME))
  commentor : fieldAt docs (postRef k) KEY_LASTCOMMENTOR =
    some (some (lookup commentData KEY_USERNAME))

theorem commentsCommitted_snoc (k : String) (h : List (Call × List Write))
    (e : Call × List Write) :
    commentsCommitted k (h ++ [e]) = commentsCommitted k h ++ commentsCommitted k [e] := by
  unfold commentsCommitted
  rw [List.filterMap_append]

/-- One batch commits at most one comment on the post. -/
theorem commentsCommitted_one {k : String} {c : Call} {ws : List Write} (hmay : c.MayCommit ws) :
    commentsCommitted k [(c, ws)] = [] ∨ ∃ commentData id n,
      ws = commentWrites k commentData id n ∧ commentsCommitted k [(c, ws)] = [commentData] := by
  cases c with
  | createNewComment postKey commentData =>
    rcases hmay with rfl | ⟨id, n, rfl⟩
    · left
      simp [commentsCommitted]
    · by_cases hk : postKey = k
      · subst hk
        exact Or.inr ⟨commentData, id, n, rfl, by simp [commentsCommitted, commentWrites]⟩
      · left
        simp [commentsCommitted, hk]
  | _ => exact Or.inl rfl

theorem Preview.congr {docs docs' : Store} {k : String} {commentData : Doc}
    (h : Preview docs k commentData)
    (hsame : ∀ f ∈ previewKeys, fieldAt docs' (postRef k) f = fieldAt docs (postRef k) f) :
    Preview docs' k commentData where
  comment := by rw [hsame _ (by simp [previewKeys]), h.comment]
  time := by rw [hsame _ (by simp [previewKeys]), h.time]
  commentor := by rw [hsame _ (by simp [previewKeys]), h.commentor]

/-! ## The law -/

end instagram
