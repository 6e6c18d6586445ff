-- The footprint of a call: the documents and the fields that its batch can change. What lies
-- outside the footprint of every call, no run changes.
import Instagram.Backend

namespace instagram

open docs firestore async runs

/-- The fields of a post that a comment updates. -/
def previewKeys : List String :=
  [KEY_NUMOFCOMMENTS, KEY_LASTCOMMENT, KEY_LASTCOMMENTTIME, KEY_LASTCOMMENTOR]

/-- The fields that a call can change, whatever it reads. -/
def Call.Footprint : Call → Path → String → Prop
  | .attemptCreateUser userKey _, p, _ => p = userRef userKey
  | .followUser my other, p, f =>
    (p = userRef my ∧ f = KEY_FOLLOWINGS) ∨ (p = userRef other ∧ f = KEY_FOLLOWERS)
  | .unfollowUser my other, p, f =>
    (p = userRef my ∧ f = KEY_FOLLOWINGS) ∨ (p = userRef other ∧ f = KEY_FOLLOWERS)
  | .createNewPost postKey _, p, f =>
    p = postRef postKey ∨ (p.head? = some COLLECTION_USERS ∧ f = KEY_MYPOSTS)
  | .updatePostImageUrl _ postKey, p, f => p = postRef postKey ∧ f = KEY_POSTIMG
  | .toggleLike postKey _, p, f => p = postRef postKey ∧ f = KEY_NUMOFLIKES
  | .createNewComment postKey _, p, f =>
    (∃ id, p = commentsOf postKey ++ [id]) ∨ (p = postRef postKey ∧ f ∈ previewKeys)

theorem footprint_of_touches {c : Call} {ws : List Write} {w : Write} {p : Path} {f : String}
    (hmay : c.MayCommit ws) (hw : w ∈ ws) (h : w.Touches p f) : c.Footprint p f := by
  cases writes_of_mayCommit hmay hw with
  | user hmap => exact Eq.symm h
  | follow | unfollow =>
    obtain ⟨rfl, hf⟩ := h
    exact Or.inl ⟨rfl, by simpa using hf⟩
  | followed | unfollowed =>
    obtain ⟨rfl, hf⟩ := h
    exact Or.inr ⟨rfl, by simpa using hf⟩
  | post postKey postData => exact Or.inl (Eq.symm h)
  | myPosts postKey postData hauthor =>
    obtain ⟨rfl, hf⟩ := h
    exact Or.inr ⟨hauthor, by simpa using hf⟩
  | postImg | unlike | like =>
    obtain ⟨rfl, hf⟩ := h
    exact ⟨rfl, by simpa using hf⟩
  | comment postKey commentData id => exact Or.inl ⟨id, Eq.symm h⟩
  | preview postKey commentData n =>
    obtain ⟨rfl, hf⟩ := h
    exact Or.inr ⟨rfl, by simpa [previewKeys] using hf⟩

/-- A batch leaves every field outside the footprint of its call as it is. -/
theorem fieldAt_of_mayCommit {c : Call} {ws : List Write} {docs docs' : Store} {p : Path}
    {f : String} (hmay : c.MayCommit ws) (h : commit docs ws = some docs')
    (hout : ¬ c.Footprint p f) : fieldAt docs' p f = fieldAt docs p f :=
  fieldAt_commit h fun _ hw ht => hout (footprint_of_touches hmay hw ht)

end instagram
