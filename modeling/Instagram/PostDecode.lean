-- Decoding a post. The number of comments is read where the list of likes stands, and no
-- value is both a list and a number. So only a post without likes and without a count
-- decodes, and neither a well typed post nor a new one is of that kind.
import Instagram.Models

namespace instagram

open docs firestore

/-! ## Posts and their documents -/

/-- What a post document is to hold. -/
structure Post where
  userKey : String
  username : String
  postImg : String
  likes : List String
  caption : String
  lastCommentor : String
  lastComment : String
  lastCommentTime : Int
  numOfComments : Int
  postTime : Int
  deriving DecidableEq, Repr

/-- The document holds the post, each field with its own type. It may hold more. -/
structure Post.StoredAs (p : Post) (d : Doc) : Prop where
  userKey : d KEY_USERKEY = some (str p.userKey)
  username : d KEY_USERNAME = some (str p.username)
  postImg : d KEY_POSTIMG = some (str p.postImg)
  likes : d KEY_NUMOFLIKES = some (.list (p.likes.map Atom.str))
  caption : d KEY_CAPTION = some (str p.caption)
  lastCommentor : d KEY_LASTCOMMENTOR = some (str p.lastCommentor)
  lastComment : d KEY_LASTCOMMENT = some (str p.lastComment)
  lastCommentTime : d KEY_LASTCOMMENTTIME = some (timestamp p.lastCommentTime)
  numOfComments : d KEY_NUMOFCOMMENTS = some (int p.numOfComments)
  postTime : d KEY_POSTTIME = some (timestamp p.postTime)

/-- The model in which every field is the field of the same meaning. -/
def Post.model (p : Post) (postKey : String) (reference : Path) : PostModel where
  postKey := postKey
  userKey := some p.userKey
  username := some p.username
  postImg := some p.postImg
  numOfLikes := some (p.likes.map Atom.str)
  caption := some p.caption
  lastCommentor := some p.lastCommentor
  lastComment := some p.lastComment
  lastCommentTime := p.lastCommentTime
  numOfComments := some p.numOfComments
  postTime := p.postTime
  reference := reference

/-- A new post, before anyone has liked it or commented on it. -/
structure PostModel.IsNew (m : PostModel) (userKey : String) (username : Option String)
    (caption : String) : Prop where
  userKey : m.userKey = some userKey
  username : m.username = username
  caption : m.caption = some caption
  likes : m.numOfLikes = some []
  comments : m.numOfComments = some 0

/-! ## What decodes -/

theorem asList_ok {v : Value} {xs : Option (List Atom)} (h : asList v = .ok xs) :
    v = .scalar .null ∨ ∃ ys, v = .list ys := by
  cases v with
  | list ys => exact Or.inr ⟨ys, rfl⟩
  | scalar a => cases a <;> first | exact Or.inl rfl | cases h

/-- Only null is a list and a number at once. -/
theorem null_of_asList_asInt {v : Value} {xs : Option (List Atom)} {n : Option Int}
    (hlist : asList v = .ok xs) (hint : asInt v = .ok n) : v = .scalar .null := by
  rcases asList_ok hlist with hnull | ⟨ys, rfl⟩
  · exact hnull
  · cases hint

/-- A document that decodes has no likes, not even an empty list of them. -/
theorem likes_null_of_fromMap {now now' : Int} {map : Doc} {postKey : String} {reference : Path}
    {m : PostModel} (h : PostModel.fromMap now now' map postKey reference = .ok m) :
    lookup map KEY_NUMOFLIKES = .scalar .null := by
  simp only [PostModel.fromMap, except_bind_ok] at h
  obtain ⟨_, _, _, _, _, _, xs, hlist, _, _, _, _, _, _, _, _, n, hint, _⟩ := h
  exact null_of_asList_asInt hlist hint

/-- The list of likes is no number of comments. -/
theorem fromMap_of_storedAs {p : Post} {d : Doc} (h : p.StoredAs d) (now now' : Int)
    (postKey : String) (reference : Path) :
    PostModel.fromMap now now' d postKey reference = .error .typeError := by
  unfold PostModel.fromMap lookup
  rw [h.userKey, h.username, h.postImg, h.likes, h.caption, h.lastCommentor, h.lastComment,
    h.lastCommentTime]
  rfl

theorem asString_strOrNull (s : Option String) : asString (strOrNull s) = .ok s := by
  cases s <;> rfl

/-- The number 0 is no list of likes. -/
theorem fromMap_getMapForCreatePost (userKey : String) (username : Option String)
    (caption : String) (t t' now now' : Int) (postKey : String) (reference : Path) :
    PostModel.fromMap now now' (PostModel.getMapForCreatePost userKey username caption t t')
      postKey reference = .error .typeError := by
  have hname : asString (lookup (PostModel.getMapForCreatePost userKey username caption t t')
      KEY_USERNAME) = .ok username := asString_strOrNull username
  unfold PostModel.fromMap
  rw [hname]
  rfl

/-- No stored post decodes, so no two posts decode to different models, and what the app
stores for a new post does not decode either. -/
theorem no_stored_post_decodes (now now' : Int) (postKey : String) (reference : Path) :
    (∀ (p : Post) (d : Doc), p.StoredAs d →
      PostModel.fromMap now now' d postKey reference = .error .typeError ∧
      PostModel.fromMap now now' d postKey reference ≠ .ok (p.model postKey reference)) ∧
    (∀ (p q : Post) (d e : Doc), p.StoredAs d → q.StoredAs e →
      PostModel.fromMap now now' d postKey reference =
        PostModel.fromMap now now' e postKey reference) ∧
    ∀ userKey username caption t t',
      PostModel.fromMap now now' (PostModel.getMapForCreatePost userKey username caption t t')
        postKey reference = .error .typeError ∧
      ¬ ∃ m, PostModel.fromMap now now'
          (PostModel.getMapForCreatePost userKey username caption t t') postKey reference = .ok m ∧
        m.IsNew userKey username caption := by
  refine ⟨fun p d h => ?_, fun p q d e hd he => ?_, fun userKey username caption t t' => ?_⟩
  · rw [fromMap_of_storedAs h]
    exact ⟨rfl, fun hok => by cases hok⟩
  · rw [fromMap_of_storedAs hd, fromMap_of_storedAs he]
  · rw [fromMap_getMapForCreatePost]
    refine ⟨rfl, ?_⟩
    rintro ⟨m, hm, _⟩
    cases hm

/-- Ann's sunset, liked by Bob, with one comment. -/
def sunset : Post where
  userKey := "ann"
  username := "ann"
  postImg := "sunset.png"
  likes := ["bob"]
  caption := "sunset"
  lastCommentor := "bob"
  lastComment := "nice"
  lastCommentTime := 1
  numOfComments := 1
  postTime := 0

def sunsetDoc : Doc :=
  mapOf
    [(KEY_USERKEY, str "ann"), (KEY_USERNAME, str "ann"), (KEY_POSTIMG, str "sunset.png"),
     (KEY_NUMOFLIKES, .list [.str "bob"]), (KEY_CAPTION, str "sunset"),
     (KEY_LASTCOMMENTOR, str "bob"), (KEY_LASTCOMMENT, str "nice"),
     (KEY_LASTCOMMENTTIME, timestamp 1), (KEY_NUMOFCOMMENTS, int 1),
     (KEY_POSTTIME, timestamp 0)]

theorem sunset_storedAs : sunset.StoredAs sunsetDoc :=
  ⟨rfl, rfl, rfl, rfl, rfl, rfl, rfl, rfl, rfl, rfl⟩

/-- The sunset is stored well typed and does not decode, and neither does a new post of
Ann's. -/
theorem a_liked_post_does_not_decode :
    sunset.StoredAs sunsetDoc ∧
      PostModel.fromMap 2 2 sunsetDoc "p" (postRef "p") = .error .typeError ∧
      PostModel.fromMap 2 2 (PostModel.getMapForCreatePost "ann" (some "ann") "sunset" 0 0) "p"
        (postRef "p") = .error .typeError := by
  refine ⟨sunset_storedAs, ?_, ?_⟩
  · decide
  · decide

theorem no_stored_post_decodes_at_the_sunset :
    sunset.StoredAs sunsetDoc ∧
      PostModel.fromMap 2 2 sunsetDoc "p" (postRef "p") = .error .typeError :=
  ⟨sunset_storedAs, ((no_stored_post_decodes 2 2 "p" (postRef "p")).1 _ _ sunset_storedAs).1⟩

end instagram
