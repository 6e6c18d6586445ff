-- The keys of the documents, the maps that the app writes for a new user, post or
-- comment, and the models that it reads back.
import Instagram.Firestore

namespace instagram

open docs firestore

/-! ## Keys -/

def COLLECTION_POST : String := "Posts"
def COLLECTION_USERS : String := "Users"
def COLLECTION_COMMENTS : String := "Comments"

def KEY_USERKEY : String := "user_key"
def KEY_PROFILEIMG : String := "profile_img"
def KEY_EMAIL : String := "email"
def KEY_LIKEDPOSTS : String := "liked_posts"
def KEY_FOLLOWERS : String := "followers"
def KEY_FOLLOWINGS : String := "followings"
def KEY_MYPOSTS : String := "my_posts"
def KEY_USERNAME : String := "username"

def KEY_COMMENT : String := "comment"
def KEY_COMMENTTIME : String := "commenttime"

def KEY_POSTIMG : String := "post_img"
def KEY_CAPTION : String := "caption"
def KEY_LASTCOMMENT : String := "last_comment"
def KEY_LASTCOMMENTOR : String := "last_commentor"
def KEY_LASTCOMMENTTIME : String := "last_commenttime"
def KEY_NUMOFLIKES : String := "num_of_likes"
def KEY_NUMOFCOMMENTS : String := "num_of_comments"
def KEY_POSTTIME : String := "post_time"

/-! ## References -/

def userRef (userKey : String) : Path := docRef [COLLECTION_USERS] userKey

def postRef (postKey : String) : Path := docRef [COLLECTION_POST] postKey

/-- The collection that `createNewComment` writes to. -/
def commentsOf (postKey : String) : Path := postRef postKey ++ [COLLECTION_COMMENTS]

@[simp] theorem userRef_inj {a b : String} : userRef a = userRef b ↔ a = b := docRef_inj
@[simp] theorem postRef_inj {a b : String} : postRef a = postRef b ↔ a = b := docRef_inj

@[simp] theorem userRef_ne_postRef (u k : String) : userRef u ≠ postRef k := by
  simp [userRef, postRef, docRef, COLLECTION_USERS, COLLECTION_POST]

@[simp] theorem postRef_ne_userRef (k u : String) : postRef k ≠ userRef u :=
  (userRef_ne_postRef u k).symm

theorem head_postRef (postKey : String) : (postRef postKey).head? = some COLLECTION_POST := rfl

/-! ## Users -/

/-- `UserModel`. Dart lets every field but the key be null. -/
structure UserModel where
  userKey : String
  profileImg : Option String
  email : Option String
  myPosts : Option (List Atom)
  followers : Option Int
  likedPosts : Option (List Atom)
  username : Option String
  followings : Option (List Atom)
  reference : Path
  deriving DecidableEq, Repr

def UserModel.fromMap (map : Doc) (userKey : String) (reference : Path) :
    Except DartError UserModel := do
  let profileImg ← asString (lookup map KEY_PROFILEIMG)
  let username ← asString (lookup map KEY_USERNAME)
  let email ← asString (lookup map KEY_EMAIL)
  let myPosts ← asList (lookup map KEY_MYPOSTS)
  let likedPosts ← asList (lookup map KEY_LIKEDPOSTS)
  let followers ← asInt (lookup map KEY_FOLLOWERS)
  let followings ← asList (lookup map KEY_FOLLOWINGS)
  pure { userKey, profileImg, email, myPosts, followers, likedPosts, username, followings,
         reference }

/-- `fromSnapshot` reads fields of `snapshot.data()`, which is null for a missing document. -/
def UserModel.fromSnapshot (userKey : String) (snapshot : Snapshot) : Except DartError UserModel :=
  match snapshot with
  | some map => fromMap map userKey (userRef userKey)
  | none => .error .noSuchMethod

/-- `email.split('@')[0]`. -/
def beforeAt (email : String) : String := String.ofList ((email.toList.splitOn '@').headD [])

theorem at_notMem_beforeAt (email : String) : '@' ∉ (beforeAt email).toList := by
  unfold beforeAt
  rw [String.toList_ofList]
  by_cases hat : '@' ∈ email.toList
  · obtain ⟨name, domain, hsplit, hname⟩ := List.eq_append_cons_of_mem hat
    rw [hsplit, List.splitOn_append_cons_self_of_not_mem hname]
    exact hname
  · rw [List.splitOn_eq_singleton hat]
    exact hat

/-- An email is the part before its first `@`, or goes on with an `@` after it. -/
theorem email_beforeAt (email : String) :
    email = beforeAt email ∨ ∃ domain, email = beforeAt email ++ "@" ++ domain := by
  unfold beforeAt
  by_cases hat : '@' ∈ email.toList
  · obtain ⟨name, domain, hsplit, hname⟩ := List.eq_append_cons_of_mem hat
    refine Or.inr ⟨String.ofList domain, String.toList_inj.mp ?_⟩
    rw [hsplit, List.splitOn_append_cons_self_of_not_mem hname]
    simp
  · rw [List.splitOn_eq_singleton hat]
    exact Or.inl (by simp)

/-- Raises on a null email, which has no `split`. -/
def UserModel.getMapForCreateUser : Option String → Except DartError Doc
  | none => .error .noSuchMethod
  | some email => .ok <| mapOf
    [(KEY_PROFILEIMG, str ""),
     (KEY_USERNAME, str (beforeAt email)),
     (KEY_EMAIL, str email),
     (KEY_LIKEDPOSTS, .list []),
     (KEY_FOLLOWERS, int 0),
     (KEY_FOLLOWINGS, .list []),
     (KEY_MYPOSTS, .list [])]

/-- What the document of a user who has just signed up decodes to. -/
def newUserModel (userKey email : String) : UserModel :=
  { userKey, profileImg := some "", email := some email, myPosts := some [], followers := some 0,
    likedPosts := some [], username := some (beforeAt email), followings := some [],
    reference := userRef userKey }

/-- A database of users who have just signed up, and of nothing else. -/
def freshUsers (emails : List String) : Store := fun ref =>
  (emails.find? fun u => decide (ref = userRef u)).bind fun u =>
    (UserModel.getMapForCreateUser (some u)).toOption

theorem freshUsers_some {emails : List String} {p : Path} {d : Doc}
    (h : freshUsers emails p = some d) :
    ∃ u, p = userRef u ∧ UserModel.getMapForCreateUser (some u) = .ok d := by
  obtain ⟨u, hu, hd⟩ := Option.bind_eq_some_iff.mp h
  refine ⟨u, by simpa using List.find?_some hu, ?_⟩
  cases hd
  rfl

theorem freshUsers_none {emails : List String} {p : Path} (h : ∀ u, p ≠ userRef u) :
    freshUsers emails p = none := by
  rw [Option.eq_none_iff_forall_ne_some]
  intro d hd
  obtain ⟨u, hu, _⟩ := freshUsers_some hd
  exact h u hu

/-! ## Posts -/

/-- `PostModel`. Dart lets every field but the key be null, save the two times. -/
structure PostModel where
  postKey : String
  userKey : Option String
  username : Option String
  postImg : Option String
  numOfLikes : Option (List Atom)
  caption : Option String
  lastCommentor : Option String
  lastComment : Option String
  lastCommentTime : Int
  numOfComments : Option Int
  postTime : Int
  reference : Path
  deriving DecidableEq, Repr

/-- A time that is null decodes to the clock's `now`. -/
def timeOr (now : Int) : Value → Except DartError Int
  | .scalar .null => .ok now
  | .scalar (.timestamp t) => .ok t
  | _ => .error .typeError

/-- `now` and `now'` are the two readings of the clock. The source reads `numOfComments` from
`KEY_NUMOFLIKES`. -/
def PostModel.fromMap (now now' : Int) (map : Doc) (postKey : String) (reference : Path) :
    Except DartError PostModel := do
  let userKey ← asString (lookup map KEY_USERKEY)
  let username ← asString (lookup map KEY_USERNAME)
  let postImg ← asString (lookup map KEY_POSTIMG)
  let numOfLikes ← asList (lookup map KEY_NUMOFLIKES)
  let caption ← asString (lookup map KEY_CAPTION)
  let lastCommentor ← asString (lookup map KEY_LASTCOMMENTOR)
  let lastComment ← asString (lookup map KEY_LASTCOMMENT)
  let lastCommentTime ← timeOr now (lookup map KEY_LASTCOMMENTTIME)
  let numOfComments ← asInt (lookup map KEY_NUMOFLIKES)
  let postTime ← timeOr now' (lookup map KEY_POSTTIME)
  pure { postKey, userKey, username, postImg, numOfLikes, caption, lastCommentor, lastComment,
         lastCommentTime, numOfComments, postTime, reference }

/-- `now` and `now'` are the two readings of the clock. `KEY_NUMOFLIKES` stands twice, as
in the source, and `KEY_NUMOFCOMMENTS` not at all. -/
def PostModel.getMapForCreatePost (userKey : String) (username : Option String)
    (caption : String) (now now' : Int) : Doc :=
  mapOf
    [(KEY_USERKEY, str userKey),
     (KEY_USERNAME, strOrNull username),
     (KEY_POSTIMG, str ""),
     (KEY_NUMOFLIKES, .list []),
     (KEY_CAPTION, str caption),
     (KEY_LASTCOMMENTOR, str ""),
     (KEY_LASTCOMMENT, str ""),
     (KEY_LASTCOMMENTTIME, timestamp now),
     (KEY_NUMOFLIKES, int 0),
     (KEY_POSTTIME, timestamp now')]

/-- A database of one post, with the integer counter that the comments need. -/
def countedPost (k : String) : Store := fun ref =>
  if ref = postRef k then some (mapOf [(KEY_NUMOFCOMMENTS, int 0)]) else none

/-! ## Comments -/

structure CommentModel where
  username : Option String
  userKey : Option String
  comment : Option String
  commentTime : Int
  commentKey : String
  reference : Path
  deriving DecidableEq, Repr

/-- `now` is the reading of the clock. -/
def CommentModel.fromMap (now : Int) (map : Doc) (commentKey : String) (reference : Path) :
    Except DartError CommentModel := do
  let username ← asString (lookup map KEY_USERNAME)
  let userKey ← asString (lookup map KEY_USERKEY)
  let comment ← asString (lookup map KEY_COMMENT)
  let commentTime ← timeOr now (lookup map KEY_COMMENTTIME)
  pure { username, userKey, comment, commentTime, commentKey, reference }

def CommentModel.getMapForNewComment (userKey : String) (username : Option String)
    (comment : String) (now : Int) : Doc :=
  mapOf
    [(KEY_USERKEY, str userKey),
     (KEY_USERNAME, strOrNull username),
     (KEY_COMMENT, str comment),
     (KEY_COMMENTTIME, timestamp now)]

end instagram
