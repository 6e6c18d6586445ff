-- Sharing a post: the procedure of the screen, which uploads the image in the background,
-- creates the post, and writes the image's url into it.
import Instagram.PostKeys
import Instagram.Repositories

namespace instagram

open docs firestore async

/-! ## The storage of images -/

/-- A download url is never empty. -/
structure DownloadUrl where
  text : String
  nonempty : text ≠ ""
  deriving DecidableEq, Repr

/-- Completely uploaded objects, the newest first, with the url of each. -/
structure ShareWorld where
  objects : List (String × DownloadUrl)
  db : Db

inductive ShareOp where
  | resize
  | getDownloadURL (path : String)
  | store (o : Op)

abbrev ShareAns : ShareOp → Type
  | .resize => Except DartError Unit
  | .getDownloadURL _ => Except DartError String
  | .store o => Ans o

/-- What is free in an answer: an error of the file system or of the storage, and
Firestore's own choices. -/
structure ShareEnv where
  error : Option DartError
  db : Env

def shareHandle : (o : ShareOp) → ShareEnv → ShareWorld → Option (ShareWorld × ShareAns o)
  | .resize, e, w =>
    match e.error with
    | some x => some (w, .error x)
    | none => some (w, .ok ())
  | .getDownloadURL path, e, w =>
    match e.error, w.objects.lookup path with
    | some x, _ => some (w, .error x)
    | none, some url => some (w, .ok url.text)
    | none, none => some (w, .error (.firebase "object-not-found"))
  | .store o, e, w => (handle o e.db w.db).map fun (db, a) => ({ w with db }, a)

/-! ## The screen -/

/-- `routes` counts the pages and sheets over the home page, and `uploads` has the paths of
the tasks that still run. -/
structure ShareMem where
  userModel : Option UserModel
  text : String
  mounted : Bool
  routes : ℕ
  uploads : List String

abbrev ShareProg (ρ : Type) : Type := Prog ShareMem ShareOp ShareAns DartError ρ

def showModalBottomSheet : ShareProg Unit := .read fun m =>
  .write { m with routes := m.routes + 1 } (.ret ())

/-- A lookup from the context, which the screen must still have. -/
def ofContext {ρ : Type} (f : ShareMem → ShareProg ρ) : ShareProg ρ := .read fun m =>
  if m.mounted then f m else .raise .assertion

/-- `Navigator.of(context).pop()`. -/
def pop : ShareProg Unit := ofContext fun m => Prog.setMem { m with routes := m.routes - 1 }

/-- A method of the post repository. -/
def postRepository (p : Fire Unit) : ShareProg Unit := p.embed .store fun _ a => a

/-! ## Images -/

def getImagePathByPostKey (postKey : String) : String := "post/" ++ postKey ++ "/post.jpg"

@[simp] theorem getImagePathByPostKey_inj {k k' : String} :
    getImagePathByPostKey k = getImagePathByPostKey k' ↔ k = k' := by
  constructor
  · intro h
    have hlist := congrArg String.toList h
    unfold getImagePathByPostKey at hlist
    simp only [String.toList_append, List.append_assoc] at hlist
    exact String.toList_inj.mp (List.append_cancel_right (List.append_cancel_left hlist))
  · exact congrArg getImagePathByPostKey

/-- `standardizedPathForString`, which the storage applies to the path of every object. -/
def standardizedPathForString (string : String) : String :=
  "/".intercalate ((segments string).filter (· ≠ ""))

theorem segments_getImagePathByPostKey (k : String) :
    segments (getImagePathByPostKey k) = "post" :: segments k ++ ["post.jpg"] := by
  have hsplit : getImagePathByPostKey k = "post" ++ "/" ++ (k ++ "/" ++ "post.jpg") := by
    refine String.toList_inj.mp ?_
    simp [getImagePathByPostKey]
  have hpost : segments "post" = ["post"] := by decide
  have hjpg : segments "post.jpg" = ["post.jpg"] := by decide
  rw [hsplit, segments_append_slash, segments_append_slash, hpost, hjpg]
  rfl

/-- The segments of a standardized image path. -/
theorem segments_standardizedPathForString (k : String) :
    segments (standardizedPathForString (getImagePathByPostKey k)) =
      "post" :: (segments k).filter (· ≠ "") ++ ["post.jpg"] := by
  have hfilter : (segments (getImagePathByPostKey k)).filter (· ≠ "") =
      "post" :: (segments k).filter (· ≠ "") ++ ["post.jpg"] := by
    rw [segments_getImagePathByPostKey]
    simp
  unfold standardizedPathForString
  rw [segments_intercalate ?_ (by rw [hfilter]; simp), hfilter]
  exact fun x hx => slash_notMem_of_mem_segments (List.mem_of_mem_filter hx)

/-- Two posts have one document, or one object for their images. -/
def SharePlace (k k' : String) : Prop :=
  (∃ ref, documentWithPath [COLLECTION_POST] k = some ref ∧
    documentWithPath [COLLECTION_POST] k' = some ref) ∨
  standardizedPathForString (getImagePathByPostKey k) =
    standardizedPathForString (getImagePathByPostKey k')

theorem eq_of_documentWithPath {collection ref : Path} {k k' : String} (hk : "" ∉ segments k)
    (hk' : "" ∉ segments k') (h : documentWithPath collection k = some ref)
    (h' : documentWithPath collection k' = some ref) : k = k' := by
  rw [documentWithPath_docRef hk] at h
  rw [documentWithPath_docRef hk'] at h'
  obtain ⟨_, hdoc⟩ := Option.ite_none_right_eq_some.mp h
  obtain ⟨_, hdoc'⟩ := Option.ite_none_right_eq_some.mp h'
  exact docRef_inj.mp (Option.some.inj (hdoc.trans hdoc'.symm))

/-- Keys without empty segments are places of their own. -/
theorem sharePlace_iff {k k' : String} (hk : "" ∉ segments k) (hk' : "" ∉ segments k') :
    SharePlace k k' ↔ k = k' := by
  have hplain : ∀ {k : String}, "" ∉ segments k → (segments k).filter (· ≠ "") = segments k :=
    fun h => List.filter_eq_self.mpr fun x hx => decide_eq_true (ne_of_mem_of_not_mem hx h)
  constructor
  · rintro (⟨ref, h, h'⟩ | h)
    · exact eq_of_documentWithPath hk hk' h h'
    · have hseg := congrArg segments h
      rw [segments_standardizedPathForString, segments_standardizedPathForString, hplain hk,
        hplain hk'] at hseg
      exact segments_inj (List.cons.inj (List.append_cancel_right hseg)).2
  · rintro rfl
    exact Or.inr rfl

/-- A key is a time and a user, and an image's path is a key. Two posts share a place only when
they have one key, unless a slash of a user's key makes an empty segment. -/
theorem two_posts_share_a_place_only_of_one_user_at_one_instant (now now' : Int)
    (userModel userModel' : UserModel) (k k' : String) :
    (getNewPostKey now userModel = getNewPostKey now' userModel' ↔
      now = now' ∧ userModel.userKey = userModel'.userKey) ∧
    (getImagePathByPostKey k = getImagePathByPostKey k' ↔ k = k') ∧
    (NoStraySlash userModel.userKey → NoStraySlash userModel'.userKey →
      (SharePlace (getNewPostKey now userModel) (getNewPostKey now' userModel') ↔
        now = now' ∧ userModel.userKey = userModel'.userKey)) := by
  refine ⟨getNewPostKey_inj, getImagePathByPostKey_inj, fun h h' => ?_⟩
  rw [sharePlace_iff (empty_notMem_segments_getNewPostKey now h)
    (empty_notMem_segments_getNewPostKey now' h'), getNewPostKey_inj]

/-- A slash at the end of a user's key is lost, in the document's path and in the image's. -/
theorem a_slash_at_the_end_shares_both_places :
    (let k := getNewPostKey 7 (newUserModel "a" "ann")
     let k' := getNewPostKey 7 (newUserModel "a/" "ann")
     documentWithPath [COLLECTION_POST] k = some [COLLECTION_POST, "7_a"] ∧
     documentWithPath [COLLECTION_POST] k' = some [COLLECTION_POST, "7_a"] ∧
     standardizedPathForString (getImagePathByPostKey k) = "post/7_a/post.jpg" ∧
     standardizedPathForString (getImagePathByPostKey k') = "post/7_a/post.jpg") ∧
    ¬∀ (now now' : Int) (userModel userModel' : UserModel),
      SharePlace (getNewPostKey now userModel) (getNewPostKey now' userModel') →
        now = now' ∧ userModel.userKey = userModel'.userKey := by
  refine ⟨by decide, fun h => ?_⟩
  obtain ⟨_, hkeys⟩ := h 7 7 (newUserModel "a" "ann") (newUserModel "a/" "ann")
    (Or.inr (by decide))
  exact absurd hkeys (by decide)

/-- A slash inside of a user's key is harmless. -/
theorem posts_of_keys_with_slashes_share_no_place :
    ¬SharePlace (getNewPostKey 7 (newUserModel "a/b" "ann"))
      (getNewPostKey 7 (newUserModel "/a" "ann")) := by
  obtain ⟨_, _, hplace⟩ := two_posts_share_a_place_only_of_one_user_at_one_instant 7 7
    (newUserModel "a/b" "ann") (newUserModel "/a" "ann") "" ""
  rw [hplace (by decide) (by decide)]
  decide

/-- Starts a task that runs on by itself. -/
def putFile (path : String) : ShareProg String := .read fun m =>
  .write { m with uploads := m.uploads ++ [path] } (.ret path)

/-- Gives the task, running as it may be, and null after an error. -/
def uploadImage (postKey : String) : ShareProg (Option String) :=
  Prog.catchError (fun _ => pure none) do
    (.await .resize .ofExcept : ShareProg Unit)
    let uploadTask ← putFile (getImagePathByPostKey postKey)
    pure (some uploadTask)

def getPostImageUrl (postKey : String) : ShareProg String :=
  .await (.getDownloadURL (getImagePathByPostKey postKey)) .ofExcept

/-! ## The procedure -/

/-- The key of the post, and the two readings of the clock. -/
structure ShareCall where
  postKey : String
  now : Int
  now' : Int
  deriving DecidableEq, Repr

/-- The procedure from the end of `uploadImage` on. -/
def afterUpload (c : ShareCall) : ShareProg Unit := do
  let usermodel ← ofContext fun m => pure m.userModel
  match usermodel with
  | none => .raise .noSuchMethod
  | some usermodel => do
    let m ← Prog.getMem
    postRepository (createNewPost c.postKey (PostModel.getMapForCreatePost usermodel.userKey
      usermodel.username m.text c.now c.now'))
    let postImgLink ← getPostImageUrl c.postKey
    postRepository (updatePostImageUrl postImgLink c.postKey)
    pop
    pop

def sharePostProcedure (c : ShareCall) : ShareProg Unit := do
  showModalBottomSheet
  let _ ← uploadImage c.postKey
  afterUpload c

/-! ## The system -/

/-- What happens besides the procedure. -/
inductive SharePoke where
  /-- A task ends, and its object is there with a new url. -/
  | uploadFinishes (task : ℕ) (url : DownloadUrl)
  | uploadFails (task : ℕ)
  /-- Somebody else commits a batch of writes. -/
  | write (ws : List Write)
  | setUserModel (userModel : Option UserModel)
  | edit (text : String)
  /-- The screen goes away. -/
  | dispose

def sharePoke (x : SharePoke) (m : ShareMem) (w : ShareWorld) : Option (ShareMem × ShareWorld) :=
  match x with
  | .uploadFinishes i url =>
    (m.uploads[i]?).map fun path =>
      ({ m with uploads := m.uploads.eraseIdx i }, { w with objects := (path, url) :: w.objects })
  | .uploadFails i =>
    (m.uploads[i]?).map fun _ => ({ m with uploads := m.uploads.eraseIdx i }, w)
  | .write ws =>
    (commit w.db.docs ws).map fun docs => (m, { w with db := { w.db with docs } })
  | .setUserModel userModel => some ({ m with userModel }, w)
  | .edit text => some ({ m with text }, w)
  | .dispose => some ({ m with mounted := false }, w)

def share : System ShareMem ShareWorld ShareOp ShareAns DartError ShareCall ShareEnv SharePoke where
  prog := sharePostProcedure
  handle := shareHandle
  poke := sharePoke

abbrev ShareState : Type := State ShareMem ShareWorld ShareOp ShareAns DartError ShareCall

abbrev ShareAct : Type := Act ShareCall ShareEnv SharePoke

/-- The button was not tapped yet. -/
def shareInit (m : ShareMem) (w : ShareWorld) : ShareState :=
  init ShareOp ShareAns DartError ShareCall m w

end instagram
