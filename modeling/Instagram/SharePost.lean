-- Sharing a post is not all or nothing. Once the post is created, the procedure still needs
-- the image's url and two more answers of Firestore, and it undoes nothing when one of them
-- fails. The phases below say how far it has come.
import Instagram.Share

namespace instagram

open docs firestore async runs

/-! ## The phases of the procedure -/

/-- Before the post is created, without its url, with the url at hand, with the url written,
and given up with the url still missing. -/
inductive Phase where
  | absent
  | posted
  | known (url : String)
  | linked (url : String)
  | failed

def Phase.next : Phase → (o : ShareOp) → ShareAns o → Phase
  | .absent, .store (.commit _), .ok _ => .posted
  | .posted, .getDownloadURL _, .ok url => .known url
  | .posted, .getDownloadURL _, .error _ => .failed
  | .known _, .store (.get _), .error _ => .failed
  | .known url, .store (.commit _), .ok _ => .linked url
  | .known _, .store (.commit _), .error _ => .failed
  | g, _, _ => g

def Phase.Awaits (k : String) : Phase → ShareOp → Prop
  | .absent, .resize => True
  | .absent, .store (.get ref) => ref = postRef k
  | .absent, .store (.commit ws) => ∃ userKey username text now now',
    ws = createWrites k (PostModel.getMapForCreatePost userKey username text now now')
      (userRef userKey)
  | .posted, .getDownloadURL path => path = getImagePathByPostKey k
  | .known _, .store (.get ref) => ref = postRef k
  | .known url, .store (.commit ws) => ws = [.update (postRef k) [(KEY_POSTIMG, .put (str url))]]
  | _, _ => False

/-- Whoever reads the post finds it missing before it is created, and there afterwards. -/
def Phase.Answers : Phase → (o : ShareOp) → ShareAns o → Prop
  | .absent, .store (.get _), .ok s => s = none
  | .known _, .store (.get _), .ok s => s.isSome
  | _, _, _ => True

def Phase.Ends : Phase → Prop
  | .posted => False
  | .known _ => False
  | _ => True

/-- The procedure for the post `k`. -/
def sharePhases (k : String) : Phases ShareOp ShareAns Phase where
  awaits := Phase.Awaits k
  answers := Phase.Answers
  next := Phase.next
  ends := Phase.Ends

/-! ## The procedure follows its phases -/

/-- With a mapped document, the author's key is there, so `createNewPost` is a read and a
transaction. -/
theorem createNewPost_mapped (k userKey : String) (username : Option String) (text : String)
    (now now' : Int) :
    createNewPost k (PostModel.getMapForCreatePost userKey username text now now') =
      get (postRef k) >>= fun s => .await (.commit (if s.isNone then
        createWrites k (PostModel.getMapForCreatePost userKey username text now now')
          (userRef userKey) else [])) .ofExcept := by
  have hauthor : authorRef (PostModel.getMapForCreatePost userKey username text now now') =
      .ok (some (userRef userKey)) := rfl
  unfold createNewPost
  refine congrArg (get (postRef k) >>= ·) (funext fun s => ?_)
  rw [hauthor]
  cases s <;> rfl

/-- `pop` may raise, and leaves the phase as it is. -/
theorem pop_follows {k : String} {g : Phase} {f : Unit → ShareProg Unit} (hg : g.Ends)
    (h : (f ()).Follows (sharePhases k) g) : (pop >>= f).Follows (sharePhases k) g := by
  intro m
  show Prog.Follows _ ((if m.mounted then _ else _) >>= f) _
  split
  · exact h
  · exact hg

theorem link_follows (k url : String) :
    (postRepository (updatePostImageUrl url k) >>= fun _ => pop >>= fun _ => pop).Follows
      (sharePhases k) (.known url) := by
  have hpops : (pop >>= fun _ => pop).Follows (sharePhases k) (.linked url) := by
    refine pop_follows trivial fun m => ?_
    show Prog.Follows _ (if m.mounted then _ else _) _
    split <;> trivial
  refine ⟨rfl, ?_⟩
  rintro (e | _ | d) hs
  · trivial
  · cases hs
  · refine ⟨rfl, ?_⟩
    rintro (e | _) _
    · trivial
    · exact hpops

theorem fetch_follows (k : String) :
    (getPostImageUrl k >>= fun url => postRepository (updatePostImageUrl url k) >>= fun _ =>
      pop >>= fun _ => pop).Follows (sharePhases k) .posted := by
  refine ⟨rfl, ?_⟩
  rintro (e | url) _
  · trivial
  · exact link_follows k url

theorem create_follows {k userKey : String} {username : Option String} {text : String}
    {now now' : Int} {f : Unit → ShareProg Unit} (h : (f ()).Follows (sharePhases k) .posted) :
    (postRepository (createNewPost k (PostModel.getMapForCreatePost userKey username text now
      now')) >>= f).Follows (sharePhases k) .absent := by
  rw [createNewPost_mapped]
  refine ⟨rfl, ?_⟩
  rintro (e | s) hs
  · trivial
  · obtain rfl : s = none := hs
    refine ⟨⟨_, _, _, _, _, rfl⟩, ?_⟩
    rintro (e | _) _
    · trivial
    · exact h

theorem afterUpload_follows (c : ShareCall) :
    (afterUpload c).Follows (sharePhases c.postKey) .absent := by
  intro m
  show Prog.Follows _ ((if m.mounted then _ else _) >>= _) _
  split
  · show Prog.Follows _ (pure m.userModel >>= _) _
    cases m.userModel with
    | none => trivial
    | some usermodel => exact fun m => create_follows (fetch_follows c.postKey)
  · trivial

/-- Whether the upload started or not, the procedure goes on. -/
theorem sharePostProcedure_follows (c : ShareCall) :
    (sharePostProcedure c).Follows (sharePhases c.postKey) .absent := by
  show (showModalBottomSheet >>= fun _ => uploadImage c.postKey >>= fun _ =>
    afterUpload c).Follows _ _
  intro m
  refine ⟨trivial, ?_⟩
  rintro (e | _) _
  · exact afterUpload_follows c
  · exact fun m => afterUpload_follows c

/-! ## The world in each phase -/

/-- The post is there, and its image is still the empty string. -/
def Unlinked (k : String) (w : ShareWorld) : Prop :=
  ∃ d, w.db.docs (postRef k) = some d ∧ d KEY_POSTIMG = some (str "")

/-- The url is that of a completely uploaded image of the post. -/
def Uploaded (k url : String) (w : ShareWorld) : Prop :=
  ∃ u : DownloadUrl, (getImagePathByPostKey k, u) ∈ w.objects ∧ u.text = url

/-- The post has the url of a completely uploaded image. -/
def Linked (k : String) (w : ShareWorld) : Prop :=
  ∃ d url, w.db.docs (postRef k) = some d ∧ d KEY_POSTIMG = some (str url) ∧ Uploaded k url w

def Phase.Fits (k : String) : Phase → ShareWorld → Prop
  | .absent, w => w.db.docs (postRef k) = none
  | .posted, w => Unlinked k w
  | .known url, w => Unlinked k w ∧ Uploaded k url w
  | .linked _, w => Linked k w
  | .failed, w => Unlinked k w

/-- A url is never empty, so a post without one is not linked. -/
theorem not_linked_of_unlinked {k : String} {w : ShareWorld} (h : Unlinked k w) :
    ¬ Linked k w := by
  obtain ⟨d, hd, himg⟩ := h
  rintro ⟨d', url, hd', himg', u, _, rfl⟩
  rw [hd, Option.some.injEq] at hd'
  rw [← hd', himg] at himg'
  simp only [str, Option.some.injEq, Value.scalar.injEq, Atom.str.injEq] at himg'
  exact u.nonempty himg'.symm

/-- What the storage answers, and when it gives a url. -/
theorem share_getDownloadURL {path : String} {e : ShareEnv} {w w' : ShareWorld}
    {a : Except DartError String} (h : shareHandle (.getDownloadURL path) e w = some (w', a)) :
    w' = w ∧ ((e.error = none ∧ ∃ u, w.objects.lookup path = some u ∧ a = .ok u.text) ∨
      (¬ (e.error = none ∧ (w.objects.lookup path).isSome) ∧ ∃ x, a = .error x)) := by
  simp only [shareHandle] at h
  split at h
  · rename_i x herror
    cases h
    exact ⟨rfl, Or.inr ⟨fun hok => (by rw [herror] at hok; cases hok.1), _, rfl⟩⟩
  · rename_i url herror hurl
    cases h
    exact ⟨rfl, Or.inl ⟨herror, url, hurl, rfl⟩⟩
  · rename_i herror hurl
    cases h
    exact ⟨rfl, Or.inr ⟨fun hok => (by rw [hurl] at hok; cases hok.2), _, rfl⟩⟩

theorem share_store {o : Op} {e : ShareEnv} {w w' : ShareWorld} {a : Ans o}
    (h : shareHandle (.store o) e w = some (w', a)) :
    w'.objects = w.objects ∧ handle o e.db w.db = some (w'.db, a) := by
  obtain ⟨⟨db, r⟩, hdb, hr⟩ := Option.map_eq_some_iff.mp h
  cases hr
  exact ⟨rfl, hdb⟩

/-- From `posted` on, the post is there. -/
theorem fits_isSome {k : String} {g : Phase} {w : ShareWorld} (hg : g ≠ .absent)
    (h : g.Fits k w) : (w.db.docs (postRef k)).isSome := by
  have hunlinked : Unlinked k w → (w.db.docs (postRef k)).isSome := by
    rintro ⟨d, hd, _⟩
    rw [hd]
    rfl
  cases g with
  | absent => exact absurd rfl hg
  | posted => exact hunlinked h
  | known url => exact hunlinked h.1
  | linked url =>
    obtain ⟨d, _, hd, _⟩ := h
    rw [hd]
    rfl
  | failed => exact hunlinked h

/-- Before the post is created, nothing is given up. -/
theorem absent_next (o : ShareOp) (a : ShareAns o) : Phase.absent.next o a ≠ .failed := by
  cases o with
  | store o =>
    cases o with
    | commit ws => cases a <;> exact fun h => (by cases h)
    | _ => exact fun h => (by cases h)
  | _ => exact fun h => (by cases h)

/-- What an answer succeeds by: no error, and an image that is completely there. -/
def Succeeds : ShareOp → ShareEnv → ShareWorld → Prop
  | .resize, _, _ => True
  | .getDownloadURL path, e, w => e.error = none ∧ (w.objects.lookup path).isSome
  | .store _, e, _ => e.db.fails = false

/-- One answer: it is of the kind that the phase allows, and the world fits the next phase. -/
structure Advances (k : String) (g : Phase) (o : ShareOp) (e : ShareEnv) (w w' : ShareWorld)
    (a : ShareAns o) : Prop where
  answers : g.Answers o a
  fits : (g.next o a).Fits k w'
  failed : g ≠ .absent → (g.next o a ≠ .failed ↔ Succeeds o e w)

theorem absent_advances {k : String} {o : ShareOp} {e : ShareEnv} {w w' : ShareWorld}
    {a : ShareAns o} (ho : Phase.absent.Awaits k o) (hw : Phase.absent.Fits k w)
    (h : shareHandle o e w = some (w', a)) : Advances k .absent o e w w' a := by
  cases o with
  | resize =>
    have hsame : w' = w := by
      simp only [shareHandle] at h
      split at h <;> cases h <;> rfl
    rw [hsame]
    exact ⟨trivial, hw, fun hg => absurd rfl hg⟩
  | getDownloadURL path => exact ho.elim
  | store o =>
    obtain ⟨_, hdb⟩ := share_store h
    cases o with
    | get ref =>
      obtain rfl : ref = postRef k := ho
      obtain ⟨hsame, hread⟩ := handle_get hdb
      have hfits : w'.db.docs (postRef k) = none := by rw [hsame]; exact hw
      cases a with
      | error x => exact ⟨trivial, hfits, fun hg => absurd rfl hg⟩
      | ok s => exact ⟨(hread s rfl).trans hw, hfits, fun hg => absurd rfl hg⟩
    | commit ws =>
      obtain ⟨userKey, username, text, now, now', rfl⟩ := ho
      rcases handle_commit hdb with ⟨rfl, _, _, hcommit⟩ | ⟨⟨x, rfl⟩, hsame, _⟩
      · exact ⟨trivial, ⟨_, docs_createWrites rfl hcommit, rfl⟩, fun hg => absurd rfl hg⟩
      · refine ⟨trivial, ?_, fun hg => absurd rfl hg⟩
        show w'.db.docs _ = none
        rw [hsame]
        exact hw
    | newId p => exact ho.elim

theorem posted_advances {k : String} {o : ShareOp} {e : ShareEnv} {w w' : ShareWorld}
    {a : ShareAns o} (ho : Phase.posted.Awaits k o) (hw : Phase.posted.Fits k w)
    (h : shareHandle o e w = some (w', a)) : Advances k .posted o e w w' a := by
  cases o with
  | resize => exact ho.elim
  | getDownloadURL path =>
    obtain rfl : path = getImagePathByPostKey k := ho
    obtain ⟨rfl, ⟨herror, u, hu, rfl⟩ | ⟨hno, x, rfl⟩⟩ := share_getDownloadURL h
    · have hmem : (getImagePathByPostKey k, u) ∈ w'.objects := by
        obtain ⟨pre, post, hobjects, _⟩ := List.lookup_eq_some_iff.mp hu
        rw [hobjects]
        simp
      refine ⟨trivial, ⟨hw, u, hmem, rfl⟩, fun _ => iff_of_true (fun hg => (by cases hg)) ?_⟩
      exact ⟨herror, by rw [hu]; rfl⟩
    · exact ⟨trivial, hw, fun _ => iff_of_false (fun hne => hne rfl) hno⟩
  | store o => exact ho.elim

theorem known_advances {k url : String} {o : ShareOp} {e : ShareEnv} {w w' : ShareWorld}
    {a : ShareAns o} (ho : (Phase.known url).Awaits k o) (hw : (Phase.known url).Fits k w)
    (h : shareHandle o e w = some (w', a)) : Advances k (.known url) o e w w' a := by
  cases o with
  | resize => exact ho.elim
  | getDownloadURL path => exact ho.elim
  | store o =>
    obtain ⟨hobjects, hdb⟩ := share_store h
    obtain ⟨⟨d, hd, himg⟩, u, hu, rfl⟩ := hw
    have hup : Uploaded k u.text w' := ⟨u, by rw [hobjects]; exact hu, rfl⟩
    cases o with
    | get ref =>
      obtain rfl : ref = postRef k := ho
      have hsame : w'.db = w.db := (handle_get hdb).1
      have hunlinked : Unlinked k w' := ⟨d, by rw [hsame]; exact hd, himg⟩
      cases hfails : e.db.fails with
      | true =>
        simp only [handle, hfails, if_true, Option.some.injEq, Prod.mk.injEq] at hdb
        obtain ⟨_, rfl⟩ := hdb
        refine ⟨trivial, hunlinked, fun _ => iff_of_false (fun hne => hne rfl) fun hok => ?_⟩
        exact Bool.noConfusion (hfails.symm.trans hok)
      | false =>
        simp only [handle, hfails, hd, Bool.false_eq_true, if_false, Option.some.injEq,
          Prod.mk.injEq] at hdb
        obtain ⟨_, rfl⟩ := hdb
        exact ⟨rfl, ⟨hunlinked, hup⟩, fun _ => iff_of_true (fun hg => (by cases hg)) hfails⟩
    | commit ws =>
      obtain rfl : ws = _ := ho
      rcases handle_commit hdb with ⟨rfl, _, hfails, hcommit⟩ | ⟨⟨x, rfl⟩, hsame, hno⟩
      · have hpost : w'.db.docs (postRef k) =
            some (updated d [(KEY_POSTIMG, .put (str u.text))]) := by
          rw [commit_update _ hd, Option.some.injEq] at hcommit
          rw [← hcommit]
          exact Function.update_self _ _ _
        exact ⟨trivial, ⟨_, u.text, hpost, by simp, hup⟩,
          fun _ => iff_of_true (fun hg => (by cases hg)) hfails⟩
      · refine ⟨trivial, ⟨d, by rw [hsame]; exact hd, himg⟩,
          fun _ => iff_of_false (fun hne => hne rfl) fun hok => ?_⟩
        rcases hno with hfails | hnone
        · exact Bool.noConfusion (hfails.symm.trans hok)
        · rw [commit_update _ hd] at hnone
          cases hnone
    | newId p => exact ho.elim

/-- An answer takes the world to the next phase. -/
theorem share_advances {k : String} {g : Phase} {o : ShareOp} {e : ShareEnv} {w w' : ShareWorld}
    {a : ShareAns o} (ho : g.Awaits k o) (hw : g.Fits k w)
    (h : shareHandle o e w = some (w', a)) : Advances k g o e w w' a := by
  cases g with
  | absent => exact absent_advances ho hw h
  | posted => exact posted_advances ho hw h
  | known url => exact known_advances ho hw h
  | linked url => exact ho.elim
  | failed => exact ho.elim

/-- The world goes with the phases. -/
theorem share_fits (k : String) (g : Phase) (o : ShareOp) (e : ShareEnv) (w w' : ShareWorld)
    (a : ShareAns o) (ho : (sharePhases k).awaits g o) (hw : g.Fits k w)
    (h : share.handle o e w = some (w', a)) :
    (sharePhases k).answers g o a ∧ Phase.Fits k ((sharePhases k).next g o a) w' :=
  ⟨(share_advances ho hw h).answers, (share_advances ho hw h).fits⟩

/-! ## The law -/

/-- The steps of a run of the procedure `c`: its one call, and everything around it. Nobody
else writes to the post. -/
def ShareStep (c : ShareCall) : ShareAct → Prop
  | .start i c' => i = 0 ∧ c' = c
  | .resume _ _ => True
  | .poke (.write ws) => postRef c.postKey ∉ ws.map Write.ref
  | .poke _ => True

/-- When the procedure has ended, normally or by an exception, it has created no post, or
the post has the url of a completely uploaded image. `docs` are the documents before. -/
def AllOrNothing (k : String) (docs : Store) (s : ShareState) : Prop :=
  ∀ c r, s.calls 0 = some (c, .ended r) → docs (postRef k) = none →
    s.world.db.docs (postRef k) = none ∨ Linked k s.world

/-- Once the procedure has created the post, the answer succeeds. -/
def GetsThrough (k : String) (docs : Store) (s : ShareState) : ShareAct → Prop
  | .resume i e => docs (postRef k) = none → (s.world.db.docs (postRef k)).isSome →
    ∀ c o f, s.calls i = some (c, .waiting o f) → Succeeds o e s.world
  | _ => True

/-- What a run of the procedure keeps, when the key was free. -/
structure Sharing (c : ShareCall) (s : ShareState) : Prop where
  alone : ∀ i, i ≠ 0 → s.calls i = none
  before : s.calls 0 = none → s.world.db.docs (postRef c.postKey) = none
  inside : ∀ d p, s.calls 0 = some (d, p) → ∃ g : Phase, p.Follows (sharePhases c.postKey) g ∧
    g.Fits c.postKey s.world

/-- A procedure that follows its phases is all or nothing, unless it has given up. -/
theorem follows_safe {k : String} {g : Phase} {w : ShareWorld}
    {p : Parked ShareMem ShareOp ShareAns DartError Unit} (hp : p.Follows (sharePhases k) g)
    (hw : g.Fits k w) :
    (∀ r, p = .ended r → w.db.docs (postRef k) = none ∨ Linked k w) ↔ g ≠ .failed := by
  cases p with
  | waiting o f =>
    refine iff_of_true (fun r hr => (by cases hr)) ?_
    rintro rfl
    exact hp.1
  | ended r =>
    cases g with
    | absent => exact iff_of_true (fun _ _ => Or.inl hw) fun hg => (by cases hg)
    | posted => exact hp.elim
    | known url => exact hp.elim
    | linked url => exact iff_of_true (fun _ _ => Or.inr hw) fun hg => (by cases hg)
    | failed =>
      refine iff_of_false (fun hall => ?_) fun hne => hne rfl
      rcases hall r rfl with hnone | hlinked
      · obtain ⟨d, hd, _⟩ := hw
        rw [hnone] at hd
        cases hd
      · exact not_linked_of_unlinked hw hlinked

theorem allOrNothing_of_call {k : String} {docs : Store} {s : ShareState} {c : ShareCall}
    {p : Parked ShareMem ShareOp ShareAns DartError Unit} (hfree : docs (postRef k) = none)
    (hi : s.calls 0 = some (c, p)) : AllOrNothing k docs s ↔
      ∀ r, p = .ended r → s.world.db.docs (postRef k) = none ∨ Linked k s.world := by
  constructor
  · rintro h r rfl
    exact h c r hi hfree
  · intro h d r hd _
    rw [hi] at hd
    cases hd
    exact h r rfl

/-! ## One step -/

/-- What happens around the procedure leaves the post alone, and no object disappears. -/
theorem sharePoke_frame {c : ShareCall} {x : SharePoke} {m m' : ShareMem} {w w' : ShareWorld}
    (hx : ShareStep c (.poke x)) (h : sharePoke x m w = some (m', w')) :
    w'.db.docs (postRef c.postKey) = w.db.docs (postRef c.postKey) ∧ w.objects ⊆ w'.objects := by
  cases x with
  | uploadFinishes i url =>
    obtain ⟨path, _, hpath⟩ := Option.map_eq_some_iff.mp h
    cases hpath
    exact ⟨rfl, List.subset_cons_self _ _⟩
  | uploadFails i =>
    obtain ⟨path, _, hpath⟩ := Option.map_eq_some_iff.mp h
    cases hpath
    exact ⟨rfl, fun _ ho => ho⟩
  | write ws =>
    obtain ⟨docs, hdocs, hw⟩ := Option.map_eq_some_iff.mp h
    cases hw
    exact ⟨commit_of_notMem hdocs hx, fun _ ho => ho⟩
  | setUserModel userModel =>
    cases h
    exact ⟨rfl, fun _ ho => ho⟩
  | edit text =>
    cases h
    exact ⟨rfl, fun _ ho => ho⟩
  | dispose =>
    cases h
    exact ⟨rfl, fun _ ho => ho⟩

variable {k : String} {w w' : ShareWorld}

theorem unlinked_frame (hdocs : w'.db.docs (postRef k) = w.db.docs (postRef k))
    (h : Unlinked k w) : Unlinked k w' := by
  obtain ⟨d, hd, himg⟩ := h
  exact ⟨d, hdocs.trans hd, himg⟩

theorem uploaded_frame {url : String} (hobjects : w.objects ⊆ w'.objects)
    (h : Uploaded k url w) : Uploaded k url w' := by
  obtain ⟨u, hu, htext⟩ := h
  exact ⟨u, hobjects hu, htext⟩

theorem linked_frame (hdocs : w'.db.docs (postRef k) = w.db.docs (postRef k))
    (hobjects : w.objects ⊆ w'.objects) (h : Linked k w) : Linked k w' := by
  obtain ⟨d, url, hd, himg, hup⟩ := h
  exact ⟨d, url, hdocs.trans hd, himg, uploaded_frame hobjects hup⟩

theorem fits_frame {g : Phase} (hdocs : w'.db.docs (postRef k) = w.db.docs (postRef k))
    (hobjects : w.objects ⊆ w'.objects) (h : g.Fits k w) : g.Fits k w' := by
  cases g with
  | absent => exact hdocs.trans h
  | posted => exact unlinked_frame hdocs h
  | known url => exact ⟨unlinked_frame hdocs h.1, uploaded_frame hobjects h.2⟩
  | linked url => exact linked_frame hdocs hobjects h
  | failed => exact unlinked_frame hdocs h

/-- What a resumption of the procedure does, in terms of its phase. -/
theorem sharing_resume {c : ShareCall} {s t : ShareState} {i : ℕ} {e : ShareEnv}
    (hs : Sharing c s) (h : step share s (.resume i e) = some t) :
    i = 0 ∧ ∃ (g : Phase) (d : ShareCall) (o : ShareOp) (f : ShareAns o → ShareProg Unit)
      (a : ShareAns o) (q : Parked ShareMem ShareOp ShareAns DartError Unit),
      s.calls 0 = some (d, .waiting o f) ∧ g.Awaits c.postKey o ∧ g.Fits c.postKey s.world ∧
        Advances c.postKey g o e s.world t.world a ∧ t.calls 0 = some (d, q) ∧
        q.Follows (sharePhases c.postKey) (g.next o a) := by
  have hi : i = 0 := by
    obtain ⟨d, o, f, w, a, hcall, _⟩ := step_resume h
    by_contra hne
    rw [hs.alone i hne] at hcall
    cases hcall
  subst hi
  obtain ⟨d, o, f, w, a, hcall, _⟩ := step_resume h
  obtain ⟨g, hp, hw⟩ := hs.inside d _ hcall
  obtain ⟨o', f', a', hwait, ho, hhandle, q, hq, hfollows, _⟩ :=
    follows_resume (share_fits c.postKey) hcall hp hw h
  cases hwait
  exact ⟨rfl, g, d, o, f, a', q, hcall, ho, hw, share_advances ho hw hhandle, hq, hfollows⟩

/-- The procedure starts before the post is there. -/
theorem sharing_start {c : ShareCall} {s t : ShareState} (hs : Sharing c s)
    (h : step share s (.start 0 c) = some t) :
    ∃ q, t.calls 0 = some (c, q) ∧ q.Follows (sharePhases c.postKey) .absent ∧
      Phase.absent.Fits c.postKey t.world := by
  refine ⟨_, calls_start h, (sharePostProcedure_follows c).settle _, ?_⟩
  obtain ⟨hnone, rfl⟩ := step_start h
  exact hs.before hnone

theorem sharing_step {c : ShareCall} {s t : ShareState} {a : ShareAct} (ha : ShareStep c a)
    (hs : Sharing c s) (h : step share s a = some t) : Sharing c t := by
  cases a with
  | start i d =>
    obtain ⟨rfl, rfl⟩ := ha
    obtain ⟨q, hq, hfollows, hfits⟩ := sharing_start hs h
    refine ⟨fun j hj => ?_, fun hcall => ?_, fun d' p hp => ?_⟩
    · exact (calls_start_other h hj).trans (hs.alone j hj)
    · rw [hq] at hcall
      cases hcall
    · rw [hq] at hp
      cases hp
      exact ⟨.absent, hfollows, hfits⟩
  | resume i e =>
    obtain ⟨rfl, g, d, o, f, a, q, _, _, _, hadvances, hq, hfollows⟩ := sharing_resume hs h
    refine ⟨fun j hj => ?_, fun hcall => ?_, fun d' p hp => ?_⟩
    · exact (calls_resume_other h hj).trans (hs.alone j hj)
    · rw [hq] at hcall
      cases hcall
    · rw [hq] at hp
      cases hp
      exact ⟨_, hfollows, hadvances.fits⟩
  | poke x =>
    obtain ⟨m, w, hw, rfl⟩ := step_poke h
    obtain ⟨hdocs, hobjects⟩ := sharePoke_frame ha hw
    refine ⟨hs.alone, fun hcall => hdocs.trans (hs.before hcall), fun d p hp => ?_⟩
    obtain ⟨g, hg, hfits⟩ := hs.inside d p hp
    exact ⟨g, hg, fits_frame hdocs hobjects hfits⟩

/-- A step keeps the procedure all or nothing exactly when it gets through. -/
theorem allOrNothing_step {c : ShareCall} {docs : Store} {s t : ShareState} {a : ShareAct}
    (ha : ShareStep c a) (hfree : docs (postRef c.postKey) = none) (hs : Sharing c s)
    (hsafe : AllOrNothing c.postKey docs s) (h : step share s a = some t) :
    AllOrNothing c.postKey docs t ↔ GetsThrough c.postKey docs s a := by
  cases a with
  | start i d =>
    obtain ⟨rfl, rfl⟩ := ha
    obtain ⟨q, hq, hfollows, hfits⟩ := sharing_start hs h
    refine iff_of_true ?_ trivial
    rw [allOrNothing_of_call hfree hq]
    exact (follows_safe hfollows hfits).mpr fun hg => (by cases hg)
  | resume i e =>
    obtain ⟨rfl, g, d, o, f, a, q, hcall, ho, hw, hadvances, hq, hfollows⟩ := sharing_resume hs h
    rw [allOrNothing_of_call hfree hq, follows_safe hfollows hadvances.fits]
    by_cases hg : g = .absent
    · -- nothing was created yet, and the next phase is `absent` or `posted`
      subst hg
      have hnone : s.world.db.docs (postRef c.postKey) = none := hw
      refine iff_of_true (absent_next o a) fun _ hsome => ?_
      rw [hnone] at hsome
      cases hsome
    · rw [hadvances.failed hg]
      have hcreated : (s.world.db.docs (postRef c.postKey)).isSome := fits_isSome hg hw
      constructor
      · intro hok _ _ d' o' f' hcall'
        rw [hcall] at hcall'
        cases hcall'
        exact hok
      · exact fun hall => hall hfree hcreated d o f hcall
  | poke x =>
    obtain ⟨m, w, hw, rfl⟩ := step_poke h
    obtain ⟨hdocs, hobjects⟩ := sharePoke_frame ha hw
    refine iff_of_true (fun d r hd _ => ?_) trivial
    rcases hsafe d r hd hfree with hnone | hlinked
    · exact Or.inl (hdocs.trans hnone)
    · exact Or.inr (linked_frame hdocs hobjects hlinked)

/-- In every run of the procedure, whenever the upload ends, sharing is all or nothing exactly
when, once the post is created, the image is there in time and nothing else fails. -/
theorem sharing_is_all_or_nothing_iff_all_gets_through (c : ShareCall) (m : ShareMem)
    (w : ShareWorld) (as : List ShareAct) (has : ∀ a ∈ as, ShareStep c a) :
    AllStates (step share) (AllOrNothing c.postKey w.db.docs) (shareInit m w) as ↔
      AllSteps (step share) (fun s a _ => GetsThrough c.postKey w.db.docs s a)
        (shareInit m w) as := by
  refine allStates_iff_allSteps
    (I := fun s => w.db.docs (postRef c.postKey) = none → Sharing c s) (A := ShareStep c)
    (fun s a t ha hs h hfree => sharing_step ha (hs hfree) h) ?_ has ?_ ?_
  · intro s a t ha hs hsafe h
    by_cases hfree : w.db.docs (postRef c.postKey) = none
    · exact allOrNothing_step ha hfree (hs hfree) hsafe h
    · refine iff_of_true (fun _ _ _ hnone => absurd hnone hfree) ?_
      cases a with
      | resume i e => exact fun hnone => absurd hnone hfree
      | _ => trivial
  · exact fun hfree => ⟨fun _ _ => rfl, fun _ => hfree, fun d p hp => (by cases hp)⟩
  · exact fun d r hd => (by cases hd)

/-- Ann is on the screen, with a text. -/
def annShares : ShareMem where
  userModel := some
    { userKey := "ann", profileImg := some "", email := some "ann", myPosts := some [],
      followers := some 0, likedPosts := some [], username := some "ann", followings := some [],
      reference := userRef "ann" }
  text := "sunset"
  mounted := true
  routes := 1
  uploads := []

def annWorld : ShareWorld := ⟨[], ⟨freshUsers ["ann"], []⟩⟩

def annPost : ShareCall := ⟨"p", 0, 0⟩

/-- Nothing fails by itself. -/
def shareOnline : ShareEnv := ⟨none, online⟩

/-- Every request gets through, but the upload ends after `getDownloadURL`. -/
def slowUpload : List ShareAct :=
  [.start 0 annPost, .resume 0 shareOnline, .resume 0 shareOnline, .resume 0 shareOnline,
   .resume 0 shareOnline, .poke (.uploadFinishes 0 ⟨"https://image", by decide⟩)]

theorem slowUpload_steps : ∀ a ∈ slowUpload, ShareStep annPost a := by
  simp [slowUpload, ShareStep]

/-- Everything has ended and the image is there, but the post has no image. -/
theorem a_slow_upload_leaves_a_post_without_image :
    (∀ a ∈ slowUpload, ShareStep annPost a) ∧
      ∃ t d, run (step share) (shareInit annShares annWorld) slowUpload = some t ∧
        t.calls 0 = some (annPost, .ended (.error (.firebase "object-not-found"))) ∧
        t.mem.uploads = [] ∧ t.world.db.docs (postRef "p") = some d ∧
        d KEY_POSTIMG = some (str "") ∧ ¬ AllOrNothing "p" annWorld.db.docs t := by
  refine ⟨slowUpload_steps, _, _, rfl, rfl, rfl, rfl, rfl, fun hall => ?_⟩
  rcases hall _ _ rfl rfl with hnone | hlinked
  · cases hnone
  · exact not_linked_of_unlinked ⟨_, rfl, rfl⟩ hlinked

theorem sharing_is_all_or_nothing_at_a_slow_upload :
    (∀ a ∈ slowUpload, ShareStep annPost a) ∧
      (AllStates (step share) (AllOrNothing "p" annWorld.db.docs) (shareInit annShares annWorld)
          slowUpload ↔
        AllSteps (step share) (fun s a _ => GetsThrough "p" annWorld.db.docs s a)
          (shareInit annShares annWorld) slowUpload) :=
  ⟨slowUpload_steps, sharing_is_all_or_nothing_iff_all_gets_through annPost annShares annWorld
    slowUpload slowUpload_steps⟩

end instagram
