-- The Firestore client: references, snapshots, single writes and transactions.
-- Each read or write is one await, and the server answers it at once or fails it.
import Mathlib.Data.List.Infix
import Instagram.Docs
import Instagram.Async

namespace firestore

open docs async

/-! ## Data -/

/-- A scalar of a document. A `DateTime` that is written becomes a timestamp, in
microseconds. -/
inductive Atom where
  | null
  | bool (b : Bool)
  | int (n : Int)
  | str (s : String)
  | timestamp (micros : Int)
  deriving DecidableEq, Repr

abbrev Value : Type := docs.Value Atom
abbrev Doc : Type := docs.Doc String Atom

def str (s : String) : Value := .scalar (.str s)
def int (n : Int) : Value := .scalar (.int n)
def timestamp (micros : Int) : Value := .scalar (.timestamp micros)

def strOrNull : Option String → Value
  | some s => str s
  | none => .scalar .null

/-- The exceptions that the app can meet. -/
inductive DartError where
  | firebase (code : String)
  | noSuchMethod
  | typeError
  | stateError
  | assertion
  deriving DecidableEq, Repr

/-- The errors of a request: from the network, the server, or the client on a bad path. -/
def DartError.OfRequest : DartError → Prop
  | .firebase _ => True
  | .assertion => True
  | _ => False

/-! ## References -/

/-- A path is its list of segments. -/
abbrev Path : Type := List String

abbrev Store : Type := docs.Store Path String Atom
abbrev Write : Type := docs.Write Path String Atom

/-- A document that was read, or none when it does not exist. -/
abbrev Snapshot : Type := Option Doc

/-- What stands between the slashes. -/
def segments (path : String) : List String := (path.toList.splitOn '/').map String.ofList

/-- `ResourcePath::FromString`. It refuses two slashes in a row, and skips the empty segments
that a slash at an end makes. -/
def resourcePath (path : String) : Option Path :=
  if ['/', '/'] <:+: path.toList then none else some ((segments path).filter (· ≠ ""))

/-- `documentWithPath`, below a collection or, below no segments, in the whole database. A
`DocumentReference` must have an even number of segments. -/
def documentWithPath (collection : Path) (documentPath : String) : Option Path :=
  (resourcePath documentPath).bind fun p =>
    if (collection ++ p).length % 2 = 0 then some (collection ++ p) else none

/-- The path of a document, as the client spells it. -/
def isDocPath (p : Path) : Bool := p.length % 2 == 0 && p.all (· ≠ "")

/-- `collection.doc(id)`. A slash in `id` makes more segments. The id of a user or a post is
taken as the client spells it, with no slash at an end and no two in a row, so that one
document has one id. On such ids this is the client's path (`documentWithPath_docRef`). -/
def docRef (collection : Path) (id : String) : Path := collection ++ segments id

/-- Firestore's document ids have no slash. -/
def IsDocId (id : String) : Prop := '/' ∉ id.toList

instance (id : String) : Decidable (IsDocId id) := inferInstanceAs (Decidable (_ ∉ _))

theorem segments_docId {id : String} (h : IsDocId id) : segments id = [id] := by
  unfold segments
  rw [List.splitOn_eq_singleton h, List.map_singleton, String.ofList_toList]

/-- Everything about segments follows from where the slashes are. -/
theorem segments_append_slash (a b : String) :
    segments (a ++ "/" ++ b) = segments a ++ segments b := by
  have hlist : (a ++ "/" ++ b).toList = a.toList ++ '/' :: b.toList := by simp
  unfold segments
  rw [hlist, List.splitOn_append_cons_self, List.map_append]

/-- Text without a slash only lengthens the first segment of what follows it. -/
theorem splitOn_append_of_notMem {α : Type} [DecidableEq α] {x : α} {l : List α} (h : x ∉ l)
    (r : List α) : (l ++ r).splitOn x = (r.splitOn x).modifyHead (l ++ ·) := by
  induction l with
  | nil => exact (congrFun List.modifyHead_id _).symm
  | cons y l ih =>
    rw [List.cons_append, List.splitOn_cons_eq_if_modifyHead,
      if_neg (by simpa using (List.ne_of_not_mem_cons h).symm),
      ih (List.not_mem_of_not_mem_cons h), List.modifyHead_modifyHead]
    rfl

theorem notMem_of_mem_splitOn {α : Type} [DecidableEq α] {x : α} {l y : List α}
    (h : y ∈ l.splitOn x) : x ∉ y := by
  induction l generalizing y with
  | nil =>
    rw [List.splitOn_nil, List.mem_singleton] at h
    simp [h]
  | cons z l ih =>
    rw [List.splitOn_cons_eq_if_modifyHead] at h
    split at h
    · rcases List.mem_cons.mp h with rfl | hy
      · exact List.not_mem_nil
      · exact ih hy
    · rename_i hz
      cases hl : l.splitOn x with
      | nil => exact absurd hl (List.splitOn_ne_nil _ _)
      | cons w ws =>
        rw [hl] at h ih
        rcases List.mem_cons.mp h with rfl | hy
        · intro hx
          rcases List.mem_cons.mp hx with he | hw
          · exact hz (beq_iff_eq.mpr he.symm)
          · exact ih List.mem_cons_self hw
        · exact ih (List.mem_cons_of_mem _ hy)

theorem segments_append {a : String} (h : '/' ∉ a.toList) (b : String) :
    segments (a ++ b) = (segments b).modifyHead (a ++ ·) := by
  unfold segments
  rw [String.toList_append, splitOn_append_of_notMem h]
  cases b.toList.splitOn '/' <;> simp

theorem slash_notMem_of_mem_segments {path x : String} (h : x ∈ segments path) :
    '/' ∉ x.toList := by
  obtain ⟨y, hy, rfl⟩ := List.mem_map.mp h
  rw [String.toList_ofList]
  exact notMem_of_mem_splitOn hy

/-- Segments that are joined again are cut at the same places. -/
theorem segments_intercalate {p : List String} (h : ∀ x ∈ p, '/' ∉ x.toList) (hp : p ≠ []) :
    segments ("/".intercalate p) = p := by
  unfold segments
  rw [String.toList_intercalate]
  show (List.splitOn '/' (['/'].intercalate _)).map _ = p
  rw [List.splitOn_intercalate '/' (by simpa using h) (by simpa using hp), List.map_map]
  simp [Function.comp_def]

theorem segments_inj {a b : String} (h : segments a = segments b) : a = b := by
  have hsplit : a.toList.splitOn '/' = b.toList.splitOn '/' :=
    List.map_injective_iff.mpr (fun _ _ => String.ofList_injective) h
  have hjoin : ∀ l : List Char, ['/'].intercalate (l.splitOn '/') = l :=
    fun l => List.intercalate_splitOn '/'
  have hlist : a.toList = b.toList := by rw [← hjoin a.toList, hsplit, hjoin]
  exact String.toList_inj.mp hlist

theorem docRef_inj {c : Path} {a b : String} : docRef c a = docRef c b ↔ a = b := by
  constructor
  · intro h
    exact segments_inj (List.append_cancel_left h)
  · rintro rfl
    rfl

/-- Between two slashes in a row is an empty segment. -/
theorem empty_mem_segments {path : String} (h : ['/', '/'] <:+: path.toList) :
    "" ∈ segments path := by
  obtain ⟨a, b, hab⟩ := h
  have hpath : path = String.ofList a ++ "/" ++ ("" ++ "/" ++ String.ofList b) := by
    refine String.toList_inj.mp ?_
    rw [← hab]
    simp
  rw [hpath, segments_append_slash, segments_append_slash]
  simp [segments]

theorem resourcePath_of_notMem {path : String} (h : "" ∉ segments path) :
    resourcePath path = some (segments path) := by
  unfold resourcePath
  rw [if_neg (mt empty_mem_segments h), List.filter_eq_self.mpr fun x hx => ?_]
  exact decide_eq_true (ne_of_mem_of_not_mem hx h)

theorem length_le_of_documentWithPath {path : String} {ref : Path}
    (h : documentWithPath [] path = some ref) : ref.length ≤ (segments path).length := by
  unfold documentWithPath resourcePath at h
  obtain ⟨p, hp, href⟩ := Option.bind_eq_some_iff.mp h
  split at hp
  · cases hp
  · cases hp
    split at href
    · cases href
      exact List.length_filter_le _ _
    · cases href

/-- On ids as the client spells them, `docRef` is the client's path. -/
theorem documentWithPath_docRef {collection : Path} {id : String} (h : "" ∉ segments id) :
    documentWithPath collection id =
      if (docRef collection id).length % 2 = 0 then some (docRef collection id) else none := by
  unfold documentWithPath docRef
  rw [resourcePath_of_notMem h, Option.bind_some]

/-! ## Operations -/

inductive Op where
  | get (ref : Path)
  | commit (ws : List Write)
  | newId (collection : Path)

abbrev Ans : Op → Type
  | .get _ => Except DartError Snapshot
  | .commit _ => Except DartError Unit
  | .newId _ => String

/-- The documents, and the generated references that were handed out. -/
structure Db where
  docs : Store
  issued : List Path

/-- What is free in an answer: the network may fail, and a generated id is any fresh one. -/
structure Env where
  fails : Bool
  autoId : String

/-- The choices of an answer that succeeds and needs no generated id. -/
def online : Env := ⟨false, ""⟩

/-- The error of a request that does not get through. -/
def unavailable : DartError := .firebase "unavailable"

def handle : (o : Op) → Env → Db → Option (Db × Ans o)
  | .get ref, e, w =>
    if e.fails then some (w, .error unavailable)
    else match w.docs ref with
      | some d => some (w, .ok (some d))
      | none => some (w, if isDocPath ref then .ok none else .error .assertion)
  | .commit ws, e, w =>
    if e.fails then some (w, .error unavailable)
    else match commit w.docs ws with
      | some d => some ({ w with docs := d }, .ok ())
      | none => some (w, .error (.firebase "not-found"))
  | .newId c, e, w =>
    let ref := c ++ [e.autoId]
    if e.autoId = "" ∨ '/' ∈ e.autoId.toList ∨ ref ∈ w.issued ∨ (w.docs ref).isSome then none
    else some ({ w with issued := w.issued ++ [ref] }, e.autoId)

/-- A read changes nothing. -/
theorem handle_get {ref : Path} {e : Env} {w w' : Db} {a : Except DartError Snapshot}
    (h : handle (.get ref) e w = some (w', a)) :
    w' = w ∧ ∀ s, a = .ok s → s = w.docs ref := by
  simp only [handle] at h
  split at h
  · cases h
    exact ⟨rfl, fun s hs => by cases hs⟩
  · split at h
    · rename_i d hd
      cases h
      exact ⟨rfl, fun s hs => by cases hs; exact hd.symm⟩
    · rename_i hd
      simp only [Option.some.injEq, Prod.mk.injEq] at h
      obtain ⟨rfl, rfl⟩ := h
      refine ⟨rfl, fun s hs => ?_⟩
      split at hs
      · cases hs; exact hd.symm
      · cases hs

/-- A batch that is answered with success was applied. A batch that fails changes nothing. -/
theorem handle_commit {ws : List Write} {e : Env} {w w' : Db} {a : Except DartError Unit}
    (h : handle (.commit ws) e w = some (w', a)) :
    (a = .ok () ∧ w'.issued = w.issued ∧ e.fails = false ∧ commit w.docs ws = some w'.docs) ∨
      ((∃ x, a = .error x) ∧ w' = w ∧ (e.fails = true ∨ commit w.docs ws = none)) := by
  simp only [handle] at h
  split at h
  · rename_i hf
    cases h
    exact Or.inr ⟨⟨_, rfl⟩, rfl, Or.inl hf⟩
  · rename_i hf
    split at h
    · rename_i d hd
      cases h
      exact Or.inl ⟨rfl, rfl, by simpa using hf, hd⟩
    · rename_i hd
      cases h
      exact Or.inr ⟨⟨_, rfl⟩, rfl, Or.inr hd⟩

/-- A new id names no document. -/
theorem handle_newId {c : Path} {e : Env} {w w' : Db} {id : String}
    (h : handle (.newId c) e w = some (w', id)) :
    w'.docs = w.docs ∧ w.docs (c ++ [id]) = none := by
  simp only [handle] at h
  split at h
  · cases h
  · rename_i hfresh
    simp only [not_or, Bool.not_eq_true, Option.isSome_eq_false_iff, Option.isNone_iff_eq_none]
      at hfresh
    cases h
    exact ⟨rfl, hfresh.2.2.2⟩

/-- A read fails with the network, or on a path that is no document path. -/
theorem handle_get_fails {ref : Path} {e : Env} {w w' : Db} {x : DartError}
    (h : handle (.get ref) e w = some (w', .error x)) :
    x = unavailable ∨ (x = .assertion ∧ isDocPath ref = false) := by
  simp only [handle] at h
  split at h
  · cases h
    exact Or.inl rfl
  · split at h
    · cases h
    · obtain ⟨_, herror⟩ := Prod.mk.inj (Option.some.inj h)
      split at herror
      · cases herror
      · rename_i hpath
        cases herror
        exact Or.inr ⟨rfl, by simpa using hpath⟩

/-- A read that fails, fails as a request. -/
theorem handle_get_error {ref : Path} {e : Env} {w w' : Db} {a : Except DartError Snapshot}
    (h : handle (.get ref) e w = some (w', a)) : ∀ x, a = .error x → x.OfRequest := by
  rintro x rfl
  rcases handle_get_fails h with rfl | ⟨rfl, _⟩
  · trivial
  · trivial

/-- A batch that fails, fails as a request. -/
theorem handle_commit_error {ws : List Write} {e : Env} {w w' : Db} {a : Except DartError Unit}
    (h : handle (.commit ws) e w = some (w', a)) : ∀ x, a = .error x → x.OfRequest := by
  rintro x rfl
  simp only [handle] at h
  split at h
  · cases h
    trivial
  · split at h
    · cases h
    · cases h
      trivial

/-- A new id is handed out once. -/
theorem handle_newId_issued {c : Path} {e : Env} {w w' : Db} {id : String}
    (h : handle (.newId c) e w = some (w', id)) :
    c ++ [id] ∉ w.issued ∧ w'.issued = w.issued ++ [c ++ [id]] := by
  simp only [handle] at h
  split at h
  · cases h
  · rename_i hfresh
    simp only [not_or] at hfresh
    cases h
    exact ⟨hfresh.2.2.1, rfl⟩

/-- Two databases that both hold the document, or both miss it, answer a read alike. -/
theorem handle_get_alike {ref : Path} {e : Env} {w u w' : Db} {a : Except DartError Snapshot}
    (hdoc : (w.docs ref).isSome = (u.docs ref).isSome)
    (h : handle (.get ref) e w = some (w', a)) :
    ∃ a', handle (.get ref) e u = some (u, a') ∧
      (a' = a ∨ (a = .ok (w.docs ref) ∧ a' = .ok (u.docs ref))) := by
  simp only [handle] at h ⊢
  by_cases hf : e.fails = true
  · rw [if_pos hf] at h ⊢
    cases h
    exact ⟨_, rfl, Or.inl rfl⟩
  · rw [if_neg hf] at h ⊢
    cases hw : w.docs ref with
    | none =>
      rw [hw] at h hdoc
      have hu : u.docs ref = none := by simpa using hdoc.symm
      rw [hu]
      cases h
      exact ⟨_, rfl, Or.inl rfl⟩
    | some d =>
      rw [hw] at h hdoc
      obtain ⟨d', hu⟩ := Option.isSome_iff_exists.mp hdoc.symm
      rw [hu]
      cases h
      exact ⟨_, rfl, Or.inr ⟨rfl, rfl⟩⟩

/-- Two databases in which the batch lands, or fails, alike answer it alike. -/
theorem handle_commit_alike {ws : List Write} {e : Env} {w u w' : Db} {a : Except DartError Unit}
    (hdocs : (commit w.docs ws).isSome = (commit u.docs ws).isSome)
    (h : handle (.commit ws) e w = some (w', a)) :
    ∃ u', handle (.commit ws) e u = some (u', a) ∧
      ((w' = w ∧ u' = u) ∨ (commit w.docs ws = some w'.docs ∧ commit u.docs ws = some u'.docs ∧
        w'.issued = w.issued ∧ u'.issued = u.issued)) := by
  simp only [handle] at h ⊢
  by_cases hf : e.fails = true
  · rw [if_pos hf] at h ⊢
    cases h
    exact ⟨_, rfl, Or.inl ⟨rfl, rfl⟩⟩
  · rw [if_neg hf] at h ⊢
    cases hw : commit w.docs ws with
    | none =>
      rw [hw] at h hdocs
      have hu : commit u.docs ws = none := by simpa using hdocs.symm
      rw [hu]
      cases h
      exact ⟨_, rfl, Or.inl ⟨rfl, rfl⟩⟩
    | some d =>
      rw [hw] at h hdocs
      obtain ⟨d', hu⟩ := Option.isSome_iff_exists.mp hdocs.symm
      rw [hu]
      cases h
      exact ⟨_, rfl, Or.inr ⟨rfl, rfl, rfl, rfl⟩⟩

/-- Only a commit changes documents, so what every commit keeps, every answer keeps. -/
theorem handle_keeps {I : Store → Prop} {o : Op} {e : Env} {w w' : Db} {a : Ans o}
    (hcommit : ∀ ws docs', o = .commit ws → commit w.docs ws = some docs' → I docs')
    (hw : I w.docs) (h : handle o e w = some (w', a)) : I w'.docs := by
  cases o with
  | get ref =>
    rw [(handle_get h).1]
    exact hw
  | newId c =>
    rw [(handle_newId h).1]
    exact hw
  | commit ws =>
    rcases handle_commit h with ⟨_, _, _, hc⟩ | ⟨_, rfl, _⟩
    · exact hcommit ws w'.docs rfl hc
    · exact hw

/-- No answer makes a document disappear. -/
theorem handle_isSome {o : Op} {e : Env} {w w' : Db} {a : Ans o} {p : Path}
    (h : handle o e w = some (w', a)) (hp : (w.docs p).isSome) : (w'.docs p).isSome :=
  handle_keeps (I := fun docs => (docs p).isSome) (fun _ _ _ hc => commit_isSome hc hp) hp h

/-! ## Programs over Firestore -/

abbrev Fire (ρ : Type) : Type := Prog Unit Op Ans DartError ρ

def get (ref : Path) : Fire Snapshot := .await (.get ref) .ofExcept

def set (ref : Path) (d : Doc) : Fire Unit := .await (.commit [.set ref d]) .ofExcept

def update (ref : Path) (fs : List (String × FieldOp Atom)) : Fire Unit :=
  .await (.commit [.update ref fs]) .ofExcept

/-- `collection.doc()`: a reference with a generated id. -/
def newDoc (collection : Path) : Fire Path :=
  .await (.newId collection) fun id => .ret (collection ++ [id])

/-- The body of a transaction queues writes, and may raise. -/
abbrev Tx : Type → Type := StateT (List Write) (Except DartError)

def Tx.set (ref : Path) (d : Doc) : Tx Unit := modify (· ++ [.set ref d])

def Tx.update (ref : Path) (fs : List (String × FieldOp Atom)) : Tx Unit :=
  modify (· ++ [.update ref fs])

/-- The queued writes land as one batch. A body that raises queues nothing. -/
def runTransaction (body : Tx Unit) : Fire Unit :=
  match body.run [] with
  | .ok (_, ws) => .await (.commit ws) .ofExcept
  | .error e => .raise e

/-! ## Programs that run alone -/

theorem alone_get {ref : Path} {w : Db} {d : Doc} (f : Snapshot → Fire Unit)
    (h : w.docs ref = some d) :
    (get ref >>= f).alone handle (fun _ => online) () w =
      (f (some d)).alone handle (fun _ => online) () w := by
  have hget : handle (.get ref) online w = some (w, .ok (some d)) := by
    simp [handle, online, h]
  show (handle (.get ref) online w).bind _ = _
  rw [hget]
  rfl

/-- A read goes on with what is stored, or raises on a bad path. -/
theorem alone_get_or_raise (ref : Path) (w : Db) (f : Snapshot → Fire Unit) :
    (get ref >>= f).alone handle (fun _ => online) () w =
        (f (w.docs ref)).alone handle (fun _ => online) () w ∨
      (get ref >>= f).alone handle (fun _ => online) () w = some ((), w, .error .assertion) := by
  cases hd : w.docs ref with
  | some d => exact Or.inl (alone_get f hd)
  | none =>
    have hget : handle (.get ref) online w =
        some (w, if isDocPath ref then .ok none else .error .assertion) := by
      simp [handle, online, hd]
    show (handle (.get ref) online w).bind _ = _ ∨ (handle (.get ref) online w).bind _ = _
    rw [hget]
    split
    · exact Or.inl rfl
    · exact Or.inr rfl

theorem alone_commit {ws : List Write} {w : Db} {d : Store} (h : commit w.docs ws = some d) :
    (Prog.await (.commit ws) .ofExcept : Fire Unit).alone handle (fun _ => online) () w =
      some ((), { w with docs := d }, .ok ()) := by
  have hcommit : handle (.commit ws) online w = some ({ w with docs := d }, .ok ()) := by
    simp [handle, online, h]
  show (handle (.commit ws) online w).bind _ = _
  rw [hcommit]
  rfl

theorem runTransaction_ok {body : Tx Unit} {ws : List Write} (h : body.run [] = .ok ((), ws)) :
    runTransaction body = .await (.commit ws) .ofExcept := by
  unfold runTransaction
  rw [h]

theorem runTransaction_error {body : Tx Unit} {x : DartError} (h : body.run [] = .error x) :
    runTransaction body = .raise x := by
  unfold runTransaction
  rw [h]

/-! ## What a program over Firestore awaits -/

theorem except_bind_ok {E β γ : Type} {x : Except E β} {f : β → Except E γ} {r : γ} :
    (x >>= f) = .ok r ↔ ∃ v, x = .ok v ∧ f v = .ok r := by
  cases x with
  | error e => exact ⟨fun h => (by cases h), fun ⟨_, h, _⟩ => (by cases h)⟩
  | ok v => exact ⟨fun h => ⟨v, rfl, h⟩, fun ⟨_, h, hf⟩ => (by cases h; exact hf)⟩

@[simp] theorem tx_set_bind {β : Type} (ref : Path) (d : Doc) (f : Unit → Tx β)
    (ws : List Write) : (Tx.set ref d >>= f).run ws = (f ()).run (ws ++ [.set ref d]) := rfl
@[simp] theorem tx_update_bind {β : Type} (ref : Path) (fs : List (String × FieldOp Atom))
    (f : Unit → Tx β) (ws : List Write) :
    (Tx.update ref fs >>= f).run ws = (f ()).run (ws ++ [.update ref fs]) := rfl
@[simp] theorem tx_lift_bind {β γ : Type} (x : Except DartError γ) (f : γ → Tx β)
    (ws : List Write) : ((liftM x : Tx γ) >>= f).run ws = (x >>= fun v => (f v).run ws) := by
  cases x <;> rfl

variable {A : (o : Op) → Ans o → Prop} {J : (o : Op) → (Ans o → Fire Unit) → Prop}

theorem get_awaits {ref : Path} {f : Snapshot → Fire Unit}
    (hJ : J (.get ref) fun a => Prog.ofExcept a >>= f)
    (h : ∀ s, A (.get ref) (.ok s) → (f s).Awaits A J) : (get ref >>= f).Awaits A J := by
  refine ⟨hJ, fun a ha => ?_⟩
  cases a with
  | error e => trivial
  | ok s => exact h s ha

theorem newDoc_awaits {c : Path} {f : Path → Fire Unit} (hJ : J (.newId c) fun id => f (c ++ [id]))
    (h : ∀ id, A (.newId c) id → (f (c ++ [id])).Awaits A J) : (newDoc c >>= f).Awaits A J :=
  ⟨hJ, fun id hid => h id hid⟩

theorem ofExcept_awaits {β : Type} {x : Except DartError β} {f : β → Fire Unit}
    (h : ∀ v, x = .ok v → (f v).Awaits A J) : (Prog.ofExcept x >>= f).Awaits A J := by
  cases x with
  | error e => trivial
  | ok v => exact h v rfl

theorem commit_awaits {ws : List Write} (h : J (.commit ws) .ofExcept) :
    (Prog.await (.commit ws) .ofExcept : Fire Unit).Awaits A J := by
  refine ⟨h, fun a _ => ?_⟩
  cases a <;> trivial

theorem runTransaction_awaits {body : Tx Unit}
    (h : ∀ ws, body.run [] = .ok ((), ws) → J (.commit ws) .ofExcept) :
    (runTransaction body).Awaits A J := by
  unfold runTransaction
  split
  · rename_i ws hws
    exact commit_awaits (h ws hws)
  · trivial

/-! ## How a program over Firestore ends -/

variable {Q : Except DartError Unit → Prop}

theorem get_ends {ref : Path} {f : Snapshot → Fire Unit}
    (hQ : ∀ x, A (.get ref) (.error x) → Q (.error x))
    (h : ∀ s, A (.get ref) (.ok s) → (f s).Ends A Q) : (get ref >>= f).Ends A Q := by
  intro a ha
  cases a with
  | error x => exact hQ x ha
  | ok s => exact h s ha

theorem commit_ends {ws : List Write} (hQ : ∀ x, A (.commit ws) (.error x) → Q (.error x))
    (hok : Q (.ok ())) : (Prog.await (.commit ws) .ofExcept : Fire Unit).Ends A Q := by
  intro a ha
  cases a with
  | error x => exact hQ x ha
  | ok u => exact hok

theorem runTransaction_ends {body : Tx Unit}
    (hQ : ∀ ws x, A (.commit ws) (.error x) → Q (.error x)) (hok : Q (.ok ()))
    (hraise : ∀ x, body.run [] = .error x → Q (.error x)) : (runTransaction body).Ends A Q := by
  unfold runTransaction
  split
  · exact commit_ends (hQ _) hok
  · rename_i x hx
    exact hraise x hx

/-! ## Maps and fields -/

/-- The map that these assignments leave, the later ones last. -/
def mapOf (fs : List (String × Value)) : Doc :=
  fs.foldl (fun d f => Function.update d f.1 (some f.2)) fun _ => none

theorem isSome_mapOf (fs : List (String × Value)) (k : String) :
    (mapOf fs k).isSome ↔ k ∈ fs.map Prod.fst := by
  unfold mapOf
  induction fs using List.reverseRecOn with
  | nil => simp
  | append_singleton fs f ih =>
    rw [List.foldl_append, List.foldl_cons, List.foldl_nil, List.map_append, List.mem_append]
    by_cases hk : k = f.1
    · subst hk
      simp
    · rw [Function.update_of_ne hk, ih]
      simp [hk]

/-- `map[key]` gives null when the key is absent. -/
def lookup (d : Doc) (k : String) : Value := (d k).getD (.scalar .null)

/-- `snapshot[field]` raises when the field is absent. -/
def field (s : Snapshot) (k : String) : Except DartError Value :=
  match s.bind (· k) with
  | some v => .ok v
  | none => .error .stateError

/-- `snapshot.data()[field]` gives null when the field is absent, and raises on a missing
document. -/
def dataField (s : Snapshot) (k : String) : Except DartError Value :=
  match s with
  | some d => .ok (lookup d k)
  | none => .error .noSuchMethod

/-! A value stored into a typed variable. Null fits every type. -/

def asInt : Value → Except DartError (Option Int)
  | .scalar (.int n) => .ok (some n)
  | .scalar .null => .ok none
  | _ => .error .typeError

def asString : Value → Except DartError (Option String)
  | .scalar (.str s) => .ok (some s)
  | .scalar .null => .ok none
  | _ => .error .typeError

def asList : Value → Except DartError (Option (List Atom))
  | .list xs => .ok (some xs)
  | .scalar .null => .ok none
  | _ => .error .typeError

/-- The range of Dart's `int`, which has 64 bits. -/
def InInt64 (n : Int) : Prop := -9223372036854775808 ≤ n ∧ n ≤ 9223372036854775807

instance (n : Int) : Decidable (InInt64 n) := inferInstanceAs (Decidable (_ ∧ _))

/-- What 64 bits hold of a sum. -/
def wrapInt64 (n : Int) : Int := (Int64.ofInt n).toInt

theorem wrapInt64_of_inInt64 {n : Int} (h : InInt64 n) : wrapInt64 n = n := by
  obtain ⟨hlo, hhi⟩ := h
  exact Int64.toInt_ofInt_of_le (by omega) (by omega)

/-- `n + k` raises when `n` is null. The sum is not `wrapInt64`, so it is Dart's as long as it is
`InInt64`, and laws about the size of a counter say where that is so. -/
def plus : Option Int → Int → Except DartError Int
  | some n, k => .ok (n + k)
  | none, _ => .error .noSuchMethod

/-- `value.contains(x)`. A list looks for the element, a string for the substring, and
nothing else has the method. -/
def contains : Value → String → Except DartError Bool
  | .list xs, x => .ok (decide (Atom.str x ∈ xs))
  | .scalar (.str s), x => .ok (decide (x.toList <:+: s.toList))
  | _, _ => .error .noSuchMethod

/-! ## Queries -/

/-- Firestore's order of the types. -/
def Atom.rank : Atom → ℕ
  | .null => 0
  | .bool _ => 1
  | .int _ => 2
  | .timestamp _ => 3
  | .str _ => 4

def Atom.le : Atom → Atom → Bool
  | .bool a, .bool b => !a || b
  | .int a, .int b => a ≤ b
  | .timestamp a, .timestamp b => a ≤ b
  | .str a, .str b => a ≤ b
  | a, b => a.rank ≤ b.rank

/-- Arrays come after every scalar, and are compared element by element. -/
def valueLe : Value → Value → Bool
  | .scalar a, .scalar b => a.le b
  | .scalar _, .list _ => true
  | .list _, .scalar _ => false
  | .list xs, .list ys => listLe xs ys
where
  listLe : List Atom → List Atom → Bool
    | [], _ => true
    | _ :: _, [] => false
    | x :: xs, y :: ys => if x = y then listLe xs ys else x.le y

/-- `collection.orderBy(field, descending: true)`. -/
structure Query where
  collection : Path
  orderBy : String
  deriving DecidableEq, Repr

/-- What a snapshot of the query holds: every document of the collection that has the
ordering field, each once, the largest value first. -/
structure Query.Delivers (q : Query) (docs : Store) (snapshot : List (String × Doc)) : Prop where
  ids : (snapshot.map Prod.fst).Nodup
  docs : ∀ id d, (id, d) ∈ snapshot ↔
    docs (q.collection ++ [id]) = some d ∧ (d q.orderBy).isSome
  ordered : snapshot.Pairwise fun a b => valueLe (lookup b.2 q.orderBy) (lookup a.2 q.orderBy)

/-- `collection.where(field, isEqualTo: value)`. -/
structure WhereQuery where
  collection : Path
  field : String
  isEqualTo : Value
  deriving DecidableEq, Repr

/-- What a snapshot of the query holds: every document of the collection with that value in
the field, each once. -/
structure WhereQuery.Delivers (q : WhereQuery) (docs : Store) (snapshot : List (String × Doc)) :
    Prop where
  ids : (snapshot.map Prod.fst).Nodup
  docs : ∀ id d, (id, d) ∈ snapshot ↔
    docs (q.collection ++ [id]) = some d ∧ d q.field = some q.isEqualTo

end firestore
