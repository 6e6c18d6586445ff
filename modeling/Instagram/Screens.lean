-- The screens of all devices over one backend. A tap on a row of the search screen, on a heart
-- or on the button under the comments starts at most one call of a repository, decided by what
-- the device holds. So the screens refine the backend.
import Instagram.Wrapping
import Instagram.SearchScreen
import Instagram.Backend

namespace instagram

open docs firestore async runs

/-! ## Devices -/

/-- What a device holds: its user model, and for each comments screen that was opened the key
of its post and the text in its field. -/
structure Device where
  users : UserModelState
  comments : List (String × String)

/-- The handlers. `elsewhere` is a call of another screen or of the registration. -/
inductive Tap where
  | row (otherUserKey : String)
  | heart (postKey : String)
  | post (screen : ℕ) (now : Int)
  | elsewhere (c : Call)

structure ScreenCall where
  device : ℕ
  tap : Tap

/-- The call that a handler starts. The validator of the comments' field wants some text. -/
def Tap.starts (d : Device) : Tap → Except DartError (Option Call)
  | .row otherUserKey => (onRowTap d.users otherUserKey).map some
  | .heart postKey =>
    match d.users.userModel with
    | none => .error .noSuchMethod
    | some me => .ok (some (.toggleLike postKey me.userKey))
  | .post screen now =>
    match d.comments[screen]? with
    | none => .ok none
    | some (postKey, text) =>
      if text = "" then .ok none
      else
        match d.users.userModel with
        | none => .error .noSuchMethod
        | some me => .ok (some (.createNewComment postKey
            (CommentModel.getMapForNewComment me.userKey me.username text now)))
  | .elsewhere c => .ok (some c)

/-- The text in the field of a screen. -/
def Device.setText (d : Device) (screen : ℕ) (text : String) : Device :=
  { d with comments := d.comments.modify screen fun e => (e.1, text) }

/-- After its comment is stored, the button clears the field. -/
def Tap.after (d : Device) : Tap → Device
  | .post screen _ => d.setText screen ""
  | _ => d

/-! ## The system -/

def ScreenCall.starts (h : ScreenCall) (m : ℕ → Device) : Except DartError (Option Call) :=
  h.tap.starts (m h.device)

def ScreenCall.after (h : ScreenCall) (m : ℕ → Device) : ℕ → Device :=
  Function.update m h.device (h.tap.after (m h.device))

/-- What happens on a device besides its handlers. -/
inductive ScreenPoke where
  | setUserModel (device : ℕ) (userModel : Option UserModel)
  | openComments (device : ℕ) (postKey : String)
  | edit (device screen : ℕ) (text : String)

def screenPoke (x : ScreenPoke) (m : ℕ → Device) (w : Db) : Option ((ℕ → Device) × Db) :=
  match x with
  | .setUserModel i userModel =>
    some (Function.update m i { m i with users := { (m i).users with userModel } }, w)
  | .openComments i postKey =>
    some (Function.update m i { m i with comments := (m i).comments ++ [(postKey, "")] }, w)
  | .edit i screen text => some (Function.update m i ((m i).setText screen text), w)

def screens : System (ℕ → Device) Db Op Ans DartError ScreenCall Env ScreenPoke where
  prog := wrap Call.prog ScreenCall.starts ScreenCall.after
  handle := handle
  poke := screenPoke

abbrev ScreensState : Type := State (ℕ → Device) Db Op Ans DartError ScreenCall

abbrev ScreensAct : Type := Act ScreenCall Env ScreenPoke

def screensInit (m : ℕ → Device) (docs : Store) : ScreensState :=
  init Op Ans DartError ScreenCall m ⟨docs, []⟩

theorem screens_wraps : Wraps screens backend ScreenCall.starts ScreenCall.after where
  prog _ := rfl
  handle := rfl
  poke x m w m' w' h := by
    cases x <;> cases h <;> rfl

/-! ## Refinement -/

/-- The screens, and the memory in which each handler started. -/
abbrev WatchedScreens : Type := ScreensState × (ℕ → Option (ℕ → Device))

def watchedInit (m : ℕ → Device) (docs : Store) : WatchedScreens :=
  (screensInit m docs, fun _ => none)

abbrev ScreensRefined : WatchedScreens → BackendState → Prop :=
  Refined ScreenCall.starts ScreenCall.after

/-- The screens refine the backend. In every state of every run of the devices, the documents
and the answers so far are those of a run of the backend. There each handler that has started has
the call that the memory gave it when it started, and stands where that call stands, or it had no
call and has ended. So what holds of the documents in all runs of the backend holds on the
screens. -/
theorem the_screens_refine_the_backend (m : ℕ → Device) (docs : Store) (as : List ScreensAct) :
    AllStates (watched screens)
      (fun t => ∃ bs b, run (step backend) (backendInit docs) bs = some b ∧ ScreensRefined t b)
      (watchedInit m docs) as ∧
    ∀ I : Db → Prop,
      (∀ bs, AllStates (step backend) (fun b => I b.world) (backendInit docs) bs) →
      AllStates (step screens) (fun t => I t.world) (screensInit m docs) as := by
  have hrun : AllStates (watched screens)
      (fun t => ∃ bs b, run (step backend) (backendInit docs) bs = some b ∧ ScreensRefined t b)
      (watchedInit m docs) as := by
    intro pre _ t ht
    obtain ⟨bs, b, _, hb, hR⟩ := simulates_run
      (wraps_simulates screens_wraps (P := fun _ => True) (Q := fun _ => True)
        fun _ _ _ _ _ => trivial) (fun a _ => starts_any a) (refined_init _ _ m _) ht
    exact ⟨bs, b, hb, hR⟩
  refine ⟨hrun, fun I hI => ?_⟩
  have hwatched : AllStates (watched screens) (fun t => I t.1.world) (watchedInit m docs) as := by
    intro pre hpre t ht
    obtain ⟨bs, b, hb, hR⟩ := hrun pre hpre t ht
    rw [← hR.world]
    exact hI bs bs (List.prefix_refl _) b hb
  exact allStates_watch.mp hwatched

end instagram
