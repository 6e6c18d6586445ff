-- The camera of the camera screen. Its preparation is a loop over two awaits, and `dispose` can
-- come between any two turns of it. A ready camera has a live controller exactly when none came.
import Instagram.Firestore

namespace instagram

open firestore runs

/-! ## The state -/

structure CameraDescription where
  name : String
  deriving DecidableEq, Repr

/-- A controller of the camera package. -/
structure CameraController where
  description : CameraDescription
  isInitialized : Bool
  isDisposed : Bool
  deriving DecidableEq, Repr

/-- `controller` is the number of a controller. -/
structure CameraState where
  controller : Option ℕ
  cameraDescription : Option CameraDescription
  readyTakePhoto : Bool
  deriving DecidableEq, Repr

/-- Where `getReadyToTakePhoto` stands: it waits for the cameras, or for a controller inside
`initialize`, or for the result of `initialize`. -/
inductive Preparation where
  | notStarted
  | availableCameras
  | initializing (controller : ℕ)
  | returned (init : Bool)
  | ended
  deriving DecidableEq, Repr

/-- The state of a screen, with all controllers that it made. -/
structure Camera where
  state : CameraState
  controllers : List CameraController
  preparation : Preparation
  deriving DecidableEq, Repr

def Camera.initial : Camera := ⟨⟨none, none, false⟩, [], .notStarted⟩

/-! ## The methods -/

def Camera.setCameraDescription (s : Camera) (cameraDescription : CameraDescription) : Camera :=
  { s with
    state := { s.state with
      cameraDescription := some cameraDescription, controller := some s.controllers.length }
    controllers := s.controllers ++ [⟨cameraDescription, false, false⟩] }

/-- A controller that is null is not disposed. -/
def Camera.dispose (s : Camera) : Camera :=
  { s with
    state := ⟨none, none, false⟩
    controllers :=
      match s.state.controller with
      | some c => s.controllers.modify c fun k => { k with isDisposed := true }
      | none => s.controllers }

/-- `initialize` up to its await. A null controller raises, which is caught. -/
def Camera.runInitialize (s : Camera) : Camera :=
  { s with
    preparation :=
      match s.state.controller with
      | some c => .initializing c
      | none => .returned false }

/-- `while(!init)`, and what comes after the loop. -/
def Camera.loop (s : Camera) (init : Bool) : Camera :=
  if init then { s with state := { s.state with readyTakePhoto := true }, preparation := .ended }
  else s.runInitialize

/-! ## The system -/

/-- What can happen: the screen starts the preparation, the package answers, the loop goes on
with the result of `initialize`, or the screen goes away. -/
inductive CameraAct where
  | getReadyToTakePhoto
  | availableCameras (cameras : Except DartError (Option (List CameraDescription)))
  | initialized (answer : Except DartError Unit)
  | resume
  | dispose

/-- The screen starts one preparation. A controller may come up or fail, also when it was
disposed in the meantime. -/
def cameraStep (s : Camera) : CameraAct → Option Camera
  | .getReadyToTakePhoto =>
    match s.preparation with
    | .notStarted => some { s with preparation := .availableCameras }
    | _ => none
  | .availableCameras cameras =>
    match s.preparation with
    | .availableCameras =>
      match cameras with
      | .error _ => some { s with preparation := .ended }
      | .ok (some (camera :: _)) => some ((s.setCameraDescription camera).loop false)
      | .ok _ => some (s.loop false)
    | _ => none
  | .initialized answer =>
    match s.preparation with
    | .initializing c =>
      match answer with
      | .error _ => some { s with preparation := .returned false }
      | .ok () => some { s with
          controllers := s.controllers.modify c fun k => { k with isInitialized := true }
          preparation := .returned true }
    | _ => none
  | .resume =>
    match s.preparation with
    | .returned init => some (s.loop init)
    | _ => none
  | .dispose => some s.dispose

variable {s t : Camera}

theorem step_getReady (h : cameraStep s .getReadyToTakePhoto = some t) :
    s.preparation = .notStarted ∧ t = { s with preparation := .availableCameras } := by
  simp only [cameraStep] at h
  split at h
  · rename_i hp
    cases h
    exact ⟨hp, rfl⟩
  · cases h

/-- With the list of cameras, the preparation fails, or makes a controller, or makes none. -/
theorem step_availableCameras {cameras : Except DartError (Option (List CameraDescription))}
    (h : cameraStep s (.availableCameras cameras) = some t) :
    s.preparation = .availableCameras ∧
      ((∃ e, cameras = .error e ∧ t = { s with preparation := .ended }) ∨
        (∃ camera rest, cameras = .ok (some (camera :: rest)) ∧
          t = (s.setCameraDescription camera).runInitialize) ∨
        ((cameras = .ok none ∨ cameras = .ok (some [])) ∧ t = s.runInitialize)) := by
  simp only [cameraStep] at h
  split at h
  · rename_i hp
    refine ⟨hp, ?_⟩
    rcases cameras with e | _ | _ | ⟨camera, rest⟩
    · cases h
      exact Or.inl ⟨e, rfl, rfl⟩
    · cases h
      exact Or.inr (Or.inr ⟨Or.inl rfl, rfl⟩)
    · cases h
      exact Or.inr (Or.inr ⟨Or.inr rfl, rfl⟩)
    · cases h
      exact Or.inr (Or.inl ⟨camera, rest, rfl, rfl⟩)
  · cases h

theorem step_initialized {answer : Except DartError Unit}
    (h : cameraStep s (.initialized answer) = some t) :
    ∃ c, s.preparation = .initializing c ∧
      ((∃ e, answer = .error e ∧ t = { s with preparation := .returned false }) ∨
        (answer = .ok () ∧ t = { s with
          controllers := s.controllers.modify c fun k => { k with isInitialized := true }
          preparation := .returned true })) := by
  simp only [cameraStep] at h
  split at h
  · rename_i c hp
    refine ⟨c, hp, ?_⟩
    cases answer with
    | error e =>
      cases h
      exact Or.inl ⟨e, rfl, rfl⟩
    | ok u =>
      cases h
      exact Or.inr ⟨rfl, rfl⟩
  · cases h

theorem step_resumed (h : cameraStep s .resume = some t) :
    ∃ init, s.preparation = .returned init ∧ t = s.loop init := by
  simp only [cameraStep] at h
  split at h
  · rename_i init hp
    cases h
    exact ⟨init, hp, rfl⟩
  · cases h

/-! ## The controller of the state -/

/-- What every step keeps of the controller: it was not disposed, it is not there before the
cameras are known, and nothing else is in flight. -/
structure Wired (s : Camera) : Prop where
  undisposed : ∀ c, s.state.controller = some c →
    ∃ k, s.controllers[c]? = some k ∧ k.isDisposed = false
  before : s.preparation = .notStarted ∨ s.preparation = .availableCameras →
    s.state.controller = none
  flight : ∀ c, s.preparation = .initializing c →
    s.state.controller = none ∨ s.state.controller = some c

theorem wired_initial : Wired .initial := by
  refine ⟨fun c hc => ?_, fun _ => rfl, fun c hp => ?_⟩
  · cases hc
  · cases hp

/-- `initialize` waits for the controller of the state, or returns at once. -/
theorem preparation_runInitialize (s : Camera) :
    (∃ c, s.state.controller = some c ∧ s.runInitialize.preparation = .initializing c) ∨
      s.state.controller = none ∧ s.runInitialize.preparation = .returned false := by
  unfold Camera.runInitialize
  cases hc : s.state.controller with
  | none => exact Or.inr ⟨rfl, rfl⟩
  | some c => exact Or.inl ⟨c, rfl, rfl⟩

theorem wired_runInitialize (hs : ∀ c, s.state.controller = some c →
    ∃ k, s.controllers[c]? = some k ∧ k.isDisposed = false) : Wired s.runInitialize := by
  rcases preparation_runInitialize s with ⟨c, hc, hp⟩ | ⟨_, hp⟩
  · refine ⟨hs, fun hbefore => ?_, fun d hd => ?_⟩
    · simp [hp] at hbefore
    · rw [hp] at hd
      cases hd
      exact Or.inr hc
  · refine ⟨hs, fun hbefore => ?_, fun d hd => ?_⟩
    · simp [hp] at hbefore
    · simp [hp] at hd

theorem undisposed_setCameraDescription (s : Camera) (camera : CameraDescription) (c : ℕ)
    (hc : (s.setCameraDescription camera).state.controller = some c) :
    ∃ k, (s.setCameraDescription camera).controllers[c]? = some k ∧ k.isDisposed = false := by
  cases hc
  refine ⟨⟨camera, false, false⟩, ?_, rfl⟩
  show (s.controllers ++ _)[s.controllers.length]? = _
  simp

/-- A controller that comes up is not disposed by that, and neither is any other. -/
theorem undisposed_initialized (hs : Wired s) (i c : ℕ) (hc : s.state.controller = some c) :
    ∃ k, (s.controllers.modify i fun k => { k with isInitialized := true })[c]? = some k ∧
      k.isDisposed = false := by
  obtain ⟨k, hk, hlive⟩ := hs.undisposed c hc
  rw [List.getElem?_modify, hk]
  by_cases hi : i = c
  · exact ⟨{ k with isInitialized := true }, by simp [hi], hlive⟩
  · exact ⟨k, by simp [hi], hlive⟩

theorem wired_step {a : CameraAct} (hs : Wired s) (h : cameraStep s a = some t) : Wired t := by
  cases a with
  | getReadyToTakePhoto =>
    obtain ⟨hp, rfl⟩ := step_getReady h
    refine ⟨hs.undisposed, fun _ => hs.before (Or.inl hp), fun c hc => ?_⟩
    cases hc
  | availableCameras cameras =>
    obtain ⟨_, ⟨_, _, rfl⟩ | ⟨camera, _, _, rfl⟩ | ⟨_, rfl⟩⟩ := step_availableCameras h
    · refine ⟨hs.undisposed, fun hbefore => ?_, fun c hc => ?_⟩
      · simp at hbefore
      · cases hc
    · exact wired_runInitialize (undisposed_setCameraDescription s camera)
    · exact wired_runInitialize hs.undisposed
  | initialized answer =>
    obtain ⟨c, _, ⟨_, _, rfl⟩ | ⟨_, rfl⟩⟩ := step_initialized h
    · refine ⟨hs.undisposed, fun hbefore => ?_, fun d hd => ?_⟩
      · simp at hbefore
      · cases hd
    · refine ⟨undisposed_initialized hs c, fun hbefore => ?_, fun d hd => ?_⟩
      · simp at hbefore
      · cases hd
  | resume =>
    obtain ⟨init, _, rfl⟩ := step_resumed h
    cases init with
    | false => exact wired_runInitialize hs.undisposed
    | true =>
      refine ⟨hs.undisposed, fun hbefore => ?_, fun c hc => ?_⟩
      · simp [Camera.loop] at hbefore
      · cases hc
  | dispose =>
    cases h
    refine ⟨fun c hc => ?_, fun _ => rfl, fun _ _ => Or.inl rfl⟩
    cases hc

/-! ## A live controller -/

/-- The preparation is under way. -/
def Preparation.UnderWay : Preparation → Bool
  | .notStarted => false
  | .ended => false
  | _ => true

/-- Whether `dispose` came while the preparation was under way. -/
def disposedDuring (s : Camera) (a : CameraAct) (disposed : Bool) : Bool :=
  match a with
  | .dispose => disposed || s.preparation.UnderWay
  | _ => disposed

/-- The camera with the observer that watches for `dispose`. -/
abbrev watchedCamera : Camera × Bool → CameraAct → Option (Camera × Bool) :=
  watch cameraStep disposedDuring

/-- The controller is there, is initialised, and was not disposed. -/
def LiveController (s : Camera) : Prop :=
  ∃ c k, s.state.controller = some c ∧ s.controllers[c]? = some k ∧ k.isInitialized = true ∧
    k.isDisposed = false

/-- A ready camera has a live controller, and no `dispose` came during its preparation. -/
def ReadyIsLive (s : Camera × Bool) : Prop :=
  s.1.state.readyTakePhoto = true → LiveController s.1 ∧ s.2 = false

/-- A preparation whose `initialize` gave true goes on only if no `dispose` came. -/
def UndisturbedEnd (s : Camera × Bool) (a : CameraAct) (_ : Camera × Bool) : Prop :=
  a = .resume → s.1.preparation = .returned true → s.2 = false

/-- What every step keeps. Without a `dispose`, the controller in flight is that of the state. -/
structure Prepared (s : Camera) (disposed : Bool) : Prop where
  wired : Wired s
  early : s.preparation ≠ .ended → s.state.readyTakePhoto = false
  waits : ∀ c, s.preparation = .initializing c → disposed = false → s.state.controller = some c
  done : s.preparation = .returned true → disposed = false → LiveController s

variable {disposed : Bool}

theorem prepared_initial : Prepared .initial false := by
  refine ⟨wired_initial, fun _ => rfl, fun c hp => ?_, fun hp => ?_⟩
  · cases hp
  · cases hp

/-- A preparation that waits for no controller, and has none to go on with. -/
theorem prepared_elsewhere (hs : Wired s)
    (hearly : s.preparation ≠ .ended → s.state.readyTakePhoto = false)
    (hwaits : ∀ c, s.preparation ≠ .initializing c) (hdone : s.preparation ≠ .returned true) :
    Prepared s disposed :=
  ⟨hs, hearly, fun c hc => absurd hc (hwaits c), fun hc => absurd hc hdone⟩

theorem prepared_runInitialize (hs : Wired s.runInitialize)
    (hready : s.state.readyTakePhoto = false) : Prepared s.runInitialize disposed := by
  rcases preparation_runInitialize s with ⟨c, hc, hp⟩ | ⟨_, hp⟩
  · refine ⟨hs, fun _ => hready, fun d hd _ => ?_, fun hd => ?_⟩
    · rw [hp] at hd
      cases hd
      exact hc
    · simp [hp] at hd
  · exact prepared_elsewhere hs (fun _ => hready) (by simp [hp]) (by simp [hp])

/-- The controller of the state is live when it comes up. -/
theorem live_initialized (hs : Wired s) {c : ℕ} (hc : s.state.controller = some c) :
    LiveController { s with
      controllers := s.controllers.modify c fun k => { k with isInitialized := true }
      preparation := .returned true } := by
  obtain ⟨k, hk, hlive⟩ := hs.undisposed c hc
  refine ⟨c, { k with isInitialized := true }, hc, ?_, rfl, hlive⟩
  rw [List.getElem?_modify, hk]
  simp

theorem prepared_step (s : Camera × Bool) (a : CameraAct) (t : Camera × Bool)
    (hs : Prepared s.1 s.2) (h : watchedCamera s a = some t) : Prepared t.1 t.2 := by
  obtain ⟨hstep, hseen⟩ := watch_some h
  have hwired := wired_step hs.wired hstep
  cases a with
  | getReadyToTakePhoto =>
    obtain ⟨hp, ht⟩ := step_getReady hstep
    have hready := hs.early (by rw [hp]; simp)
    rw [ht] at hwired ⊢
    exact prepared_elsewhere hwired (fun _ => hready) (by simp) (by simp)
  | availableCameras cameras =>
    obtain ⟨hp, hanswer⟩ := step_availableCameras hstep
    have hready := hs.early (by rw [hp]; simp)
    rcases hanswer with ⟨_, _, ht⟩ | ⟨camera, _, _, ht⟩ | ⟨_, ht⟩
    · rw [ht] at hwired ⊢
      exact prepared_elsewhere hwired (fun _ => hready) (by simp) (by simp)
    · rw [ht] at hwired ⊢
      exact prepared_runInitialize hwired hready
    · rw [ht] at hwired ⊢
      exact prepared_runInitialize hwired hready
  | initialized answer =>
    obtain ⟨c, hp, hanswer⟩ := step_initialized hstep
    have hready := hs.early (by rw [hp]; simp)
    rcases hanswer with ⟨_, _, ht⟩ | ⟨_, ht⟩
    · rw [ht] at hwired ⊢
      exact prepared_elsewhere hwired (fun _ => hready) (by simp) (by simp)
    · rw [ht] at hwired ⊢
      refine ⟨hwired, fun _ => hready, fun d hd => ?_, fun _ hno => ?_⟩
      · cases hd
      · exact live_initialized hs.wired (hs.waits c hp (hseen.symm.trans hno))
  | resume =>
    obtain ⟨init, hp, ht⟩ := step_resumed hstep
    rw [ht] at hwired ⊢
    cases init with
    | false => exact prepared_runInitialize hwired (hs.early (by rw [hp]; simp))
    | true =>
      have hended : (s.1.loop true).preparation = .ended := rfl
      exact prepared_elsewhere hwired (fun hne => absurd hended hne) (by simp [hended])
        (by simp [hended])
  | dispose =>
    have ht : s.1.dispose = t.1 := Option.some.inj hstep
    rw [← ht] at hwired ⊢
    rw [hseen]
    refine ⟨hwired, fun _ => rfl, fun c hp hno => ?_, fun hp hno => ?_⟩
    · have hp : s.1.preparation = .initializing c := hp
      simp [disposedDuring, hp, Preparation.UnderWay] at hno
    · have hp : s.1.preparation = .returned true := hp
      simp [disposedDuring, hp, Preparation.UnderWay] at hno

/-- Only the end of the preparation makes the camera ready. -/
theorem ready_step {t : Camera} {a : CameraAct} (hs : Prepared s disposed)
    (h : cameraStep s a = some t) :
    (a = .resume ∧ s.preparation = .returned true ∧
        t = { s with state := { s.state with readyTakePhoto := true }, preparation := .ended }) ∨
      t.state.readyTakePhoto = false ∧ ¬(a = .resume ∧ s.preparation = .returned true) := by
  cases a with
  | getReadyToTakePhoto =>
    obtain ⟨hp, rfl⟩ := step_getReady h
    exact Or.inr ⟨hs.early (by rw [hp]; simp), by simp⟩
  | availableCameras cameras =>
    obtain ⟨hp, hanswer⟩ := step_availableCameras h
    have hready := hs.early (by rw [hp]; simp)
    rcases hanswer with ⟨_, _, rfl⟩ | ⟨_, _, _, rfl⟩ | ⟨_, rfl⟩ <;>
      exact Or.inr ⟨hready, by simp⟩
  | initialized answer =>
    obtain ⟨c, hp, hanswer⟩ := step_initialized h
    have hready := hs.early (by rw [hp]; simp)
    rcases hanswer with ⟨_, _, rfl⟩ | ⟨_, rfl⟩ <;> exact Or.inr ⟨hready, by simp⟩
  | resume =>
    obtain ⟨init, hp, rfl⟩ := step_resumed h
    cases init with
    | false => exact Or.inr ⟨hs.early (by rw [hp]; simp), by simp [hp]⟩
    | true => exact Or.inl ⟨rfl, hp, rfl⟩
  | dispose =>
    cases h
    exact Or.inr ⟨rfl, by simp⟩

theorem readyIsLive_step (s : Camera × Bool) (a : CameraAct) (t : Camera × Bool)
    (hs : Prepared s.1 s.2) (h : watchedCamera s a = some t) :
    ReadyIsLive t ↔ UndisturbedEnd s a t := by
  obtain ⟨hstep, hseen⟩ := watch_some h
  rcases ready_step hs hstep with ⟨rfl, hp, ht⟩ | ⟨hready, hother⟩
  · have hseen : t.2 = s.2 := hseen
    constructor
    · intro hlive _ _
      rw [← hseen]
      exact (hlive (by rw [ht])).2
    · intro hno _
      have hdisposed := hno rfl hp
      refine ⟨?_, by rw [hseen, hdisposed]⟩
      rw [ht]
      exact hs.done hp hdisposed
  · constructor
    · intro _ ha hp
      exact absurd ⟨ha, hp⟩ hother
    · intro _ htrue
      rw [hready] at htrue
      cases htrue

/-! ## The law -/

/-- Whatever the cameras are and whichever initialisations fail: in every state of a run, a
ready camera has a live controller and was prepared without a `dispose`, exactly when no
preparation goes on after a `dispose` with a controller that came up. -/
theorem a_ready_camera_is_live_iff_nothing_was_disposed (as : List CameraAct) :
    AllStates watchedCamera ReadyIsLive (.initial, false) as ↔
      AllSteps watchedCamera UndisturbedEnd (.initial, false) as := by
  refine allStates_iff_allSteps (I := fun s => Prepared s.1 s.2) (A := fun _ => True)
    (fun s a t _ => prepared_step s a t) (fun s a t _ hs _ => readyIsLive_step s a t hs)
    (fun _ _ => trivial) prepared_initial ?_
  intro hready
  cases hready

/-- The screen goes away while its camera comes up. -/
def leftTooEarly : List CameraAct :=
  [.getReadyToTakePhoto, .availableCameras (.ok (some [⟨"back"⟩])), .dispose,
   .initialized (.ok ()), .resume]

/-- The camera is ready, and it has no controller. -/
theorem a_left_screen_gets_a_ready_camera_without_controller :
    ¬∀ as, AllStates watchedCamera ReadyIsLive (.initial, false) as := by
  intro h
  have hend : (run watchedCamera (.initial, false) leftTooEarly).map
      (fun t => (t.1.state.readyTakePhoto, t.1.state.controller)) = some (true, none) := by decide
  obtain ⟨t, ht, hvalues⟩ := Option.map_eq_some_iff.mp hend
  rw [Prod.mk.injEq] at hvalues
  obtain ⟨⟨c, k, hc, _⟩, _⟩ := h leftTooEarly _ (List.prefix_refl _) t ht hvalues.1
  rw [hvalues.2] at hc
  cases hc

end instagram
