-- The retry loop of the camera. `initialize` turns a null controller into one more failure, so
-- the loop ends exactly when each of its iterations has a controller to initialise.
import Instagram.Camera

namespace instagram

open firestore runs

/-! ## Iterations -/

/-- The step calls `initialize` once more. -/
def Iterates (s : Camera) : CameraAct → Bool
  | .availableCameras (.ok _) => true
  | .resume => s.preparation == .returned false
  | _ => false

/-- An existing controller that was not disposed fails to come up. -/
def Fails (s : Camera) : CameraAct → Bool
  | .initialized (.error _) =>
    match s.preparation with
    | .initializing c => s.controllers[c]?.any fun k => !k.isDisposed
    | _ => false
  | _ => false

structure LoopCount where
  iterations : ℕ
  failures : ℕ

def counted (s : Camera) (a : CameraAct) (n : LoopCount) : LoopCount :=
  { iterations := n.iterations + (Iterates s a).toNat, failures := n.failures + (Fails s a).toNat }

/-- The camera with the observer that counts. -/
abbrev countedCamera : Camera × LoopCount → CameraAct → Option (Camera × LoopCount) :=
  watch cameraStep counted

/-- An iteration has a controller: the step makes one, or the state has it. -/
def HasController (s : Camera) : CameraAct → Prop
  | .availableCameras (.ok cameras) => ∃ camera rest, cameras = some (camera :: rest)
  | .resume => s.preparation = .returned false → s.state.controller.isSome
  | _ => True

/-- An iteration that finds no controller ends the loop. -/
def StopsWithout (s : Camera) (a : CameraAct) (t : Camera) : Prop :=
  Iterates s a = true → t.state.controller = none → t.preparation = .ended

/-- Every await of the preparation is answered at some time. -/
def Answered (acts : ℕ → Option CameraAct) (states : ℕ → Camera × LoopCount) : Prop :=
  ∀ n, (states n).1.preparation.UnderWay = true → ∃ m a, n ≤ m ∧ acts m = some a ∧ a ≠ .dispose

variable {s t : Camera}

/-- An iteration that is about to begin leaves the preparation in `initialize` or back from it. -/
theorem step_iterates {a : CameraAct} (hs : Wired s) (ha : Iterates s a = true)
    (h : cameraStep s a = some t) :
    (∃ c, t.state.controller = some c ∧ t.preparation = .initializing c ∧ HasController s a) ∨
      t.state.controller = none ∧ t.preparation = .returned false ∧ ¬HasController s a := by
  cases a with
  | availableCameras cameras =>
    obtain ⟨hp, ⟨_, rfl, _⟩ | ⟨camera, rest, rfl, rfl⟩ | ⟨hnone, rfl⟩⟩ := step_availableCameras h
    · cases ha
    · exact Or.inl ⟨_, rfl, rfl, camera, rest, rfl⟩
    · have hno := hs.before (Or.inr hp)
      refine Or.inr ⟨hno, ?_, ?_⟩
      · unfold Camera.runInitialize
        rw [hno]
      · rcases hnone with rfl | rfl
        · rintro ⟨_, _, he⟩
          cases he
        · rintro ⟨_, _, he⟩
          cases he
  | resume =>
    obtain ⟨init, hp, rfl⟩ := step_resumed h
    have hinit : init = false := by
      simpa [Iterates, hp] using ha
    subst hinit
    rcases preparation_runInitialize s with ⟨c, hc, hnext⟩ | ⟨hc, hnext⟩
    · exact Or.inl ⟨c, hc, hnext, fun _ => by rw [hc]; rfl⟩
    · refine Or.inr ⟨hc, hnext, fun hhas => ?_⟩
      have hsome := hhas hp
      simp [hc] at hsome
  | _ => cases ha

theorem hasController_of_not_iterates {a : CameraAct} (ha : Iterates s a = false) :
    HasController s a := by
  cases a with
  | availableCameras cameras =>
    cases cameras with
    | error e => trivial
    | ok cameras => cases ha
  | resume =>
    intro hp
    simp [Iterates, hp] at ha
  | _ => trivial

/-- The loop never stops by itself at a missing controller. -/
theorem stopsWithout_iff {a : CameraAct} (hs : Wired s) (h : cameraStep s a = some t) :
    StopsWithout s a t ↔ HasController s a := by
  cases ha : Iterates s a with
  | false =>
    refine iff_of_true (fun hyes => ?_) (hasController_of_not_iterates ha)
    rw [ha] at hyes
    cases hyes
  | true =>
    rcases step_iterates hs ha h with ⟨c, hc, _, hhas⟩ | ⟨hc, hp, hno⟩
    · refine iff_of_true (fun _ hnone => ?_) hhas
      rw [hc] at hnone
      cases hnone
    · refine iff_of_false (fun hstops => ?_) hno
      have hended := hstops ha hc
      rw [hp] at hended
      cases hended

/-! ## Without a controller -/

/-- The loop goes on with a failure, and there is nothing that it could initialise. -/
def Stuck (s : Camera) : Prop := s.preparation = .returned false ∧ s.state.controller = none

/-- Nothing can happen but one more iteration, or a `dispose`. -/
theorem stuck_cases {a : CameraAct} (hs : Stuck s) (h : cameraStep s a = some t) :
    (a = .resume ∧ t = s.runInitialize) ∨ (a = .dispose ∧ t = s.dispose) := by
  cases a with
  | getReadyToTakePhoto =>
    have hp := (step_getReady h).1
    simp [hs.1] at hp
  | availableCameras cameras =>
    have hp := (step_availableCameras h).1
    simp [hs.1] at hp
  | initialized answer =>
    obtain ⟨c, hp, _⟩ := step_initialized h
    simp [hs.1] at hp
  | resume =>
    obtain ⟨init, hp, rfl⟩ := step_resumed h
    obtain rfl : false = init := by simpa [hs.1] using hp
    exact Or.inl ⟨rfl, rfl⟩
  | dispose =>
    cases h
    exact Or.inr ⟨rfl, rfl⟩

theorem stuck_step {a : CameraAct} (hs : Stuck s) (h : cameraStep s a = some t) : Stuck t := by
  obtain ⟨hp, hc⟩ := hs
  rcases stuck_cases ⟨hp, hc⟩ h with ⟨_, rfl⟩ | ⟨_, rfl⟩
  · refine ⟨?_, hc⟩
    unfold Camera.runInitialize
    rw [hc]
  · exact ⟨hp, rfl⟩

/-- Whatever comes but a `dispose` is one more iteration. -/
theorem stuck_iterates {a : CameraAct} (hs : Stuck s) (h : cameraStep s a = some t)
    (ha : a ≠ .dispose) : Iterates s a = true := by
  rcases stuck_cases hs h with ⟨rfl, _⟩ | ⟨rfl, _⟩
  · unfold Iterates
    simp [hs.1]
  · exact absurd rfl ha

/-! ## With a controller -/

/-- The iteration that no failure was counted for yet. -/
def openIteration (s : Camera) : ℕ :=
  match s.preparation with
  | .notStarted => 0
  | .availableCameras => 0
  | .returned false => if s.state.controller.isSome then 0 else 1
  | _ => 1

/-- All iterations but one are failures of controllers. -/
def Bounded (s : Camera × LoopCount) : Prop :=
  s.2.iterations ≤ s.2.failures + openIteration s.1

/-- A controller in flight that fails is counted, unless it was disposed. -/
theorem fails_or_gone (hs : Wired s) {c : ℕ} (hp : s.preparation = .initializing c)
    (e : DartError) : Fails s (.initialized (.error e)) = true ∨ s.state.controller = none := by
  rcases hs.flight c hp with hnone | hc
  · exact Or.inr hnone
  · obtain ⟨k, hk, hlive⟩ := hs.undisposed c hc
    left
    simp [Fails, hp, hk, hlive]

/-- A step that is no iteration closes the open one only by a failure that is counted. -/
theorem openIteration_step {a : CameraAct} (hs : Wired s) (ha : Iterates s a = false)
    (h : cameraStep s a = some t) :
    openIteration s ≤ openIteration t + (Fails s a).toNat := by
  cases a with
  | getReadyToTakePhoto =>
    obtain ⟨hp, _⟩ := step_getReady h
    simp [openIteration, hp]
  | availableCameras cameras =>
    obtain ⟨hp, _⟩ := step_availableCameras h
    simp [openIteration, hp]
  | initialized answer =>
    obtain ⟨c, hp, ⟨e, rfl, rfl⟩ | ⟨rfl, rfl⟩⟩ := step_initialized h
    · rcases fails_or_gone hs hp e with hfails | hnone
      · simp [openIteration, hp, hfails]
      · simp [openIteration, hp, hnone]
    · simp [openIteration, hp]
  | resume =>
    obtain ⟨init, hp, rfl⟩ := step_resumed h
    have hinit : init = true := by simpa [Iterates, hp] using ha
    subst hinit
    simp [openIteration, hp, Camera.loop]
  | dispose =>
    cases h
    have hle : openIteration s ≤ openIteration s.dispose := by
      unfold openIteration Camera.dispose
      cases s.preparation with
      | returned init =>
        cases init with
        | false =>
          show (if s.state.controller.isSome then 0 else 1) ≤ 1
          split <;> omega
        | true => exact le_rfl
      | _ => exact le_rfl
    omega

theorem bounded_step {s t : Camera × LoopCount} {a : CameraAct} (hs : Wired s.1)
    (hb : Bounded s) (hhas : HasController s.1 a) (h : countedCamera s a = some t) :
    Bounded t := by
  obtain ⟨hstep, hseen⟩ := watch_some h
  unfold Bounded at hb ⊢
  rw [hseen]
  cases ha : Iterates s.1 a with
  | true =>
    rcases step_iterates hs ha hstep with ⟨c, _, hp, _⟩ | ⟨_, _, hno⟩
    · -- the step before had no iteration open
      have hclosed : openIteration s.1 = 0 := by
        unfold openIteration
        cases a with
        | availableCameras cameras => rw [(step_availableCameras hstep).1]
        | resume =>
          have hp' : s.1.preparation = .returned false := by simpa [Iterates] using ha
          rw [hp']
          exact if_pos (hhas hp')
        | _ => cases ha
      have hopen : openIteration t.1 = 1 := by
        unfold openIteration
        rw [hp]
      have hone : (Iterates s.1 a).toNat = 1 := by rw [ha]; rfl
      simp only [counted, hone, hopen]
      omega
    · exact absurd hhas hno
  | false =>
    have hzero : (Iterates s.1 a).toNat = 0 := by rw [ha]; rfl
    have hopen := openIteration_step hs ha hstep
    simp only [counted, hzero]
    omega

/-! ## Endless runs -/

variable {acts : ℕ → Option CameraAct} {states : ℕ → Camera × LoopCount}

theorem wired_at (hrun : Endless countedCamera (.initial, ⟨0, 0⟩) acts states) (n : ℕ) :
    Wired (states n).1 := by
  refine hrun.keeps_from (I := fun s => Wired s.1) (fun m a ha hs => ?_) (Nat.zero_le n) ?_
  · exact wired_step hs (watch_some (hrun.step_of_act ha)).1
  · rw [hrun.first]
    exact wired_initial

/-- With a controller at every iteration, there is at most one more of them than failures. -/
theorem iterations_le (hrun : Endless countedCamera (.initial, ⟨0, 0⟩) acts states)
    (hhas : ∀ n a, acts n = some a → HasController (states n).1 a) (n : ℕ) :
    (states n).2.iterations ≤ (states n).2.failures + 1 := by
  have hbounded : Bounded (states n) := by
    refine hrun.keeps_from (fun m a ha hb => ?_) (Nat.zero_le n) ?_
    · exact bounded_step (wired_at hrun m) hb (hhas m a ha) (hrun.step_of_act ha)
    · rw [hrun.first]
      exact le_rfl
  have hopen : openIteration (states n).1 ≤ 1 := by
    unfold openIteration
    split <;> try omega
    split <;> omega
  unfold Bounded at hbounded
  omega

theorem iterations_mono (hrun : Endless countedCamera (.initial, ⟨0, 0⟩) acts states) :
    Monotone fun n => (states n).2.iterations := by
  refine monotone_nat_of_le_succ fun n => ?_
  rcases hrun.next n with ⟨_, hsame⟩ | ⟨a, _, hstep⟩
  · rw [hsame]
  · rw [(watch_some hstep).2]
    exact Nat.le_add_right _ _

/-- Once there is no controller, the iterations have no bound. -/
theorem iterations_unbounded (hrun : Endless countedCamera (.initial, ⟨0, 0⟩) acts states)
    (hanswered : Answered acts states) {start : ℕ} (hstuck : Stuck (states start).1) (N : ℕ) :
    ∃ n, start ≤ n ∧ N ≤ (states n).2.iterations := by
  have hstays : ∀ n, start ≤ n → Stuck (states n).1 := by
    intro n hn
    refine hrun.keeps_from (I := fun s => Stuck s.1) (fun m a ha hs => ?_) hn hstuck
    exact stuck_step hs (watch_some (hrun.step_of_act ha)).1
  refine unbounded_of_rises (iterations_mono hrun) (fun n hn => ?_) N
  obtain ⟨m, a, hm, ha, hne⟩ := hanswered n (by rw [(hstays n hn).1]; rfl)
  obtain ⟨hstep, hseen⟩ := watch_some (hrun.step_of_act ha)
  have hiterates := stuck_iterates (hstays m (by omega)) hstep hne
  refine ⟨m, hm, ?_⟩
  simp only [hseen, counted, hiterates]
  exact Nat.lt_succ_self _

/-! ## The law -/

/-- Whatever the cameras are, whenever `dispose` comes, and however the run goes on for ever:
when every await is answered, and initialisations of controllers that are there fail only
finitely often, the loop has finitely many iterations exactly when each of them has a
controller. Exactly then it never goes on without one. -/
theorem the_retry_loop_ends_iff_it_always_has_a_controller (acts : ℕ → Option CameraAct)
    (states : ℕ → Camera × LoopCount)
    (hrun : Endless countedCamera (.initial, ⟨0, 0⟩) acts states)
    (hanswered : Answered acts states) (hfailures : ∃ F, ∀ n, (states n).2.failures ≤ F) :
    ((∃ N, ∀ n, (states n).2.iterations ≤ N) ↔
      ∀ n a, acts n = some a → HasController (states n).1 a) ∧
    ((∀ n a, acts n = some a → StopsWithout (states n).1 a (states (n + 1)).1) ↔
      ∀ n a, acts n = some a → HasController (states n).1 a) := by
  have hstep : ∀ n a, acts n = some a →
      cameraStep (states n).1 a = some (states (n + 1)).1 := by
    intro n a ha
    exact (watch_some (hrun.step_of_act ha)).1
  refine ⟨⟨?_, ?_⟩, ?_⟩
  · rintro ⟨N, hN⟩ n a ha
    by_contra hno
    have hiterates : Iterates (states n).1 a = true := by
      by_contra hfalse
      exact hno (hasController_of_not_iterates (by simpa using hfalse))
    rcases step_iterates (wired_at hrun n) hiterates (hstep n a ha) with
      ⟨_, _, _, hhas⟩ | ⟨hc, hp, _⟩
    · exact hno hhas
    · obtain ⟨m, _, hm⟩ := iterations_unbounded hrun hanswered ⟨hp, hc⟩ (N + 1)
      have hle := hN m
      omega
  · intro hhas
    obtain ⟨F, hF⟩ := hfailures
    refine ⟨F + 1, fun n => ?_⟩
    have hle := iterations_le hrun hhas n
    have hf := hF n
    omega
  · constructor
    · intro hstops n a ha
      exact (stopsWithout_iff (wired_at hrun n) (hstep n a ha)).mp (hstops n a ha)
    · intro hhas n a ha
      exact (stopsWithout_iff (wired_at hrun n) (hstep n a ha)).mpr (hhas n a ha)

/-- A device without cameras: the loop goes on for ever. -/
def noCameraActs : ℕ → Option CameraAct
  | 0 => some .getReadyToTakePhoto
  | 1 => some (.availableCameras (.ok none))
  | _ => some .resume

def noCameraStates : ℕ → Camera × LoopCount
  | 0 => (.initial, ⟨0, 0⟩)
  | 1 => ({ Camera.initial with preparation := .availableCameras }, ⟨0, 0⟩)
  | n + 2 => ({ Camera.initial with preparation := .returned false }, ⟨n + 1, 0⟩)

theorem noCamera_endless :
    Endless countedCamera (.initial, ⟨0, 0⟩) noCameraActs noCameraStates := by
  refine ⟨rfl, fun n => Or.inr ?_⟩
  rcases n with _ | _ | n
  · exact ⟨_, rfl, rfl⟩
  · exact ⟨_, rfl, rfl⟩
  · exact ⟨_, rfl, rfl⟩

theorem noCamera_answered : Answered noCameraActs noCameraStates := by
  intro n _
  refine ⟨n + 2, .resume, by omega, rfl, ?_⟩
  simp

theorem the_loop_retries_a_missing_camera_for_ever :
    ¬∀ (acts : ℕ → Option CameraAct) (states : ℕ → Camera × LoopCount),
      Endless countedCamera (.initial, ⟨0, 0⟩) acts states → Answered acts states →
      (∃ F, ∀ n, (states n).2.failures ≤ F) → ∃ N, ∀ n, (states n).2.iterations ≤ N := by
  intro h
  have hfailures : ∀ n, (noCameraStates n).2.failures ≤ 0 := by
    intro n
    rcases n with _ | _ | n <;> exact le_rfl
  obtain ⟨N, hN⟩ := h _ _ noCamera_endless noCamera_answered ⟨0, hfailures⟩
  have hle : N + 1 ≤ N := hN (N + 2)
  omega

/-- The controller fails once and comes up then, and nothing happens any more. -/
def secondTry : List CameraAct :=
  [.getReadyToTakePhoto, .availableCameras (.ok (some [⟨"back"⟩])),
   .initialized (.error (.firebase "CameraAccess")), .resume, .initialized (.ok ()), .resume]

def secondTryStates (n : ℕ) : Camera × LoopCount :=
  (run countedCamera (.initial, ⟨0, 0⟩) (secondTry.take n)).getD (.initial, ⟨0, 0⟩)

theorem secondTry_endless :
    Endless countedCamera (.initial, ⟨0, 0⟩) (secondTry[·]?) secondTryStates := by
  have hrun : (run countedCamera (.initial, ⟨0, 0⟩) secondTry).isSome := by decide
  obtain ⟨t, ht⟩ := Option.isSome_iff_exists.mp hrun
  exact endless_of_run ht

/-- After its six steps the run stands still. -/
theorem secondTryStates_late {n : ℕ} (hn : 6 ≤ n) : secondTryStates n = secondTryStates 6 := by
  unfold secondTryStates
  rw [List.take_of_length_le hn, List.take_of_length_le (by decide)]

theorem secondTry_answered : Answered (secondTry[·]?) secondTryStates := by
  intro n hunder
  rcases Nat.lt_or_ge n 6 with hn | hn
  · have hno : ∀ a ∈ secondTry, a ≠ .dispose := by simp [secondTry]
    exact ⟨n, secondTry[n], le_rfl, List.getElem?_eq_getElem hn, hno _ (List.getElem_mem hn)⟩
  · have hended : (secondTryStates 6).1.preparation.UnderWay = false := by decide
    rw [secondTryStates_late hn, hended] at hunder
    cases hunder

theorem secondTry_failures (n : ℕ) : (secondTryStates n).2.failures ≤ 1 := by
  rcases Nat.lt_or_ge n 6 with hn | hn
  · have hall : ∀ n < 6, (secondTryStates n).2.failures ≤ 1 := by decide
    exact hall n hn
  · rw [secondTryStates_late hn]
    decide

theorem the_retry_loop_ends_at_a_second_try :
    Answered (secondTry[·]?) secondTryStates ∧ ∃ N, ∀ n, (secondTryStates n).2.iterations ≤ N := by
  obtain ⟨hends, _⟩ := the_retry_loop_ends_iff_it_always_has_a_controller _ _ secondTry_endless
    secondTry_answered ⟨1, secondTry_failures⟩
  refine ⟨secondTry_answered, hends.mpr fun n a ha => ?_⟩
  rcases n with _ | _ | _ | _ | _ | _ | n
  · cases ha
    trivial
  · cases ha
    exact ⟨_, _, rfl⟩
  · cases ha
    trivial
  · cases ha
    exact fun _ => rfl
  · cases ha
    trivial
  · cases ha
    exact fun _ => rfl
  · cases ha

end instagram
