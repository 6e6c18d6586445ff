-- The profile screen: a tap on the icon of its body opens or closes the side menu and starts the
-- animation of the icon. A tap while the icon still opens leaves the two at odds.
import Mathlib.Algebra.Group.Nat.Even
import Instagram.Runs

namespace instagram

open runs

/-! ## The screen -/

inductive MenuStatus where
  | opended
  | closed
  deriving DecidableEq, Repr

inductive AnimationStatus where
  | dismissed
  | forward
  | reverse
  | completed
  deriving DecidableEq, Repr

inductive SelectedTab where
  | left
  | right
  deriving DecidableEq, Repr

/-- `_ProfileScreenState`, with the `_ProfileBodyState` below it. Positions are doubles there. -/
structure ProfileScreen (α : Type) where
  menuStatus : MenuStatus
  bodyXPos : α
  menuXPos : α
  iconAnimation : AnimationStatus
  selectedTab : SelectedTab
  leftImagesPageMargin : α
  rightImagesPageMargin : α
  deriving DecidableEq, Repr

variable {α : Type} [Zero α] [Neg α] [Sub α]

def ProfileScreen.initial (width : α) : ProfileScreen α :=
  ⟨.closed, 0, width, .dismissed, .left, 0, width⟩

/-- The menu has been toggled before the positions are set. -/
def ProfileScreen.onMenuChanged (width menuWidth : α) (s : ProfileScreen α) : ProfileScreen α :=
  match s.menuStatus with
  | .closed =>
    { s with menuStatus := .opended, bodyXPos := -menuWidth, menuXPos := width - menuWidth }
  | .opended => { s with menuStatus := .closed, bodyXPos := 0, menuXPos := width }

/-- The button of the app bar. A `forward()` while the icon opens changes nothing. -/
def ProfileScreen.onPressed (width menuWidth : α) (s : ProfileScreen α) : ProfileScreen α :=
  let t := s.onMenuChanged width menuWidth
  { t with iconAnimation := if t.iconAnimation = .completed then .reverse else .forward }

def ProfileScreen.tabSelected (width : α) (s : ProfileScreen α) (tab : SelectedTab) :
    ProfileScreen α :=
  match tab with
  | .left =>
    { s with selectedTab := .left, leftImagesPageMargin := 0, rightImagesPageMargin := width }
  | .right =>
    { s with selectedTab := .right, leftImagesPageMargin := -width, rightImagesPageMargin := 0 }

inductive ProfileAct where
  | pressed
  | tab (tab : SelectedTab)
  | animationEnds
  deriving DecidableEq, Repr

/-- The ticker ends an animation at any time after its start. -/
def profileStep (width menuWidth : α) (s : ProfileScreen α) : ProfileAct → Option (ProfileScreen α)
  | .pressed => some (s.onPressed width menuWidth)
  | .tab tab => some (s.tabSelected width tab)
  | .animationEnds =>
    match s.iconAnimation with
    | .forward => some { s with iconAnimation := .completed }
    | .reverse => some { s with iconAnimation := .dismissed }
    | _ => none

/-! ## What is shown -/

/-- The icon shows the cross, or is on its way to it. -/
def AnimationStatus.showsClose : AnimationStatus → Bool
  | .forward | .completed => true
  | .reverse | .dismissed => false

/-- A cross closes an open menu, and three bars open a closed one. -/
def ProfileScreen.IconFits (s : ProfileScreen α) : Prop :=
  s.iconAnimation.showsClose = true ↔ s.menuStatus = .opended

/-- The positions are those of the menu and of the tab that the screen holds. -/
structure ProfileScreen.Laid (width menuWidth : α) (s : ProfileScreen α) : Prop where
  body : s.bodyXPos = if s.menuStatus = .opended then -menuWidth else 0
  menu : s.menuXPos = if s.menuStatus = .opended then width - menuWidth else width
  left : s.leftImagesPageMargin = if s.selectedTab = .left then 0 else -width
  right : s.rightImagesPageMargin = if s.selectedTab = .left then width else 0

/-- Counts the taps on the icon while it opens. -/
def tapsWhileOpening (s : ProfileScreen α) (a : ProfileAct) (n : ℕ) : ℕ :=
  if a = .pressed ∧ s.iconAnimation = .forward then n + 1 else n

/-! ## Steps -/

/-- An animation that ends has reached the end that it ran to. -/
theorem step_animationEnds {width menuWidth : α} {s t : ProfileScreen α}
    (h : profileStep width menuWidth s .animationEnds = some t) :
    ∃ status, status.showsClose = s.iconAnimation.showsClose ∧
      t = { s with iconAnimation := status } := by
  cases hicon : s.iconAnimation <;> simp only [profileStep, hicon] at h
  · cases h
  · cases h
    exact ⟨.completed, rfl, rfl⟩
  · cases h
    exact ⟨.dismissed, rfl, rfl⟩
  · cases h

theorem laid_step {width menuWidth : α} {s t : ProfileScreen α} {a : ProfileAct}
    (hs : s.Laid width menuWidth) (h : profileStep width menuWidth s a = some t) :
    t.Laid width menuWidth := by
  obtain ⟨hbody, hmenu, hleft, hright⟩ := hs
  cases a with
  | pressed =>
    cases h
    unfold ProfileScreen.onPressed ProfileScreen.onMenuChanged
    split
    · exact ⟨by simp, by simp, hleft, hright⟩
    · exact ⟨by simp, by simp, hleft, hright⟩
  | tab tab =>
    cases h
    unfold ProfileScreen.tabSelected
    cases tab with
    | left => exact ⟨hbody, hmenu, by simp, by simp⟩
    | right => exact ⟨hbody, hmenu, by simp, by simp⟩
  | animationEnds =>
    obtain ⟨status, _, rfl⟩ := step_animationEnds h
    exact ⟨hbody, hmenu, hleft, hright⟩

/-- A tap turns the icon and the menu together, unless the icon was opening. -/
theorem iconFits_pressed (width menuWidth : α) (s : ProfileScreen α) :
    (s.onPressed width menuWidth).IconFits ↔
      if s.iconAnimation = .forward then ¬ s.IconFits else s.IconFits := by
  unfold ProfileScreen.onPressed ProfileScreen.onMenuChanged ProfileScreen.IconFits
  cases s.iconAnimation <;> cases s.menuStatus <;> simp [AnimationStatus.showsClose]

/-- Nothing but a tap on the icon changes whether it fits. -/
theorem iconFits_of_not_pressed {width menuWidth : α} {s t : ProfileScreen α} {a : ProfileAct}
    (ha : a ≠ .pressed) (h : profileStep width menuWidth s a = some t) :
    t.IconFits ↔ s.IconFits := by
  cases a with
  | pressed => exact absurd rfl ha
  | tab tab =>
    cases h
    cases tab with
    | left => exact Iff.rfl
    | right => exact Iff.rfl
  | animationEnds =>
    obtain ⟨status, hstatus, rfl⟩ := step_animationEnds h
    unfold ProfileScreen.IconFits
    rw [← hstatus]

theorem iconFits_step {width menuWidth : α} {s t : ProfileScreen α} {a : ProfileAct} {n : ℕ}
    (hs : s.IconFits ↔ Even n) (h : profileStep width menuWidth s a = some t) :
    t.IconFits ↔ Even (tapsWhileOpening s a n) := by
  unfold tapsWhileOpening
  by_cases ha : a = .pressed
  · subst ha
    cases h
    rw [iconFits_pressed]
    split
    · rename_i hicon
      rw [if_pos ⟨rfl, hicon⟩, Nat.even_add_one, hs]
    · rename_i hicon
      rw [if_neg fun hboth => hicon hboth.2, hs]
  · rw [if_neg fun hboth => ha hboth.1, iconFits_of_not_pressed ha h, hs]

/-! ## The law -/

/-- In every run of taps and animations, the icon fits the menu if and only if evenly many taps
on it came while it was opening. So one such tap leaves the icon wrong, however often it is
tapped later, until it is tapped once more while it opens. The menu, the body and the two pages
of images stand where the menu and the tab ask for it all the while. -/
theorem the_icon_fits_the_menu_iff_evenly_many_taps_came_while_it_opened (width menuWidth : α)
    (as : List ProfileAct) :
    AllStates (watch (profileStep width menuWidth) tapsWhileOpening)
      (fun s => (s.1.IconFits ↔ Even s.2) ∧ s.1.Laid width menuWidth)
      (ProfileScreen.initial width, 0) as := by
  refine allStates_of_keeps (A := fun _ => True) ?_ (fun _ _ => trivial) ⟨?_, ?_⟩
  · rintro s a t - ⟨hfits, hlaid⟩ h
    obtain ⟨hstep, hcount⟩ := watch_some h
    rw [hcount]
    exact ⟨iconFits_step hfits hstep, laid_step hlaid hstep⟩
  · simp [ProfileScreen.IconFits, ProfileScreen.initial, AnimationStatus.showsClose]
  · exact ⟨rfl, rfl, rfl, rfl⟩

/-- Two taps in a row close the menu under an icon that goes on to the cross. -/
example : (run (profileStep 300 200) (ProfileScreen.initial 300)
    [.pressed, .pressed, .animationEnds]).map (fun s => (s.menuStatus, s.iconAnimation)) =
    some (.closed, .completed) := by decide

end instagram
