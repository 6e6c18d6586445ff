-- Hearts and comments on the screens. A post that the app has made has neither a list of likes
-- nor a counter of comments, so each tap on its heart and on the button under its comments
-- raises. No like and no comment is ever stored, and no typed text is ever cleared.
import Instagram.PostShape
import Instagram.ScreensFollow

namespace instagram

open docs firestore async runs

/-! ## What the updaters do -/

/-- Whoever reads the post `k` finds it there, misshapen. -/
def FindsMisshapen (k : String) : (o : Op) → Ans o → Prop
  | .get ref, a => ref = postRef k → ∀ s, a = .ok s → ∃ d, s = some d ∧ Misshapen d
  | .commit _, _ => True
  | .newId _, _ => True

def Raised (r : Except DartError Unit) : Prop := ∃ x, r = .error x

/-- A like or a comment on such a post raises, whatever else happens. -/
theorem updates_raise {k : String} {c : Call} (hc : c.Updates k) :
    c.prog.Ends (FindsMisshapen k) Raised := by
  cases c with
  | toggleLike postKey userKey =>
    obtain rfl : postKey = k := hc
    refine get_ends (fun x _ => ⟨x, rfl⟩) fun s hs => ?_
    obtain ⟨d, rfl, hd⟩ := hs rfl s rfl
    simp only [toggleLikeOn, Option.isSome_some, if_true]
    simp only [dataField, lookup, hd.1, int, contains]
    exact ⟨_, rfl⟩
  | createNewComment postKey commentData =>
    obtain rfl : postKey = k := hc
    refine get_ends (fun x _ => ⟨x, rfl⟩) fun s hs => ?_
    obtain ⟨d, rfl, hd⟩ := hs rfl s rfl
    intro id _
    show Prog.Ends _ _ (runTransaction _)
    rw [runTransaction_error (x := .stateError)]
    · exact ⟨_, rfl⟩
    · simp [commentTx, field, hd.2]
      rfl
  | _ => exact hc.elim

theorem findsMisshapen_of_handle {k : String} {o : Op} {e : Env} {w w' : Db} {a : Ans o}
    (hthere : (w.docs (postRef k)).isSome) (hbroken : PostBroken k w)
    (h : handle o e w = some (w', a)) : FindsMisshapen k o a := by
  cases o with
  | get ref =>
    rintro rfl s rfl
    obtain ⟨d, hd⟩ := Option.isSome_iff_exists.mp hthere
    rw [(handle_get h).2 s rfl]
    exact ⟨d, hd, hbroken d hd⟩
  | commit ws => trivial
  | newId c => trivial

/-! ## The handlers of the app -/

/-- Hearts and comments screens are of posts that were read from the database, and posts are
created as `getMapForCreatePost` writes them. -/
def ScreensFit (s : ScreensState) : ScreensAct → Prop
  | .start _ ⟨_, .heart k⟩ => IsDocId k ∧ (s.world.docs (postRef k)).isSome
  | .start _ ⟨_, .elsewhere c⟩ =>
    c.Elsewhere ∧ (∀ k, c.CreatesMapped k) ∧ ∀ k, c.postKey = some k → IsDocId k
  | .poke (.openComments _ k) => IsDocId k ∧ (s.world.docs (postRef k)).isSome
  | _ => True

/-- The post of a call is there, and a like or a comment on it will raise. -/
structure CallRaises (w : Db) (c : Call) (p : Parked Unit Op Ans DartError Unit) : Prop where
  mapped : ∀ k, c.CreatesMapped k
  docId : ∀ k, c.postKey = some k → IsDocId k
  raises : ∀ k, c.Updates k →
    (w.docs (postRef k)).isSome ∧ p.Ends (FindsMisshapen k) Raised

/-- Every post is misshapen, and no post has a comment. -/
structure Unheard (b : BackendState) : Prop where
  posts : ∀ k, IsDocId k → PostGuarded k b
  calls : ∀ i c p, b.calls i = some (c, p) → CallRaises b.world c p
  comments : ∀ k id, IsDocId k → b.world.docs (commentsOf k ++ [id]) = none

/-- The screens over such a backend. Every comments screen is of a post that is there. -/
structure ScreensUnheard (s : WatchedScreens) (b : BackendState) : Prop where
  refined : ScreensRefined s b
  backend : Unheard b
  opened : ∀ device, ∀ e ∈ (s.1.mem device).comments,
    IsDocId e.1 ∧ (b.world.docs (postRef e.1)).isSome

theorem updates_postKey {c : Call} {k : String} (h : c.Updates k) : c.postKey = some k := by
  cases c with
  | toggleLike postKey userKey => exact congrArg some h
  | createNewComment postKey commentData => exact congrArg some h
  | _ => exact h.elim

/-- A call that a handler starts is on a post that is there. -/
theorem callRaises_start {s : WatchedScreens} {b : BackendState} {i : ℕ} {h : ScreenCall} {c : Call}
    (hs : ScreensUnheard s b) (hfit : ScreensFit s.1 (.start i h))
    (hc : h.starts s.1.mem = .ok (some c)) :
    CallRaises b.world c (c.prog.settle ()).2 := by
  have hraises : ∀ k, c.Updates k → c.prog.Ends (FindsMisshapen k) Raised :=
    fun k hk => updates_raise hk
  obtain ⟨device, tap⟩ := h
  rcases starts_some hc with ⟨v, my, htap, rfl⟩ | ⟨k, my, htap, rfl⟩ |
      ⟨screen, now, k, text, d, htap, hscreen, rfl⟩ | htap
  · exact ⟨fun _ _ he => (by cases he), fun _ he => (by cases he), fun _ hu => hu.elim⟩
  · obtain rfl : tap = _ := htap
    obtain ⟨hk, hthere⟩ := hfit
    rw [← hs.refined.world] at hthere
    refine ⟨fun _ _ he => (by cases he), fun k' he => ?_,
      fun k' hu => ⟨?_, (hraises k' hu).settle _⟩⟩
    · cases he
      exact hk
    · obtain rfl : k = k' := hu
      exact hthere
  · obtain rfl : tap = _ := htap
    obtain ⟨hk, hthere⟩ := hs.opened device (k, text) (List.mem_of_getElem? hscreen)
    refine ⟨fun _ _ he => (by cases he), fun k' he => ?_,
      fun k' hu => ⟨?_, (hraises k' hu).settle _⟩⟩
    · cases he
      exact hk
    · obtain rfl : k = k' := hu
      exact hthere
  · obtain rfl : tap = _ := htap
    obtain ⟨helse, hmapped, hdocId⟩ := hfit
    refine ⟨hmapped, hdocId, fun k' hu => ?_⟩
    cases c <;> first | exact helse.elim | exact hu.elim

/-! ## Steps -/

theorem wrapPark_of_raises {k : String} {after : (ℕ → Device) → ℕ → Device} (m : ℕ → Device)
    {p : Parked Unit Op Ans DartError Unit} (h : p.Ends (FindsMisshapen k) Raised) :
    (wrapPark after m p).1 = m := by
  cases p with
  | waiting o f => rfl
  | ended r =>
    obtain ⟨x, rfl⟩ := h
    rfl

/-- The turn of a handler leaves the memory alone: only a button under comments would change
it, at an end that never comes. -/
theorem mem_kept {w : Db} {h : ScreenCall} {m₀ : ℕ → Device} {c : Call}
    {p : Parked Unit Op Ans DartError Unit} (hc : h.starts m₀ = .ok (some c))
    (hp : CallRaises w c p) (m : ℕ → Device) : (wrapPark h.after m p).1 = m := by
  obtain ⟨device, tap⟩ := h
  have hsame : (∀ screen now, tap ≠ .post screen now) →
      (wrapPark (ScreenCall.after ⟨device, tap⟩) m p).1 = m := by
    intro htap
    have hafter : ScreenCall.after ⟨device, tap⟩ m = m := by
      unfold ScreenCall.after Tap.after
      cases tap with
      | post screen now => exact absurd rfl (htap screen now)
      | _ => exact Function.update_eq_self _ _
    cases p with
    | waiting o f => rfl
    | ended r =>
      cases r with
      | error x => rfl
      | ok u => exact hafter
  rcases starts_some hc with ⟨v, my, htap, _⟩ | ⟨k, my, htap, _⟩ |
      ⟨screen, now, k, text, d, _, _, rfl⟩ | htap
  · exact hsame fun screen now he => by cases htap.symm.trans he
  · exact hsame fun screen now he => by cases htap.symm.trans he
  · exact wrapPark_of_raises m (hp.raises k rfl).2
  · exact hsame fun screen now he => by cases htap.symm.trans he

/-- No batch but a comment's makes a document under a post, and comments on the post have no
batch. -/
theorem no_comment_commit {c : Call} {ws : List Write} {docs docs' : Store} {k id : String}
    (hcreates : ∀ k d, c = .createNewPost k d → IsDocId k) (hmay : c.MayCommit ws)
    (hnone : c.Updates k → ws = []) (h : commit docs ws = some docs')
    (hs : docs (commentsOf k ++ [id]) = none) : docs' (commentsOf k ++ [id]) = none := by
  refine commit_none h hs fun d hmem => ?_
  have hwrites := writes_of_mayCommit hmay hmem
  generalize href : commentsOf k ++ [id] = ref at hwrites
  cases hwrites with
  | user => exact comment_ne_userRef k id _ href
  | post postKey => exact comment_ne_postRef (hcreates postKey d rfl) k id href
  | comment postKey commentData id' =>
    have hpost : commentsOf k = commentsOf postKey := (List.append_inj' href rfl).1
    obtain rfl : k = postKey := postRef_inj.mp (List.append_inj' hpost rfl).1
    rw [hnone rfl] at hmem
    cases hmem

theorem unheard_resume {b b' : BackendState} {i : ℕ} {e : Env}
    (hs : Unheard b) (h : step backend b (.resume i e) = some b') : Unheard b' := by
  have hposts : ∀ k, IsDocId k → PostGuarded k b' :=
    fun k hk => postGuarded_step hk b (.resume i e) b' trivial (hs.posts k hk) h
  have hthere : ∀ p, (b.world.docs p).isSome → (b'.world.docs p).isSome :=
    fun p => isSome_backend h p
  obtain ⟨c, o, f, w, a, hi, hw, rfl⟩ := step_resume h
  refine ⟨hposts, ?_, fun k id hk => ?_⟩
  · refine update_keeps (fun j d q hj => ?_) ?_
    · obtain ⟨hmapped, hdocId, hraises⟩ := hs.calls j d q hj
      exact ⟨hmapped, hdocId, fun k hu => ⟨hthere _ (hraises k hu).1, (hraises k hu).2⟩⟩
    · obtain ⟨hmapped, hdocId, hraises⟩ := hs.calls i c _ hi
      refine ⟨hmapped, hdocId, fun k hu => ⟨hthere _ (hraises k hu).1, ?_⟩⟩
      have hbroken := (hs.posts k (hdocId k (updates_postKey hu))).world
      exact ((hraises k hu).2 a (findsMisshapen_of_handle (hraises k hu).1 hbroken hw)).settle ()
  · refine handle_keeps (I := fun docs => docs (commentsOf k ++ [id]) = none)
      (fun ws docs' ho hcommit => ?_) (hs.comments k id hk) hw
    subst ho
    obtain ⟨_, ⟨hmay, hguard⟩, _⟩ := (hs.posts k hk).calls i c _ hi
    refine no_comment_commit ?_ (hmay ws rfl) (fun hu => (hguard hu).1 ws rfl) hcommit
      (hs.comments k id hk)
    rintro k' d rfl
    exact (hs.calls i _ _ hi).docId k' rfl

theorem unheard_start {s : WatchedScreens} {b b' : BackendState} {i : ℕ} {h : ScreenCall} {c : Call}
    (hs : ScreensUnheard s b) (hfit : ScreensFit s.1 (.start i h))
    (hc : h.starts s.1.mem = .ok (some c)) (hb : step backend b (.start i c) = some b') :
    Unheard b' := by
  have hcall := callRaises_start hs hfit hc
  have hposts : ∀ k, IsDocId k → PostGuarded k b' :=
    fun k hk => postGuarded_step hk b (.start i c) b' (hcall.mapped k) (hs.backend.posts k hk) hb
  obtain ⟨_, rfl⟩ := step_start hb
  exact ⟨hposts, update_keeps hs.backend.calls hcall, hs.backend.comments⟩

/-- The opened screens after something happened on a device. -/
theorem opened_poke {s : WatchedScreens} {b : BackendState} {x : ScreenPoke} {m : ℕ → Device}
    {w : Db} (hs : ScreensUnheard s b) (hfit : ScreensFit s.1 (.poke x))
    (h : screenPoke x s.1.mem s.1.world = some (m, w)) (device : ℕ) :
    ∀ e ∈ (m device).comments, IsDocId e.1 ∧ (b.world.docs (postRef e.1)).isSome := by
  have hold := hs.opened device
  cases x with
  | setUserModel i userModel =>
    cases h
    by_cases hi : device = i
    · subst hi
      rw [Function.update_self]
      exact hold
    · rw [Function.update_of_ne hi]
      exact hold
  | openComments i k =>
    cases h
    by_cases hi : device = i
    · subst hi
      rw [Function.update_self]
      intro e he
      rcases List.mem_append.mp he with he | he
      · exact hold e he
      · rw [List.mem_singleton.mp he, hs.refined.world]
        exact hfit
    · rw [Function.update_of_ne hi]
      exact hold
  | edit i screen text =>
    cases h
    by_cases hi : device = i
    · subst hi
      rw [Function.update_self]
      intro e he
      obtain ⟨j, hj⟩ := List.mem_iff_getElem?.mp he
      rw [Device.setText, List.getElem?_modify] at hj
      obtain ⟨e', he', hee⟩ := Option.map_eq_some_iff.mp hj
      have hkey : e.1 = e'.1 := by
        rw [← hee]
        split <;> rfl
      rw [hkey]
      exact hold e' (List.mem_of_getElem? he')
    · rw [Function.update_of_ne hi]
      exact hold

/-- Each step keeps all that, and only what happens besides the handlers changes a device. -/
theorem screensUnheard_step {s t : WatchedScreens} {b : BackendState} {a : ScreensAct}
    (hfit : ScreensFit s.1 a) (hs : ScreensUnheard s b) (h : watched screens s a = some t) :
    (∃ b', ScreensUnheard t b') ∧ (t.1.mem = s.1.mem ∨ ∃ x, a = .poke x) := by
  rcases refined_step screens_wraps hs.refined h with ⟨i, hd, c, b', rfl, hc, hb, hR, hmem⟩ |
      ⟨i, e, hd, m₀, c, p, b', rfl, hc, hb, hcall, hR, hmem⟩ | ⟨_, hR, hmem⟩
  · have hun := unheard_start hs hfit hc hb
    have hsame : t.1.mem = s.1.mem := hmem.trans (mem_kept hc (callRaises_start hs hfit hc) s.1.mem)
    obtain ⟨_, rfl⟩ := step_start hb
    exact ⟨⟨_, hR, hun, fun device => hsame ▸ hs.opened device⟩, Or.inl hsame⟩
  · have hun := unheard_resume hs.backend hb
    have hsame : t.1.mem = s.1.mem := hmem.trans (mem_kept hc (hun.calls i c p hcall) s.1.mem)
    refine ⟨⟨b', hR, hun, fun device e he => ?_⟩, Or.inl hsame⟩
    rw [hsame] at he
    obtain ⟨hk, hthere⟩ := hs.opened device e he
    exact ⟨hk, isSome_backend hb _ hthere⟩
  · rcases hmem with hsame | ⟨x, rfl⟩
    · exact ⟨⟨b, hR, hs.backend, fun device => hsame ▸ hs.opened device⟩, Or.inl hsame⟩
    · obtain ⟨m, w, hw, ht⟩ := step_poke (watch_some h).1
      refine ⟨⟨b, hR, hs.backend, fun device => ?_⟩, Or.inr ⟨x, rfl⟩⟩
      rw [ht]
      exact opened_poke hs hfit hw device

/-! ## The law -/

/-- The handler of a heart, or of the button under comments. -/
def ScreenCall.OnPost (h : ScreenCall) : Prop :=
  (∃ k, h.tap = .heart k) ∨ ∃ screen now, h.tap = .post screen now

/-- A call that such a handler starts is a like or a comment. -/
theorem updates_of_onPost {h : ScreenCall} {m : ℕ → Device} {c : Call} (hh : h.OnPost)
    (hc : h.starts m = .ok (some c)) : ∃ k, c.Updates k := by
  rcases starts_some hc with ⟨v, my, htap, _⟩ | ⟨k, my, _, rfl⟩ |
      ⟨_, _, k, _, d, _, _, rfl⟩ | htap
  · rcases hh with ⟨k, he⟩ | ⟨screen, now, he⟩ <;> cases htap.symm.trans he
  · exact ⟨k, rfl⟩
  · exact ⟨k, rfl⟩
  · rcases hh with ⟨k, he⟩ | ⟨screen, now, he⟩ <;> cases htap.symm.trans he

/-- The handler is of the button under comments, and in this memory the field has no text, or
there is no such screen. -/
def ScreenCall.FindsNoText (h : ScreenCall) (m : ℕ → Device) : Prop :=
  ∃ screen now, h.tap = .post screen now ∧
    ∀ k text, (m h.device).comments[screen]? = some (k, text) → text = ""

/-- Only such a handler starts no call. -/
theorem findsNoText_of_starts {h : ScreenCall} {m : ℕ → Device} (hn : h.starts m = .ok none) :
    h.FindsNoText m := by
  obtain ⟨device, tap⟩ := h
  unfold ScreenCall.starts Tap.starts at hn
  cases tap with
  | row b =>
    simp only at hn
    cases hd : onRowTap (m device).users b with
    | error x => rw [hd] at hn; cases hn
    | ok c => rw [hd] at hn; cases hn
  | heart k =>
    simp only at hn
    split at hn
    · cases hn
    · cases hn
  | post screen now =>
    refine ⟨screen, now, rfl, fun k text hscreen => ?_⟩
    simp only [hscreen] at hn
    split at hn
    · assumption
    · split at hn
      · cases hn
      · cases hn
  | elsewhere c => cases hn

/-- The posts have neither likes nor comments, and each tap on a heart or under the comments
that has ended raised, or it found no text when it started. -/
structure NothingStored (t : WatchedScreens) : Prop where
  posts : ∀ k d, IsDocId k → t.1.world.docs (postRef k) = some d → Misshapen d
  comments : ∀ k id, IsDocId k → t.1.world.docs (commentsOf k ++ [id]) = none
  raised : ∀ i h r, t.1.calls i = some (h, .ended r) → h.OnPost →
    Raised r ∨ ∃ m₀, t.2 i = some m₀ ∧ h.FindsNoText m₀

theorem nothingStored {t : WatchedScreens} {b : BackendState} (hs : ScreensUnheard t b) :
    NothingStored t := by
  refine ⟨fun k d hk hd => ?_, fun k id hk => ?_, fun i h r hi hh => ?_⟩
  · rw [← hs.refined.world] at hd
    exact (hs.backend.posts k hk).world d hd
  · rw [← hs.refined.world]
    exact hs.backend.comments k id hk
  · have hbeside := hs.refined.calls i
    rw [hi] at hbeside
    generalize hy : some (h, Parked.ended r) = y at hbeside
    generalize hx : b.calls i = x at hbeside
    generalize t.2 i = g at hbeside ⊢
    cases hbeside with
    | free => cases hy
    | raised h' m₀ x hx' =>
      cases hy
      exact Or.inl ⟨x, rfl⟩
    | idle h' m₀ hn =>
      cases hy
      exact Or.inr ⟨m₀, rfl, findsNoText_of_starts hn⟩
    | calls h' c m₀ m p hc =>
      cases p with
      | waiting o f => cases hy
      | ended r' =>
        left
        obtain ⟨rfl, hr⟩ := Prod.mk.inj (Option.some.inj hy)
        obtain ⟨k, hu⟩ := updates_of_onPost hh hc
        obtain ⟨x, hx'⟩ : Raised r' := ((hs.backend.calls i c _ hx).raises k hu).2
        subst hx'
        cases hr
        exact ⟨x, rfl⟩

/-- On the screens no like and no comment is ever stored. From a database without posts, in every
run of any devices whose hearts and comments screens are of posts that they have read: every post
has the number 0 for its likes and no counter of comments, no comment is stored under any post,
every tap on a heart or on the button under comments raises, unless it found no text when it
started, and no handler ever changes a device, so no typed text is cleared. -/
theorem no_like_and_no_comment_is_ever_stored (m : ℕ → Device)
    (hm : ∀ device, (m device).comments = []) (docs : Store)
    (hposts : ∀ k, IsDocId k → docs (postRef k) = none)
    (hcomments : ∀ k id, IsDocId k → docs (commentsOf k ++ [id]) = none) (as : List ScreensAct)
    (hfit : AllSteps (step screens) (fun s a _ => ScreensFit s a) (screensInit m docs) as) :
    AllStates (watched screens) NothingStored (watchedInit m docs) as ∧
    AllSteps (step screens) (fun s a t => t.mem = s.mem ∨ ∃ x, a = .poke x)
      (screensInit m docs) as := by
  have hinit : ∃ b, ScreensUnheard (watchedInit m docs) b := by
    refine ⟨backendInit docs, refined_init _ _ m _, ⟨fun k hk => ?_, nofun, hcomments⟩, ?_⟩
    · refine guarded_init () fun d hd => ?_
      have hnone : docs (postRef k) = some d := hd
      rw [hposts k hk] at hnone
      cases hnone
    · intro device e he
      have hnil : (m device).comments = _ := hm device
      rw [show (watchedInit m docs).1.mem = m from rfl, hnil] at he
      cases he
  have hfits : AllSteps (watched screens) (fun s a _ => ScreensFit s.1 a) (watchedInit m docs) as :=
    allSteps_watch.mpr hfit
  have hstep : ∀ s a t, ScreensFit s.1 a → (∃ b, ScreensUnheard s b) →
      watched screens s a = some t → ∃ b, ScreensUnheard t b := by
    rintro s a t ha ⟨b, hs⟩ h
    exact (screensUnheard_step ha hs h).1
  constructor
  · intro pre hpre t ht
    obtain ⟨b, hs⟩ := allStates_of_steps hstep hfits hinit pre hpre t ht
    exact nothingStored hs
  · have hkept : AllSteps (watched screens) (fun s a t => t.1.mem = s.1.mem ∨ ∃ x, a = .poke x)
        (watchedInit m docs) as := by
      refine allSteps_of_steps hstep ?_ hfits hinit
      rintro s a t ha ⟨b, hs⟩ h
      exact (screensUnheard_step ha hs h).2
    exact allSteps_watch.mp hkept

def annsPostCall : Call :=
  .createNewPost "p" (PostModel.getMapForCreatePost "ann" (some "ann") "sunset" 0 0)

/-- Ann shares a post. -/
def annsSunset : List ScreensAct :=
  [.start 0 ⟨0, .elsewhere annsPostCall⟩, .resume 0 online, .resume 0 online]

/-- She types a comment on the screen that she has opened, and taps the button. -/
def annTypes : List ScreensAct :=
  [.poke (.edit 0 0 "nice"), .start 1 ⟨0, .post 0 1⟩, .resume 1 online, .resume 1 ⟨false, "c"⟩]

def annComments : List ScreensAct := annsSunset ++ [.poke (.openComments 0 "p")] ++ annTypes

/-- Actions that fit in every state fit in every run. -/
theorem fits_of_mem {s : ScreensState} {as : List ScreensAct}
    (h : ∀ a ∈ as, ∀ t, ScreensFit t a) :
    AllSteps (step screens) (fun t a _ => ScreensFit t a) s as :=
  fun pre a hpre t _ _ _ => h a (hpre.subset (List.mem_append_right pre List.mem_cons_self)) t

theorem annsPostCall_fits (t : ScreensState) :
    ScreensFit t (.start 0 ⟨0, .elsewhere annsPostCall⟩) := by
  refine ⟨trivial, fun k postData he => ?_, fun k he => ?_⟩
  · cases he
    exact ⟨_, _, _, _, _, rfl⟩
  · cases he
    decide

theorem annComments_fit : AllSteps (step screens) (fun s a _ => ScreensFit s a)
    (screensInit annsDevice (freshUsers ["ann"])) annComments := by
  refine allSteps_append.mpr ⟨allSteps_snoc.mpr ⟨fits_of_mem ?_, fun t u ht _ => ?_⟩,
    fun _ _ => fits_of_mem ?_⟩
  · simp only [annsSunset, List.forall_mem_cons]
    exact ⟨annsPostCall_fits, fun _ => trivial, fun _ => trivial, by simp⟩
  · cases ht
    exact ⟨by decide, rfl⟩
  · simp only [annTypes, List.forall_mem_cons]
    exact ⟨fun _ => trivial, fun _ => trivial, fun _ => trivial, fun _ => trivial, by simp⟩

theorem no_like_and_no_comment_is_ever_stored_at_a_comment :
    (∀ device, (annsDevice device).comments = []) ∧
      AllSteps (step screens) (fun s a _ => ScreensFit s a)
        (screensInit annsDevice (freshUsers ["ann"])) annComments ∧
      AllStates (watched screens) NothingStored (watchedInit annsDevice (freshUsers ["ann"]))
        annComments := by
  refine ⟨fun _ => rfl, annComments_fit, ?_⟩
  refine (no_like_and_no_comment_is_ever_stored annsDevice (fun _ => rfl) (freshUsers ["ann"])
    (fun k _ => ?_) (fun k id _ => ?_) annComments annComments_fit).1
  · exact freshUsers_none fun u hu => userRef_ne_postRef u k hu.symm
  · exact freshUsers_none fun u => comment_ne_userRef k id u

/-- The button found the text, and raised. -/
example : ((run (watched screens) (watchedInit annsDevice (freshUsers ["ann"])) annComments).map
    fun t => ((t.1.calls 1).map fun h => match h.2 with
      | .ended (.error _) => true
      | _ => false,
    (t.2 1).map fun m₀ => (m₀ 0).comments)) = some (some true, some [("p", "nice")]) := by
  decide

end instagram
