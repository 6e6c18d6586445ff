-- What a step of the app does to the user model and to the subscriptions: only the root
-- Consumer and the deliveries touch them.
import Instagram.SignedIn

namespace instagram

open docs firestore async runs

variable {same : User → User → Bool}

/-- The user model and the subscriptions. -/
def AppMem.model (m : AppMem) : UserModelState × List Subscription := (m.users, m.subscriptions)

/-! ## Methods that leave the model alone -/

theorem model_keeps : Keeps (fun _ => True) (fun f => ∀ m : AppMem,
    AppMem.model { m with auth := f m.auth } = m.model) fun _ p => ∀ m, p.Frames AppMem.model m :=
  keeps_frames (fun _ _ => rfl) fun _ _ => rfl

/-- Every method but the builder of the root Consumer leaves the model alone. -/
theorem frames_model {c : AppCall} (hc : c ≠ .rootConsumer) (m : AppMem) :
    c.prog.Frames AppMem.model m := by
  have hsignsIn : c.SignsIn → c.prog.Frames AppMem.model m :=
    fun h => model_keeps.signsIn (fun _ _ => rfl) (fun _ _ => trivial) h m
  cases c with
  | registerUser email password => exact hsignsIn trivial
  | logIn email password => exact hsignsIn trivial
  | loginWithFacebook => exact hsignsIn trivial
  | signOut => exact model_keeps.signOut (fun _ _ _ => rfl) (fun _ => trivial) m
  | rootConsumer => exact absurd rfl hc

/-! ## The root Consumer -/

/-- The model after the first turn of a build. -/
def built (m : AppMem) : UserModelState × List Subscription :=
  match m.auth.firebaseAuthStatus with
  | .signout =>
    match m.users.currentStreamSub with
    | some sub => (m.cancel sub).model
    | none => (⟨none, none⟩, m.subscriptions)
  | .signin =>
    match m.auth.user with
    | some user => (m.listen user.uid).model
    | none => m.model
  | .progress => m.model

theorem rootConsumer_model (m : AppMem) : (rootConsumer.settle m).1.model = built m := by
  unfold built
  rw [rootConsumer_eq]
  dsimp only [settle_read]
  cases m.auth.firebaseAuthStatus with
  | signout =>
    rw [clear_eq]
    dsimp only [settle_read]
    cases m.users.currentStreamSub <;> rfl
  | signin =>
    rw [initUserModel_eq]
    dsimp only [settle_read]
    cases m.auth.user <;> rfl
  | progress => rfl

/-! ## One step -/

/-- The turn that an answer starts leaves the model alone, or it is the end of `clear`. -/
def ModelAwait (o : AppOp) (k : AppAns o → AppProg Unit) : Prop :=
  ∀ a m, ((k a).settle m).1.model = m.model ∨
    ((k a).settle m).1.model = (⟨none, none⟩, m.subscriptions)

theorem rootConsumer_modelAwaits (A : (o : AppOp) → AppAns o → Prop) :
    rootConsumer.Awaits A ModelAwait := by
  rw [rootConsumer_eq]
  intro m
  beta_reduce
  cases m.auth.firebaseAuthStatus with
  | signout =>
    rw [clear_eq]
    intro m
    beta_reduce
    cases m.users.currentStreamSub with
    | none => exact fun _ => trivial
    | some sub => exact ⟨fun _ _ => Or.inr rfl, fun _ _ _ => trivial⟩
  | signin =>
    rw [initUserModel_eq]
    intro m
    beta_reduce
    cases m.auth.user <;> trivial
  | progress => trivial

/-- What the calls of every run keep. -/
abbrev ModelGuarded : AppState → Prop :=
  Guarded (fun _ : AppWorld => True) (fun _ _ => True) (fun _ => True) fun _ => ModelAwait

theorem modelGuarded_step (s : AppState) (a : AppAct) (t : AppState) (hs : ModelGuarded s)
    (h : step (app same) s a = some t) : ModelGuarded t := by
  refine guarded_step (fun c _ => ?_) (fun _ _ _ _ _ _ _ => trivial)
    (fun _ _ _ _ _ _ _ _ _ _ _ => trivial) (fun _ _ _ _ _ _ _ => trivial) s a t (starts_any a) hs h
  by_cases hc : c = .rootConsumer
  · subst hc
    exact rootConsumer_modelAwaits _
  · exact (awaits_of_frames (frames_model hc .initial)).mono fun o k hk a m => Or.inl (hk a m)

theorem model_build {s t : AppState} {i : ℕ}
    (h : step (app same) s (.start i .rootConsumer) = some t) : t.mem.model = built s.mem := by
  obtain ⟨_, rfl⟩ := step_start h
  exact rootConsumer_model s.mem

theorem model_start {s t : AppState} {i : ℕ} {c : AppCall} (hc : c ≠ .rootConsumer)
    (h : step (app same) s (.start i c) = some t) : t.mem.model = s.mem.model := by
  obtain ⟨_, rfl⟩ := step_start h
  exact (frames_model hc s.mem).settle

theorem model_resume {s t : AppState} {i : ℕ} {e : AppEnv} (hs : ModelGuarded s)
    (h : step (app same) s (.resume i e) = some t) :
    t.mem.model = s.mem.model ∨ t.mem.model = (⟨none, none⟩, s.mem.subscriptions) := by
  obtain ⟨c, o, k, w, a, hi, _, rfl⟩ := step_resume h
  obtain ⟨_, hk, _⟩ := hs.calls i c _ hi
  exact hk a s.mem

/-! ## One subscription at a time -/

/-- The memory `m'` differs from `m` at the subscription `i`: a snapshot was sent to it, or
it decoded one. -/
structure Touched (w : AppWorld) (m m' : AppMem) (i : ℕ) (old new : Subscription) : Prop where
  here : m.subscriptions[i]? = some old
  subscriptions : m'.subscriptions = m.subscriptions.set i new
  uid : new.uid = old.uid
  cancelled : new.cancelled = old.cancelled
  pending : ∀ snapshot ∈ new.pending,
    snapshot ∈ old.pending ∨ snapshot = w.db.docs (userRef old.uid)
  delivered : old.delivered ⊆ new.delivered
  handle : m'.users.currentStreamSub = m.users.currentStreamSub
  model : m'.users.userModel = m.users.userModel ∨
    old.cancelled = false ∧ ∃ x ∈ new.delivered, m'.users.userModel = some x

theorem touched_deliver {w : AppWorld} {m : AppMem} {i : ℕ} {sub : Subscription}
    {snapshot : Snapshot} {rest : List Snapshot} (hi : m.subscriptions[i]? = some sub)
    (hlive : sub.cancelled = false) (hp : sub.pending = snapshot :: rest) :
    ∃ new, Touched w m (m.deliver i sub snapshot rest) i sub new := by
  have hrest : ∀ x ∈ rest, x ∈ sub.pending ∨ x = w.db.docs (userRef sub.uid) :=
    fun x hx => Or.inl (hp ▸ List.mem_cons_of_mem _ hx)
  unfold AppMem.deliver
  split
  · exact ⟨_, hi, rfl, rfl, rfl, hrest, fun _ hx => hx, rfl, Or.inl rfl⟩
  · exact ⟨_, hi, rfl, rfl, rfl, hrest, fun _ hx => List.mem_append_left _ hx, rfl,
      Or.inr ⟨hlive, _, by simp, rfl⟩⟩

/-- What happens besides the calls touches at most one subscription. -/
theorem poke_model {x : AppPoke} {m m' : AppMem} {w w' : AppWorld}
    (h : appPoke same x m w = some (m', w')) :
    m'.model = m.model ∨
      (∀ l obj, x ≠ .authEvent l obj) ∧ ∃ i old new, Touched w m m' i old new := by
  cases x with
  | authEvent l obj =>
    obtain ⟨event, rest, _, rfl, rfl⟩ := poke_authEvent h
    exact Or.inl rfl
  | snapshot i =>
    obtain ⟨sub, hi, rfl, rfl⟩ := poke_snapshot h
    refine Or.inr ⟨fun l obj hx => (by cases hx), i, sub, _, hi, rfl, rfl, rfl, fun x hx => ?_,
      fun _ hx => hx, rfl, Or.inl rfl⟩
    rcases List.mem_append.mp hx with hold | hnew
    · exact Or.inl hold
    · exact Or.inr (List.mem_singleton.mp hnew)
  | deliver i =>
    obtain ⟨sub, snapshot, rest, hi, hlive, hp, rfl, rfl⟩ := poke_deliver h
    obtain ⟨new, hnew⟩ := touched_deliver hi hlive hp
    exact Or.inr ⟨fun l obj hx => (by cases hx), i, sub, new, hnew⟩
  | write ws =>
    obtain ⟨docs, _, rfl, rfl⟩ := poke_write h
    exact Or.inl rfl
  | watchAuthChange =>
    cases h
    exact Or.inl rfl
  | setUser account =>
    cases h
    exact Or.inl rfl
  | mount mounted =>
    cases h
    exact Or.inl rfl

/-! ## The forgotten handle -/

/-- A build with no handle opens one more subscription when somebody is signed in. Otherwise
it clears the user model, if anything, and cancels nothing. -/
theorem built_forgotten {m : AppMem} (h : m.users.currentStreamSub = none) :
    (∃ u, m.session = (.signin, some u) ∧
        built m = (m.users, m.subscriptions ++ [⟨u.uid, false, [], []⟩])) ∨
      (∀ u, m.session ≠ (.signin, some u)) ∧
        (built m = m.model ∨ built m = (⟨none, none⟩, m.subscriptions)) := by
  unfold built AppMem.session
  cases m.auth.firebaseAuthStatus with
  | signout =>
    right
    rw [h]
    exact ⟨fun u hu => (by cases hu), Or.inr rfl⟩
  | signin =>
    cases m.auth.user with
    | none => exact Or.inr ⟨fun u hu => (by cases hu), Or.inl rfl⟩
    | some u => exact Or.inl ⟨u, rfl, rfl⟩
  | progress => exact Or.inr ⟨fun u hu => (by cases hu), Or.inl rfl⟩

/-- Everything that a step does to the user model and the subscriptions: it leaves them
alone or clears the user model, a build opens a subscription, or a poke touches one. -/
theorem model_step {s t : AppState} {a : AppAct} (hg : ModelGuarded s)
    (hs : s.mem.users.currentStreamSub = none) (h : step (app same) s a = some t) :
    ((∀ i u, a = .start i .rootConsumer → s.mem.session ≠ (.signin, some u)) ∧
        (t.mem.model = s.mem.model ∨ t.mem.model = (⟨none, none⟩, s.mem.subscriptions))) ∨
      (∃ i u, a = .start i .rootConsumer ∧ s.mem.session = (.signin, some u) ∧
        t.mem.model = (s.mem.users, s.mem.subscriptions ++ [⟨u.uid, false, [], []⟩])) ∨
      ∃ x i old new, a = .poke x ∧ (∀ l obj, x ≠ .authEvent l obj) ∧
        Touched s.world s.mem t.mem i old new := by
  cases a with
  | start i c =>
    by_cases hc : c = .rootConsumer
    · subst hc
      rcases built_forgotten hs with ⟨u, hu, hbuilt⟩ | ⟨hno, hbuilt⟩
      · exact Or.inr (Or.inl ⟨i, u, rfl, hu, (model_build h).trans hbuilt⟩)
      · rw [← model_build h] at hbuilt
        exact Or.inl ⟨fun _ u _ => hno u, hbuilt⟩
    · refine Or.inl ⟨fun j u he => ?_, Or.inl (model_start hc h)⟩
      cases he
      exact absurd rfl hc
  | resume i e => exact Or.inl ⟨fun j u he => (by cases he), model_resume hg h⟩
  | poke x =>
    obtain ⟨m, w, hw, rfl⟩ := step_poke h
    rcases poke_model hw with hm | ⟨hx, i, old, new, hm⟩
    · exact Or.inl ⟨fun j u he => (by cases he), Or.inl hm⟩
    · exact Or.inr (Or.inr ⟨x, i, old, new, rfl, hx, hm⟩)

/-- No subscription is ever stored in `currentStreamSub`. -/
theorem currentStreamSub_step {s t : AppState} {a : AppAct} (hg : ModelGuarded s)
    (hs : s.mem.users.currentStreamSub = none) (h : step (app same) s a = some t) :
    t.mem.users.currentStreamSub = none := by
  rcases model_step hg hs h with ⟨_, hm | hm⟩ | ⟨_, _, _, _, hm⟩ | ⟨_, _, _, _, _, _, htouched⟩
  · rw [show t.mem.users = s.mem.users from congrArg Prod.fst hm, hs]
  · rw [show t.mem.users = _ from congrArg Prod.fst hm]
  · rw [show t.mem.users = s.mem.users from congrArg Prod.fst hm, hs]
  · exact htouched.handle.trans hs

/-- What every run keeps: the calls' promises, and the forgotten handle. -/
structure Forgets (s : AppState) : Prop where
  session : AppGuarded s
  model : ModelGuarded s
  handle : s.mem.users.currentStreamSub = none

theorem forgets_init (w : AppWorld) : Forgets (appInit w) :=
  ⟨appGuarded_init w, guarded_init _ trivial, rfl⟩

theorem forgets_step (s : AppState) (a : AppAct) (t : AppState) (hs : Forgets s)
    (h : step (app same) s a = some t) : Forgets t :=
  ⟨appGuarded_step s a t hs.session h, modelGuarded_step s a t hs.model h,
    currentStreamSub_step hs.model hs.handle h⟩

end instagram
