-- The steps of the backend. A step commits one batch of one call, or it leaves the
-- documents as they are.
import Instagram.Repositories

namespace instagram

open docs firestore async runs

/-! ## The history of commits -/

/-- The batch that an event committed, with its call. -/
def committed : Event Op Ans Call → Option (Call × List Write)
  | ⟨_, c, .commit ws, .ok _⟩ => some (c, ws)
  | _ => none

/-- The batches that were committed so far, oldest first. -/
def history (s : BackendState) : List (Call × List Write) := s.trace.filterMap committed

theorem history_commit (s : BackendState) (m : Unit) (w : Db)
    (calls : ℕ → Option (Call × Parked Unit Op Ans DartError Unit)) (i : ℕ) (c : Call)
    (ws : List Write) :
    history ⟨m, w, calls, s.trace ++ [⟨i, c, .commit ws, .ok ()⟩]⟩ = history s ++ [(c, ws)] := by
  simp [history, committed]

/-- In state `s`, the step commits the batch `ws` of a call `c`. -/
def Commits (s : BackendState) (a : BackendAct) (c : Call) (ws : List Write) : Prop :=
  ∃ i e k, a = .resume i e ∧ s.calls i = some (c, .waiting (.commit ws) k) ∧
    e.fails = false ∧ (commit s.world.docs ws).isSome

theorem commits_unique {s : BackendState} {a : BackendAct} {c d : Call} {ws vs : List Write}
    (h : Commits s a c ws) (h' : Commits s a d vs) : d = c ∧ vs = ws := by
  obtain ⟨i, e, k, rfl, hi, _⟩ := h
  obtain ⟨j, f, l, he, hj, _⟩ := h'
  cases he
  rw [hi] at hj
  cases hj
  exact ⟨rfl, rfl⟩

theorem not_commits_start {s : BackendState} {i : ℕ} {d c : Call} {ws : List Write} :
    ¬ Commits s (.start i d) c ws := by
  rintro ⟨_, _, _, he, _⟩
  cases he

theorem commits_op {s : BackendState} {i : ℕ} {e : Env} {c d : Call} {ws : List Write} {o : Op}
    {k : Ans o → Fire Unit} (hi : s.calls i = some (d, .waiting o k))
    (h : Commits s (.resume i e) c ws) :
    o = .commit ws ∧ d = c ∧ e.fails = false ∧ (commit s.world.docs ws).isSome := by
  obtain ⟨j, f, l, he, hj, hf, hc⟩ := h
  cases he
  rw [hi] at hj
  cases hj
  exact ⟨rfl, rfl, hf, hc⟩

/-- A step commits one batch, or changes neither the documents nor the history. -/
theorem backend_step {s t : BackendState} {a : BackendAct} (h : step backend s a = some t) :
    (∃ c ws, Commits s a c ws ∧ commit s.world.docs ws = some t.world.docs ∧
        history t = history s ++ [(c, ws)]) ∨
      ((∀ c ws, ¬ Commits s a c ws) ∧ t.world.docs = s.world.docs ∧ history t = history s) := by
  cases a with
  | start i c =>
    obtain ⟨_, rfl⟩ := step_start h
    exact Or.inr ⟨fun _ _ => not_commits_start, rfl, rfl⟩
  | resume i e =>
    obtain ⟨c, o, k, w, a, hi, hw, rfl⟩ := step_resume h
    cases o with
    | get ref =>
      obtain ⟨rfl, _⟩ := handle_get hw
      refine Or.inr ⟨fun d ws hc => ?_, rfl, by simp [history, committed]⟩
      cases (commits_op hi hc).1
    | newId p =>
      obtain ⟨hdocs, _⟩ := handle_newId hw
      refine Or.inr ⟨fun d ws hc => ?_, hdocs, by simp [history, committed]⟩
      cases (commits_op hi hc).1
    | commit ws =>
      rcases handle_commit hw with ⟨rfl, _, hf, hc⟩ | ⟨⟨x, rfl⟩, rfl, hf⟩
      · left
        exact ⟨c, ws, ⟨i, e, k, rfl, hi, hf, by simp [hc]⟩, hc, by simp [history, committed]⟩
      · right
        refine ⟨fun d vs hc => ?_, rfl, by simp [history, committed]⟩
        obtain ⟨he, _, hfails, hsome⟩ := commits_op hi hc
        cases he
        rcases hf with hf | hf
        · simp [hf] at hfails
        · simp [hf] at hsome
  | poke x => exact x.elim

/-- What one event tells of the documents before and after its step. -/
structure Tells (ev : Event Op Ans Call) (docs docs' : Store) : Prop where
  lands : ∀ c ws, committed ev = some (c, ws) → commit docs ws = some docs'
  stays : committed ev = none → docs' = docs
  reads : ∀ i c ref snapshot, ev = ⟨i, c, .get ref, .ok snapshot⟩ → snapshot = docs ref

/-- A step adds one event, or changes neither the documents nor the trace. -/
theorem backend_event {s t : BackendState} {a : BackendAct} (h : step backend s a = some t) :
    (t.trace = s.trace ∧ t.world.docs = s.world.docs) ∨
      ∃ ev, t.trace = s.trace ++ [ev] ∧ Tells ev s.world.docs t.world.docs := by
  cases a with
  | start i c =>
    obtain ⟨_, rfl⟩ := step_start h
    exact Or.inl ⟨rfl, rfl⟩
  | resume i e =>
    obtain ⟨c, o, k, w, a, hi, hw, rfl⟩ := step_resume h
    refine Or.inr ⟨_, rfl, ?_⟩
    cases o with
    | get ref =>
      obtain ⟨rfl, hread⟩ := handle_get hw
      refine ⟨nofun, fun _ => rfl, ?_⟩
      rintro _ _ _ _ he
      cases he
      exact hread _ rfl
    | newId p =>
      obtain ⟨hdocs, _⟩ := handle_newId hw
      exact ⟨nofun, fun _ => hdocs, nofun⟩
    | commit ws =>
      rcases handle_commit hw with ⟨rfl, _, _, hc⟩ | ⟨⟨x, rfl⟩, rfl, _⟩
      · refine ⟨?_, nofun, nofun⟩
        rintro _ _ he
        cases he
        exact hc
      · exact ⟨nofun, fun _ => rfl, nofun⟩
  | poke x => exact x.elim

/-- No step makes a document disappear. -/
theorem isSome_backend {s t : BackendState} {a : BackendAct} (h : step backend s a = some t)
    (p : Path) (hp : (s.world.docs p).isSome) : (t.world.docs p).isSome := by
  rcases backend_step h with ⟨_, _, _, hcommit, _⟩ | ⟨_, hsame, _⟩
  · exact commit_isSome hcommit hp
  · rw [hsame]
    exact hp

/-! ## The invariant of the calls -/

/-- Every call in flight is one of `C`, and will commit only what it may. -/
abbrev CallsGuarded (C : Call → Prop) : BackendState → Prop :=
  Guarded (fun _ : Db => True) (fun _ _ => True) C fun c o _ => c.Guarantee o

theorem callsGuarded_init (C : Call → Prop) (docs : Store) : CallsGuarded C (backendInit docs) :=
  guarded_init () trivial

theorem callsGuarded_step (C : Call → Prop) (s : BackendState) (a : BackendAct) (t : BackendState)
    (ha : a.Starts C) (hs : CallsGuarded C s) (h : step backend s a = some t) :
    CallsGuarded C t :=
  guarded_step (fun c _ => prog_awaits c) (fun _ _ _ _ _ _ _ => trivial)
    (fun _ _ _ _ _ _ _ _ _ _ _ => trivial) (fun x => x.elim) s a t ha hs h

theorem mayCommit_of_commits {C : Call → Prop} {s : BackendState} {a : BackendAct} {c : Call}
    {ws : List Write} (hs : CallsGuarded C s) (h : Commits s a c ws) : C c ∧ c.MayCommit ws := by
  obtain ⟨i, e, k, _, hi, _⟩ := h
  obtain ⟨hc, hg, _⟩ := hs.calls i c _ hi
  exact ⟨hc, hg ws rfl⟩

/-- Every batch in the history is one that its call may commit. -/
theorem history_mayCommit {C : Call → Prop} {s t : BackendState} {a : BackendAct}
    (hs : CallsGuarded C s) (hh : ∀ e ∈ history s, C e.1 ∧ e.1.MayCommit e.2)
    (h : step backend s a = some t) : ∀ e ∈ history t, C e.1 ∧ e.1.MayCommit e.2 := by
  rcases backend_step h with ⟨c, ws, hc, _, hhist⟩ | ⟨_, _, hhist⟩
  · intro e he
    rw [hhist, List.mem_append, List.mem_singleton] at he
    rcases he with hold | rfl
    · exact hh e hold
    · exact mayCommit_of_commits hs hc
  · rw [hhist]
    exact hh

theorem history_run (C : Call → Prop) (docs : Store) {as : List BackendAct}
    (has : ∀ a ∈ as, a.Starts C) :
    AllStates (step backend) (fun t => ∀ e ∈ history t, C e.1 ∧ e.1.MayCommit e.2)
      (backendInit docs) as := by
  have hrun : AllStates (step backend) (fun t => CallsGuarded C t ∧
      ∀ e ∈ history t, C e.1 ∧ e.1.MayCommit e.2) (backendInit docs) as :=
    allStates_of_keeps (A := Act.Starts C)
      (fun s a t ha hs h => ⟨callsGuarded_step C s a t ha hs.1 h, history_mayCommit hs.1 hs.2 h⟩)
      has ⟨callsGuarded_init C docs, fun e he => by simp [history, backendInit, init] at he⟩
  exact fun pre hpre t ht => (hrun pre hpre t ht).2

/-! ## Invariants of the documents -/

/-- Every snapshot that is read satisfies `R`, and a request fails only as requests do. -/
def Answers (R : Path → Snapshot → Prop) : (o : Op) → Ans o → Prop
  | .get ref, a => (∀ s, a = .ok s → R ref s) ∧ ∀ x, a = .error x → x.OfRequest
  | .commit _, a => ∀ x, a = .error x → x.OfRequest
  | .newId _, _ => True

theorem answers_of_handle {R : Path → Snapshot → Prop} {o : Op} {e : Env} {w w' : Db} {a : Ans o}
    (hread : ∀ ref, R ref (w.docs ref)) (h : handle o e w = some (w', a)) : Answers R o a := by
  cases o with
  | get ref =>
    refine ⟨?_, handle_get_error h⟩
    rintro snapshot rfl
    rw [(handle_get h).2 _ rfl]
    exact hread ref
  | commit ws => exact handle_commit_error h
  | newId p => trivial

/-- The documents keep `I`, and each call of `C` keeps the guarantee `G`, while it reads only
what `R` says. -/
abbrev DocsGuarded (I : Store → Prop) (R : Path → Snapshot → Prop) (C : Call → Prop)
    (G : Call → (o : Op) → (Ans o → Fire Unit) → Prop) : BackendState → Prop :=
  Guarded (fun w : Db => I w.docs) (Answers R) C G

variable {I : Store → Prop} {R : Path → Snapshot → Prop} {C : Call → Prop}
  {G : Call → (o : Op) → (Ans o → Fire Unit) → Prop}

/-- Only commits change documents, so an invariant that the commits keep is kept. -/
theorem docsGuarded_step (hprog : ∀ c, C c → c.prog.Awaits (Answers R) (G c))
    (hread : ∀ docs ref, I docs → R ref (docs ref))
    (hcommit : ∀ c ws k docs docs', C c → G c (.commit ws) k → I docs →
      commit docs ws = some docs' → I docs')
    (s : BackendState) (a : BackendAct) (t : BackendState) (ha : a.Starts C)
    (hs : DocsGuarded I R C G s) (h : step backend s a = some t) : DocsGuarded I R C G t := by
  refine guarded_step hprog ?_ ?_ (fun x => x.elim) s a t ha hs h
  · exact fun o e w w' a hw hhandle => answers_of_handle (fun ref => hread _ ref hw) hhandle
  · intro c o k e w w' a hc hG hw hhandle
    refine handle_keeps (fun ws docs' ho hc' => ?_) hw hhandle
    subst ho
    exact hcommit c ws k _ _ hc hG hw hc'

/-- The same for every state of a run. -/
theorem docsGuarded_run (hprog : ∀ c, C c → c.prog.Awaits (Answers R) (G c))
    (hread : ∀ docs ref, I docs → R ref (docs ref))
    (hcommit : ∀ c ws k docs docs', C c → G c (.commit ws) k → I docs →
      commit docs ws = some docs' → I docs')
    {docs : Store} {as : List BackendAct} (has : ∀ a ∈ as, a.Starts C) (h0 : I docs) :
    AllStates (step backend) (DocsGuarded I R C G) (backendInit docs) as :=
  allStates_of_keeps (docsGuarded_step hprog hread hcommit) has (guarded_init () h0)

/-- Every call of a run ends only as its program can, on what the documents give it. -/
theorem docsGuarded_ends {Q : Call → Except DartError Unit → Prop}
    (hprog : ∀ c, C c → c.prog.Awaits (Answers R) (G c))
    (hends : ∀ c, C c → c.prog.Ends (Answers R) (Q c))
    (hread : ∀ docs ref, I docs → R ref (docs ref))
    (hcommit : ∀ c ws k docs docs', C c → G c (.commit ws) k → I docs →
      commit docs ws = some docs' → I docs')
    {docs : Store} {as : List BackendAct} (has : ∀ a ∈ as, a.Starts C) (h0 : I docs) :
    AllStates (step backend) (fun t => ∀ i c r, t.calls i = some (c, .ended r) → Q c r)
      (backendInit docs) as := by
  have hinit : DocsGuarded I R C G (backendInit docs) := guarded_init () h0
  have hrun : AllStates (step backend) (fun t => DocsGuarded I R C G t ∧
      ∀ i c p, t.calls i = some (c, p) → p.Ends (Answers R) (Q c)) (backendInit docs) as := by
    refine allStates_of_keeps (A := Act.Starts C) (fun s a t ha hs h => ?_) has
      ⟨hinit, fun _ _ _ hi => by cases hi⟩
    refine ⟨docsGuarded_step hprog hread hcommit s a t ha hs.1 h, ?_⟩
    exact ends_step (I := fun w : Db => I w.docs) hends
      (fun o e w w' a hw hhandle => answers_of_handle (fun ref => hread _ ref hw) hhandle)
      ha hs.1.world hs.2 h
  exact fun pre hpre t ht i c r hi => (hrun pre hpre t ht).2 i c _ hi

/-! ## Calls one after another -/

/-- The database after a call that runs alone, from its start to its end. -/
def callAlone (w : Db) (c : Call) : Option Db :=
  (c.prog.alone handle (fun _ => online) () w).map (·.2.1)

/-- Calls one after another are a run of the backend. -/
theorem calls_alone_are_a_run {w w' : Db} {cs : List Call} (h : run callAlone w cs = some w') :
    ∃ as t, run (step backend) (init Op Ans DartError Call () w) as = some t ∧ t.world = w' ∧
      ∀ i, cs.length ≤ i → t.calls i = none := by
  induction cs using List.reverseRecOn generalizing w' with
  | nil =>
    cases h
    exact ⟨[], _, rfl, rfl, fun _ _ => rfl⟩
  | append_singleton cs c ih =>
    obtain ⟨u, hu, hc⟩ := run_snoc_some h
    obtain ⟨as, t, ht, hworld, hfree⟩ := ih hu
    obtain ⟨⟨m, v, r⟩, halone, rfl⟩ := Option.map_eq_some_iff.mp hc
    rw [← hworld] at halone
    obtain ⟨n, t', ht', _, hw', hcalls⟩ :=
      run_of_alone backend t cs.length c (fun _ => online) (hfree _ le_rfl) halone
    refine ⟨as ++ (.start cs.length c :: (List.range n).map fun _ => .resume cs.length online), t',
      ?_, hw', ?_⟩
    · rw [run_append, ht]
      exact ht'
    · intro i hi
      rw [List.length_append, List.length_singleton] at hi
      rw [hcalls, Function.update_of_ne (by omega)]
      exact hfree i (by omega)

end instagram
