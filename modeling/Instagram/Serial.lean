-- Calls that share nothing. When each call looks at and changes only locations of its
-- own, any run of them is as if they had run one after another, in any order.
import Instagram.Async
import Instagram.Simulation

namespace async

open runs

variable {W Op κ β : Type} {Ans : Op → Type} {E χ ε : Type}

/-! ## Local operations -/

/-- The operation changes only locations of `D`, and its answer and its changes depend on those
alone. `look` says what stands at a location of the world. -/
structure Local (handle : (o : Op) → ε → W → Option (W × Ans o)) (look : W → κ → β)
    (D : κ → Prop) (o : Op) : Prop where
  frame : ∀ e w w' a, handle o e w = some (w', a) → ∀ x, ¬ D x → look w' x = look w x
  alike : ∀ e w w' a u, handle o e w = some (w', a) → (∀ x, D x → look u x = look w x) →
    ∃ u', handle o e u = some (u', a) ∧ ∀ x, D x → look u' x = look w' x

variable {handle : (o : Op) → ε → W → Option (W × Ans o)} {look : W → κ → β}

/-- Operations on separate locations can be swapped. -/
theorem local_swap {D D' : κ → Prop} {o o' : Op} {e e' : ε} {w w₁ w₂ : W} {a : Ans o} {a' : Ans o'}
    (ho : Local handle look D o) (ho' : Local handle look D' o') (hsep : ∀ x, D x → ¬ D' x)
    (h : handle o e w = some (w₁, a)) (h' : handle o' e' w₁ = some (w₂, a')) :
    ∃ u₁ u₂, handle o' e' w = some (u₁, a') ∧ handle o e u₁ = some (u₂, a) ∧
      look u₂ = look w₂ := by
  have hsep' : ∀ x, D' x → ¬ D x := fun x hx hD => hsep x hD hx
  obtain ⟨u₁, hu₁, hsame₁⟩ :=
    ho'.alike e' w₁ w₂ a' w h' fun x hx => (ho.frame e w w₁ a h x (hsep' x hx)).symm
  obtain ⟨u₂, hu₂, hsame₂⟩ :=
    ho.alike e w w₁ a u₁ h fun x hx => ho'.frame e' w u₁ a' hu₁ x (hsep x hx)
  refine ⟨u₁, u₂, hu₁, hu₂, funext fun x => ?_⟩
  by_cases hx : D x
  · rw [hsame₂ x hx]
    exact (ho'.frame e' w₁ w₂ a' h' x (hsep x hx)).symm
  · rw [ho.frame e u₁ u₂ a hu₂ x hx]
    by_cases hx' : D' x
    · exact hsame₁ x hx'
    · calc look u₁ x = look w x := ho'.frame e' w u₁ a' hu₁ x hx'
        _ = look w₁ x := (ho.frame e w w₁ a h x hx).symm
        _ = look w₂ x := (ho'.frame e' w₁ w₂ a' h' x hx').symm

/-! ## Steps of different calls -/

/-- The call that a step belongs to. -/
def Act.caller : Act χ ε Empty → ℕ
  | .start i _ => i
  | .resume i _ => i
  | .poke x => x.elim

/-- The step starts no call but the one that `calls` has for its id. -/
def Act.StartsOf (calls : ℕ → χ) : Act χ ε Empty → Prop
  | .start i c => c = calls i
  | .resume _ _ => True
  | .poke _ => True

/-- A step of the run: of one of the calls of `order`. -/
def Act.Among (calls : ℕ → χ) (order : List ℕ) (a : Act χ ε Empty) : Prop :=
  a.caller ∈ order ∧ a.StartsOf calls

/-- Every call is the one that `calls` has for its id, and asks only for what is local to it. -/
def CallsLocal (handle : (o : Op) → ε → W → Option (W × Ans o)) (look : W → κ → β)
    (D : χ → κ → Prop) (calls : ℕ → χ) (s : State Unit W Op Ans E χ) : Prop :=
  ∀ i c p, s.calls i = some (c, p) →
    c = calls i ∧ p.Awaits (fun _ _ => True) fun o _ => Local handle look (D (calls i)) o

/-- The calls stand alike, and the worlds look alike. -/
structure SameLook (look : W → κ → β) (s s' : State Unit W Op Ans E χ) : Prop where
  world : look s.world = look s'.world
  calls : s.calls = s'.calls

variable {S : System Unit W Op Ans E χ ε Empty} {D : χ → κ → Prop} {calls : ℕ → χ}
  {s s' t u : State Unit W Op Ans E χ}

theorem sameLook_step (hlook : ∀ o, Local S.handle look (fun _ => True) o) {a : Act χ ε Empty}
    (hs : SameLook look s s') (h : step S s a = some t) :
    ∃ t', step S s' a = some t' ∧ SameLook look t t' := by
  cases a with
  | start i c =>
    obtain ⟨hi, rfl⟩ := step_start h
    have hi' : s'.calls i = none := by rw [← hs.calls]; exact hi
    refine ⟨_, start_of_free c hi', hs.world, ?_⟩
    simp only [hs.calls]
  | resume i e =>
    obtain ⟨c, o, k, w, a, hi, hw, rfl⟩ := step_resume h
    have hi' : s'.calls i = some (c, .waiting o k) := by rw [← hs.calls]; exact hi
    obtain ⟨w', hw', hsame⟩ := (hlook o).alike e s.world w a s'.world hw fun x _ => by rw [hs.world]
    refine ⟨_, resume_of_answer hi' hw', ?_, ?_⟩
    · exact funext fun x => (hsame x trivial).symm
    · simp only [hs.calls]
  | poke x => exact x.elim

theorem callsLocal_step (hprog : ∀ c, (S.prog c).Awaits (fun _ _ => True)
      fun o _ => Local S.handle look (D c) o)
    {a : Act χ ε Empty} (ha : a.StartsOf calls) (hs : CallsLocal S.handle look D calls s)
    (h : step S s a = some t) : CallsLocal S.handle look D calls t := by
  cases a with
  | start i c =>
    obtain ⟨_, rfl⟩ := step_start h
    intro j d p hj
    rcases update_eq_some hj with ⟨rfl, he⟩ | ⟨_, hold⟩
    · cases he
      obtain rfl : c = calls j := ha
      exact ⟨rfl, (hprog _).settle _⟩
    · exact hs j d p hold
  | resume i e =>
    obtain ⟨c, o, k, w, a, hi, _, rfl⟩ := step_resume h
    obtain ⟨rfl, _, hk⟩ := hs i c _ hi
    intro j d p hj
    rcases update_eq_some hj with ⟨rfl, he⟩ | ⟨_, hold⟩
    · cases he
      exact ⟨rfl, (hk a trivial).settle _⟩
    · exact hs j d p hold
  | poke x => exact x.elim

/-- A start can be swapped with any step of another call. -/
theorem swap_start {i : ℕ} {c : χ} {b : Act χ ε Empty} (hne : i ≠ b.caller)
    (h : step S s (.start i c) = some t) (h' : step S t b = some u) :
    ∃ t' u', step S s b = some t' ∧ step S t' (.start i c) = some u' ∧ SameLook look u u' := by
  obtain ⟨hi, rfl⟩ := step_start h
  cases b with
  | start j d =>
    change i ≠ j at hne
    obtain ⟨hj, rfl⟩ := step_start h'
    have hj' : s.calls j = none := by rw [← calls_start_other h hne.symm]; exact hj
    have hi' := calls_start_other (start_of_free (S := S) d hj') hne
    exact ⟨_, _, start_of_free d hj', start_of_free c (hi'.trans hi),
      rfl, Function.update_comm hne _ _ _⟩
  | resume j e =>
    change i ≠ j at hne
    obtain ⟨d, o, k, w, a, hj, hw, rfl⟩ := step_resume h'
    have hj' : s.calls j = some (d, .waiting o k) := by
      rw [← calls_start_other h hne.symm]
      exact hj
    have hi' := calls_resume_other (resume_of_answer hj' hw) hne
    exact ⟨_, _, resume_of_answer hj' hw, start_of_free c (hi'.trans hi),
      rfl, Function.update_comm hne _ _ _⟩
  | poke x => exact x.elim

/-- So can an answer, when the two calls have no location in common. -/
theorem swap_resume {i : ℕ} {e : ε} {b : Act χ ε Empty}
    (hsep : ∀ x, D (calls i) x → ¬ D (calls b.caller) x)
    (hs : CallsLocal S.handle look D calls s) (hne : i ≠ b.caller)
    (h : step S s (.resume i e) = some t) (h' : step S t b = some u) :
    ∃ t' u', step S s b = some t' ∧ step S t' (.resume i e) = some u' ∧ SameLook look u u' := by
  obtain ⟨c, o, k, w, a, hi, hw, rfl⟩ := step_resume h
  cases b with
  | start j d =>
    change i ≠ j at hne
    obtain ⟨hj, rfl⟩ := step_start h'
    have hj' : s.calls j = none := by rw [← calls_resume_other h hne.symm]; exact hj
    have hi' := calls_start_other (start_of_free (S := S) d hj') hne
    exact ⟨_, _, start_of_free d hj', resume_of_answer (hi'.trans hi) hw,
      rfl, Function.update_comm hne _ _ _⟩
  | resume j e' =>
    change i ≠ j at hne
    obtain ⟨d, o', k', w', a', hj, hw', rfl⟩ := step_resume h'
    have hj' : s.calls j = some (d, .waiting o' k') := by
      rw [← calls_resume_other h hne.symm]
      exact hj
    obtain ⟨rfl, ho, _⟩ := hs i c _ hi
    obtain ⟨rfl, ho', _⟩ := hs j d _ hj'
    obtain ⟨u₁, u₂, hu₁, hu₂, hlook⟩ := local_swap ho ho' hsep hw hw'
    have hi' := calls_resume_other (resume_of_answer hj' hu₁) hne
    exact ⟨_, _, resume_of_answer hj' hu₁, resume_of_answer (hi'.trans hi) hu₂,
      hlook.symm, Function.update_comm hne _ _ _⟩
  | poke x => exact x.elim

/-! ## Whole runs -/

/-- Calls without a common location: each two of different ids. -/
def Separated (D : χ → κ → Prop) (calls : ℕ → χ) (order : List ℕ) : Prop :=
  ∀ i ∈ order, ∀ j ∈ order, i ≠ j → ∀ x, D (calls i) x → ¬ D (calls j) x

theorem swaps_of_separated {order : List ℕ} (hlook : ∀ o, Local S.handle look (fun _ => True) o)
    (hprog : ∀ c, (S.prog c).Awaits (fun _ _ => True) fun o _ => Local S.handle look (D c) o)
    (hsep : Separated D calls order) :
    Swaps (step S) (Act.Among calls order) (CallsLocal S.handle look D calls) (SameLook look)
      Act.caller where
  refl s := ⟨rfl, rfl⟩
  trans s t u hst htu := ⟨hst.world.trans htu.world, hst.calls.trans htu.calls⟩
  alike s s' a t hs h := sameLook_step hlook hs h
  keeps s a t ha hs h := callsLocal_step hprog ha.2 hs h
  swap s a b t u ha hb hs hne h h' := by
    cases a with
    | start i c => exact swap_start hne h h'
    | resume i e =>
      exact swap_resume (hsep i ha.1 b.caller hb.1 hne) hs hne h h'
    | poke x => exact x.elim

/-- A run of calls without a common location ends as their serial run does, in any order of the
calls: each call ends alike, and the world looks alike. -/
theorem serial_of_separated {order : List ℕ} (hlook : ∀ o, Local S.handle look (fun _ => True) o)
    (hprog : ∀ c, (S.prog c).Awaits (fun _ _ => True) fun o _ => Local S.handle look (D c) o)
    (hsep : Separated D calls order) (hnodup : order.Nodup) {w : W} {as : List (Act χ ε Empty)}
    (has : ∀ a ∈ as, a.Among calls order)
    (h : run (step S) (init Op Ans E χ () w) as = some t) :
    ∃ t', run (step S) (init Op Ans E χ () w) (serial Act.caller order as) = some t' ∧
      SameLook look t t' :=
  (swaps_of_separated hlook hprog hsep).run_reorder has (fun _ _ _ hi => by cases hi)
    (serial_keeps hnodup fun a ha => (has a ha).1) h

end async
