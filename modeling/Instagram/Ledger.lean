-- A ledger: calls take effect one at a time, each in one piece and at most once. A system
-- whose calls end as soon as they have taken effect refines a ledger, however their awaits
-- interleave.
import Mathlib.Data.List.Nodup
import Instagram.Async
import Instagram.Simulation

namespace async

open runs

variable {M W V Op : Type} {Ans : Op → Type} {E χ ε η : Type}

/-! ## The ledger -/

/-- A call that has taken effect, and the operation that did it. -/
structure Entry (χ Op : Type) where
  id : ℕ
  call : χ
  op : Op

/-- A value that only entries change, and the entries so far, oldest first. -/
structure Ledger (V χ Op : Type) where
  value : V
  entries : List (Entry χ Op)

/-- Lands an entry. No id lands twice, and the operation must have an effect on the value. -/
def Ledger.land (effect : Op → V → Option V) (l : Ledger V χ Op) (e : Entry χ Op) :
    Option (Ledger V χ Op) :=
  if e.id ∈ l.entries.map Entry.id then none
  else (effect e.op l.value).map fun v => ⟨v, l.entries ++ [e]⟩

variable {effect : Op → V → Option V} {l l' : Ledger V χ Op}

theorem land_some {e : Entry χ Op} (h : l.land effect e = some l') :
    e.id ∉ l.entries.map Entry.id ∧ effect e.op l.value = some l'.value ∧
      l'.entries = l.entries ++ [e] := by
  unfold Ledger.land at h
  split at h
  · cases h
  · rename_i hid
    obtain ⟨v, hv, rfl⟩ := Option.map_eq_some_iff.mp h
    exact ⟨hid, hv, rfl⟩

/-- A ledger holds what it began with and what has landed since. -/
theorem entries_run {es : List (Entry χ Op)} (h : run (Ledger.land effect) l es = some l') :
    l'.entries = l.entries ++ es := by
  induction es using List.reverseRecOn generalizing l' with
  | nil =>
    cases h
    simp
  | append_singleton es e ih =>
    obtain ⟨u, hu, hlast⟩ := run_snoc_some h
    rw [(land_some hlast).2.2, ih hu, List.append_assoc]

/-- No call has two entries. -/
theorem ids_nodup {es : List (Entry χ Op)} (h : run (Ledger.land effect) l es = some l')
    (h0 : (l.entries.map Entry.id).Nodup) : (l'.entries.map Entry.id).Nodup := by
  refine run_keeps (I := fun l => (l.entries.map Entry.id).Nodup) (A := fun _ => True)
    (fun u e v _ hu hland => ?_) (fun _ _ => trivial) h0 h
  obtain ⟨hid, _, hentries⟩ := land_some hland
  rw [hentries, List.map_append]
  exact List.nodup_append.mpr ⟨hu, List.nodup_singleton _, fun a ha b hb he =>
    hid (List.mem_singleton.mp hb ▸ he ▸ ha)⟩

/-- A ledger keeps what the effect of each entry keeps. -/
theorem value_keeps {I : V → Prop} {B : Entry χ Op → Prop}
    (hI : ∀ e v v', B e → I v → effect e.op v = some v' → I v') {es : List (Entry χ Op)}
    (hes : ∀ e ∈ es, B e) (h0 : I l.value) (h : run (Ledger.land effect) l es = some l') :
    I l'.value :=
  run_keeps (I := fun l => I l.value)
    (fun _ e _ he hl hland => hI e _ _ he hl (land_some hland).2.1) hes h0 h

/-! ## Systems that keep a ledger -/

/-- With which answers an operation takes effect, what it changes, and where that stands in
the world. -/
structure Effects (W V Op : Type) (Ans : Op → Type) where
  lands : (o : Op) → Ans o → Bool
  effect : Op → V → Option V
  value : W → V

/-- Nothing but an operation that lands changes the value. -/
structure Effects.Of (F : Effects W V Op Ans) (S : System M W Op Ans E χ ε η) : Prop where
  landed : ∀ o e w w' a, S.handle o e w = some (w', a) → F.lands o a = true →
    F.effect o (F.value w) = some (F.value w')
  idle : ∀ o e w w' a, S.handle o e w = some (w', a) → F.lands o a = false →
    F.value w' = F.value w
  poke : ∀ x m w m' w', S.poke x m w = some (m', w') → F.value w' = F.value w

/-- Once the operation has landed, the program ends. -/
def Effects.EndsIt (F : Effects W V Op Ans) (o : Op) (k : Ans o → Prog M Op Ans E Unit) : Prop :=
  ∀ a, F.lands o a = true → k a = .ret ()

/-- The entry of an event, when its operation has landed. -/
def Effects.entry (F : Effects W V Op Ans) (ev : Event Op Ans χ) : Option (Entry χ Op) :=
  if F.lands ev.op ev.ans then some ⟨ev.id, ev.call, ev.op⟩ else none

def Effects.entries (F : Effects W V Op Ans) (trace : List (Event Op Ans χ)) :
    List (Entry χ Op) := trace.filterMap F.entry

variable {F : Effects W V Op Ans} {S : System M W Op Ans E χ ε η} {s t : State M W Op Ans E χ}
  {C : χ → Prop} {G : χ → (o : Op) → (Ans o → Prog M Op Ans E Unit) → Prop}

theorem entries_snoc (trace : List (Event Op Ans χ)) (ev : Event Op Ans χ) :
    F.entries (trace ++ [ev]) = F.entries trace ++ (F.entry ev).toList := by
  unfold Effects.entries
  rw [List.filterMap_append]
  cases h : F.entry ev <;> simp [h]

/-- What the ledger shows of a state. -/
def Effects.ledger (F : Effects W V Op Ans) (s : State M W Op Ans E χ) : Ledger V χ Op :=
  ⟨F.value s.world, F.entries s.trace⟩

/-- The ledger shows what has happened: whoever has an entry has ended without an exception, on
an operation that it may ask for. -/
structure Effects.Shows (F : Effects W V Op Ans) (C : χ → Prop)
    (G : χ → (o : Op) → (Ans o → Prog M Op Ans E Unit) → Prop) (s : State M W Op Ans E χ)
    (l : Ledger V χ Op) : Prop where
  same : l = F.ledger s
  calls : Guarded (fun _ => True) (fun _ _ => True) C (fun c o k => G c o k ∧ F.EndsIt o k) s
  ended : ∀ e ∈ l.entries, s.calls e.id = some (e.call, .ended (.ok ()))

theorem shows_init (F : Effects W V Op Ans) (C : χ → Prop)
    (G : χ → (o : Op) → (Ans o → Prog M Op Ans E Unit) → Prop) (m : M) (w : W) :
    F.Shows C G (init Op Ans E χ m w) ⟨F.value w, []⟩ :=
  ⟨rfl, guarded_init m trivial, fun _ he => by cases he⟩

/-- An entry that is allowed: of a call of `C`, for an operation that the call may ask for. -/
def AllowedEntry (C : χ → Prop) (G : χ → (o : Op) → (Ans o → Prog M Op Ans E Unit) → Prop)
    (e : Entry χ Op) : Prop := C e.call ∧ ∃ k, G e.call e.op k

theorem shows_start (hprog : ∀ c, C c → (S.prog c).Awaits (fun _ _ => True)
      fun o k => G c o k ∧ F.EndsIt o k)
    {i : ℕ} {c : χ} (hc : C c) {l : Ledger V χ Op} (hs : F.Shows C G s l)
    (h : step S s (.start i c) = some t) : F.Shows C G t l := by
  obtain ⟨hfree, rfl⟩ := step_start h
  refine ⟨hs.same, ⟨trivial, update_keeps hs.calls.calls ⟨hc, (hprog c hc).settle _⟩⟩, ?_⟩
  intro e he
  have hne : e.id ≠ i := fun hid => by
    have hended := hs.ended e he
    rw [hid, hfree] at hended
    cases hended
  rw [← hs.ended e he]
  exact Function.update_of_ne hne _ _

/-- An answer that lands writes an entry, and any other answer none. -/
theorem shows_resume (hF : F.Of S) {i : ℕ} {e : ε} {l : Ledger V χ Op} (hs : F.Shows C G s l)
    (h : step S s (.resume i e) = some t) :
    (∃ b l', AllowedEntry C G b ∧ l.land F.effect b = some l' ∧ F.Shows C G t l') ∨
      F.Shows C G t l := by
  obtain ⟨c, o, k, w, a, hi, hw, rfl⟩ := step_resume h
  obtain ⟨hc, ⟨hG, hends⟩, hk⟩ := hs.calls.calls i c _ hi
  have hcalls := update_keeps (i := i) hs.calls.calls ⟨hc, (hk a trivial).settle s.mem⟩
  -- whoever has an entry has ended, so call `i` has none yet
  have hother : ∀ b ∈ l.entries, b.id ≠ i := fun b hb hid => by
    have hended := hs.ended b hb
    rw [hid, hi] at hended
    cases hended
  have hold : ∀ b ∈ l.entries, Function.update s.calls i (some (c, ((k a).settle s.mem).2)) b.id =
      some (b.call, .ended (.ok ())) := fun b hb => by
    rw [← hs.ended b hb]
    exact Function.update_of_ne (hother b hb) _ _
  cases hlands : F.lands o a with
  | false =>
    have hentry : F.entry ⟨i, c, o, a⟩ = none := by simp [Effects.entry, hlands]
    refine Or.inr ⟨?_, ⟨trivial, hcalls⟩, hold⟩
    rw [hs.same]
    unfold Effects.ledger
    rw [hF.idle o e s.world w a hw hlands, entries_snoc, hentry]
    simp
  | true =>
    have hentry : F.entry ⟨i, c, o, a⟩ = some ⟨i, c, o⟩ := by simp [Effects.entry, hlands]
    have heffect := hF.landed o e s.world w a hw hlands
    refine Or.inl ⟨⟨i, c, o⟩, ⟨F.value w, l.entries ++ [⟨i, c, o⟩]⟩, ⟨hc, k, hG⟩, ?_, ?_,
      ⟨trivial, hcalls⟩, ?_⟩
    · have hnew : i ∉ l.entries.map Entry.id := fun hmem => by
        obtain ⟨b, hb, hid⟩ := List.mem_map.mp hmem
        exact hother b hb hid
      have hvalue : l.value = F.value s.world := by rw [hs.same]; rfl
      simp [Ledger.land, hnew, hvalue, heffect]
    · rw [hs.same]
      unfold Effects.ledger
      rw [entries_snoc, hentry]
      rfl
    · intro b hb
      rcases List.mem_append.mp hb with hb | hb
      · exact hold b hb
      · rw [List.mem_singleton] at hb
        subst hb
        rw [hends a hlands]
        exact Function.update_self _ _ _

/-- A system whose calls end as soon as they have taken effect refines a ledger. -/
theorem refines_ledger (hF : F.Of S) (hprog : ∀ c, C c → (S.prog c).Awaits (fun _ _ => True)
      fun o k => G c o k ∧ F.EndsIt o k) :
    Simulates (step S) (Ledger.land F.effect) (Act.Starts C) (AllowedEntry C G)
      (F.Shows C G) := by
  intro s a t l ha hs h
  cases a with
  | start i c => exact Or.inr (shows_start hprog ha hs h)
  | resume i e => exact shows_resume hF hs h
  | poke x =>
    obtain ⟨m, w, hw, rfl⟩ := step_poke h
    refine Or.inr ⟨?_, ⟨trivial, hs.calls.calls⟩, hs.ended⟩
    rw [hs.same]
    unfold Effects.ledger
    rw [hF.poke x _ _ _ _ hw]

/-- Every run of the system is a run of the ledger. -/
theorem ledger_of_run (hF : F.Of S) (hprog : ∀ c, C c → (S.prog c).Awaits (fun _ _ => True)
      fun o k => G c o k ∧ F.EndsIt o k)
    {m : M} {w : W} {as : List (Act χ ε η)} (has : ∀ a ∈ as, a.Starts C)
    (h : run (step S) (init Op Ans E χ m w) as = some t) :
    run (Ledger.land F.effect) ⟨F.value w, []⟩ (F.entries t.trace) = some (F.ledger t) ∧
      (∀ e ∈ F.entries t.trace, AllowedEntry C G e) ∧
      ∀ e ∈ F.entries t.trace, t.calls e.id = some (e.call, .ended (.ok ())) := by
  obtain ⟨es, l, hes, hl, hshows⟩ :=
    simulates_run (refines_ledger hF hprog) has (shows_init F C G m w) h
  have hentries : F.entries t.trace = es := by
    have hsame := entries_run hl
    rw [hshows.same, List.nil_append] at hsame
    exact hsame
  rw [hentries]
  refine ⟨by rw [hl, hshows.same], hes, fun e he => hshows.ended e ?_⟩
  rw [entries_run hl]
  simpa using he

end async
