-- Clients of one service. A client's program makes calls of the service between awaits of its
-- own, and goes on with what they return or raise. So any number of clients over one service
-- together refine the service, whatever else their programs do.
import Instagram.Async
import Instagram.Simulation

namespace async

open runs

/-! ## Going on after a program -/

section Handled

variable {M Op : Type} {Ans : Op → Type} {E ρ ρ' ρ'' : Type}

/-- Goes on with the result of the program, or with what it raised. -/
def Prog.handled (q : Except E ρ → Prog M Op Ans E ρ') : Prog M Op Ans E ρ → Prog M Op Ans E ρ'
  | ret r => q (.ok r)
  | raise e => q (.error e)
  | read k => read fun m => (k m).handled q
  | write m k => write m (k.handled q)
  | await o k => await o fun a => (k a).handled q

theorem handled_ofExcept (p : Prog M Op Ans E ρ) : p.handled .ofExcept = p := by
  induction p with
  | ret r => rfl
  | raise e => rfl
  | read k ih => exact congrArg Prog.read (funext ih)
  | write m k ih => exact congrArg (Prog.write m) ih
  | await o k ih => exact congrArg (Prog.await o) (funext ih)

theorem handled_bind (p : Prog M Op Ans E ρ) (q : Except E ρ → Prog M Op Ans E ρ')
    (f : ρ' → Prog M Op Ans E ρ'') : p.handled q >>= f = p.handled fun r => q r >>= f := by
  induction p with
  | ret r => rfl
  | raise e => rfl
  | read k ih => exact congrArg Prog.read (funext ih)
  | write m k ih => exact congrArg (Prog.write m) ih
  | await o k ih => exact congrArg (Prog.await o) (funext ih)

theorem handled_catchError (p : Prog M Op Ans E ρ) (q : Except E ρ → Prog M Op Ans E ρ')
    (f : E → Prog M Op Ans E ρ') :
    (p.handled q).catchError f = p.handled fun r => (q r).catchError f := by
  induction p with
  | ret r => rfl
  | raise e => rfl
  | read k ih => exact congrArg Prog.read (funext ih)
  | write m k ih => exact congrArg (Prog.write m) ih
  | await o k ih => exact congrArg (Prog.await o) (funext ih)

end Handled

/-! ## Clients -/

/-- A system whose world holds the world `V` of a service, and whose requests hold the requests
`Op` of the service. -/
structure Client (V Op : Type) (Ans : Op → Type) (E ε : Type) where
  M : Type
  W : Type
  Req : Type
  Reply : Req → Type
  κ : Type
  δ : Type
  η : Type
  sys : System M W Req Reply E κ δ η
  look : W → V
  put : V → W → W
  req : Op → Req
  reply : (o : Op) → Reply (req o) → Ans o
  env : δ → ε

variable {V Op : Type} {Ans : Op → Type} {E ε χ ι : Type}

namespace Client

abbrev St (K : Client V Op Ans E ε) : Type := State K.M K.W K.Req K.Reply E K.κ

abbrev Act (K : Client V Op Ans E ε) : Type := async.Act K.κ K.δ K.η

abbrev Program (K : Client V Op Ans E ε) (ρ : Type) : Type := Prog K.M K.Req K.Reply E ρ

/-- A program of the service, for the client. -/
def call (K : Client V Op Ans E ε) {ρ : Type} (p : Prog Unit Op Ans E ρ) : K.Program ρ :=
  p.embed K.req K.reply

/-- A request of the client's own, which the service does not know. -/
def Own (K : Client V Op Ans E ε) (r : K.Req) : Prop := ∀ o, r ≠ K.req o

/-- The program asks the service only by whole calls of `C`. -/
inductive Calls (K : Client V Op Ans E ε) (prog : χ → Prog Unit Op Ans E Unit) (C : χ → Prop)
    {ρ : Type} : K.Program ρ → Prop
  | ret (r : ρ) : Calls K prog C (.ret r)
  | raise (e : E) : Calls K prog C (.raise e)
  | read {k : K.M → K.Program ρ} (hk : ∀ m, Calls K prog C (k m)) : Calls K prog C (.read k)
  | write (m : K.M) {k : K.Program ρ} (hk : Calls K prog C k) : Calls K prog C (.write m k)
  | await {r : K.Req} (hr : K.Own r) {k : K.Reply r → K.Program ρ}
      (hk : ∀ a, Calls K prog C (k a)) : Calls K prog C (.await r k)
  | call {c : χ} (hc : C c) {q : Except E Unit → K.Program ρ} (hq : ∀ r, Calls K prog C (q r)) :
      Calls K prog C ((K.call (prog c)).handled q)

variable {K : Client V Op Ans E ε} {prog : χ → Prog Unit Op Ans E Unit} {C : χ → Prop}

theorem Calls.of_call {c : χ} (hc : C c) : K.Calls prog C (K.call (prog c)) := by
  rw [← handled_ofExcept (K.call (prog c))]
  refine .call hc fun r => ?_
  cases r with
  | error e => exact .raise e
  | ok u => exact .ret u

theorem Calls.bind {ρ ρ' : Type} {p : K.Program ρ} {f : ρ → K.Program ρ'}
    (h : K.Calls prog C p) (hf : ∀ r, K.Calls prog C (f r)) : K.Calls prog C (p >>= f) := by
  induction h with
  | ret r => exact hf r
  | raise e => exact .raise e
  | read _ ih => exact .read ih
  | write m _ ih => exact .write m ih
  | await hr _ ih => exact .await hr ih
  | call hc _ ih =>
    rw [handled_bind]
    exact .call hc ih

theorem Calls.catchError {ρ : Type} {p : K.Program ρ} {f : E → K.Program ρ}
    (h : K.Calls prog C p) (hf : ∀ e, K.Calls prog C (f e)) : K.Calls prog C (p.catchError f) := by
  induction h with
  | ret r => exact .ret r
  | raise e => exact hf e
  | read _ ih => exact .read ih
  | write m _ ih => exact .write m ih
  | await hr _ ih => exact .await hr ih
  | call hc _ ih =>
    rw [handled_catchError]
    exact .call hc ih

/-- Asking only by whole calls is compositional. -/
theorem compositional_calls :
    Compositional K.Own fun ρ (p : K.Program ρ) => K.Calls prog C p where
  ret := .ret
  raise := .raise
  read := .read
  await hr hk := .await hr hk
  bind := .bind
  catchError := .catchError

/-- What a client over the service `B` must do: its requests to the service are answered by the
service, nothing else changes the service's world, and its calls of `P` make calls of `C`. Only
pokes of `H` are considered. -/
structure Serves (K : Client V Op Ans E ε) (B : System Unit V Op Ans E χ ε ι) (P : K.κ → Prop)
    (H : K.η → Prop) (C : χ → Prop) : Prop where
  look_put : ∀ v w, K.look (K.put v w) = v
  asks : ∀ o e w w' a, K.sys.handle (K.req o) e w = some (w', a) →
    B.handle o (K.env e) (K.look w) = some (K.look w', K.reply o a)
  own : ∀ r e w w' a, K.Own r → K.sys.handle r e w = some (w', a) → K.look w' = K.look w
  poke : ∀ x m w m' w', H x → K.sys.poke x m w = some (m', w') → K.look w' = K.look w
  calls : ∀ c, P c → K.Calls B.prog C (K.sys.prog c)

/-- The calls of `P` and the pokes of `H`. -/
def Allows (K : Client V Op Ans E ε) (P : K.κ → Prop) (H : K.η → Prop) : K.Act → Prop
  | .start _ c => P c
  | .resume _ _ => True
  | .poke x => H x

/-! ## Where the calls of a client are -/

/-- A call of the client beside the service, where `n` is the number of the service's call that
it waits for: it has not started, it has ended, it waits for an answer of its own, or it waits
for the answer that the service's call `n` waits for. -/
inductive Placed (K : Client V Op Ans E ε) (prog : χ → Prog Unit Op Ans E Unit) (C : χ → Prop)
    (calls : ℕ → Option (χ × Parked Unit Op Ans E Unit)) :
    Option (K.κ × Parked K.M K.Req K.Reply E Unit) → Option ℕ → Prop
  | free : Placed K prog C calls none none
  | ended (k : K.κ) (r : Except E Unit) : Placed K prog C calls (some (k, .ended r)) none
  | own (k : K.κ) {r : K.Req} (hr : K.Own r) {f : K.Reply r → K.Program Unit}
      (hf : ∀ a, K.Calls prog C (f a)) : Placed K prog C calls (some (k, .waiting r f)) none
  | calls (k : K.κ) {n : ℕ} {c : χ} {o : Op} {f : Ans o → Prog Unit Op Ans E Unit}
      {q : Except E Unit → K.Program Unit} (hn : calls n = some (c, .waiting o f))
      (hq : ∀ r, K.Calls prog C (q r)) :
      Placed K prog C calls
        (some (k, .waiting (K.req o) fun a => (K.call (f (K.reply o a))).handled q)) (some n)

/-- A placed call stays so while the service's call stays where it is. -/
theorem Placed.mono {calls calls' : ℕ → Option (χ × Parked Unit Op Ans E Unit)}
    {x : Option (K.κ × Parked K.M K.Req K.Reply E Unit)} {slot : Option ℕ}
    (h : K.Placed prog C calls x slot)
    (hsame : ∀ n, slot = some n → (calls n).isSome → calls' n = calls n) :
    K.Placed prog C calls' x slot := by
  cases h with
  | free => exact .free
  | ended k r => exact .ended k r
  | own k hr hf => exact .own k hr hf
  | calls k hn hq => exact .calls k ((hsame _ rfl (by rw [hn]; rfl)).trans hn) hq

theorem Placed.started {calls : ℕ → Option (χ × Parked Unit Op Ans E Unit)}
    {x : Option (K.κ × Parked K.M K.Req K.Reply E Unit)} {n : ℕ}
    (h : K.Placed prog C calls x (some n)) : (calls n).isSome := by
  cases h with
  | calls k hn hq =>
    rw [hn]
    rfl

theorem settle_call (p : Prog Unit Op Ans E Unit) (q : Except E Unit → K.Program Unit) (m : K.M) :
    ((K.call p).handled q).settle m =
      match (p.settle ()).2 with
      | .ended r => (q r).settle m
      | .waiting o f => (m, .waiting (K.req o) fun a => (K.call (f (K.reply o a))).handled q) := by
  induction p with
  | ret r => rfl
  | raise e => rfl
  | read k ih => exact ih ()
  | write u k ih => exact ih
  | await o k ih => rfl

/-! ## Turns -/

variable {B : System Unit V Op Ans E χ ε ι} {b : State Unit V Op Ans E χ}

/-- There is always a number for one more call of the service. -/
def Free (b : State Unit V Op Ans E χ) : Prop := ∃ N, ∀ n, N ≤ n → b.calls n = none

/-- The service after one step that concerns the call `n`. -/
theorem Free.update {b b' : State Unit V Op Ans E χ} (hfree : Free b) (n : ℕ)
    (hother : ∀ n', n' ≠ n → b'.calls n' = b.calls n') : Free b' := by
  obtain ⟨N, hN⟩ := hfree
  refine ⟨max N (n + 1), fun n' hn' => ?_⟩
  rw [hother n' (by omega)]
  exact hN n' (by omega)

theorem start_fresh (hfree : Free b) (c : χ) :
    ∃ n b₁, b.calls n = none ∧ step B b (.start n c) = some b₁ ∧ b₁.world = b.world ∧
      b₁.calls n = some (c, ((B.prog c).settle ()).2) ∧
      ∀ n', n' ≠ n → b₁.calls n' = b.calls n' := by
  obtain ⟨N, hN⟩ := hfree
  exact ⟨N, _, hN N le_rfl, start_of_free c (hN N le_rfl), rfl, Function.update_self _ _ _,
    fun n' hn' => Function.update_of_ne hn' _ _⟩

theorem resume_one {n : ℕ} {c : χ} {o : Op} {f : Ans o → Prog Unit Op Ans E Unit} {e : ε} {v : V}
    {a : Ans o} (hn : b.calls n = some (c, .waiting o f))
    (hw : B.handle o e b.world = some (v, a)) :
    ∃ b₁, step B b (.resume n e) = some b₁ ∧ b₁.world = v ∧
      b₁.calls n = some (c, ((f a).settle ()).2) ∧ ∀ n', n' ≠ n → b₁.calls n' = b.calls n' :=
  ⟨_, resume_of_answer hn hw, rfl, Function.update_self _ _ _,
    fun _ hn' => Function.update_of_ne hn' _ _⟩

/-- What a turn of a client does to the service: new calls start, and nothing else. -/
structure Turned (K : Client V Op Ans E ε) (B : System Unit V Op Ans E χ ε ι) (C : χ → Prop)
    (b : State Unit V Op Ans E χ) (k : K.κ) (p : Parked K.M K.Req K.Reply E Unit)
    (as : List (async.Act χ ε ι)) (b' : State Unit V Op Ans E χ) (slot : Option ℕ) : Prop where
  starts : ∀ a ∈ as, a.Starts C
  run : run (step B) b as = some b'
  world : b'.world = b.world
  kept : ∀ n, (b.calls n).isSome → b'.calls n = b.calls n
  free : Free b'
  fresh : ∀ n, slot = some n → b.calls n = none
  placed : K.Placed B.prog C b'.calls (some (k, p)) slot

/-- A turn that calls nothing. -/
theorem Turned.stay (hfree : Free b) {k : K.κ} {p : Parked K.M K.Req K.Reply E Unit}
    (hp : K.Placed B.prog C b.calls (some (k, p)) none) : Turned K B C b k p [] b none :=
  ⟨by simp, rfl, rfl, fun _ _ => rfl, hfree, by simp, hp⟩

theorem turned_of_calls {p : K.Program Unit} (hp : K.Calls B.prog C p) (k : K.κ) (m : K.M)
    (hfree : Free b) : ∃ as b' slot, Turned K B C b k (p.settle m).2 as b' slot := by
  induction hp generalizing m b with
  | ret r => exact ⟨_, _, _, .stay hfree (.ended k _)⟩
  | raise e => exact ⟨_, _, _, .stay hfree (.ended k _)⟩
  | read _ ih => exact ih m m hfree
  | write m' _ ih => exact ih m' hfree
  | await hr hk _ => exact ⟨_, _, _, .stay hfree (.own k hr hk)⟩
  | @call c hc q hq ih =>
    obtain ⟨n, b₁, hn, hstart, hworld, hcall, hother⟩ := start_fresh (B := B) hfree c
    have hkept : ∀ n', (b.calls n').isSome → b₁.calls n' = b.calls n' := by
      intro n' hn'
      refine hother n' ?_
      rintro rfl
      rw [hn] at hn'
      cases hn'
    rw [settle_call]
    cases hpark : ((B.prog c).settle ()).2 with
    | waiting o f =>
      rw [hpark] at hcall
      refine ⟨[.start n c], b₁, some n, ?_, by rw [run_cons, hstart]; rfl, hworld, hkept,
        hfree.update n hother, ?_, .calls k hcall hq⟩
      · intro a ha
        obtain rfl := List.mem_singleton.mp ha
        exact hc
      · rintro n' ⟨⟩
        exact hn
    | ended r =>
      -- the call has ended at once, so the turn goes on
      obtain ⟨as, b', slot, hturn⟩ := ih r m (hfree.update n hother)
      refine ⟨.start n c :: as, b', slot, ?_, by rw [run_cons, hstart]; exact hturn.run,
        hturn.world.trans hworld, fun n' hn' => ?_, hturn.free, fun n' hn' => ?_, hturn.placed⟩
      · intro a ha
        rcases List.mem_cons.mp ha with rfl | ha
        · exact hc
        · exact hturn.starts a ha
      · rw [hturn.kept n' (by rw [hkept n' hn']; exact hn'), hkept n' hn']
      · have hnone := hturn.fresh n' hn'
        by_cases hn'' : n' = n
        · rw [hn'']
          exact hn
        · rw [← hother n' hn'']
          exact hnone

/-- An answer to a call of the service: it goes on, or it ends and the client has a turn. -/
theorem turned_of_answer {n : ℕ} {d : χ} {o : Op} {f : Ans o → Prog Unit Op Ans E Unit} {e : ε}
    {v : V} {a : Ans o} {q : Except E Unit → K.Program Unit}
    (hn : b.calls n = some (d, .waiting o f)) (hw : B.handle o e b.world = some (v, a))
    (hq : ∀ r, K.Calls B.prog C (q r)) (k : K.κ) (m : K.M) (hfree : Free b) :
    ∃ as b' slot, (∀ x ∈ as, x.Starts C) ∧ run (step B) b as = some b' ∧ b'.world = v ∧ Free b' ∧
      K.Placed B.prog C b'.calls (some (k, (((K.call (f a)).handled q).settle m).2)) slot ∧
      ∀ n', n' ≠ n → (b.calls n').isSome → b'.calls n' = b.calls n' ∧ slot ≠ some n' := by
  obtain ⟨b₁, hresume, hworld, hcall, hrest⟩ := resume_one (B := B) hn hw
  have hresumed : (Act.resume n e : async.Act χ ε ι).Starts C := trivial
  rw [settle_call]
  cases hpark : ((f a).settle ()).2 with
  | waiting o' g =>
    rw [hpark] at hcall
    exact ⟨[.resume n e], b₁, some n, by simpa using hresumed, by rw [run_cons, hresume]; rfl,
      hworld, hfree.update n hrest, .calls k hcall hq,
      fun n' hn' _ => ⟨hrest n' hn', fun he => hn' (Option.some.inj he).symm⟩⟩
  | ended r =>
    obtain ⟨as, b', slot, hturn⟩ := turned_of_calls (hq r) k m (hfree.update n hrest)
    refine ⟨.resume n e :: as, b', slot, List.forall_mem_cons.mpr ⟨hresumed, hturn.starts⟩,
      by rw [run_cons, hresume]; exact hturn.run, hturn.world.trans hworld, hturn.free,
      hturn.placed, fun n' hn' hstarted => ?_⟩
    rw [← hrest n' hn'] at hstarted ⊢
    refine ⟨hturn.kept n' hstarted, fun he => ?_⟩
    rw [hturn.fresh n' he] at hstarted
    cases hstarted

end Client

/-! ## All clients together -/

section Joint

variable {J : Type} {K : J → Client V Op Ans E ε}

/-- The world of the service, and the states of its clients. What a client holds of that world
is brought up to date before each of its steps. -/
structure Joint (K : J → Client V Op Ans E ε) where
  world : V
  clients : (j : J) → (K j).St

def Joint.client (x : Joint K) (j : J) : (K j).St :=
  { x.clients j with world := (K j).put x.world (x.clients j).world }

def jointStep [DecidableEq J] (K : J → Client V Op Ans E ε) (x : Joint K)
    (a : (j : J) × (K j).Act) : Option (Joint K) :=
  (step (K a.1).sys (x.client a.1) a.2).map fun t =>
    ⟨(K a.1).look t.world, Function.update x.clients a.1 t⟩

def jointInit (K : J → Client V Op Ans E ε) (v : V) (m : (j : J) → (K j).M)
    (w : (j : J) → (K j).W) : Joint K :=
  ⟨v, fun j => init _ _ _ _ (m j) (w j)⟩

variable {B : System Unit V Op Ans E χ ε ι} {C : χ → Prop} {b b' : State Unit V Op Ans E χ}

/-- Every call of every client is placed, no two of them at one call of the service. -/
structure AllPlaced (B : System Unit V Op Ans E χ ε ι) (C : χ → Prop)
    (clients : (j : J) → (K j).St) (b : State Unit V Op Ans E χ) (slot : J × ℕ → Option ℕ) :
    Prop where
  placed : ∀ j i, (K j).Placed B.prog C b.calls ((clients j).calls i) (slot (j, i))
  apart : ∀ p p' n, slot p = some n → slot p' = some n → p = p'

theorem AllPlaced.started {clients : (j : J) → (K j).St} {slot : J × ℕ → Option ℕ}
    (h : AllPlaced B C clients b slot) {p : J × ℕ} {n : ℕ} (hn : slot p = some n) :
    (b.calls n).isSome := by
  have hplaced := h.placed p.1 p.2
  rw [hn] at hplaced
  exact hplaced.started

/-- The clients beside the service, over the same world. -/
structure Joined (B : System Unit V Op Ans E χ ε ι) (C : χ → Prop) (x : Joint K)
    (b : State Unit V Op Ans E χ) : Prop where
  world : b.world = x.world
  free : Client.Free b
  slots : ∃ slot, AllPlaced B C x.clients b slot

theorem joined_init (v : V) (m : (j : J) → (K j).M) (w : (j : J) → (K j).W) :
    Joined B C (jointInit K v m w) (init Op Ans E χ () v) :=
  ⟨rfl, ⟨0, fun _ _ => rfl⟩, fun _ => none, fun _ _ => .free, by simp⟩

/-- The clients stand beside the end of a run of the service, whose calls are all of `C`. -/
def Backed (B : System Unit V Op Ans E χ ε ι) (C : χ → Prop) (v : V) (x : Joint K) : Prop :=
  ∃ bs b, (∀ a ∈ bs, a.Starts C) ∧ run (step B) (init Op Ans E χ () v) bs = some b ∧
    Joined B C x b

theorem backed_init (v : V) (m : (j : J) → (K j).M) (w : (j : J) → (K j).W) :
    Backed B C v (jointInit K v m w) :=
  ⟨[], _, by simp, rfl, joined_init v m w⟩

variable [DecidableEq J]

/-- One call of one client has got another place, and the places of the others are as before. -/
theorem AllPlaced.update {clients : (j : J) → (K j).St} {slot : J × ℕ → Option ℕ}
    (h : AllPlaced B C clients b slot) {j : J} {i : ℕ} {t : (K j).St}
    {y : Option ((K j).κ × Parked (K j).M (K j).Req (K j).Reply E Unit)}
    (ht : t.calls = Function.update (clients j).calls i y) {new : Option ℕ}
    (hy : (K j).Placed B.prog C b'.calls y new)
    (hother : ∀ p n, p ≠ (j, i) → slot p = some n →
      b'.calls n = b.calls n ∧ new ≠ some n) :
    AllPlaced B C (Function.update clients j t) b' (Function.update slot (j, i) new) := by
  constructor
  · intro j' i'
    by_cases hj : j' = j
    · subst hj
      rw [Function.update_self, ht]
      by_cases hi : i' = i
      · rw [hi, Function.update_self, Function.update_self]
        exact hy
      · have hp : (j', i') ≠ (j', i) := fun he => hi (congrArg Prod.snd he)
        rw [Function.update_of_ne hi, Function.update_of_ne hp]
        exact (h.placed j' i').mono fun n hn _ => (hother _ n hp hn).1
    · have hp : (j', i') ≠ (j, i) := fun he => hj (congrArg Prod.fst he)
      rw [Function.update_of_ne hj, Function.update_of_ne hp]
      exact (h.placed j' i').mono fun n hn _ => (hother _ n hp hn).1
  · intro p p' n hp hp'
    by_cases hpi : p = (j, i)
    · by_cases hpi' : p' = (j, i)
      · rw [hpi, hpi']
      · rw [hpi, Function.update_self] at hp
        rw [Function.update_of_ne hpi'] at hp'
        exact absurd hp (hother p' n hpi' hp').2
    · rw [Function.update_of_ne hpi] at hp
      by_cases hpi' : p' = (j, i)
      · rw [hpi', Function.update_self] at hp'
        exact absurd hp' (hother p n hpi hp).2
      · rw [Function.update_of_ne hpi'] at hp'
        exact h.apart p p' n hp hp'

/-- After a turn of a client, which new calls of the service may have started in. -/
theorem AllPlaced.turn {clients : (j : J) → (K j).St} {slot : J × ℕ → Option ℕ}
    (h : AllPlaced B C clients b slot) {j : J} {i : ℕ} {k : (K j).κ}
    {q : Parked (K j).M (K j).Req (K j).Reply E Unit} {as : List (Act χ ε ι)} {new : Option ℕ}
    (hturn : (K j).Turned B C b k q as b' new) {t : (K j).St}
    (ht : t.calls = Function.update (clients j).calls i (some (k, q))) :
    AllPlaced B C (Function.update clients j t) b' (Function.update slot (j, i) new) := by
  refine h.update ht hturn.placed fun p n _ hn => ?_
  have hstarted := h.started hn
  refine ⟨hturn.kept n hstarted, ?_⟩
  rintro rfl
  rw [hturn.fresh n rfl] at hstarted
  cases hstarted

theorem AllPlaced.poke {clients : (j : J) → (K j).St} {slot : J × ℕ → Option ℕ}
    (h : AllPlaced B C clients b slot) {j : J} {t : (K j).St} (ht : t.calls = (clients j).calls) :
    AllPlaced B C (Function.update clients j t) b slot := by
  refine ⟨fun j' i => ?_, h.apart⟩
  by_cases hj : j' = j
  · subst hj
    rw [Function.update_self, ht]
    exact h.placed j' i
  · rw [Function.update_of_ne hj]
    exact h.placed j' i

variable {P : (j : J) → (K j).κ → Prop} {H : (j : J) → (K j).η → Prop}

/-- A step of a client is a run of the service: an answer that one of its calls waits for, if
there is any, and the calls that start in the turn. -/
theorem joined_step (hK : ∀ j, (K j).Serves B (P j) (H j) C) {x y : Joint K} {j : J}
    {a : (K j).Act} (ha : (K j).Allows (P j) (H j) a) (hx : Joined B C x b)
    (h : jointStep K x ⟨j, a⟩ = some y) :
    ∃ as b', (∀ a ∈ as, a.Starts C) ∧ run (step B) b as = some b' ∧ Joined B C y b' := by
  obtain ⟨hworld, hfree, slot, hslot⟩ := hx
  obtain ⟨t, ht, rfl⟩ := Option.map_eq_some_iff.mp h
  have hlook : b.world = (K j).look (x.client j).world :=
    hworld.trans ((hK j).look_put x.world _).symm
  cases a with
  | start i c =>
    obtain ⟨_, rfl⟩ := step_start ht
    obtain ⟨as, b', new, hturn⟩ :=
      Client.turned_of_calls ((hK j).calls c ha) c (x.client j).mem hfree
    exact ⟨as, b', hturn.starts, hturn.run, hturn.world.trans hlook, hturn.free, _,
      hslot.turn hturn rfl⟩
  | resume i e =>
    obtain ⟨c, r, f, w, ans, hi, hw, rfl⟩ := step_resume ht
    have hplaced := hslot.placed j i
    rw [show (x.clients j).calls i = _ from hi] at hplaced
    generalize hs : slot (j, i) = s at hplaced
    cases hplaced with
    | own _ hr hf =>
      obtain ⟨as, b', new, hturn⟩ := Client.turned_of_calls (hf ans) c (x.client j).mem hfree
      refine ⟨as, b', hturn.starts, hturn.run, hturn.world.trans ?_, hturn.free, _,
        hslot.turn hturn rfl⟩
      rw [hlook]
      exact ((hK j).own r e _ w ans hr hw).symm
    | @calls _ n d o g q hn hq =>
      have hanswer := (hK j).asks o e _ w ans hw
      rw [← hlook] at hanswer
      obtain ⟨as, b', new, has, hb', hworld', hfree', hplaced, hrest⟩ :=
        Client.turned_of_answer hn hanswer hq c (x.client j).mem hfree
      refine ⟨as, b', has, hb', hworld', hfree', _, hslot.update rfl hplaced fun p n' hp hn' => ?_⟩
      -- the other calls of the clients wait for other calls of the service
      have hne : n' ≠ n := by
        rintro rfl
        exact hp (hslot.apart p (j, i) n' hn' hs)
      exact hrest n' hne (hslot.started hn')
  | poke x' =>
    obtain ⟨m, w, hw, rfl⟩ := step_poke ht
    refine ⟨[], b, by simp, rfl, hlook.trans ?_, hfree, slot, hslot.poke rfl⟩
    exact ((hK j).poke x' _ _ m w ha hw).symm

theorem backed_step (hK : ∀ j, (K j).Serves B (P j) (H j) C) {v : V} {x y : Joint K}
    {a : (j : J) × (K j).Act} (ha : (K a.1).Allows (P a.1) (H a.1) a.2) (hx : Backed B C v x)
    (h : jointStep K x a = some y) : Backed B C v y := by
  obtain ⟨bs, b, hbs, hb, hjoined⟩ := hx
  obtain ⟨cs, b', hcs, hb', hy⟩ := joined_step hK ha hjoined h
  refine ⟨bs ++ cs, b', fun a ha => ?_, by rw [run_append, hb]; exact hb', hy⟩
  rcases List.mem_append.mp ha with ha | ha
  · exact hbs a ha
  · exact hcs a ha

/-- The clients together refine the service: whatever they do, and in whatever order, the world
is one that a run of the service leads to. -/
theorem joint_refines (hK : ∀ j, (K j).Serves B (P j) (H j) C) (v : V) (m : (j : J) → (K j).M)
    (w : (j : J) → (K j).W) (as : List ((j : J) × (K j).Act))
    (has : ∀ a ∈ as, (K a.1).Allows (P a.1) (H a.1) a.2) :
    AllStates (jointStep K) (Backed B C v) (jointInit K v m w) as :=
  allStates_of_keeps (A := fun a => (K a.1).Allows (P a.1) (H a.1) a.2)
    (fun _ _ _ ha hx h => backed_step hK ha hx h) has (backed_init v m w)

/-- What every step of the service keeps between two worlds, a step of a client keeps, as it is a
run of the service. -/
theorem backed_keeps (hK : ∀ j, (K j).Serves B (P j) (H j) C) {T : V → V → Prop}
    (hrefl : ∀ v, T v v) (htrans : ∀ u v w, T u v → T v w → T u w)
    (hstep : ∀ b a b', step B b a = some b' → T b.world b'.world) {v : V}
    {x y : Joint K} {a : (j : J) × (K j).Act} (ha : (K a.1).Allows (P a.1) (H a.1) a.2)
    (hx : Backed B C v x) (h : jointStep K x a = some y) : T x.world y.world := by
  obtain ⟨_, b, _, _, hjoined⟩ := hx
  obtain ⟨bs, b', _, hb', hy⟩ := joined_step hK ha hjoined h
  rw [← hjoined.world, ← hy.world]
  exact run_keeps (I := fun c => T b.world c.world) (A := fun _ => True)
    (fun c a d _ hc h => htrans _ _ _ hc (hstep c a d h)) (fun _ _ => trivial) (hrefl _) hb'

end Joint

end async
