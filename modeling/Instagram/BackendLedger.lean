-- The backend as a ledger. A call commits at most one batch, as the last thing it does, so
-- the documents of any run are those of its calls one after another: each call that ended
-- without an exception at once, the others not at all.
import Instagram.Ledger
import Instagram.Footprint

namespace instagram

open docs firestore async runs

/-! ## What takes effect -/

/-- A batch that is committed takes effect on the documents, and nothing else does. -/
def backendEffects : Effects Db Store Op Ans where
  lands
    | .commit _, .ok _ => true
    | _, _ => false
  effect
    | .commit ws, docs => commit docs ws
    | _, _ => none
  value := Db.docs

theorem backendEffects_of : backendEffects.Of backend where
  landed o e w w' a h hlands := by
    cases o with
    | get ref => cases hlands
    | newId c => cases hlands
    | commit ws =>
      rcases handle_commit h with ⟨_, _, _, hcommit⟩ | ⟨⟨x, rfl⟩, _⟩
      · exact hcommit
      · cases hlands
  idle o e w w' a h hlands := by
    cases o with
    | get ref => exact congrArg Db.docs (handle_get h).1
    | newId c => exact (handle_newId h).1
    | commit ws =>
      rcases handle_commit h with ⟨rfl, _⟩ | ⟨_, hsame, _⟩
      · cases hlands
      · exact congrArg Db.docs hsame
  poke x := x.elim

theorem endsIt_get (ref : Path) (k : Except DartError Snapshot → Fire Unit) :
    backendEffects.EndsIt (.get ref) k := fun _ h => by cases h

theorem endsIt_newId (c : Path) (k : String → Fire Unit) : backendEffects.EndsIt (.newId c) k :=
  fun _ h => by cases h

theorem endsIt_commit (ws : List Write) :
    backendEffects.EndsIt (.commit ws) (Prog.ofExcept : _ → Fire Unit) := by
  intro a h
  cases a with
  | error x => cases h
  | ok u => rfl

/-! ## A commit is the last thing a call does -/

variable {A : (o : Op) → Ans o → Prop}

theorem runTransaction_endsIt (body : Tx Unit) :
    (runTransaction body).Awaits A backendEffects.EndsIt :=
  runTransaction_awaits fun ws _ => endsIt_commit ws

theorem changeFollow_endsIt (listOp : List Atom → FieldOp Atom) (delta : Int) (my other : String) :
    (changeFollow listOp delta my other).Awaits A backendEffects.EndsIt := by
  unfold changeFollow
  refine get_awaits (endsIt_get _ _) fun mine _ => ?_
  refine get_awaits (endsIt_get _ _) fun others _ => ?_
  exact runTransaction_endsIt _

theorem createNewPost_endsIt (postKey : String) (postData : Doc) :
    (createNewPost postKey postData).Awaits A backendEffects.EndsIt := by
  unfold createNewPost
  refine get_awaits (endsIt_get _ _) fun snapshot _ => ?_
  refine ofExcept_awaits fun ref _ => ?_
  cases ref with
  | none => exact newDoc_awaits (endsIt_newId _ _) fun id _ => runTransaction_endsIt _
  | some author => exact runTransaction_endsIt _

theorem toggleLike_endsIt (postKey userKey : String) :
    (toggleLike postKey userKey).Awaits A backendEffects.EndsIt := by
  refine get_awaits (endsIt_get _ _) fun snapshot _ => ?_
  unfold toggleLikeOn
  split
  · refine ofExcept_awaits fun likes _ => ofExcept_awaits fun liked _ => ?_
    split
    · exact commit_awaits (endsIt_commit _)
    · exact commit_awaits (endsIt_commit _)
  · trivial

/-- Whatever a call reads, it ends as soon as a batch of it is committed. -/
theorem prog_endsIt (c : Call) : c.prog.Awaits A backendEffects.EndsIt := by
  cases c with
  | attemptCreateUser userKey email =>
    refine get_awaits (endsIt_get _ _) fun snapshot _ => ?_
    split
    · exact ofExcept_awaits fun map _ => commit_awaits (endsIt_commit _)
    · trivial
  | followUser my other => exact changeFollow_endsIt _ _ my other
  | unfollowUser my other => exact changeFollow_endsIt _ _ my other
  | createNewPost postKey postData => exact createNewPost_endsIt postKey postData
  | updatePostImageUrl postImg postKey =>
    refine get_awaits (endsIt_get _ _) fun snapshot _ => ?_
    unfold updatePostImageUrlOn
    split
    · exact commit_awaits (endsIt_commit _)
    · trivial
  | toggleLike postKey userKey => exact toggleLike_endsIt postKey userKey
  | createNewComment postKey commentData =>
    refine get_awaits (endsIt_get _ _) fun snapshot _ => ?_
    exact newDoc_awaits (endsIt_newId _ _) fun id _ => runTransaction_endsIt _

/-! ## The ledger of a run -/

/-- The entries of a state: who committed which batch, oldest first. -/
def entries (t : BackendState) : List (Entry Call Op) := backendEffects.entries t.trace

/-- A batch is written down once, by a call that may commit it and has ended well. -/
structure Entered (t : BackendState) (e : Entry Call Op) : Prop where
  batch : ∃ ws, e.op = .commit ws ∧ e.call.MayCommit ws
  ended : t.calls e.id = some (e.call, .ended (.ok ()))

theorem backend_ledger {docs : Store} {as : List BackendAct} {t : BackendState}
    (h : run (step backend) (backendInit docs) as = some t) :
    run (Ledger.land backendEffects.effect) ⟨docs, []⟩ (entries t) =
        some ⟨t.world.docs, entries t⟩ ∧ ∀ e ∈ entries t, Entered t e := by
  have hprog : ∀ c, True → (backend.prog c).Awaits (fun _ _ => True)
      fun o k => c.Guarantee o ∧ backendEffects.EndsIt o k :=
    fun c _ => (prog_awaits c).and (prog_endsIt c)
  obtain ⟨hrun, hallowed, hended⟩ := ledger_of_run (C := fun _ => True)
    (G := fun c o _ => c.Guarantee o) backendEffects_of hprog (fun a _ => starts_any a) h
  refine ⟨hrun, fun e he => ⟨?_, hended e he⟩⟩
  obtain ⟨_, _, hguar⟩ := hallowed e he
  -- only a commit lands, so the operation of an entry is one
  obtain ⟨⟨i, c, o, a⟩, _, hev⟩ := List.mem_filterMap.mp he
  unfold Effects.entry at hev
  split at hev
  · rename_i hlands
    cases hev
    cases o with
    | get ref => cases a <;> cases hlands
    | newId c => cases hlands
    | commit ws => exact ⟨ws, rfl, hguar ws rfl⟩
  · cases hev

/-- The backend refines a ledger. In every state of every run, the documents are what the
committed batches make of the first ones, one after another in the order of the entries. Each
batch is one that its call may commit, no call has two, and a call that raised or has not ended
has none. -/
theorem the_backend_refines_a_ledger (docs : Store) (as : List BackendAct) :
    AllStates (step backend) (fun t =>
      run (Ledger.land backendEffects.effect) ⟨docs, []⟩ (entries t) =
          some ⟨t.world.docs, entries t⟩ ∧
        ((entries t).map Entry.id).Nodup ∧ ∀ e ∈ entries t, Entered t e)
      (backendInit docs) as := by
  intro pre _ t ht
  obtain ⟨hrun, hentered⟩ := backend_ledger ht
  exact ⟨hrun, ids_nodup hrun List.nodup_nil, hentered⟩

/-! ## What no run changes -/

/-- A field changes only by a call that has ended well and that it is in the footprint of. A
call that raised has changed nothing, nor has one that still waits. -/
theorem only_calls_that_end_well_change_a_field (docs : Store) (as : List BackendAct) :
    AllStates (step backend) (fun t => ∀ p f,
      (∀ i c, t.calls i = some (c, .ended (.ok ())) → ¬ c.Footprint p f) →
        fieldAt t.world.docs p f = fieldAt docs p f) (backendInit docs) as := by
  intro pre _ t ht p f hout
  obtain ⟨hrun, hentered⟩ := backend_ledger ht
  refine value_keeps (I := fun v => fieldAt v p f = fieldAt docs p f) (B := Entered t)
    (fun e v v' he hv heffect => ?_) hentered rfl hrun
  obtain ⟨ws, hop, hmay⟩ := he.batch
  rw [hop] at heffect
  rw [fieldAt_of_mayCommit hmay heffect (hout e.id e.call he.ended)]
  exact hv

end instagram
