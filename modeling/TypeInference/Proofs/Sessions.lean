import TypeInference.Proofs.Coverage

/-!
# Outcomes of a session

An outcome comes from a walk of the body of its owner that starts afresh, and from finishing the
types that the walk recorded (`Session.Produces`). So the typed expressions are those that can be
reached in the body, no type is left open, and numbers have number types.
-/

namespace TypeInference

/-- The body `{ let x = 1; 2.5 }`. -/
def Body.twoNumbers : Body := .ofNodes
  [.literal (.int none), .literal (.float none),
    .block .plain none [.letPat ⟨0⟩ none (some ⟨0⟩)] (some ⟨1⟩)]
  [.bind "x" (.byValue .shared) none] []

namespace Session

variable {id : ConstId}

/-- A program with one constant, whose type is not declared. -/
def twoNumbers : Session where
  program := {
    items := { Items.empty with consts := #[⟨"C", none⟩] }
    known := {}
    bodies := [(.const ⟨0⟩, .twoNumbers, .empty)] }

theorem exists_infer_twoNumbers :
    ∃ o σ, twoNumbers.infer (.const ⟨0⟩) {} = (.ok o, σ) := by
  have hok : (twoNumbers.infer (.const ⟨0⟩) {}).1.toOption.map (fun _ => ()) = some () := by
    decide +kernel
  obtain ⟨o, σ, hrun, -⟩ := Except.exists_ok_of_fst hok
  exact ⟨o, σ, hrun⟩

theorem ofOwner_failsWith (items : Items) (owner : Owner) :
    FailsWith (fun f => ∃ entity i, entity ≠ .variable ∧ f = .dangling entity i)
      (ParamEnv.ofOwner items owner) := by
  cases owner with
  | function id =>
    refine (entry_failsWith ⟨_, _, by decide, rfl⟩).bind fun fn => ?_
    split
    · exact .ok _
    · exact (entry_failsWith ⟨_, _, by decide, rfl⟩).bind fun _ => .ok _
    · exact (entry_failsWith ⟨_, _, by decide, rfl⟩).bind fun _ => .ok _
  | _ => exact .ok _

variable {s : Session} {const : ConstId → SessionM Ty} {owner : Owner} {body : Body} {names : Names}
  {o : Outcome} {σ σ' : SessionState}

/-- What a session does about a body that is not being inferred. -/
def proceed (s : Session) (const : ConstId → SessionM Ty) (owner : Owner) : SessionM Outcome := do
  SessionM.checkCancelled
  match s.program.body? owner with
  | none => throw (.missingBody owner)
  | some (body, names) => whileRunning owner (s.inferBody const owner body names)

theorem start_run (s : Session) (const : ConstId → SessionM Ty) (owner : Owner) (σ : SessionState) :
    s.start const owner σ =
      if owner ∈ σ.running then (.error (.cycle owner), σ) else s.proceed const owner σ := by
  have hrun : s.start const owner σ =
      (if owner ∈ σ.running then throw (.cycle owner) else s.proceed const owner) σ := rfl
  rw [hrun]
  split
  · rfl
  · rfl

theorem whileRunning_run {α : Type} (owner : Owner) (act : SessionM α) (σ : SessionState) :
    whileRunning owner act σ =
      (let p := act { σ with running := owner :: σ.running }
       (p.1, { p.2 with running := p.2.running.tail })) := rfl

theorem whileRunning_of_eq {α : Type} {act : SessionM α} {r : Except Stop α}
    (h : act { σ with running := owner :: σ.running } = (r, σ')) :
    whileRunning owner act σ = (r, { σ' with running := σ'.running.tail }) := by
  rw [whileRunning_run, h]

/-- A session stops before the walk of a body begins, or gives what comes of the walk. -/
theorem start_cases (s : Session) (const : ConstId → SessionM Ty) (owner : Owner)
    (σ : SessionState) :
    (∃ stop σ₁, (∀ f, stop = .fault f → ∃ entity i, entity ≠ .variable ∧ f = .dangling entity i) ∧
      s.start const owner σ = (.error stop, σ₁)) ∨
    ∃ body names env σ₁ r σ₂ σ₃, s.program.body? owner = some (body, names) ∧
      ParamEnv.ofOwner s.program.items owner = .ok env ∧
      (Walk.wholeBody (Walk.visitor const body.walkDepth)).go (s.scope owner body names env) {} σ₁ =
        (r, σ₂) ∧
      s.start const owner σ = (r.map (·.1), σ₃) := by
  rw [start_run]
  split
  · exact .inl ⟨_, _, fun _ h => (by cases h), rfl⟩
  rw [proceed, SessionM.bind_run, SessionM.checkCancelled_run]
  by_cases hcancelled : σ.countCheck.cancelled = true
  · rw [if_pos hcancelled]
    exact .inl ⟨_, _, fun _ h => (by cases h), rfl⟩
  rw [if_neg hcancelled]
  rcases s.program.body? owner with _ | ⟨body, names⟩
  · exact .inl ⟨_, _, fun _ h => (by cases h), rfl⟩
  let running : SessionState := { σ.countCheck with running := owner :: σ.running }
  cases henv : ParamEnv.ofOwner s.program.items owner with
  | error fault =>
    have hrun : s.inferBody const owner body names running = (.error (.fault fault), running) := by
      rw [inferBody, henv]
      rfl
    refine .inl ⟨.fault fault, _, ?_, whileRunning_of_eq hrun⟩
    rintro f ⟨⟩
    exact ofOwner_failsWith _ _ _ henv
  | ok env =>
    let walk : SessionM (Outcome × WalkState) :=
      (Walk.wholeBody (Walk.visitor const body.walkDepth)).go (s.scope owner body names env) {}
    rcases hwalk : walk running with ⟨r, σ₁⟩
    have hrun : s.inferBody const owner body names running = (r.map (·.1), σ₁) := by
      rw [inferBody, henv]
      show (walk >>= fun r => pure r.1) running = _
      rw [SessionM.bind_run, hwalk]
      rcases r with _ | ⟨_, _⟩ <;> rfl
    exact .inr ⟨body, names, env, _, r, σ₁, _, rfl, rfl, hwalk, whileRunning_of_eq hrun⟩

/-- The type of a constant, from the answer for its body. -/
def answerTy (s : Session) (id : ConstId) : Except Stop Outcome → Except Stop Ty
  | .ok o =>
    match s.program.body? (.const id) with
    | some (body, _) => .ok (o.exprTy body.root)
    | none => .ok .unknown
  | .error (.cycle _) | .error (.missingBody _) => .ok .unknown
  | .error stop => .error stop

theorem rootTy_run (s : Session) (id : ConstId) (infer : SessionM Outcome) (σ : SessionState) :
    s.rootTy id infer σ = (s.answerTy id (infer σ).1, (infer σ).2) := by
  -- The body is only inferred once, in the state at hand.
  have hrun : s.rootTy id infer σ = s.rootTy id (fun _ => infer σ) σ := rfl
  rw [hrun]
  rcases infer σ with ⟨e | o, σ₁⟩
  · cases e <;> rfl
  · simp only [rootTy, answerTy]
    rcases s.program.body? (.const id) with _ | ⟨body, names⟩ <;> rfl

theorem answerTy_eq_error {r : Except Stop Outcome} {e : Stop} (h : s.answerTy id r = .error e) :
    r = .error e := by
  rcases r with stop | o
  · cases stop <;> cases h <;> rfl
  · simp only [answerTy] at h
    split at h
    · cases h
    · cases h

theorem rootTy_eq_fault {infer : SessionM Outcome} {f : Fault}
    (h : s.rootTy id infer σ = (.error (.fault f), σ')) :
    ∃ σ₁, infer σ = (.error (.fault f), σ₁) := by
  rw [rootTy_run] at h
  have hfault := answerTy_eq_error (congrArg Prod.fst h)
  exact ⟨(infer σ).2, Prod.ext hfault rfl⟩

/-! ## Where outcomes come from -/

/-- The type of a constant, where the body that uses it is the first to be inferred. -/
def constTy (s : Session) (id : ConstId) : SessionM Ty :=
  s.rootTy id (s.inferWithin s.program.bodies.length (.const id))

/-- A walk of the body of `owner` that starts afresh ends in `w`, and finishing its types gives
`o`. -/
structure Produces (s : Session) (owner : Owner) (body : Body) (scope : Scope) (w : WalkState)
    (o : Outcome) : Prop where
  body_eq : ∃ names env, s.program.body? owner = some (body, names) ∧
    ParamEnv.ofOwner s.program.items owner = .ok env ∧ scope = s.scope owner body names env
  walked : ∃ σ σ', (Walk.entries (Walk.visitor s.constTy body.walkDepth) owner).go scope {} σ =
    (.ok ((), w), σ')
  finished : ∃ state, Infer.finish scope w.toState = .ok (o, state)

theorem exists_produces (h : s.infer owner σ = (.ok o, σ')) :
    ∃ body scope w, s.Produces owner body scope w o := by
  rw [infer, inferWithin] at h
  rcases s.start_cases _ owner σ with
    ⟨stop, _, -, hrun⟩ | ⟨body, names, env, σ₁, r, σ₂, σ₃, hbody, henv, hwhole, hrun⟩
  · cases h.symm.trans hrun
  rcases r with e | ⟨o', w'⟩
  · cases h.symm.trans hrun
  cases h.symm.trans hrun
  rw [Walk.wholeBody_run] at hwhole
  obtain ⟨_, w, σ₄, hwalk, hfinish⟩ := Walk.bind_eq_ok hwhole
  obtain ⟨state, hfinish, -⟩ := Walk.lift_eq_ok hfinish
  exact ⟨body, _, w, ⟨names, env, hbody, henv, rfl⟩, ⟨σ₁, σ₄, hwalk⟩, state, hfinish⟩

theorem wellFormed_start : State.WellFormed {} := ⟨Vars.sound_empty, State.kept_start⟩

namespace Produces

variable {scope : Scope} {w : WalkState}

variable (h : s.Produces owner body scope w o)

include h

theorem scope_body : scope.body = body := by
  obtain ⟨names, env, -, -, rfl⟩ := h.body_eq
  rfl

theorem trace :
    Walk.Trace scope (body.entries owner) {} w.toState := by
  obtain ⟨σ, σ', hwalk⟩ := h.walked
  have hv : (Walk.visitor s.constTy body.walkDepth).Faithful True body :=
    Walk.visitor_faithful (fun _ _ _ _ _ => trivial) _
  exact (Walk.Visits.entries hv).trace h.scope_body wellFormed_start hwalk

theorem records :
    State.Records body (body.From (body.entries owner)) {} w.toState := by
  have hrecords := h.trace.records wellFormed_start
  rwa [h.scope_body] at hrecords

theorem wellFormed : w.WellFormed :=
  (h.records.evolves.spec wellFormed_start).1

end Produces

theorem exists_finished (h : s.infer owner σ = (.ok o, σ')) :
    ∃ body scope w before after last, s.Produces owner body scope w o ∧
      Infer.Finished scope w.toState before after last o := by
  obtain ⟨body, scope, w, h⟩ := exists_produces h
  obtain ⟨state, hfinish⟩ := h.finished
  obtain ⟨before, after, hfinished⟩ := Infer.exists_finished h.wellFormed hfinish
  exact ⟨body, scope, w, before, after, state, h, hfinished⟩

/-! ## Nothing is recorded twice -/

/-- The body of some constant is not a tree. -/
def HasSharedConstant (s : Session) : Prop :=
  ∃ id body names, s.program.body? (.const id) = some (body, names) ∧ ¬ body.TreeShaped (.const id)

theorem unvisited_start (h : body.TreeShaped owner) :
    State.Unvisited body (body.entries owner) {} := by
  obtain ⟨nodes, hlists, hnodup⟩ := h
  exact ⟨nodes, hlists, hnodup, fun _ _ => rfl⟩

/-- A type is only recorded twice in a body that is not a tree. -/
theorem inferWithin_writtenTwice {n i : Nat}
    (h : s.inferWithin n owner σ = (.error (.fault (.writtenTwice i)), σ')) :
    s.HasSharedConstant ∨
      ∃ body names, s.program.body? owner = some (body, names) ∧ ¬ body.TreeShaped owner := by
  induction n generalizing owner σ i σ' with
  | zero => cases h
  | succ n ih =>
    rw [inferWithin] at h
    -- Constants inside the body have bodies of their own.
    have hconst : ∀ id σ i σ', s.rootTy id (s.inferWithin n (.const id)) σ =
        (.error (.fault (.writtenTwice i)), σ') → s.HasSharedConstant := by
      intro id σ i σ' hroot
      obtain ⟨σ₁, hinfer⟩ := rootTy_eq_fault hroot
      rcases ih hinfer with hshared | ⟨body, names, hbody, htree⟩
      · exact hshared
      · exact ⟨id, body, names, hbody, htree⟩
    rcases s.start_cases _ owner σ with
      ⟨stop, _, hstop, hrun⟩ | ⟨body, names, env, σ₁, r, σ₂, σ₃, hbody, -, hwhole, hrun⟩
    · cases h.symm.trans hrun
      obtain ⟨_, _, -, ⟨⟩⟩ := hstop _ rfl
    by_cases htree : body.TreeShaped owner
    swap
    · exact .inr ⟨body, names, hbody, htree⟩
    left
    rcases r with e | ⟨o', w'⟩
    swap
    · cases h.symm.trans hrun
    cases h.symm.trans hrun
    rw [Walk.wholeBody_run] at hwhole
    have hv : (Walk.visitor _ body.walkDepth).Faithful s.HasSharedConstant body :=
      Walk.visitor_faithful hconst body.walkDepth
    rcases Walk.bind_eq_error hwhole with herror | ⟨_, w, σ₄, hrun, hfinish⟩
    · exact (Walk.Visits.entries hv).error rfl wellFormed_start (unvisited_start htree) herror
    · have hwalk := (Walk.Visits.entries hv).ok rfl wellFormed_start hrun
      have hw := (hwalk.evolves.spec wellFormed_start).1
      rw [Walk.lift_run] at hfinish
      split at hfinish
      · cases hfinish
      · next e he =>
        cases hfinish
        exact absurd rfl (Infer.finish_fails hw _ he i)

/-! ## What an outcome covers -/

/-- An outcome has a type for exactly the expressions, and a binding for exactly the binding
patterns, that can be reached in the body; and if the body is a tree, a type is only recorded twice
in the body of some constant that is not. -/
theorem infer_covers (s : Session) (owner : Owner) (body : Body) (names : Names)
    (σ σ' : SessionState) (hbody : s.program.body? owner = some (body, names)) :
    (∀ o, s.infer owner σ = (.ok o, σ') →
      (∀ id : ExprId, o.exprTypes.contains id.index = true ↔
        ∃ r ∈ body.entries owner, body.Reaches r (.expr id)) ∧
      ∀ id : PatId, o.bindings.contains id.index = true ↔
        body.Binds id ∧ ∃ r ∈ body.entries owner, body.Reaches r (.pat id)) ∧
    (body.TreeShaped owner → ∀ i, s.infer owner σ = (.error (.fault (.writtenTwice i)), σ') →
      s.HasSharedConstant) := by
  constructor
  · intro o h
    obtain ⟨body', scope, w, before, after, last, hproduces, hfinished⟩ := exists_finished h
    rcases hproduces.body_eq with ⟨names', env, hbody', -⟩
    rw [hbody] at hbody'
    cases hbody'
    have hrecords := hproduces.records
    constructor
    · intro id
      rw [hfinished.contains_exprTypes, hrecords.exprs]
      exact or_iff_right Bool.false_ne_true
    · intro id
      rw [hfinished.contains_bindings, hrecords.bindings]
      exact or_iff_right Bool.false_ne_true
  · intro htree i h
    rcases inferWithin_writtenTwice h with hshared | ⟨body', names', hbody', hnot⟩
    · exact hshared
    · rw [hbody] at hbody'
      cases hbody'
      exact absurd htree hnot

theorem infer_covers_twoNumbers : Body.twoNumbers.TreeShaped (.const ⟨0⟩) ∧
    ∃ o σ', twoNumbers.infer (.const ⟨0⟩) {} = (.ok o, σ') ∧
      (∀ id : ExprId, o.exprTypes.contains id.index = true ↔
        ∃ r ∈ Body.twoNumbers.entries (.const ⟨0⟩), Body.twoNumbers.Reaches r (.expr id)) ∧
      ∀ id : PatId, o.bindings.contains id.index = true ↔ Body.twoNumbers.Binds id ∧
        ∃ r ∈ Body.twoNumbers.entries (.const ⟨0⟩), Body.twoNumbers.Reaches r (.pat id) := by
  refine ⟨⟨_, .cons rfl (.cons rfl .nil (.cons rfl .nil (.cons rfl .nil .nil))) .nil, ?_⟩, ?_⟩
  · decide
  · rcases exists_infer_twoNumbers with ⟨o, σ', h⟩
    exact ⟨o, σ', h, (infer_covers twoNumbers (.const ⟨0⟩) .twoNumbers .empty {} σ' rfl).1 o h⟩

/-! ## What an outcome leaves open -/

/-- No type of an outcome has a variable, integers have integer types and floats float types; and
numbers get the same defaults in whatever order the recorded types are taken. -/
theorem infer_closed (s : Session) (owner : Owner) (o : Outcome) (σ σ' : SessionState)
    (h : s.infer owner σ = (.ok o, σ')) :
    (∀ ty ∈ o.types, ty.hasVar = false) ∧
    ∃ body scope w, s.Produces owner body scope w o ∧
      (∀ id suffix, (∃ r ∈ body.entries owner, body.Reaches r (.expr id)) →
        body.expr id = .ok (.literal (.int suffix)) →
        ∃ kind, o.exprTypes.get? id.index = some (.int kind)) ∧
      (∀ id suffix, (∃ r ∈ body.entries owner, body.Reaches r (.expr id)) →
        body.expr id = .ok (.literal (.float suffix)) →
        ∃ kind, o.exprTypes.get? id.index = some (.float kind)) ∧
      ∃ before, Infer.settlePending scope w.toState = .ok ((), before) ∧
        ∀ tys : List Ty, tys.Perm (before.exprTypes.values ++ before.bindings.values) →
          Infer.defaultTypes tys scope before =
            Infer.defaultNumericVars scope before := by
  obtain ⟨body, scope, w, before, after, last, hproduces, hfinished⟩ := exists_finished h
  have hw := hproduces.wellFormed
  have hrecords := hproduces.records
  -- A reached expression has a type, which is the closed form of one that suits it.
  have hrecorded {id : ExprId} (hid : ∃ r ∈ body.entries owner, body.Reaches r (.expr id)) :
      ∃ ty r, w.exprTypes.get? id.index = some ty ∧ body.Suits id ty ∧
        last.vars.close ty = .ok r ∧ o.exprTypes.get? id.index = some r := by
    have hcontains : o.exprTypes.contains id.index = true := by
      rw [hfinished.contains_exprTypes, hrecords.exprs]
      exact Or.inr hid
    rcases Option.isSome_iff_exists.1 hcontains with ⟨r, hr⟩
    rcases hfinished.exists_recorded hr with ⟨ty, hty, hclose⟩
    rcases hrecords.suits id ty hty with hnone | hsuits
    · cases hnone
    · exact ⟨ty, r, hty, hsuits, hclose, hr⟩
  refine ⟨hfinished.records.hasVar, body, scope, w, hproduces, ?_, ?_, ?_⟩
  · intro id suffix hid hlit
    rcases hrecorded hid with ⟨ty, r, hty, hsuits, hclose, hr⟩
    obtain ⟨kind, rfl⟩ :=
      hfinished.exists_value_of_kind hw (j := .int) nofun hty (hsuits _ hlit) hclose
    exact ⟨kind, hr⟩
  · intro id suffix hid hlit
    rcases hrecorded hid with ⟨ty, r, hty, hsuits, hclose, hr⟩
    obtain ⟨kind, rfl⟩ :=
      hfinished.exists_value_of_kind hw (j := .float) nofun hty (hsuits _ hlit) hclose
    exact ⟨kind, hr⟩
  · have hlater := (hrecords.evolves.spec wellFormed_start).2
    exact ⟨before, hfinished.settled, fun tys hperm =>
      hfinished.defaultTypes_eq hw (hlater.vars .int).depth_eq (hlater.vars .float).depth_eq hperm⟩

theorem infer_closed_twoNumbers : ∃ o σ', twoNumbers.infer (.const ⟨0⟩) {} = (.ok o, σ') ∧
    (∀ ty ∈ o.types, ty.hasVar = false) ∧ (∃ kind, o.exprTypes.get? 0 = some (.int kind)) ∧
      ∃ kind, o.exprTypes.get? 1 = some (.float kind) := by
  rcases exists_infer_twoNumbers with ⟨o, σ', h⟩
  rcases infer_closed twoNumbers (.const ⟨0⟩) o {} σ' h with
    ⟨hvars, body, scope, w, hproduces, hints, hfloats, -⟩
  rcases hproduces.body_eq with ⟨names, env, ⟨⟩, -⟩
  refine ⟨o, σ', h, hvars, hints ⟨0⟩ none ⟨_, List.mem_singleton_self _, ?_⟩ rfl,
    hfloats ⟨1⟩ none ⟨_, List.mem_singleton_self _, ?_⟩ rfl⟩
  · exact .single ⟨_, rfl, .head _⟩
  · exact .single ⟨_, rfl, .tail _ (.head _)⟩

end Session

end TypeInference
