import TypeInference.Proofs.BodyTrees
import TypeInference.Proofs.WalkSteps

/-!
# What a walk records

A walk *visits* a list of nodes if it records a type for every expression, and a binding for every
binding pattern, that can be reached from them, and for no other (`Walk.Visits`).

What a walk that visits nodes does to the state is its *trace* (`Walk.Trace`): the nodes are recorded
one by one, an expression may be converted once it is recorded, and what is inferred in between is
quiet. What holds of every walk is derived from this.
-/

namespace TypeInference

variable {expected : Option Ty} {lit : Literal} {body : Body} {id : ExprId} {scope : Scope}
  {roots : List Site} {s s' : State}

namespace IdMap

variable {α : Type}

theorem lookup_put (key : Nat) (value : α) (entries : List (Nat × α)) (k : Nat) :
    lookup k (put key value entries) = if k = key then some value else lookup k entries := by
  induction entries with
  | nil => simp [put, lookup, eq_comm]
  | cons entry rest ih =>
    obtain ⟨k', v'⟩ := entry
    simp only [put]
    split
    · simp only [lookup, eq_comm]
    · split
      · next hkey =>
        subst hkey
        by_cases hk : k' = k
        · simp [lookup, hk]
        · simp [lookup, hk, Ne.symm hk]
      · next hkey =>
        simp only [lookup, ih]
        by_cases hk : k' = k
        · subst hk
          simp [hkey]
        · simp [hk]

theorem get?_insert (m : IdMap α) (key : Nat) (value : α) (k : Nat) :
    (m.insert key value).get? k = if k = key then some value else m.get? k :=
  lookup_put ..

theorem contains_insert (m : IdMap α) (key : Nat) (value : α) (k : Nat) :
    (m.insert key value).contains k = true ↔ k = key ∨ m.contains k = true := by
  rw [contains, get?_insert]
  by_cases hk : k = key
  · simp [hk]
  · simp [hk, contains]

end IdMap

/-! ## States -/

/-- The type suits the literal, if that is a number: an integer has an integer type or variable, and
a float likewise. -/
def Literal.Suits : Literal → Ty → Prop
  | .int _, ty => ty.isIntegral = true
  | .float _, ty => ty.isFloat = true
  | _, _ => True

theorem Walk.suits_of_literal {ty : Ty} (h : Infer.Gives scope (literal lit expected) ty) :
    lit.Suits ty := by
  obtain ⟨s, s', h⟩ := h
  cases lit with
  | int suffix =>
    cases suffix with
    | some kind =>
      cases h
      rfl
    | none =>
      replace h : plainInt expected scope s = .ok (ty, s') := h
      unfold plainInt at h
      split at h <;> cases h <;> rfl
  | float suffix =>
    cases suffix with
    | some kind =>
      cases h
      rfl
    | none =>
      replace h : plainFloat expected scope s = .ok (ty, s') := h
      unfold plainFloat at h
      split at h <;> cases h <;> rfl
  | _ => trivial

namespace Body

/-- The nodes that are reached from `roots`. -/
abbrev From (body : Body) (roots : List Site) (n : Site) : Prop := ∃ r ∈ roots, body.Reaches r n

theorem from_append {body : Body} {roots roots' : List Site} {n : Site} :
    body.From (roots ++ roots') n ↔ body.From roots n ∨ body.From roots' n := by
  simp only [From, List.mem_append, or_and_right, exists_or]

/-- The type suits the expression, if that is a literal. -/
def Suits (body : Body) (id : ExprId) (ty : Ty) : Prop :=
  ∀ lit, body.expr id = .ok (.literal lit) → lit.Suits ty

theorem suits_of_not_literal {e : Expr} (hid : body.expr id = .ok e)
    (hlit : ∀ lit, e ≠ .literal lit) (ty : Ty) : body.Suits id ty := by
  intro lit h
  rw [hid] at h
  cases h
  exact absurd rfl (hlit lit)

theorem suits_of_literal {ty : Ty} (hid : body.expr id = .ok (.literal lit))
    (h : Infer.Gives scope (Walk.literal lit expected) ty) : body.Suits id ty := by
  intro lit' hlit
  rw [hid] at hlit
  cases hlit
  exact Walk.suits_of_literal h

end Body

namespace State

variable {body : Body} {roots roots' parts : List Site} {s s' s'' : State} {id : ExprId} {ty : Ty}
  {N N' : Site → Prop}

/-- From `s` to `s'` the nodes in `N` were recorded. -/
structure Records (body : Body) (N : Site → Prop) (s s' : State) : Prop where
  evolves : s.Evolves s'
  exprs : ∀ id : ExprId, s'.exprTypes.contains id.index = true ↔
    s.exprTypes.contains id.index = true ∨ N (.expr id)
  bindings : ∀ id : PatId, s'.bindings.contains id.index = true ↔
    s.bindings.contains id.index = true ∨ body.Binds id ∧ N (.pat id)
  suits : ∀ (id : ExprId) (ty : Ty), s'.exprTypes.get? id.index = some ty →
    s.exprTypes.get? id.index = some ty ∨ body.Suits id ty

/-- A traversal from `roots` meets no expression twice, and none that is recorded. -/
def Unvisited (body : Body) (roots : List Site) (s : State) : Prop :=
  ∃ nodes, body.Lists roots nodes ∧ nodes.Nodup ∧
    ∀ id : ExprId, .expr id ∈ nodes → s.exprTypes.contains id.index = false

/-- What is recorded and what was reported stays the same, and no number variable is new. -/
structure Quiet (s s' : State) : Prop where
  exprTypes : s'.exprTypes = s.exprTypes
  bindings : s'.bindings = s.bindings
  diagnostics : s'.diagnostics = s.diagnostics
  ints : s'.vars.ints.size = s.vars.ints.size
  floats : s'.vars.floats.size = s.vars.floats.size

theorem Quiet.refl (s : State) : s.Quiet s := ⟨rfl, rfl, rfl, rfl, rfl⟩

theorem Quiet.trans (h : s.Quiet s') (h' : s'.Quiet s'') : s.Quiet s'' where
  exprTypes := h'.exprTypes.trans h.exprTypes
  bindings := h'.bindings.trans h.bindings
  diagnostics := h'.diagnostics.trans h.diagnostics
  ints := h'.ints.trans h.ints
  floats := h'.floats.trans h.floats

theorem quiet_of_steps {vars : Vars} (hs : s.WellFormed) (h : s.vars.Steps vars) :
    s.Quiet { s with vars } :=
  ⟨rfl, rfl, rfl, h.size_eq hs.vars .int, h.size_eq hs.vars .float⟩

theorem Records.of_same (hevolves : s.Evolves s') (hexprs : s'.exprTypes = s.exprTypes)
    (hbindings : s'.bindings = s.bindings) : Records body (fun _ => False) s s' where
  evolves := hevolves
  exprs id := by simp [hexprs]
  bindings id := by simp [hbindings]
  suits id ty h := Or.inl (by rwa [hexprs] at h)

theorem Records.trans (h : Records body N s s') (h' : Records body N' s' s'') :
    Records body (fun n => N n ∨ N' n) s s'' where
  evolves := h.evolves.trans h'.evolves
  exprs id := by rw [h'.exprs, h.exprs, or_assoc]
  bindings id := by rw [h'.bindings, h.bindings, or_assoc, and_or_left]
  suits id ty hty := by
    rcases h'.suits id ty hty with hty | hty
    · exact h.suits id ty hty
    · exact .inr hty

/-- Which patterns are recorded that bind no name does not matter. -/
theorem Records.congr (h : Records body N s s')
    (hN : ∀ n, (∀ id, n = .pat id → body.Binds id) → (N n ↔ N' n)) : Records body N' s s' where
  evolves := h.evolves
  exprs id := by rw [h.exprs, hN _ fun _ h => by cases h]
  bindings id := by
    rw [h.bindings]
    refine or_congr_right (and_congr_right fun hbinds => hN _ ?_)
    rintro _ ⟨⟩
    exact hbinds
  suits := h.suits

theorem evolves_exprTypes (s : State) (types : IdMap Ty) :
    s.Evolves { s with exprTypes := types } :=
  .recorded rfl rfl

theorem evolves_bindings (s : State) (types : IdMap Ty) :
    s.Evolves { s with bindings := types } :=
  .recorded rfl rfl

theorem records_expr (s : State) (hsuits : body.Suits id ty) :
    Records body (· = .expr id) s { s with exprTypes := s.exprTypes.insert id.index ty } where
  evolves := evolves_exprTypes s _
  exprs id' := by rw [IdMap.contains_insert, or_comm, Site.expr.injEq, ExprId.index_inj]
  bindings id' := by simp
  suits id' ty' hty := by
    simp only [IdMap.get?_insert] at hty
    split at hty
    · next hid =>
      cases hty
      exact .inr (ExprId.index_inj.1 hid ▸ hsuits)
    · exact .inl hty

theorem records_binding (s : State) {id : PatId} (hbinds : body.Binds id) :
    Records body (· = .pat id) s { s with bindings := s.bindings.insert id.index ty } where
  evolves := evolves_bindings s _
  exprs id' := by simp
  bindings id' := by
    have hid : (body.Binds id' ∧ Site.pat id' = .pat id) ↔ id'.index = id.index := by
      cases id
      cases id'
      constructor
      · rintro ⟨-, ⟨⟩⟩
        rfl
      · rintro rfl
        exact ⟨hbinds, rfl⟩
    rw [IdMap.contains_insert, hid, or_comm]
  suits _ _ hty := .inl hty

theorem Unvisited.left (h : Unvisited body (roots ++ roots') s) : Unvisited body roots s := by
  obtain ⟨nodes, hlists, hnodup, hfresh⟩ := h
  obtain ⟨first, rest, rfl, hfirst, -⟩ := hlists.split
  exact ⟨first, hfirst, hnodup.of_append_left, fun id hid =>
    hfresh id (List.mem_append_left _ hid)⟩

/-- After some nodes are recorded, the others are still unvisited. -/
theorem Unvisited.right (h : Unvisited body (roots ++ roots') s)
    (hrecords : Records body (body.From roots) s s') : Unvisited body roots' s' := by
  obtain ⟨nodes, hlists, hnodup, hfresh⟩ := h
  obtain ⟨first, rest, rfl, hfirst, hrest⟩ := hlists.split
  refine ⟨rest, hrest, hnodup.of_append_right, fun id hid => ?_⟩
  have hold := hfresh id (List.mem_append_right _ hid)
  have hnew : ¬ body.From roots (.expr id) := fun hreach =>
    hnodup.disjoint (hfirst.mem_iff.2 hreach) hid
  rw [Bool.eq_false_iff, Ne, hrecords.exprs, hold]
  simpa using hnew

theorem Unvisited.perm (h : Unvisited body roots s) (hperm : roots.Perm roots') :
    Unvisited body roots' s := by
  obtain ⟨nodes, hlists, hnodup, hfresh⟩ := h
  obtain ⟨nodes', hlists', hnodes⟩ := hlists.perm hperm
  exact ⟨nodes', hlists', hnodes.nodup_iff.1 hnodup, fun id hid => hfresh id (hnodes.mem_iff.2 hid)⟩

/-- An unvisited node is not recorded, nor is it one of those inside it, which are unvisited. -/
theorem Unvisited.inside {site : Site} (h : Unvisited body [site] s)
    (hparts : body.parts site = .ok parts) :
    (∀ id : ExprId, site = .expr id → s.exprTypes.contains id.index = false) ∧
      Unvisited body parts s ∧ ¬ body.From parts site := by
  obtain ⟨nodes, hlists, hnodup, hfresh⟩ := h
  cases hlists with
  | @cons _ parts' below _ _ hparts' hbelow hrest =>
    rw [hparts] at hparts'
    cases hparts'
    cases hrest
    rw [List.append_nil] at hnodup hfresh
    obtain ⟨hnot, hnodup⟩ := List.nodup_cons.1 hnodup
    refine ⟨fun id hid => hfresh id (hid ▸ List.mem_cons_self), ⟨below, hbelow, hnodup, ?_⟩, ?_⟩
    · exact fun id' hid' => hfresh id' (.tail _ hid')
    · exact fun hreach => hnot (hbelow.mem_iff.2 hreach)

theorem Unvisited.insert (h : Unvisited body roots s)
    (hid : ¬ body.From roots (.expr id)) (ty : Ty) :
    Unvisited body roots { s with exprTypes := s.exprTypes.insert id.index ty } := by
  obtain ⟨nodes, hlists, hnodup, hfresh⟩ := h
  refine ⟨nodes, hlists, hnodup, fun id' hid' => ?_⟩
  have hne : id'.index ≠ id.index := by
    intro heq
    rw [ExprId.index_inj.1 heq] at hid'
    exact hid (hlists.mem_iff.1 hid')
  rw [Bool.eq_false_iff, Ne, IdMap.contains_insert, hfresh id' hid']
  simpa using hne

end State

/-! ## Inference -/

/-- Faults other than that a type is recorded twice. -/
def Fault.IsOrdinary (e : Fault) : Prop := ∀ id, e ≠ .writtenTwice id

instance : Fault.Admits Fault.IsOrdinary := ⟨fun _ _ _ h => by cases h⟩

namespace Infer

instance (scope : Scope) : Basis scope Fault.IsOrdinary CacheOp :=
  basis_cacheOp (fun _ h => by cases h) fun _ h => by cases h

instance (scope : Scope) : Basis scope Fault.IsOrdinary NormalizeOp :=
  { normalizes_normalizeOp (fun _ h => by cases h) with exhausted := fun _ h => by cases h }

theorem carries_records :
    Carries fun s s' => s'.exprTypes = s.exprTypes ∧ s'.bindings = s.bindings where
  refl _ := ⟨rfl, rfl⟩
  trans h h' := ⟨h'.1.trans h.1, h'.2.trans h.2⟩
  vars _ := ⟨rfl, rfl⟩
  recorded h := ⟨h.exprTypes, h.bindings⟩
  probed _ _ h := h
  committed _ _ h := h

theorem transports_quiet : Transports State.Quiet where
  refl := .refl
  trans h h' := h.trans h'
  steps hs h := State.quiet_of_steps hs h
  freshTy _ := ⟨rfl, rfl, rfl, rfl, rfl⟩
  probed hs hwork h := by
    rw [((hwork.spec (State.wellFormed_opened hs)).2).rollback_eq]
    exact ⟨h.exprTypes, h.bindings, h.diagnostics, rfl, rfl⟩
  committed _ _ h := ⟨h.exprTypes, h.bindings, h.diagnostics, h.ints, h.floats⟩

theorem transports_adjustments : Transports fun s s' => s'.adjustments = s.adjustments where
  refl _ := rfl
  trans h h' := h'.trans h
  steps _ _ := rfl
  freshTy _ := rfl
  probed _ _ h := h
  committed _ _ h := h

namespace Regular

variable {scope : Scope} {α : Type} {x : Infer α} {s s' : State} {a : α}

theorem keeps_records (hx : Regular scope Fault.IsOrdinary (Reporting CacheOp) x)
    (hs : s.WellFormed) (h : x scope s = .ok (a, s')) :
    s.Evolves s' ∧ s'.exprTypes = s.exprTypes ∧ s'.bindings = s.bindings := by
  refine hx.spec carries_records (fun hx => hx.relates carries_records fun hx => ?_) hs h
  refine hx.spec.imp ?_
  rintro _ _ ⟨_, rfl⟩
  exact ⟨rfl, rfl⟩

/-- Work that reports nothing leaves what is recorded. -/
theorem quiet (hx : Regular scope Fault.IsOrdinary (Noting CacheOp) x) (hs : s.WellFormed)
    (h : x scope s = .ok (a, s')) : s.Evolves s' ∧ s.Quiet s' := by
  refine hx.relates transports_quiet (fun hx => hx.relates (·.toSameTypes) ?_ fun hx => ?_) hs h
  · intro s s' h
    exact ⟨h.exprTypes, h.bindings, h.diagnostics, by rw [h.vars], by rw [h.vars]⟩
  · refine hx.spec.imp ?_
    rintro _ _ ⟨_, rfl⟩
    exact ⟨rfl, rfl, rfl, rfl, rfl⟩

theorem keeps_adjustments (hx : Regular scope Fault.IsOrdinary (Filing CacheOp) x)
    (hs : s.WellFormed) (h : x scope s = .ok (a, s')) : s'.adjustments = s.adjustments := by
  refine (hx.relates transports_adjustments
    (fun hx => hx.relates (·.toSameTypes) ?_ fun hx => ?_) hs h).2
  · exact fun h => h.adjustments
  · refine hx.spec.imp ?_
    rintro _ _ ⟨_, rfl⟩
    rfl

/-- Only recording a type can fail for one that is recorded twice. -/
theorem fails_ordinary (hx : Regular scope Fault.IsOrdinary (Reporting CacheOp) x) :
    Fails scope Fault.IsOrdinary x :=
  hx.failsWith fun h => ⟨h.fails fun h => h.fails, h.relates carries_true fun h => h.relates⟩

end Regular

end Infer

/-! ## Traces -/

namespace Walk

open Infer

/-- What a walk of the nodes `roots` does to the state. -/
inductive Trace (scope : Scope) : List Site → State → State → Prop
  | quiet {s s' : State} : s.Evolves s' → s.Quiet s' → Trace scope [] s s'
  | trans {roots roots' : List Site} {s s' s'' : State} : Trace scope roots s s' →
    Trace scope roots' s' s'' → Trace scope (roots ++ roots') s s''
  | perm {roots roots' : List Site} {s s' : State} : Trace scope roots s s' →
    roots.Perm roots' → Trace scope roots' s s'
  /-- An expression is recorded after the nodes inside it. -/
  | exprAfter {id : ExprId} {ty : Ty} {parts : List Site} {s s' : State} :
    scope.body.parts (.expr id) = .ok parts → scope.body.Suits id ty → Trace scope parts s s' →
    s'.exprTypes.contains id.index = false →
    Trace scope [.expr id] s { s' with exprTypes := s'.exprTypes.insert id.index ty }
  /-- An expression is recorded before the nodes inside it. -/
  | exprBefore {id : ExprId} {ty : Ty} {parts : List Site} {s s' : State} :
    scope.body.parts (.expr id) = .ok parts → scope.body.Suits id ty →
    s.exprTypes.contains id.index = false →
    Trace scope parts { s with exprTypes := s.exprTypes.insert id.index ty } s' →
    Trace scope [.expr id] s s'
  /-- The number variable of a literal is recorded at once. -/
  | literal {id : ExprId} {lit : Literal} {expected : Option Ty} {ty : Ty} {s s' : State} :
    scope.body.expr id = .ok (.literal lit) → literal lit expected scope s = .ok (ty, s') →
    s'.exprTypes.contains id.index = false →
    Trace scope [.expr id] s { s' with exprTypes := s'.exprTypes.insert id.index ty }
  | binding {id : PatId} {ty : Ty} {parts : List Site} {s s' : State} :
    scope.body.parts (.pat id) = .ok parts → scope.body.Binds id →
    Trace scope parts { s with bindings := s.bindings.insert id.index ty } s' →
    Trace scope [.pat id] s s'
  | pat {id : PatId} {parts : List Site} {s s' : State} :
    scope.body.parts (.pat id) = .ok parts → ¬ scope.body.Binds id → Trace scope parts s s' →
    Trace scope [.pat id] s s'
  | coerce {id : ExprId} {source target : Ty} {ok : Bool} {s s' s'' : State} :
    Trace scope [.expr id] s s' → coerce id source target scope s' = .ok (ok, s'') →
    Trace scope [.expr id] s s''
  | variantShape {id : PatId} {expected : Ty} {shape : Option (Shape × Subst)} {s s' : State} :
    variantShape id expected scope s = .ok (shape, s') → Trace scope [] s s'
  | cannotDeref (id : ExprId) (ty : Ty) (s : State) :
    Trace scope [] s { s with diagnostics := s.diagnostics ++ [.cannotDeref id ty] }

/-- A trace records the nodes that are reached from those it visits. -/
theorem Trace.records (hs : s.WellFormed) (h : Trace scope roots s s') :
    State.Records scope.body (scope.body.From roots) s s' := by
  have hquiet {s s' : State} (h : State.Records scope.body (fun _ => False) s s') :
      State.Records scope.body (scope.body.From []) s s' :=
    h.congr fun _ _ => by simp
  have hsame {α : Type} {x : Infer α} {a : α} {s s' : State}
      (hx : Regular scope Fault.IsOrdinary (Reporting CacheOp) x) (hs : s.WellFormed)
      (h : x scope s = .ok (a, s')) : State.Records scope.body (fun _ => False) s s' := by
    obtain ⟨hevolves, hexprs, hbindings⟩ := hx.keeps_records hs h
    exact .of_same hevolves hexprs hbindings
  have hnode {site n : Site} {parts : List Site} (h : scope.body.parts site = .ok parts) :
      n = site ∨ scope.body.From parts n ↔ scope.body.From [site] n := by
    simp only [Body.From, List.mem_singleton, exists_eq_left, Body.reaches_iff h]
  induction h with
  | quiet hevolves hsilent => exact hquiet (.of_same hevolves hsilent.exprTypes hsilent.bindings)
  | trans _ _ ih ih' =>
    have hfirst := ih hs
    exact (hfirst.trans (ih' (hfirst.evolves.spec hs).1)).congr fun _ _ => Body.from_append.symm
  | perm _ hperm ih => exact (ih hs).congr fun _ _ => by simp only [Body.From, hperm.mem_iff]
  | exprAfter hparts hsuits _ _ ih =>
    exact ((ih hs).trans (State.records_expr _ hsuits)).congr fun _ _ => or_comm.trans (hnode hparts)
  | @exprBefore _ _ _ s _ hparts hsuits _ _ ih =>
    have hrest := ih ((s.evolves_exprTypes _).spec hs).1
    exact ((s.records_expr hsuits).trans hrest).congr fun _ _ => hnode hparts
  | @literal _ lit expected _ s s' hid hrun _ =>
    have hsuits := Body.suits_of_literal hid ⟨s, s', hrun⟩
    have hfirst := hquiet (hsame .literal hs hrun)
    exact (hfirst.trans (State.records_expr _ hsuits)).congr fun _ _ =>
      or_comm.trans (hnode (Body.parts_expr hid))
  | @binding _ _ _ s _ hparts hbinds _ ih =>
    have hrest := ih ((s.evolves_bindings _).spec hs).1
    exact ((s.records_binding hbinds).trans hrest).congr fun _ _ => hnode hparts
  | pat hparts hbinds _ ih =>
    refine (ih hs).congr fun n hn => ?_
    rw [← hnode hparts, or_iff_right]
    exact fun hid => hbinds (hn _ hid)
  | coerce _ hrun ih =>
    have hfirst := ih hs
    refine (hfirst.trans (hsame .coerce (hfirst.evolves.spec hs).1 hrun)).congr fun _ _ => ?_
    exact or_iff_left id
  | variantShape hrun => exact hquiet (hsame .variantShape hs hrun)
  | cannotDeref id ty s => exact hquiet (.of_same (.recorded rfl rfl) rfl rfl)

theorem Trace.wellFormed (h : Trace scope roots s s') (hs : s.WellFormed) : s'.WellFormed :=
  ((h.records hs).evolves.spec hs).1

end Walk

/-! ## Walks -/

theorem SessionM.bind_run {α β : Type} (x : SessionM α) (f : α → SessionM β) (σ : SessionState) :
    (x >>= f) σ = match x σ with
      | (.ok a, σ₁) => f a σ₁
      | (.error e, σ₁) => (.error e, σ₁) := by
  simp only [bind, ExceptT.bind, ExceptT.mk, StateT.bind]
  rcases x σ with ⟨_ | _, _⟩ <;> rfl

theorem SessionM.checkCancelled_run (σ : SessionState) :
    SessionM.checkCancelled σ =
      if σ.countCheck.cancelled then (.error .cancelled, σ.countCheck)
      else (.ok (), σ.countCheck) := by
  have hrun : SessionM.checkCancelled σ =
      (if σ.countCheck.cancelled then throw .cancelled else pure () : SessionM Unit)
        σ.countCheck := rfl
  rw [hrun]
  split <;> rfl

namespace WalkState

def jump (w : WalkState) (j : Jumps) : WalkState := { w with toJumps := j }

end WalkState

namespace Walk

open Infer

variable {α β : Type} {twice : Prop} {body : Body} {roots roots' : List Site} {scope : Scope}
  {w w' : WalkState} {σ σ' : SessionState} {x : Infer α} {f : α → Walk β} {e : Stop} {a : α}
  {id : ExprId} {ty : Ty}

theorem bind_apply (x : Walk α) (f : α → Walk β) (scope : Scope) (w : WalkState)
    (σ : SessionState) :
    (x >>= f) scope w σ = match x scope w σ with
      | ((.ok a, w₁), σ₁) => f a scope w₁ σ₁
      | ((.error e, w₁), σ₁) => ((.error e, w₁), σ₁) := by
  show ((x scope >>= fun a => f a scope) : ExceptT Stop (StateT WalkState _) _) w σ = _
  simp only [bind, ExceptT.bind, ExceptT.mk, StateT.bind]
  rcases x scope w σ with ⟨⟨_ | _, _⟩, _⟩ <;> rfl

theorem bind_run (x : Walk α) (f : α → Walk β) (scope : Scope) (w : WalkState) (σ : SessionState) :
    (x >>= f).go scope w σ = match x.go scope w σ with
      | (.ok (a, w₁), σ₁) => (f a).go scope w₁ σ₁
      | (.error e, σ₁) => (.error e, σ₁) := by
  simp only [go, bind_apply]
  rcases x scope w σ with ⟨⟨_ | _, _⟩, _⟩ <;> rfl

theorem go_bind (x : Walk α) (f : α → Walk β) (scope : Scope) (w : WalkState) :
    (x >>= f).go scope w = (x.go scope w >>= fun p => (f p.1).go scope p.2 : SessionM _) := by
  funext σ
  rw [bind_run, SessionM.bind_run]
  rcases x.go scope w σ with ⟨_ | _, _⟩ <;> rfl

theorem bind_eq_ok {x : Walk α} {b : β} (h : (x >>= f).go scope w σ = (.ok (b, w'), σ')) :
    ∃ a w₁ σ₁, x.go scope w σ = (.ok (a, w₁), σ₁) ∧ (f a).go scope w₁ σ₁ = (.ok (b, w'), σ') := by
  rw [bind_run] at h
  split at h
  · next a w₁ σ₁ hx => exact ⟨a, w₁, σ₁, hx, h⟩
  · cases h

theorem bind_eq_error {x : Walk α} (h : (x >>= f).go scope w σ = (.error e, σ')) :
    x.go scope w σ = (.error e, σ') ∨
      ∃ a w₁ σ₁, x.go scope w σ = (.ok (a, w₁), σ₁) ∧ (f a).go scope w₁ σ₁ = (.error e, σ') := by
  rw [bind_run] at h
  split at h
  · next a w₁ σ₁ hx => exact .inr ⟨a, w₁, σ₁, hx, h⟩
  · next e' σ₁ hx =>
    cases h
    exact .inl hx

theorem lift_run (x : Infer α) (scope : Scope) (w : WalkState) (σ : SessionState) :
    (liftM x : Walk α).go scope w σ = match x scope w.toState with
      | .ok (a, s) => (.ok (a, { w with toState := s }), σ)
      | .error e => (.error (.fault e), σ) := by
  show (liftInfer x).go scope w σ = _
  simp only [go, liftInfer]
  rcases x scope w.toState with _ | _ <;> rfl

theorem lift_eq_ok (h : (liftM x : Walk α).go scope w σ = (.ok (a, w'), σ')) :
    ∃ s, x scope w.toState = .ok (a, s) ∧ w' = { w with toState := s } := by
  rw [lift_run] at h
  split at h
  · next b s hrun =>
    cases h
    exact ⟨s, hrun, rfl⟩
  · cases h

theorem session_run (x : SessionM α) (scope : Scope) (w : WalkState) (σ : SessionState) :
    (liftM x : Walk α).go scope w σ = match x σ with
      | (.ok a, σ') => (.ok (a, w), σ')
      | (.error e, σ') => (.error e, σ') := by
  show (liftSession x).go scope w σ = _
  simp only [go, liftSession]
  rcases x σ with ⟨_ | _, _⟩ <;> rfl

theorem go_session (x : SessionM α) (scope : Scope) (w : WalkState) :
    (liftM x : Walk α).go scope w = (x >>= fun a => pure (a, w) : SessionM _) := by
  funext σ
  rw [session_run, SessionM.bind_run]
  rcases x σ with ⟨_ | _, _⟩ <;> rfl

/-- Inside a boundary jumps lead elsewhere, and outside they lead where they did. -/
theorem inside_apply (b : Boundary) (x : Walk α) (scope : Scope) (w : WalkState)
    (σ : SessionState) :
    inside b x scope w σ =
      (let r := x scope (w.jump (b.enter w.toJumps)) σ
       ((r.1.1.map fun a => (a, r.1.2.toJumps), r.1.2.jump (b.leave w.toJumps r.1.2.toJumps)),
        r.2)) := by
  have hrun : inside b x scope w σ =
      inside b (fun _ _ _ => x scope (w.jump (b.enter w.toJumps)) σ) scope w σ := rfl
  rw [hrun]
  rcases x scope (w.jump (b.enter w.toJumps)) σ with ⟨⟨_ | _, _⟩, _⟩ <;> rfl

theorem inside_run (b : Boundary) (x : Walk α) (scope : Scope) (w : WalkState) :
    (inside b x).go scope w = (do
      let (a, w₁) ← x.go scope (w.jump (b.enter w.toJumps))
      return ((a, w₁.toJumps), w₁.jump (b.leave w.toJumps w₁.toJumps)) : SessionM _) := by
  funext σ
  show _ = (x.go scope (w.jump _) >>= fun p => Pure.pure (_, _)) σ
  simp only [SessionM.bind_run, go, inside_apply]
  rcases x scope (w.jump (b.enter w.toJumps)) σ with ⟨⟨_ | _, _⟩, _⟩ <;> rfl

section

variable {x : Walk α} {b : Boundary} {r : α × Jumps}

theorem inside_eq_ok (h : (inside b x).go scope w σ = (.ok (r, w'), σ')) :
    ∃ w₁, x.go scope (w.jump (b.enter w.toJumps)) σ = (.ok (r.1, w₁), σ') ∧
      r.2 = w₁.toJumps ∧ w' = w₁.jump (b.leave w.toJumps w₁.toJumps) := by
  rw [inside_run, SessionM.bind_run] at h
  split at h
  · next p σ₁ hrun =>
    cases h
    exact ⟨_, hrun, rfl, rfl⟩
  · cases h

theorem inside_eq_error (h : (inside b x).go scope w σ = (.error e, σ')) :
    x.go scope (w.jump (b.enter w.toJumps)) σ = (.error e, σ') := by
  rw [inside_run, SessionM.bind_run] at h
  split at h
  · cases h
  · next hrun =>
    cases h
    exact hrun

end

theorem writeExprTy_run (id : ExprId) (ty : Ty) (scope : Scope) (s : State) :
    writeExprTy id ty scope s =
      if s.exprTypes.contains id.index = true then .error (.writtenTwice id.index)
      else .ok ((), { s with exprTypes := s.exprTypes.insert id.index ty }) := by
  have hrun : writeExprTy id ty scope s =
      (if s.exprTypes.contains id.index = true then
        (do
          throw (.writtenTwice id.index)
          set { s with exprTypes := s.exprTypes.insert id.index ty } : Infer PUnit)
      else set { s with exprTypes := s.exprTypes.insert id.index ty }) scope s := rfl
  rw [hrun]
  split <;> rfl

theorem writeExprTy_eq_ok
    (h : (liftM (writeExprTy id ty) : Walk Unit).go scope w σ = (.ok ((), w'), σ')) :
    w.exprTypes.contains id.index = false ∧
      w' = { w with exprTypes := w.exprTypes.insert id.index ty } := by
  rw [lift_run, writeExprTy_run] at h
  by_cases hid : w.exprTypes.contains id.index = true
  · rw [if_pos hid] at h
    cases h
  · rw [if_neg hid] at h
    cases h
    exact ⟨Bool.not_eq_true _ ▸ hid, rfl⟩

theorem writeExprTy_ne_error (hid : w.exprTypes.contains id.index = false) :
    (liftM (writeExprTy id ty) : Walk Unit).go scope w σ ≠ (.error e, σ') := by
  intro h
  rw [lift_run, writeExprTy_run, if_neg (by simp [hid])] at h
  cases h

theorem lift_ne_twice {id : Nat} (hx : Regular scope Fault.IsOrdinary (Reporting CacheOp) x)
    (hw : w.WellFormed) :
    (liftM x : Walk α).go scope w σ ≠ (.error (.fault (.writtenTwice id)), σ') := by
  intro h
  rw [lift_run] at h
  split at h
  · cases h
  · next hrun =>
    cases h
    exact absurd rfl (hx.fails_ordinary hw _ hrun id)

theorem session_keeps {x : SessionM α} (h : (liftM x : Walk α).go scope w σ = (.ok (a, w'), σ')) :
    w'.toState = w.toState := by
  rw [session_run] at h
  split at h
  · cases h
    rfl
  · cases h

/-- `a` is a result of the walk in a scope of the body. -/
def Gives (body : Body) (x : Walk α) (a : α) : Prop :=
  ∃ (scope : Scope) (w w' : WalkState) (σ σ' : SessionState), scope.body = body ∧
    x.go scope w σ = (.ok (a, w'), σ')

theorem Gives.of_lift (h : Gives body (liftM x : Walk α) a) : ∃ scope, Infer.Gives scope x a := by
  obtain ⟨scope, w, w', σ, σ', -, h⟩ := h
  obtain ⟨s, hx, -⟩ := lift_eq_ok h
  exact ⟨scope, w.toState, s, hx⟩

theorem Gives.of_except {x : Except Fault α} (h : Gives body (liftM x : Walk α) a) : x = .ok a := by
  obtain ⟨scope, s, s', hx⟩ := Gives.of_lift (x := liftM x) h
  exact (Infer.lift_eq_ok hx).1

/-- The walk records what can be reached from `roots`. It only records a type twice if `twice`
holds, or if a traversal from `roots` would meet a node twice or one that was recorded before. -/
structure Visits (twice : Prop) (body : Body) (roots : List Site) (x : Walk α) : Prop where
  trace : ∀ ⦃scope w σ a w' σ'⦄, scope.body = body → w.WellFormed →
    x.go scope w σ = (.ok (a, w'), σ') → Trace scope roots w.toState w'.toState
  error : ∀ ⦃scope w σ id σ'⦄, scope.body = body → w.WellFormed →
    State.Unvisited body roots w.toState →
    x.go scope w σ = (.error (.fault (.writtenTwice id)), σ') → twice

namespace Visits

variable {x : Walk α} {f : α → Walk β} {id : ExprId} {ty : Ty} {parts : List Site}

theorem ok (hx : Visits twice body roots x) {a : α} (hbody : scope.body = body) (hw : w.WellFormed)
    (h : x.go scope w σ = (.ok (a, w'), σ')) :
    State.Records body (body.From roots) w.toState w'.toState := by
  subst hbody
  exact (hx.trace rfl hw h).records hw

/-- One walk after another visits the nodes of both. -/
theorem bindOf (hx : Visits twice body roots x)
    (hf : ∀ a, Gives body x a → Visits twice body roots' (f a)) :
    Visits twice body (roots ++ roots') (x >>= f) where
  trace := by
    intro scope w σ b w' σ' hbody hw h
    obtain ⟨a, w₁, σ₁, hrun, h⟩ := bind_eq_ok h
    have hfirst := hx.trace hbody hw hrun
    have hw₁ : w₁.WellFormed := hfirst.wellFormed hw
    exact hfirst.trans ((hf a ⟨scope, w, w₁, σ, σ₁, hbody, hrun⟩).trace hbody hw₁ h)
  error := by
    intro scope w σ id σ' hbody hw hfresh h
    rcases bind_eq_error h with h | ⟨a, w₁, σ₁, hrun, h⟩
    · exact hx.error hbody hw hfresh.left h
    · have hfirst := hx.ok hbody hw hrun
      have hw₁ := (hfirst.evolves.spec hw).1
      exact (hf a ⟨scope, w, w₁, σ, σ₁, hbody, hrun⟩).error hbody hw₁ (hfresh.right hfirst) h

theorem bind (hx : Visits twice body roots x) (hf : ∀ a, Visits twice body roots' (f a)) :
    Visits twice body (roots ++ roots') (x >>= f) :=
  hx.bindOf fun a _ => hf a

theorem perm (h : Visits twice body roots x) (hperm : roots.Perm roots') :
    Visits twice body roots' x where
  trace _ _ _ _ _ _ hbody hw hrun := (h.trace hbody hw hrun).perm hperm
  error _ _ _ _ _ hbody hw hfresh hrun := h.error hbody hw (hfresh.perm hperm.symm) hrun

/-! ### Walks that visit nothing -/

theorem of_unchanged
    (hok : ∀ ⦃scope w σ a w' σ'⦄, x.go scope w σ = (.ok (a, w'), σ') → w'.toState = w.toState)
    (herror : ∀ ⦃scope w σ id σ'⦄, scope.body = body →
      x.go scope w σ = (.error (.fault (.writtenTwice id)), σ') → twice) :
    Visits twice body [] x where
  trace := by
    intro scope w σ a w' σ' _ _ h
    rw [hok h]
    exact .quiet (.refl _) (.refl _)
  error _ _ _ _ _ hbody _ _ h := herror hbody h

theorem of_run (hx : ∀ scope w σ, ∃ a w' σ', x.go scope w σ = (.ok (a, w'), σ') ∧
    w'.toState = w.toState) : Visits twice body [] x := by
  refine of_unchanged ?_ ?_
  · intro scope w σ a w' σ' h
    obtain ⟨b, w₁, σ₁, hrun, hsame⟩ := hx scope w σ
    rw [hrun] at h
    cases h
    exact hsame
  · intro scope w σ id σ' _ h
    obtain ⟨b, w₁, σ₁, hrun, -⟩ := hx scope w σ
    rw [hrun] at h
    cases h

theorem pure (a : α) : Visits twice body [] (pure a : Walk α) :=
  of_run fun _ _ _ => ⟨_, _, _, rfl, rfl⟩

theorem infer {x : Infer α} (hx : ∀ scope, Regular scope Fault.IsOrdinary (Reporting CacheOp) x)
    (htrace : ∀ ⦃scope s a s'⦄, s.WellFormed → x scope s = .ok (a, s') → Trace scope [] s s') :
    Visits twice body [] (liftM x : Walk α) where
  trace := by
    intro scope w σ a w' σ' _ hw h
    obtain ⟨s, hrun, rfl⟩ := lift_eq_ok h
    exact htrace hw hrun
  error _ _ _ _ _ _ hw _ h := absurd h (lift_ne_twice (hx _) hw)

theorem lift {x : Infer α} (hx : ∀ scope, Regular scope Fault.IsOrdinary (Noting CacheOp) x) :
    Visits twice body [] (liftM x : Walk α) := by
  refine infer (fun scope => (hx scope).reporting) fun scope s a s' hs h => ?_
  obtain ⟨hevolves, hquiet⟩ := (hx scope).quiet hs h
  exact .quiet hevolves hquiet

theorem variantShape {id : PatId} {expected : Ty} :
    Visits twice body [] (liftM (variantShape id expected) : Walk _) :=
  infer (fun _ => .variantShape) fun _ _ _ _ _ h => .variantShape h

theorem reportCannotDeref : Visits twice body [] (liftM (reportCannotDeref id ty) : Walk Unit) := by
  refine infer (fun _ => .report) fun _ _ _ _ _ h => ?_
  cases h
  exact .cannotDeref id ty _

theorem readBind {f : Scope → Walk β} (hf : ∀ scope, scope.body = body →
    Visits twice body roots (f scope)) : Visits twice body roots (read >>= f) where
  trace _ _ _ _ _ _ hbody hw h := (hf _ hbody).trace hbody hw h
  error _ _ _ _ _ hbody hw hfresh h := (hf _ hbody).error hbody hw hfresh h

theorem session {x : SessionM α}
    (hx : ∀ σ id σ', x σ = (.error (.fault (.writtenTwice id)), σ') → twice) :
    Visits twice body [] (liftM x : Walk α) := by
  refine of_unchanged (fun _ _ _ _ _ _ => session_keeps) ?_
  · intro scope w σ id σ' _ h
    rw [session_run] at h
    split at h
    · cases h
    · next e σ₁ hx' =>
      cases h
      exact hx σ id _ hx'

theorem lookUpPath : Visits twice body [] (lookUpPath id) :=
  of_run fun _ _ _ => ⟨_, _, _, rfl, rfl⟩

theorem jumps : Visits twice body [] jumps := of_run fun _ _ _ => ⟨_, _, _, rfl, rfl⟩

theorem setYielded : Visits twice body [] (setYielded ty) :=
  of_run fun _ _ _ => ⟨_, _, _, rfl, rfl⟩

/-! ### Combinations -/

theorem inside (hx : Visits twice body roots x) (b : Boundary) :
    Visits twice body roots (inside b x) where
  trace scope w σ r w' σ' hbody hw h := by
    obtain ⟨w₁, hrun, -, rfl⟩ := inside_eq_ok h
    have htrace := hx.trace hbody (w := w.jump (b.enter w.toJumps)) hw hrun
    exact htrace
  error scope w σ id σ' hbody hw hfresh h :=
    hx.error hbody (w := w.jump (b.enter w.toJumps)) hw hfresh (inside_eq_error h)

theorem checkCancelled : Visits twice body [] checkCancelled := by
  refine session fun σ id σ' h => ?_
  rw [SessionM.checkCancelled_run] at h
  split at h
  · cases h
  · cases h

/-! ### Recording -/

/-- An expression is recorded once the nodes inside it are. -/
theorem recordAfter {x : Walk Ty} (hparts : body.parts (.expr id) = .ok parts)
    (hx : Visits twice body parts x) (hsuits : ∀ ty, body.Suits id ty) :
    Visits twice body [.expr id] (do
      let ty ← x
      writeExprTy id ty
      return ty) where
  trace := by
    intro scope w σ a w' σ' hbody hw h
    obtain ⟨ty, w₁, σ₁, hrun, h⟩ := bind_eq_ok h
    obtain ⟨_, w₂, σ₂, hwrite, ⟨⟩⟩ := bind_eq_ok h
    obtain ⟨hid, rfl⟩ := writeExprTy_eq_ok hwrite
    subst hbody
    exact .exprAfter hparts (hsuits a) (hx.trace rfl hw hrun) hid
  error := by
    intro scope w σ e σ' hbody hw hfresh h
    obtain ⟨hid, hfresh, hreach⟩ := hfresh.inside hparts
    rcases bind_eq_error h with h | ⟨ty, w₁, σ₁, hrun, h⟩
    · exact hx.error hbody hw hfresh h
    rcases bind_eq_error h with h | ⟨_, w₂, σ₂, -, h⟩
    · -- The expression was not recorded before, nor is it one of those inside it.
      have hnew : w₁.exprTypes.contains id.index = false := by
        rw [Bool.eq_false_iff, Ne, (hx.ok hbody hw hrun).exprs, hid id rfl]
        simpa using hreach
      exact absurd h (writeExprTy_ne_error hnew)
    · cases h

theorem recordLiteral (hid : body.expr id = .ok (.literal lit)) :
    Visits twice body [.expr id] (do
      let ty ← (literal lit expected : Walk Ty)
      writeExprTy id ty
      return ty) where
  trace := by
    intro scope w σ a w' σ' hbody hw h
    obtain ⟨ty, w₁, σ₁, hrun, h⟩ := bind_eq_ok h
    obtain ⟨_, w₂, σ₂, hwrite, ⟨⟩⟩ := bind_eq_ok h
    obtain ⟨hnew, rfl⟩ := writeExprTy_eq_ok hwrite
    subst hbody
    obtain ⟨s, hlit, rfl⟩ := lift_eq_ok hrun
    exact .literal hid hlit hnew
  error := by
    intro scope w σ e σ' hbody hw hfresh h
    obtain ⟨hnew, -, -⟩ := hfresh.inside (Body.parts_expr hid)
    rcases bind_eq_error h with h | ⟨ty, w₁, σ₁, hrun, h⟩
    · exact absurd h (lift_ne_twice .literal hw)
    rcases bind_eq_error h with h | ⟨_, w₂, σ₂, -, h⟩
    · refine absurd h (writeExprTy_ne_error ?_)
      obtain ⟨s, hlit, rfl⟩ := lift_eq_ok hrun
      have hregular : Regular scope Fault.IsOrdinary (Reporting CacheOp)
        (literal lit expected) := .literal
      rw [(hregular.keeps_records hw hlit).2.1]
      exact hnew id rfl
    · cases h

/-- An expression is recorded, and then the nodes inside it are. -/
theorem recordBefore (hparts : body.parts (.expr id) = .ok parts)
    (hsuits : body.Suits id ty) (hx : Visits twice body parts x) : Visits twice body [.expr id] (do
      writeExprTy id ty
      x) where
  trace := by
    intro scope w σ a w' σ' hbody hw h
    obtain ⟨_, w₁, σ₁, hwrite, h⟩ := bind_eq_ok h
    obtain ⟨hid, rfl⟩ := writeExprTy_eq_ok hwrite
    have hw₁ := ((w.evolves_exprTypes (w.exprTypes.insert id.index ty)).spec hw).1
    subst hbody
    exact .exprBefore hparts hsuits hid (hx.trace rfl hw₁ h)
  error := by
    intro scope w σ e σ' hbody hw hfresh h
    obtain ⟨hid, hfresh, hreach⟩ := hfresh.inside hparts
    rcases bind_eq_error h with h | ⟨_, w₁, σ₁, hwrite, h⟩
    · exact absurd h (writeExprTy_ne_error (hid id rfl))
    · obtain ⟨-, rfl⟩ := writeExprTy_eq_ok hwrite
      have hw₁ := ((w.evolves_exprTypes (w.exprTypes.insert id.index ty)).spec hw).1
      exact hx.error hbody hw₁ (hfresh.insert hreach ty) h

theorem recordBinding {id : PatId} (hparts : body.parts (.pat id) = .ok parts)
    (hbinds : body.Binds id) (hx : Visits twice body parts x) : Visits twice body [.pat id] (do
      writeBinding id ty
      x) where
  trace := by
    intro scope w σ a w' σ' hbody hw h
    obtain ⟨_, w₁, σ₁, ⟨⟩, h⟩ := bind_eq_ok h
    have hw₁ := ((w.evolves_bindings (w.bindings.insert id.index ty)).spec hw).1
    subst hbody
    exact .binding hparts hbinds (hx.trace rfl hw₁ h)
  error := by
    intro scope w σ e σ' hbody hw hfresh h
    rcases bind_eq_error h with h | ⟨_, w₁, σ₁, hwrite, h⟩
    · cases h
    · cases hwrite
      have hw₁ := ((w.evolves_bindings (w.bindings.insert id.index ty)).spec hw).1
      refine hx.error hbody hw₁ ?_ h
      exact (hfresh.inside hparts).2.1

theorem unrecorded {id : PatId} (hparts : body.parts (.pat id) = .ok parts)
    (hbinds : ¬ body.Binds id) (hx : Visits twice body parts x) :
    Visits twice body [.pat id] x where
  trace _ _ _ _ _ _ hbody hw h := by
    subst hbody
    exact .pat hparts hbinds (hx.trace rfl hw h)
  error _ _ _ _ _ hbody hw hfresh h := hx.error hbody hw (hfresh.inside hparts).2.1 h

end Visits

/-! ## Conversions -/

/-- After the expression is recorded, the walk visits nothing more, but it may convert it. -/
structure Converts (twice : Prop) (body : Body) (id : ExprId) (x : Walk α) : Prop where
  trace : ∀ ⦃scope s w σ a w' σ'⦄, scope.body = body → s.WellFormed →
    Trace scope [.expr id] s w.toState → x.go scope w σ = (.ok (a, w'), σ') →
    Trace scope [.expr id] s w'.toState
  error : ∀ ⦃scope s w σ i σ'⦄, scope.body = body → s.WellFormed →
    Trace scope [.expr id] s w.toState →
    x.go scope w σ = (.error (.fault (.writtenTwice i)), σ') → twice

namespace Converts

variable {id : ExprId} {x y : Walk α} {f : α → Walk β}

theorem of_visits (hx : Visits twice body [] x) : Converts twice body id x where
  trace _ _ _ _ _ _ _ hbody hs h hrun := h.trans (hx.trace hbody (h.wellFormed hs) hrun)
  error _ _ _ _ _ _ hbody hs h hrun :=
    hx.error hbody (h.wellFormed hs) ⟨[], .nil, .nil, fun _ h => by cases h⟩ hrun

theorem pure (a : α) : Converts twice body id (pure a : Walk α) := of_visits (.pure a)

theorem coerce (source target : Ty) :
    Converts twice body id (liftM (coerce id source target) : Walk Bool) where
  trace := by
    intro scope s w σ a w' σ' _ _ h hrun
    obtain ⟨s', hcoerce, rfl⟩ := lift_eq_ok hrun
    exact h.coerce hcoerce
  error _ _ _ _ _ _ _ hs h hrun := absurd hrun (lift_ne_twice .coerce (h.wellFormed hs))

theorem bind (hx : Converts twice body id x) (hf : ∀ a, Converts twice body id (f a)) :
    Converts twice body id (x >>= f) where
  trace := by
    intro scope s w σ b w' σ' hbody hs h hrun
    obtain ⟨a, w₁, σ₁, hfirst, hrun⟩ := bind_eq_ok hrun
    exact (hf a).trace hbody hs (hx.trace hbody hs h hfirst) hrun
  error := by
    intro scope s w σ i σ' hbody hs h hrun
    rcases bind_eq_error hrun with hrun | ⟨a, w₁, σ₁, hfirst, hrun⟩
    · exact hx.error hbody hs h hrun
    · exact (hf a).error hbody hs (hx.trace hbody hs h hfirst) hrun

theorem discard (hx : Converts twice body id x) : Converts twice body id (discard x) :=
  hx.bind fun _ => pure ()

end Converts

/-- An expression may be converted once it is visited. -/
theorem Visits.converted {x : Walk α} (hx : Visits twice body [.expr id] x)
    (hf : ∀ a, Converts twice body id (f a)) : Visits twice body [.expr id] (x >>= f) where
  trace := by
    intro scope w σ b w' σ' hbody hw h
    obtain ⟨a, w₁, σ₁, hrun, h⟩ := bind_eq_ok h
    exact (hf a).trace hbody hw (hx.trace hbody hw hrun) h
  error := by
    intro scope w σ i σ' hbody hw hfresh h
    rcases bind_eq_error h with h | ⟨a, w₁, σ₁, hrun, h⟩
    · exact hx.error hbody hw hfresh h
    · exact (hf a).error hbody hw (hx.trace hbody hw hrun) h

end Walk

end TypeInference
