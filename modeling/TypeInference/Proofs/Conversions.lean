import TypeInference.Proofs.Dereferences

/-!
# Recorded dereferences are accounted for

An expression is converted after it was visited and before the expression around it is recorded. So
its dereferences all come from one conversion, and they are a chain from its recorded type: nothing
that is recorded later changes them (`State.Continues`).
-/

namespace TypeInference

open Infer

/-- The part that an expression gets at through dereferences, and whether an unsizing may be recorded
with them. -/
def Expr.base? : Expr → Option (ExprId × Bool)
  | .methodCall receiver .. => some (receiver, true)
  | .index base _ => some (base, false)
  | .field receiver _ => some (receiver, false)
  | _ => none

/-! ## States -/

namespace State

variable {scope : Scope} {body : Body} {s s' s'' : State} {id base : ExprId} {ty source : Ty}
  {unsizes : Bool}

/-- The expression has a type, from which it is dereferenced as recorded. -/
def Reached (scope : Scope) (unsizes : Bool) (id : ExprId) (s : State) : Prop :=
  ∃ ty, s.exprTypes.get? id.index = some ty ∧ s.Reaches scope unsizes ty (s.derefs id)

/-- All recorded dereferences are accounted for. -/
structure Accounted (scope : Scope) (s : State) : Prop where
  infers : State.Infers scope {} s
  unvisited : ∀ id : ExprId, s.exprTypes.contains id.index = false → s.derefs id = []
  visited : ∀ (id : ExprId) (ty : Ty), s.exprTypes.get? id.index = some ty →
    s.Reaches scope true ty (s.derefs id) ∨ s.vars.Exempt ty
  inside : ∀ (id : ExprId) (e : Expr) (base : ExprId) (unsizes : Bool),
    s.exprTypes.contains id.index = true → scope.body.expr id = .ok e →
    e.base? = some (base, unsizes) → s.Reached scope unsizes base

theorem Accounted.wellFormed (h : s.Accounted scope) : s.WellFormed := h.infers.sound

/-- What is recorded in `s` is not touched on the way to `s'`, nor is it a part of what is recorded
on that way. -/
structure Continues (scope : Scope) (s s' : State) : Prop where
  infers : s.Infers scope s'
  types : ∀ (id : ExprId) (ty : Ty), s.exprTypes.get? id.index = some ty →
    s'.exprTypes.get? id.index = some ty
  derefs : ∀ id : ExprId, s.exprTypes.contains id.index = true → s'.derefs id = s.derefs id
  inside : ∀ (id : ExprId) (e : Expr) (base : ExprId) (unsizes : Bool),
    s.exprTypes.contains id.index = false → s'.exprTypes.contains id.index = true →
    scope.body.expr id = .ok e → e.base? = some (base, unsizes) →
    s.exprTypes.contains base.index = false

namespace Continues

theorem contains (h : Continues scope s s') (hid : s.exprTypes.contains id.index = true) :
    s'.exprTypes.contains id.index = true := by
  obtain ⟨ty, hty⟩ := Option.isSome_iff_exists.1 hid
  exact Option.isSome_iff_exists.2 ⟨ty, h.types id ty hty⟩

theorem not_contains (h : Continues scope s s') (hid : s'.exprTypes.contains id.index = false) :
    s.exprTypes.contains id.index = false := by
  rw [Bool.eq_false_iff] at hid ⊢
  exact fun hold => hid (h.contains hold)

theorem refl (scope : Scope) (s : State) : Continues scope s s where
  infers := .refl s
  types _ _ h := h
  derefs _ _ := rfl
  inside _ _ _ _ hold hnew := by
    rw [hold] at hnew
    cases hnew

theorem trans (h : Continues scope s s') (h' : Continues scope s' s'') : Continues scope s s'' where
  infers := h.infers.trans h'.infers
  types id ty hty := h'.types id ty (h.types id ty hty)
  derefs id hid := (h'.derefs id (h.contains hid)).trans (h.derefs id hid)
  inside id e base unsizes hold hnew hexpr hbase := by
    cases hmid : s'.exprTypes.contains id.index with
    | true => exact h.inside id e base unsizes hold hmid hexpr hbase
    | false => exact h.not_contains (h'.inside id e base unsizes hmid hnew hexpr hbase)

theorem of_still (h : s.Still scope s') : Continues scope s s' where
  infers := h.infers
  types id ty hty := by rwa [h.exprTypes]
  derefs id _ := h.derefs id
  inside _ _ _ _ hold hnew := by
    rw [h.exprTypes, hold] at hnew
    cases hnew

end Continues

theorem Reached.continues (h : s.Reached scope unsizes id) (hs : s.WellFormed)
    (hcontinues : Continues scope s s') : s'.Reached scope unsizes id := by
  obtain ⟨ty, hty, hreaches⟩ := h
  refine ⟨ty, hcontinues.types id ty hty, ?_⟩
  rw [hcontinues.derefs id (Option.isSome_iff_exists.2 ⟨ty, hty⟩)]
  exact hreaches.infers hs hcontinues.infers

/-- From one state that is accounted for to another. -/
structure Proceeds (scope : Scope) (s s' : State) : Prop where
  continues : s.Continues scope s'
  accounted : s'.Accounted scope

theorem Proceeds.trans (h : s.Proceeds scope s') (h' : s'.Proceeds scope s'') :
    s.Proceeds scope s'' :=
  ⟨h.continues.trans h'.continues, h'.accounted⟩

theorem Accounted.still (h : s.Accounted scope) (hstill : s.Still scope s') :
    s.Proceeds scope s' where
  continues := .of_still hstill
  accounted := by
    refine ⟨h.infers.trans hstill.infers, ?_, ?_, ?_⟩
    · intro id hid
      rw [hstill.exprTypes] at hid
      rw [hstill.derefs, h.unvisited id hid]
    · intro id ty hty
      rw [hstill.exprTypes] at hty
      rw [hstill.derefs]
      exact (h.visited id ty hty).imp (·.infers h.wellFormed hstill.infers)
        (·.grows (hstill.infers.grows h.wellFormed))
    · intro id e base unsizes hid hexpr hbase
      rw [hstill.exprTypes] at hid
      exact (h.inside id e base unsizes hid hexpr hbase).continues h.wellFormed (.of_still hstill)

/-- From `s` to `s'` an expression was visited, and it is not converted yet. -/
structure Visited (scope : Scope) (id : ExprId) (ty : Ty) (s s' : State) : Prop
    extends s.Proceeds scope s' where
  new : s.exprTypes.contains id.index = false
  typed : s'.exprTypes.get? id.index = some ty
  plain : s'.derefs id = []
  outside : ∀ (parent : ExprId) (e : Expr) (unsizes : Bool),
    s'.exprTypes.contains parent.index = true → scope.body.expr parent = .ok e →
    e.base? ≠ some (id, unsizes)

/-- From `s` to `s'` an expression was visited, and it was only dereferenced as recorded. -/
structure Gets (scope : Scope) (unsizes : Bool) (id : ExprId) (s s' : State) : Prop
    extends s.Proceeds scope s' where
  new : s.exprTypes.contains id.index = false
  reached : s'.Reached scope unsizes id

theorem Gets.proceeds (h : s.Gets scope unsizes id s') (h' : s'.Proceeds scope s'') :
    s.Gets scope unsizes id s'' where
  toProceeds := h.toProceeds.trans h'
  new := h.new
  reached := h.reached.continues h.accounted.wellFormed h'.continues

namespace Visited

theorem contains (h : Visited scope id ty s s') : s'.exprTypes.contains id.index = true :=
  Option.isSome_iff_exists.2 ⟨ty, h.typed⟩

theorem proceeds (h : Visited scope id ty s s') (h' : s'.Proceeds scope s'') :
    Visited scope id ty s s'' where
  toProceeds := h.toProceeds.trans h'
  new := h.new
  typed := h'.continues.types id ty h.typed
  plain := by rw [h'.continues.derefs id h.contains, h.plain]
  outside parent e unsizes hparent hexpr hbase := by
    cases hold : s'.exprTypes.contains parent.index with
    | true => exact h.outside parent e unsizes hold hexpr hbase
    | false =>
      have hnew := h'.continues.inside parent e id unsizes hold hparent hexpr hbase
      rw [h.contains] at hnew
      cases hnew

theorem after (hbefore : s.Proceeds scope s') (h : Visited scope id ty s' s'') :
    Visited scope id ty s s'' where
  toProceeds := hbefore.trans h.toProceeds
  new := hbefore.continues.not_contains h.new
  typed := h.typed
  plain := h.plain
  outside := h.outside

variable (h : Visited scope id ty s s')

include h

theorem still (hstill : s'.Still scope s'') :
    Visited scope id ty s s'' :=
  h.proceeds (h.accounted.still hstill)

theorem gets : s.Gets scope unsizes id s' where
  toProceeds := h.toProceeds
  new := h.new
  reached := ⟨ty, h.typed, by rw [h.plain]; exact .nil ty⟩

/-- Converting an expression does not touch what was recorded before it. -/
theorem continues_convert
    (hconverts : s'.Converts scope id source unsizes s'') : s.Continues scope s'' where
  infers := h.continues.infers.trans hconverts.infers
  types other ty hty := by
    rw [hconverts.exprTypes]
    exact h.continues.types other ty hty
  derefs other hother := by
    have hne : other ≠ id := by
      rintro rfl
      rw [h.new] at hother
      cases hother
    rw [hconverts.others other hne, h.continues.derefs other hother]
  inside parent e base unsizes hold hnew := by
    rw [hconverts.exprTypes] at hnew
    exact h.continues.inside parent e base unsizes hold hnew

/-- An expression that is converted once is accounted for. -/
theorem convert (hconverts : s'.Converts scope id source unsizes s'')
    (hsource : source = ty ∨ s''.vars.Exempt ty) :
    s.Proceeds scope s'' := by
  refine ⟨h.continues_convert hconverts, ?_⟩
  have hinfers := hconverts.infers
  have hwell := h.accounted.wellFormed
  refine ⟨h.accounted.infers.trans hinfers, ?_, ?_, ?_⟩
  · intro other hother
    rw [hconverts.exprTypes] at hother
    have hne : other ≠ id := by
      rintro rfl
      rw [h.contains] at hother
      cases hother
    rw [hconverts.others other hne, h.accounted.unvisited other hother]
  · intro other ty' hty'
    rw [hconverts.exprTypes] at hty'
    by_cases hother : other = id
    · subst hother
      rw [h.typed] at hty'
      cases hty'
      rcases hsource with rfl | hexempt
      · obtain ⟨us, hus, hreaches⟩ := hconverts.reaches
        rw [hus, h.plain]
        exact .inl (hreaches.mono (fun _ _ h => h) fun _ _ h => ⟨rfl, h.2⟩)
      · exact .inr hexempt
    · rw [hconverts.others other hother]
      exact (h.accounted.visited other ty' hty').imp (·.infers hwell hinfers)
        (·.grows (hinfers.grows hwell))
  · intro parent e base unsizes' hparent hexpr hbase
    rw [hconverts.exprTypes] at hparent
    have hne : base ≠ id := by
      rintro rfl
      exact h.outside parent e unsizes' hparent hexpr hbase
    obtain ⟨ty', hty', hreaches⟩ := h.accounted.inside parent e base unsizes' hparent hexpr hbase
    refine ⟨ty', by rw [hconverts.exprTypes, hty'], ?_⟩
    rw [hconverts.others base hne]
    exact hreaches.infers hwell hinfers

theorem gets_convert
    (hconverts : s'.Converts scope id ty unsizes s'') : s.Gets scope unsizes id s'' where
  toProceeds := h.convert hconverts (Or.inl rfl)
  new := h.new
  reached := by
    obtain ⟨us, hus, hreaches⟩ := hconverts.reaches
    refine ⟨ty, by rw [hconverts.exprTypes, h.typed], ?_⟩
    rw [hus, h.plain]
    exact hreaches

end Visited

theorem Reached.contains (h : s.Reached scope unsizes id) :
    s.exprTypes.contains id.index = true := by
  obtain ⟨ty, hty, -⟩ := h
  exact Option.isSome_iff_exists.2 ⟨ty, hty⟩

/-- Recording an expression keeps all accounted for, if its base was only dereferenced. -/
theorem Proceeds.write (h : s.Proceeds scope s') (hid : s'.exprTypes.contains id.index = false)
    (hparts : ∀ e base unsizes, scope.body.expr id = .ok e → e.base? = some (base, unsizes) →
      s.Gets scope unsizes base s') :
    Visited scope id ty s { s' with exprTypes := s'.exprTypes.insert id.index ty } := by
  have hinfers : s'.Infers scope { s' with exprTypes := s'.exprTypes.insert id.index ty } :=
    .recorded rfl rfl
  have hwell := h.accounted.wellFormed
  -- Expressions that are recorded already are others.
  have hother {other : ExprId} {ty' : Ty} (hty' : s'.exprTypes.get? other.index = some ty') :
      (s'.exprTypes.insert id.index ty).get? other.index = some ty' := by
    have hne : other.index ≠ id.index := by
      intro heq
      rw [IdMap.contains, ← heq, hty'] at hid
      cases hid
    rw [IdMap.get?_insert, if_neg hne, hty']
  -- Whatever gets at a part was recorded after it.
  have hinside (parent : ExprId) (e : Expr) (base : ExprId) (unsizes : Bool)
      (hparent : (s'.exprTypes.insert id.index ty).contains parent.index = true)
      (hexpr : scope.body.expr parent = .ok e) (hbase : e.base? = some (base, unsizes)) :
      s'.Reached scope unsizes base := by
    rcases (IdMap.contains_insert ..).1 hparent with heq | hparent
    · rw [ExprId.index_inj.1 heq] at hexpr
      exact (hparts e base unsizes hexpr hbase).reached
    · exact h.accounted.inside parent e base unsizes hparent hexpr hbase
  refine ⟨⟨⟨?_, ?_, ?_, ?_⟩, ?_, ?_, ?_, ?_⟩, h.continues.not_contains hid, ?_,
    h.accounted.unvisited id hid, ?_⟩
  · exact h.continues.infers.trans hinfers
  · exact fun other ty' hty' => hother (h.continues.types other ty' hty')
  · exact fun other hold => h.continues.derefs other hold
  · intro parent e base unsizes hold hnew hexpr hbase
    rcases (IdMap.contains_insert ..).1 hnew with heq | hnew
    · rw [ExprId.index_inj.1 heq] at hexpr
      exact (hparts e base unsizes hexpr hbase).new
    · exact h.continues.inside parent e base unsizes hold hnew hexpr hbase
  · exact h.accounted.infers.trans hinfers
  · intro other hnew
    refine h.accounted.unvisited other ?_
    rw [Bool.eq_false_iff] at hnew ⊢
    exact fun hold => hnew ((IdMap.contains_insert ..).2 (Or.inr hold))
  · intro other ty' hty'
    rw [IdMap.get?_insert] at hty'
    split at hty'
    · next heq =>
      left
      rw [ExprId.index_inj.1 heq]
      exact (h.accounted.unvisited id hid).symm ▸ .nil ty'
    · rcases h.accounted.visited other ty' hty' with hreaches | hexempt
      · exact .inl (hreaches.infers hwell hinfers)
      · exact .inr hexempt
  · intro parent e base unsizes hparent hexpr hbase
    obtain ⟨ty', hty', hreaches⟩ := hinside parent e base unsizes hparent hexpr hbase
    exact ⟨ty', hother hty', hreaches.infers hwell hinfers⟩
  · rw [IdMap.get?_insert, if_pos rfl]
  · intro parent e unsizes hparent hexpr hbase
    have hreached := (hinside parent e id unsizes hparent hexpr hbase).contains
    rw [hid] at hreached
    cases hreached

end State

/-! ## Walks -/

namespace Walk

variable {α β : Type} {body : Body} {v : Visitor} {scope : Scope} {w w' : WalkState}
  {σ σ' : SessionState} {a : α} {base id : ExprId}

theorem infer_eq_ok {x : Infer α} (h : (liftM x : Walk α).go scope w σ = (.ok (a, w'), σ')) :
    x scope w.toState = .ok (a, w'.toState) := by
  obtain ⟨s, hrun, rfl⟩ := lift_eq_ok h
  exact hrun

theorem except_eq_ok {x : Except Fault α} (h : (liftM x : Walk α).go scope w σ = (.ok (a, w'), σ')) :
    x = .ok a ∧ w'.toState = w.toState :=
  Infer.lift_eq_ok (infer_eq_ok (x := liftM x) h)

/-- The walk keeps the dereferences accounted for. -/
def Accounts (body : Body) (x : Walk α) : Prop :=
  ∀ ⦃scope w σ a w' σ'⦄, scope.body = body → w.toState.Accounted scope →
    x.go scope w σ = (.ok (a, w'), σ') → w.toState.Proceeds scope w'.toState

/-- The walk visits an expression and gives its type. -/
def Types (body : Body) (id : ExprId) (x : Walk Ty) : Prop :=
  ∀ ⦃scope w σ ty w' σ'⦄, scope.body = body → w.toState.Accounted scope →
    x.go scope w σ = (.ok (ty, w'), σ') → State.Visited scope id ty w.toState w'.toState

/-- The walk visits an expression and gets at something through its dereferences. -/
def GetsAt (body : Body) (unsizes : Bool) (base : ExprId) (x : Walk α) : Prop :=
  ∀ ⦃scope w σ a w' σ'⦄, scope.body = body → w.toState.Accounted scope →
    x.go scope w σ = (.ok (a, w'), σ') → w.toState.Gets scope unsizes base w'.toState

theorem Types.accounts {x : Walk Ty} (h : Types body id x) : Accounts body x :=
  fun _ _ _ _ _ _ hbody hw hrun => (h hbody hw hrun).toProceeds

theorem GetsAt.accounts {unsizes : Bool} {x : Walk α} (h : GetsAt body unsizes base x) :
    Accounts body x :=
  fun _ _ _ _ _ _ hbody hw hrun => (h hbody hw hrun).toProceeds

namespace Accounts

variable {x y : Walk α} {f : α → Walk β} {xs : List α} {ty : Ty}

theorem of_unchanged (h : ∀ ⦃scope w σ a w' σ'⦄, x.go scope w σ = (.ok (a, w'), σ') →
    w'.toState = w.toState) : Accounts body x := by
  intro scope w σ a w' σ' _ hw hrun
  rw [h hrun]
  exact ⟨.refl _ _, hw⟩

theorem pure (a : α) : Accounts body (pure a : Walk α) := by
  refine of_unchanged fun scope w σ a w' σ' h => ?_
  cases h
  rfl

/-- What accounts for its parts accounts for the whole. -/
theorem bindOf (hx : Accounts body x) (hf : ∀ a, Gives body x a → Accounts body (f a)) :
    Accounts body (x >>= f) := by
  intro scope w σ b w' σ' hbody hw h
  obtain ⟨a, w₁, σ₁, hrun, hrest⟩ := bind_eq_ok h
  have hfirst := hx hbody hw hrun
  have hnext := hf a ⟨scope, w, w₁, σ, σ₁, hbody, hrun⟩ hbody hfirst.accounted hrest
  exact hfirst.trans hnext

theorem bind (hx : Accounts body x) (hf : ∀ a, Accounts body (f a)) : Accounts body (x >>= f) :=
  hx.bindOf fun a _ => hf a

theorem readBind {f : Scope → Walk β}
    (hf : ∀ scope, scope.body = body → Accounts body (f scope)) : Accounts body (read >>= f) :=
  fun _ _ _ _ _ _ hbody hw h => hf _ hbody hbody hw h

theorem still {x : Infer α} (hx : ∀ ⦃scope s a s'⦄, s.WellFormed → x scope s = .ok (a, s') →
    s.Still scope s') : Accounts body (liftM x : Walk α) := by
  intro scope w σ a w' σ' _ hw h
  exact hw.still (hx hw.wellFormed (infer_eq_ok h))

theorem lift [Mentioning α] {x : Infer α}
    (hx : ∀ scope, Orderly scope Fault.IsOrdinary (Filing NormalizeOp) (fun _ => True) x) :
    Accounts body (liftM x : Walk α) :=
  still fun scope _ _ _ hs h => (hx scope).anyway.still hs h

theorem liftExcept {x : Except Fault α} (hx : FailsWith Fault.IsOrdinary x) :
    Accounts body (liftM x : Walk α) :=
  still (x := liftM x) fun _ _ _ _ hs h => (Regular.lift hx).still hs h

theorem session {x : SessionM α} : Accounts body (liftM x : Walk α) :=
  of_unchanged fun _ _ _ _ _ _ => session_keeps

theorem inside (hx : Accounts body x) (b : Boundary) : Accounts body (inside b x) := by
  intro scope w σ r w' σ' hbody hw h
  obtain ⟨w₁, hrun, -, rfl⟩ := inside_eq_ok h
  have hproceeds := hx (w := w.jump (b.enter w.toJumps)) hbody hw hrun
  exact hproceeds

theorem mapM (hf : ∀ a, Accounts body (f a)) : Accounts body (xs.mapM f) :=
  mapM_closed (P := Accounts body) ⟨pure, bind⟩ fun a _ => hf a

theorem forM {f : α → Walk PUnit} (hf : ∀ a, Accounts body (f a)) : Accounts body (xs.forM f) := by
  induction xs with
  | nil => exact pure _
  | cons a xs ih => exact (hf a).bind fun _ => ih

theorem optionForM {f : α → Walk PUnit} (hf : ∀ a, Accounts body (f a)) {x : Option α} :
    Accounts body (x.forM f) := by
  cases x with
  | none => exact pure _
  | some a => exact hf a

end Accounts

end Walk

/-- The visitor keeps the dereferences accounted for. -/
structure Visitor.Accounts (body : Body) (v : Visitor) : Prop where
  expr : ∀ id expected, Walk.Types body id (v.expr id expected)
  pat : ∀ id ty default, Walk.Accounts body (v.pat id ty default)

namespace Walk

variable {α β : Type} {body : Body} {v : Visitor} {id base first idx : ExprId}
  {expected : Option Ty} {genericArgs params : List Ty} {e : Expr} {args rest : List ExprId}
  {receiver : ExprId} {target ty : Ty} {areClosures unsizes : Bool}

/-! ## Conversions -/

namespace Accounts

variable (hv : v.Accounts body)

include hv

theorem convertedThen {f : Ty → Bool → Walk β}
    (hf : ∀ inferred ok, Accounts body (f inferred ok)) : Accounts body (do
      let inferred ← v.expr id expected
      let ok ← (coerce id inferred target : Walk Bool)
      f inferred ok) := by
  intro scope w σ b w' σ' hbody hw h
  obtain ⟨ty, w₁, σ₁, hrun, hrest⟩ := bind_eq_ok h
  obtain ⟨ok, w₂, σ₂, hcoerce, hlast⟩ := bind_eq_ok hrest
  have hvisited := hv.expr id expected hbody hw hrun
  have hconverts := converts_coerce hvisited.accounted.infers (infer_eq_ok hcoerce)
  have hproceeds := hvisited.convert hconverts (Or.inl rfl)
  exact hproceeds.trans (hf ty ok hbody hproceeds.accounted hlast)

theorem coerced {expected : Ty} : Accounts body (v.coerced id expected) := by
  by_cases hunknown : expected.isUnknown = true
  · simp only [Visitor.coerced, hunknown, if_true]
    exact (hv.expr id _).accounts.bind fun _ => pure _
  · simp only [Visitor.coerced, hunknown, Bool.false_eq_true, if_false]
    exact convertedThen hv fun _ _ => of_ite (pure _) (pure _)

theorem argumentsThat :
    Accounts body (argumentsThat v areClosures params args) := by
  refine readBind fun scope _ => forM (fun arg => ?_)
  refine (liftExcept (Body.isClosure_failsWith Fault.Admits.named _ _)).bind fun _ => of_ite ?_ ?_
  · refine (lift fun _ => .resolve within_true).bind fun _ => ?_
    exact (coerced hv).bind fun _ => pure _
  · exact pure _

theorem arguments (params : List Ty) (args : List ExprId) :
    Accounts body (arguments v params args) := by
  refine (argumentsThat hv).bind fun _ => ?_
  exact (lift fun _ => .settlePending).bind fun _ => argumentsThat hv

/-- Only the first of the elements is converted. -/
theorem elements {expected : Ty} :
    Accounts body (elements v (first :: rest) (some expected)) := by
  intro scope w σ a w' σ' hbody hw h
  obtain ⟨tys, w₂, σ₂, hall, hjoin⟩ := bind_eq_ok h
  rw [List.mapM_cons] at hall
  obtain ⟨ty, w₁, σ₁, hfirst, hall⟩ := bind_eq_ok hall
  obtain ⟨others, _, _, hothers, ⟨⟩⟩ := bind_eq_ok hall
  have hvisited := hv.expr first _ hbody hw hfirst
  have hmap : Accounts body (rest.mapM (v.expr · (some expected))) :=
    mapM (fun elem => (hv.expr elem _).accounts)
  have hvisited₂ := hvisited.proceeds (hmap hbody hvisited.accounted hothers)
  obtain ⟨joined, w₃, σ₃, hrun, hrest⟩ := bind_eq_ok hjoin
  have hjoined := infer_eq_ok hrun
  have hwell := hvisited₂.accounted.wellFormed
  have hvisited₃ := hvisited₂.still ((Orderly.join within_true).anyway.still hwell hjoined)
  obtain ⟨ok, w₄, σ₄, hcoerce, hlast⟩ := bind_eq_ok hrest
  have hconverts := converts_tryCoerce hvisited₃.accounted.infers (infer_eq_ok hcoerce)
  have hg := hconverts.infers.grows hvisited₃.accounted.wellFormed
  have hsource := (eq_of_join hwell hjoined).imp_right (·.grows hg)
  have hproceeds := hvisited₃.convert hconverts hsource
  have hend : Accounts body (if ok = true then Pure.pure expected else Pure.pure joined : Walk Ty) :=
    of_ite (pure _) (pure _)
  exact hproceeds.trans (hend hbody hproceeds.accounted hlast)

end Accounts

namespace GetsAt

theorem index (hv : v.Accounts body) : GetsAt body false base (index v base idx) := by
  intro scope w σ a w' σ' hbody hw h
  obtain ⟨baseTy, w₁, σ₁, hbase, hrest⟩ := bind_eq_ok h
  have hvisited := hv.expr base none hbody hw hbase
  obtain ⟨idxTy, w₂, σ₂, hidx, hrest⟩ := bind_eq_ok hrest
  have hindex := (hv.expr idx none hbody hvisited.accounted hidx).toProceeds
  obtain ⟨indexTy, w₃, σ₃, hresolve, hrest⟩ := bind_eq_ok hrest
  have hresolved := Accounts.lift (fun _ => .resolve within_true) hbody hindex.accounted hresolve
  obtain ⟨_, w₄, σ₄, hborrow, hlast⟩ := bind_eq_ok hrest
  have hborrowed := Accounts.still (fun _ _ _ _ _ => still_borrowIndex) hbody hresolved.accounted
    hborrow
  have hvisited₄ := ((hvisited.proceeds hindex).proceeds hresolved).proceeds hborrowed
  exact hvisited₄.gets_convert
    (converts_indexThrough hvisited₄.accounted.infers (infer_eq_ok hlast))

theorem field (hv : v.Accounts body) {name : FieldName} :
    GetsAt body false receiver (field v id receiver name) := by
  intro scope w σ a w' σ' hbody hw h
  obtain ⟨ty, w₁, σ₁, hreceiver, hrest⟩ := bind_eq_ok h
  have hvisited₁ := hv.expr receiver none hbody hw hreceiver
  obtain ⟨steps, w₂, σ₂, hsteps, hrest⟩ := bind_eq_ok hrest
  have hderefs := infer_eq_ok hsteps
  have hvisited := hvisited₁.still
    (Regular.derefSequence.still hvisited₁.accounted.wellFormed hderefs)
  have hseq := follows_of_derefSequence hvisited₁.accounted.infers hderefs
  obtain ⟨_, _, _, ⟨⟩, hrest⟩ := bind_eq_ok hrest
  obtain ⟨found, w₃, σ₃, hfound, hlast⟩ := bind_eq_ok hrest
  obtain ⟨hfield, hsame⟩ := except_eq_ok hfound
  rw [← hsame] at hvisited hseq
  rcases found with _ | ⟨depth, resolution, fieldTy⟩
  · have hend : Accounts body (show Walk Ty from do
        writeFields id []
        return .unknown) :=
      (Accounts.lift fun _ => .writeFields).bind fun _ => .pure _
    exact hvisited.gets.proceeds (hend hbody hvisited.accounted hlast)
  have hend : Accounts body (show Walk Ty from do
      writeFields id [resolution]
      normalized fieldTy) :=
    (Accounts.lift fun _ => .writeFields).bind fun _ => .lift fun _ => .normalized within_true
  dsimp only at hlast
  split at hlast
  · obtain ⟨_, w₄, σ₄, hadjust, hlast⟩ := bind_eq_ok hlast
    have hreaches := reaches_of_fieldFrom hseq hfield
    rw [← filterMap_derefsTo] at hreaches
    have hconverts := converts_adjust hvisited.accounted.wellFormed (infer_eq_ok hadjust) hreaches
    have hgets := hvisited.gets_convert hconverts
    exact hgets.proceeds (hend hbody hgets.accounted hlast)
  · exact hvisited.gets.proceeds (hend hbody hvisited.accounted hlast)

end GetsAt

/-- After the expression is visited, the walk gets at something through the sequence `steps`. -/
def GetsThrough (body : Body) (base : ExprId) (ty : Ty) (steps : List Ty) (x : Walk α) : Prop :=
  ∀ ⦃scope s w σ a w' σ'⦄, scope.body = body →
    State.Visited scope base ty s w.toState → w.toState.Follows scope ty steps →
    x.go scope w σ = (.ok (a, w'), σ') → s.Gets scope true base w'.toState

namespace GetsThrough

variable {base : ExprId} {ty : Ty} {steps : List Ty} {x : Walk α} {f : α → Walk β}

theorem of_accounts (hx : Accounts body x) : GetsThrough body base ty steps x :=
  fun _ _ _ _ _ _ _ hbody hvisited _ h =>
    hvisited.gets.proceeds (hx hbody hvisited.accounted h)

theorem before (hx : Accounts body x) (hf : ∀ a, GetsThrough body base ty steps (f a)) :
    GetsThrough body base ty steps (x >>= f) := by
  intro scope s w σ b w' σ' hbody hvisited hseq h
  obtain ⟨a, w₁, σ₁, hrun, hrest⟩ := bind_eq_ok h
  have hfirst := hx hbody hvisited.accounted hrun
  have hseq₁ := hseq.infers hvisited.accounted.wellFormed hfirst.continues.infers
  exact hf a hbody (hvisited.proceeds hfirst) hseq₁ hrest

theorem after (hx : GetsThrough body base ty steps x) (hf : ∀ a, Accounts body (f a)) :
    GetsThrough body base ty steps (x >>= f) := by
  intro scope s w σ b w' σ' hbody hvisited hseq h
  obtain ⟨a, w₁, σ₁, hrun, hrest⟩ := bind_eq_ok h
  have hgets := hx hbody hvisited hseq hrun
  exact hgets.proceeds (hf a hbody hgets.accounted hrest)

theorem readBind {f : Scope → Walk β}
    (hf : ∀ scope, scope.body = body → GetsThrough body base ty steps (f scope)) :
    GetsThrough body base ty steps (read >>= f) :=
  fun _ _ _ _ _ _ _ hbody hvisited hseq h => hf _ hbody hbody hvisited hseq h

theorem adjustReceiver (selfParam : Ty) :
    GetsThrough body base ty steps (liftM (adjustReceiver base steps selfParam) : Walk Unit) := by
  intro scope s w σ a w' σ' _ hvisited hseq h
  have hwell := hvisited.accounted.wellFormed
  exact hvisited.gets_convert (converts_adjustReceiver hwell hseq (infer_eq_ok h))

theorem callMethod {c : Candidate} (hv : v.Accounts body) : GetsThrough body base ty steps
      (callMethod v id base steps c genericArgs args expected) := by
  refine before (.lift fun _ => .instantiateMethod within_true within_true) fun sig =>
    readBind fun scope _ => ?_
  refine before (.liftExcept (entry_failsWith (Fault.Admits.dangling ..))) fun fn => ?_
  have hself : GetsThrough body base ty steps
      (fn.selfParam.forM fun param => liftInfer (Infer.adjustReceiver base steps (param.ty c.self))) := by
    cases fn.selfParam with
    | none => exact of_accounts (.pure _)
    | some param => exact adjustReceiver _
  have hlast := hself.after fun _ => (Accounts.arguments hv sig.params args).bind fun _ => .pure sig.ret
  split
  · exact hlast
  · exact before (.optionForM (fun _ => .lift fun _ => .unify within_true within_true)) fun _ => hlast

end GetsThrough

theorem GetsAt.methodCall {method : String} (hv : v.Accounts body) :
    GetsAt body true receiver (methodCall v id receiver method genericArgs args expected) := by
  intro scope w σ a w' σ' hbody hw h
  obtain ⟨ty, w₁, σ₁, hreceiver, hrest⟩ := bind_eq_ok h
  have hvisited₁ := hv.expr receiver none hbody hw hreceiver
  have hwell₁ := hvisited₁.accounted.wellFormed
  obtain ⟨receiverTy, w₂, σ₂, hresolve, hrest⟩ := bind_eq_ok hrest
  have hsettled := infer_eq_ok hresolve
  have hvisited₂ := hvisited₁.still (Regular.resolveSettled.still hwell₁ hsettled)
  obtain ⟨steps, w₃, σ₃, hsteps, hrest⟩ := bind_eq_ok hrest
  have hderefs := infer_eq_ok hsteps
  have hwell₂ := hvisited₂.accounted.wellFormed
  have hstill₃ := Regular.derefSequence.still hwell₂ hderefs
  have hidentified : w₃.vars.Identified ty receiverTy := by
    intro vs hg
    exact alike_resolveSettled hwell₁ hsettled ((hstill₃.infers.grows hwell₂).trans hg)
  have hseq := (follows_of_derefSequence hvisited₂.accounted.infers hderefs).identified hidentified
  refine GetsThrough.before (.lift fun _ => .candidates within_true) (fun found => ?_) hbody
    (hvisited₂.still hstill₃) hseq hrest
  refine .before (.lift fun _ => .pick within_true within_true) fun picked => ?_
  refine .before (.lift fun _ => .writeMethods within_true) fun _ => ?_
  split
  · exact .callMethod hv
  · exact .of_accounts ((Accounts.arguments hv _ _).bind fun _ => .pure _)

theorem GetsAt.kindTy (hv : v.Accounts body) (hbase : e.base? = some (base, unsizes)) :
    GetsAt body unsizes base (kindTy v id expected e) := by
  cases e with
  | methodCall receiver method genericArgs args =>
    cases hbase
    exact methodCall hv
  | index base idx =>
    cases hbase
    exact index hv
  | field receiver name =>
    cases hbase
    exact field hv
  | _ => cases hbase

/-! ## The rules together -/

theorem Types.node (hv : v.Accounts body) (hid : body.expr id = .ok e)
    (hx : Accounts body (kindTy v id expected e)) : Types body id (do
      let ty ← kindTy v id expected e
      writeExprTy id ty
      return ty) := by
  intro scope w σ ty w' σ' hbody hw h
  obtain ⟨ty, w₁, σ₁, hrun, hrest⟩ := bind_eq_ok h
  obtain ⟨_, w₂, σ₂, hwrite, ⟨⟩⟩ := bind_eq_ok hrest
  obtain ⟨hnew, rfl⟩ := writeExprTy_eq_ok hwrite
  refine (hx hbody hw hrun).write hnew fun e' base unsizes hexpr hbase => ?_
  rw [show scope.body = body from hbody, hid] at hexpr
  cases hexpr
  exact GetsAt.kindTy hv hbase hbody hw hrun

theorem Accounts.writeExprTy (hid : body.expr id = .ok e) (hbase : e.base? = none) :
    Accounts body (liftM (writeExprTy id ty) : Walk Unit) := by
  intro scope w σ a w' σ' hbody hw h
  obtain ⟨hnew, rfl⟩ := writeExprTy_eq_ok h
  have hstay : w.toState.Proceeds scope w.toState := ⟨.refl _ _, hw⟩
  refine (hstay.write hnew fun e' base unsizes hexpr hbase' => ?_).toProceeds
  rw [show scope.body = body from hbody, hid] at hexpr
  cases hexpr
  rw [hbase] at hbase'
  cases hbase'

/-- Rules that adjust nothing on their own account for what they visit. -/
theorem Accounts.of_composed (hv : v.Accounts body) {A : Prop} {W : Var → Prop} [Mentioning α]
    {roots : List Site} {x : Visitor → Walk α} (h : Composed body (fun _ => True) A W roots x)
    (hA : ¬ A) : Accounts body (x v) := by
  induction h with
  | pure _ => exact pure _
  | bindOf _ _ ih ih' => exact (ih hA).bindOf fun a ha => ih' v a ha le_top within_true hA
  | mono _ _ ih => exact ih hA
  | perm _ _ ih => exact ih hA
  | scopeBind _ _ ih => exact readBind fun scope h => ih scope h le_top scope.within_true hA
  | lift hx => exact lift fun scope => hx scope le_top
  | adjusting h => exact absurd h hA
  | borrow _ => exact still fun _ _ _ _ _ h => still_adjust h rfl
  | variantShape _ => exact still fun _ _ _ _ hs h => still_variantShape hs h
  | reportCannotDeref _ _ =>
    refine still fun _ s _ _ _ h => ?_
    cases h
    exact ⟨.recorded rfl rfl, rfl, fun _ => rfl⟩
  | lookUpPath | jumps | setYielded =>
    refine of_unchanged fun scope w σ a w' σ' h => ?_
    cases h
    rfl
  | checkCancelled => exact session
  | inside b _ _ _ ih => exact (ih hA).inside b
  | const id => exact session
  | expr _ => exact (hv.expr _ _).accounts
  | pat _ => exact hv.pat _ _ _
  | literal hid _ =>
    refine (still fun _ _ _ _ _ h => still_literal h).bind fun _ => ?_
    exact (writeExprTy hid rfl).bind fun _ => pure _
  | node hid _ _ ih => exact (Types.node hv hid (ih hA)).accounts
  | blockRoot hid _ _ ih => exact (writeExprTy hid rfl).bind fun _ => ih hA
  | binding _ _ _ _ ih =>
    refine (still fun _ s _ _ _ h => ?_).bind fun _ => ih hA
    cases h
    exact ⟨.recorded rfl rfl, rfl, fun _ => rfl⟩
  | unrecorded _ _ _ ih => exact ih hA
  | converted _ _ _ ih => exact convertedThen hv fun a ok => ih a ok le_top within_true hA
  | closing _ _ _ hunit ih =>
    refine (ih hA).bindOf fun ty hty => ?_
    split
    · next hends =>
      rw [hunit v ty hty hends]
      exact (still fun _ _ _ _ hs h => still_coerce_unit hs h).bind fun _ => pure _
    · exact pure _
  | elements => exact elements hv
  | index => exact (GetsAt.index hv).accounts
  | field => exact (GetsAt.field hv).accounts
  | methodCall => exact (GetsAt.methodCall hv).accounts

theorem Types.before {x : Walk α} {f : α → Walk Ty} (hx : Accounts body x)
    (hf : ∀ a, Gives body x a → Types body id (f a)) : Types body id (x >>= f) := by
  intro scope w σ ty w' σ' hbody hw h
  obtain ⟨a, w₁, σ₁, hrun, hrest⟩ := bind_eq_ok h
  have hfirst := hx hbody hw hrun
  exact .after hfirst (hf a ⟨scope, w, w₁, σ, σ₁, hbody, hrun⟩ hbody hfirst.accounted hrest)

/-- An expression is recorded with its type. -/
theorem Types.expression (hv : v.Accounts body) (id : ExprId) (expected : Option Ty) :
    Types body id (expression v id expected) := by
  refine .before .session fun _ _ => .before (.lift fun _ => .expectation within_true)
    fun expected _ => ?_
  intro scope w σ ty w' σ' hbody hw h
  obtain ⟨_, _, _, ⟨⟩, hrest⟩ := bind_eq_ok h
  obtain ⟨e, w₁, σ₁, hexpr, hlast⟩ := bind_eq_ok hrest
  obtain ⟨hid, hsame⟩ := except_eq_ok hexpr
  rw [hbody] at hid
  rw [← hsame] at hw ⊢
  have hkind : Accounts body (Walk.kindTy v id expected e) := by
    by_cases hlit : ∃ lit, e = .literal lit
    · obtain ⟨lit, rfl⟩ := hlit
      exact .still fun _ _ _ _ _ h => still_literal h
    · rw [not_exists] at hlit
      exact .of_composed hv (.kindTy ⟨e, hid⟩ (fun _ _ => trivial) hlit within_true within_true)
        not_false
  exact Types.node hv hid hkind hbody hw hlast

/-- So does the visitor, however deep it goes. -/
theorem visitor_accounts {const : ConstId → SessionM Ty} (n : Nat) :
    (visitor const n).Accounts body := by
  induction n with
  | zero =>
    constructor
    · intro _ _ _ _ _ _ _ _ _ _ h
      cases h
    · intro _ _ _ _ _ _ _ _ _ _ _ h
      cases h
  | succ n ih =>
    refine ⟨fun id expected => ?_, fun id ty default => ?_⟩
    · exact Types.expression ih id expected
    · exact .of_composed ih (.pattern within_true) not_false

end Walk

/-! ## Outcomes -/

/-- What an expression is dereferenced to, one after the other. -/
def Outcome.derefs (o : Outcome) (id : ExprId) : List Ty :=
  ((o.adjustments.get? id.index).getD []).filterMap Adjustment.derefTarget?

/-- A type is dereferenced to another in an inference that ends in `last`: a reference to its
pointee, a box to its content, and any other type to the `Target` of its `Deref`, as it was looked up
on the way. The types in question may have been open then, and are closed in the end. -/
inductive State.Dereferences (scope : Scope) (last : State) : Ty → Ty → Prop
  | reference (pointee : Ty) (m : Mutability) (r : Region) :
    Dereferences scope last (.ref pointee m r) pointee
  | boxed {id : AdtId} (content : Ty) (args : List Ty) : scope.known.boxed = some id →
    Dereferences scope last (.adt id (content :: args)) content
  | target {t u source target : Ty} {before after : State} : t.ByTrait scope.known →
    State.Infers scope {} before → derefThroughTrait t scope before = .ok (some u, after) →
    after.Infers scope last → last.vars.close t = .ok source → last.vars.close u = .ok target →
    Dereferences scope last source target

namespace State

variable {scope : Scope} {last : State} {a b A B : Ty}

/-- What was dereferenced on the way is so in the end. -/
theorem Refers.closed (hlast : last.WellFormed) (h : last.Refers scope a b)
    (ha : last.vars.close a = .ok A) (hb : last.vars.close b = .ok B) :
    last.Dereferences scope A B := by
  obtain ⟨t, u, before, after, hbefore, hptr, hderef, hafter, hat, hub⟩ := h
  have ht := (hat last.vars (.refl _)).close_eq hlast.vars ha
  have hu := (hub last.vars (.refl _)).symm.close_eq hlast.vars hb
  rcases deref_eq_ok hptr hderef with
    ⟨m, r, rfl⟩ | ⟨id, args, rfl, hboxed⟩ | ⟨hby, htarget⟩
  · rw [hlast.vars.resolve_eq ht, hlast.vars.resolve_eq hu, Ty.assign_eq rfl]
    exact .reference _ m r
  · rw [hlast.vars.resolve_eq ht, hlast.vars.resolve_eq hu, Ty.assign_eq rfl]
    exact .boxed _ _ hboxed
  · exact .target hby hbefore htarget hafter ht hu

theorem Unsizes.closed (hlast : last.WellFormed) (h : last.Unsizes a b)
    (ha : last.vars.close a = .ok A) (hb : last.vars.close b = .ok B) : Ty.Unsizes A B := by
  obtain ⟨elem, len, hat, rfl⟩ := h
  have ht := (hat last.vars (.refl _)).close_eq hlast.vars ha
  rw [hlast.vars.resolve_eq ht, hlast.vars.resolve_eq hb, Ty.assign_eq rfl, Ty.assign_eq rfl]
  exact .array _ len

/-- Chains are chains of the closed types in the end. -/
theorem Reaches.closed {unsizes : Bool} {us Us : List Ty} (hlast : last.WellFormed)
    (h : last.Reaches scope unsizes a us) (ha : last.vars.close a = .ok A)
    (hus : List.Forall₂ (fun t T => last.vars.close t = .ok T) us Us) :
    Ty.Chain (last.Dereferences scope) (fun t u => unsizes = true ∧ Ty.Unsizes t u) A Us :=
  Ty.Chain.map (fun _ _ _ _ ht hu h => h.closed hlast ht hu)
    (fun _ _ _ _ ht hu h => ⟨h.1, h.2.closed hlast ht hu⟩) h ha hus

theorem accounted_start (scope : Scope) : State.Accounted scope {} where
  infers := .refl _
  unvisited _ _ := rfl
  visited _ _ h := by cases h
  inside _ _ _ _ h := by cases h

end State

namespace Infer

variable {scope : Scope} {s before after last : State} {o : Outcome}

theorem infers_of_finish (hs : s.WellFormed) (h : finish scope s = .ok (o, last)) :
    s.Infers scope last := by
  rw [finish_eq] at h
  obtain ⟨_, before, hsettle, h⟩ := bind_eq_ok h
  obtain ⟨_, after, hdefault, h⟩ := bind_eq_ok h
  obtain ⟨_, last, hrefine, h⟩ := bind_eq_ok h
  have hsettled := (Orderly.settlePending.anyway.still hs hsettle).infers
  have hbefore := hsettled.wellFormed hs
  have hdefaulted : before.Infers scope after := by
    rcases defaultTypes_cases scope _ hbefore.vars (.refl before.vars) with
      ⟨vars, hrun, -, hd⟩ | ⟨-, i, hrun⟩
    · cases hdefault.symm.trans hrun
      exact .vars (.steps hd.steps)
    · cases hdefault.symm.trans hrun
  have hrefined := (Orderly.refineCalls.anyway.still (hdefaulted.wellFormed hbefore) hrefine).infers
  obtain rfl := (closeRecords_eq_ok h).1
  exact (hsettled.trans hdefaulted).trans hrefined

namespace Finished

variable (h : Finished scope s before after last o)

include h

theorem derefs_closed (id : ExprId) :
    List.Forall₂ (fun t T => last.vars.close t = .ok T) (last.derefs id) (o.derefs id) := by
  have hrel := h.records.adjustments.get? id.index
  unfold State.derefs Outcome.derefs
  generalize last.adjustments.get? id.index = as at hrel
  generalize o.adjustments.get? id.index = as' at hrel
  cases hrel with
  | none => exact .nil
  | some hall =>
    rw [Option.getD_some, Option.getD_some]
    induction hall with
    | nil => exact .nil
    | @cons a a' _ _ hfirst _ ih =>
      cases a with
      | deref target =>
        obtain ⟨target', htarget, ⟨⟩⟩ := Except.bind_eq_ok hfirst
        exact .cons htarget ih
      | borrowRef | borrowPtr =>
        obtain ⟨target', -, ⟨⟩⟩ := Except.bind_eq_ok hfirst
        exact ih

theorem still (hinfers : s.Infers scope last) : s.Still scope last := by
  refine ⟨hinfers, h.quiet_last.exprTypes, fun id => ?_⟩
  rw [State.derefs, State.derefs, h.adjustments_last]

end Finished

end Infer

theorem Walk.isUnsizing_eq_true {previous : Option Ty} {t : Ty} (h : isUnsizing previous t = true) :
    ∃ elem len elem', previous = some (.array elem len) ∧ t = .slice elem' := by
  unfold isUnsizing at h
  split at h
  · next elem len elem' => exact ⟨elem, len, elem', rfl, rfl⟩
  · cases h

/-- The body `&box K`. -/
def Body.boxedConst : Body := .ofNodes
  [.path ["K"], .unary .box ⟨0⟩, .unary (.ref .shared) ⟨1⟩] [] []

/-- The body `[1u8].len()`. -/
def Body.measuredArray : Body := .ofNodes
  [.literal (.int (some .u8)), .array (.list [⟨0⟩]), .methodCall ⟨1⟩ "len" [] []] [] []

namespace Session

/-- The dereferences of an outcome form chains. Each expression whose type is known, and that may
finish, is dereferenced from its type on, and the last of its dereferences may be the unsizing of an
array. Where a field or an index is looked up, there is no unsizing. -/
theorem infer_dereferences (s : Session) (owner : Owner) (o : Outcome) (σ σ' : SessionState)
    (h : s.infer owner σ = (.ok o, σ')) :
    ∃ body scope w last, s.Produces owner body scope w o ∧
      Infer.finish scope w.toState = .ok (o, last) ∧
      (∀ (id : ExprId) (ty : Ty), o.exprTypes.get? id.index = some ty → ty ≠ .never →
        ty ≠ .unknown →
        Ty.Chain (last.Dereferences scope) Ty.Unsizes ty (o.derefs id)) ∧
      ∀ (id : ExprId) (e : Expr) (base : ExprId) (unsizes : Bool),
        o.exprTypes.contains id.index = true → body.expr id = .ok e →
        e.base? = some (base, unsizes) → ∃ ty, o.exprTypes.get? base.index = some ty ∧
          Ty.Chain (last.Dereferences scope) (fun t u => unsizes = true ∧ Ty.Unsizes t u)
            ty (o.derefs base) := by
  obtain ⟨body, scope, w, hproduces⟩ := exists_produces h
  have hw := hproduces.wellFormed
  obtain ⟨last, hfinish⟩ := hproduces.finished
  obtain ⟨before, after, hfinished⟩ := Infer.exists_finished hw hfinish
  have hlast := hfinished.wellFormed_last hw
  have hbody := hproduces.scope_body
  have haccounted : last.Accounted scope := by
    rcases hproduces.walked with ⟨σ, σ', hwalk⟩
    have hwalked : Walk.Accounts body
        (Walk.entries (Walk.visitor s.constTy body.walkDepth) owner) :=
      .of_composed (W := fun _ => True) (Walk.visitor_accounts _) (.entries trivial) not_false
    have hproceeds := hwalked hbody (State.accounted_start _) hwalk
    have hstill := hfinished.still (infers_of_finish hw hfinish)
    exact (hproceeds.accounted.still hstill).accounted
  have hrecorded {k : Nat} {ty : Ty} (hty : o.exprTypes.get? k = some ty) :
      ∃ t, last.exprTypes.get? k = some t ∧ last.vars.close t = .ok ty := by
    rw [hfinished.quiet_last.exprTypes]
    exact hfinished.exists_recorded hty
  refine ⟨body, scope, w, last, hproduces, hfinish, ?_, ?_⟩
  · intro id ty hty hnever hunknown
    rcases hrecorded hty with ⟨t, ht, hclose⟩
    -- What is taken for a type that closes to itself closes to it.
    have hexempt {u : Ty} (hu : u.assign (last.vars.extend fun _ => .unknown) = u)
        (hidentified : last.vars.Identified t u) : ty = u := by
      have hclose' := (hidentified last.vars (.refl _)).close_eq hlast.vars hclose
      rw [hlast.vars.resolve_eq hclose', hu]
    rcases haccounted.visited id t ht with hreaches | hidentified | hidentified
    · exact (hreaches.closed hlast hclose (hfinished.derefs_closed id)).mono (fun _ _ h => h)
        fun _ _ h => h.2
    · exact absurd (hexempt (Ty.assign_eq rfl) hidentified) hnever
    · exact absurd (hexempt (Ty.assign_eq rfl) hidentified) hunknown
  · intro id e base unsizes hid hexpr hbase
    have hid' : last.exprTypes.contains id.index = true := by
      rw [hfinished.quiet_last.exprTypes, ← hfinished.contains_exprTypes, hid]
    rw [← hbody] at hexpr
    rcases haccounted.inside id e base unsizes hid' hexpr hbase with ⟨t, ht, hreaches⟩
    rcases hfinished.exists_closed ht with ⟨ty, hty, hclose⟩
    exact ⟨ty, hty, hreaches.closed hlast hclose (hfinished.derefs_closed base)⟩

/-- A struct `S` that dereferences to an array of one byte, a constant `K` of it, and the constant
`&box K`, which is declared to be a reference to a slice. -/
def boxedConst : Session where
  program := {
    items := { Items.empty with
      paramNames := #["Self", "T"],
      adts := #[⟨"Box", ⟨[⟨1⟩], []⟩, .struct .unit, none⟩, ⟨"S", .empty, .struct .unit, none⟩],
      traits := #[⟨"Deref", .empty, ["Target"]⟩],
      impls := #[⟨.empty, some (⟨0⟩, []), .adt ⟨1⟩ [],
        [⟨"Target", .array (.int .u8) (some 1)⟩]⟩],
      consts := #[⟨"C", some (.ref (.slice (.int .u8)) .shared .static)⟩,
        ⟨"K", some (.adt ⟨1⟩ [])⟩] }
    known := { boxed := some ⟨0⟩, deref := some ⟨0⟩ }
    bodies := [(.const ⟨0⟩, .boxedConst, Names.empty.setPath ⟨0⟩ [⟨.const ⟨1⟩, .empty⟩])] }

/-- The reference leads to the box, that to the struct, the impl from there to the array, and the array
is unsized. -/
theorem infer_dereferences_boxedConst :
    ∃ o σ' ty scope last, boxedConst.infer (.const ⟨0⟩) {} = (.ok o, σ') ∧
      o.exprTypes.get? 2 = some ty ∧
      (o.derefs ⟨2⟩ == [.adt ⟨0⟩ [.adt ⟨1⟩ []], .adt ⟨1⟩ [], .array (.int .u8) (some 1),
        .slice (.int .u8)]) = true ∧
      Ty.Chain (State.Dereferences scope last) Ty.Unsizes ty (o.derefs ⟨2⟩) := by
  have hok : (boxedConst.infer (.const ⟨0⟩) {}).1.toOption.map (fun o =>
      (o.derefs ⟨2⟩ == [.adt ⟨0⟩ [.adt ⟨1⟩ []], .adt ⟨1⟩ [], .array (.int .u8) (some 1),
        .slice (.int .u8)],
        (o.exprTypes.get? 2).map fun ty => (ty.isNever, ty.isUnknown))) =
      some (true, some (false, false)) := by
    decide +kernel
  obtain ⟨o, σ', hrun, hok⟩ := Except.exists_ok_of_fst hok
  rcases Prod.mk.inj hok with ⟨hderefs, hkind⟩
  rcases Option.map_eq_some_iff.1 hkind with ⟨ty, hty, hknown⟩
  have hnever : ty ≠ .never := by
    rintro rfl
    cases hknown
  have hunknown : ty ≠ .unknown := by
    rintro rfl
    cases hknown
  rcases infer_dereferences boxedConst (.const ⟨0⟩) o {} σ' hrun with
    ⟨body, scope, w, last, -, -, hchains, -⟩
  exact ⟨o, σ', ty, scope, last, hrun, hty, hderefs, hchains ⟨2⟩ ty hty hnever hunknown⟩

/-- A program with the array length `[1u8].len()`, where `len` is a method of byte slices. -/
def measuredArray : Session where
  program := {
    items := { Items.empty with
      functions := #[⟨"len", .impl ⟨0⟩, .empty, some (.ref .shared), [], .int .usize, false, true⟩],
      impls := #[⟨.empty, none, .slice (.int .u8), []⟩] }
    known := {}
    bodies := [(.arrayLen 0, .measuredArray, .empty)] }

/-- On the receiver of a method a slice is recorded as the dereference of an array, though an array
cannot be dereferenced. -/
theorem measuredArray_unsized :
    ∃ o σ' elem len elem', measuredArray.infer (.arrayLen 0) {} = (.ok o, σ') ∧
      Body.measuredArray.expr ⟨2⟩ = .ok (.methodCall ⟨1⟩ "len" [] []) ∧
      o.exprTypes.get? 1 = some (.array elem len) ∧ o.derefs ⟨1⟩ = [.slice elem'] ∧
      ∀ scope last u, scope.known = measuredArray.program.known →
        ¬ State.Dereferences scope last (.array elem len) u := by
  have hok : (measuredArray.infer (.arrayLen 0) {}).1.toOption.map (fun o =>
      (o.derefs ⟨1⟩).map (Walk.isUnsizing (o.exprTypes.get? 1))) = some [true] := by
    decide +kernel
  obtain ⟨o, σ', hrun, hok⟩ := Except.exists_ok_of_fst hok
  rcases List.map_eq_singleton_iff.1 hok with ⟨target, hderefs, hunsizing⟩
  rcases Walk.isUnsizing_eq_true hunsizing with ⟨elem, len, elem', harray, rfl⟩
  refine ⟨o, σ', elem, len, elem', hrun, rfl, harray, hderefs, ?_⟩
  intro scope last u hknown h
  cases h with
  | target _ _ htarget =>
    obtain ⟨_, _, ⟨⟩, hrest⟩ := Infer.bind_eq_ok htarget
    rw [hknown] at hrest
    cases hrest

end Session

end TypeInference
