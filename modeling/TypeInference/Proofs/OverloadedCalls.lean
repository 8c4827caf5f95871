import TypeInference.Proofs.Interruptions
import TypeInference.Proofs.Overloads

/-!
# Calls of overloaded methods

A function takes a struct and one of the types at which the struct implements a trait, and calls the
overloaded method with the two. The walk of its body is followed step by step: the call names the
declaration in the trait at first, the argument gives the parameter of the trait its type, and then
the obligation that was left is decided. Finishing replaces the declaration by the method of the
impl at that type.
-/

namespace TypeInference

/-! ## Steps of a walk -/

variable {key k : Nat} {α : Type}

theorem IdMap.contains_insert_of_ne {m : IdMap α} {value : α} (h : m.contains k = false)
    (hne : k ≠ key) : (m.insert key value).contains k = false := by
  rw [Bool.eq_false_iff, Ne, contains_insert, h]
  simpa using hne

namespace Walk

variable {id : ExprId} {ty : Ty} {expected seen : Option Ty}

open Infer

variable {α β : Type} {scope : Scope} {w w₁ : WalkState} {σ σ₁ : SessionState} {v : Visitor}
  {x : Walk α} {f : α → Walk β} {a : α} {s : State}

theorem bind_of_ok (h : x.go scope w σ = (.ok (a, w₁), σ₁)) :
    (x >>= f).go scope w σ = (f a).go scope w₁ σ₁ := by
  rw [bind_run, h]

theorem ok_then {r : Except Stop (β × WalkState) × SessionState}
    (h : x.go scope w σ = (.ok (a, w₁), σ₁)) (hf : (f a).go scope w₁ σ₁ = r) :
    (x >>= f).go scope w σ = r :=
  (bind_of_ok h).trans hf

theorem lift_of_ok {x : Infer α} (h : x scope w.toState = .ok (a, s)) :
    (liftM x : Walk α).go scope w σ = (.ok (a, { w with toState := s }), σ) := by
  rw [lift_run, h]

theorem except_of_ok {x : Except Fault α} (h : x = .ok a) :
    (liftM x : Walk α).go scope w σ = (.ok (a, w), σ) :=
  lift_of_ok (Infer.lift_of_ok h)

theorem discard_of_ok (h : x.go scope w σ = (.ok (a, w₁), σ₁)) :
    (discard x).go scope w σ = (.ok ((), w₁), σ₁) := by
  show (x >>= fun _ => pure () : Walk Unit).go scope w σ = _
  exact ok_then h rfl

theorem inside_of_ok {b : Boundary} (h : x.go scope (w.jump (b.enter w.toJumps)) σ = (.ok (a, w₁), σ₁)) :
    (inside b x).go scope w σ =
      (.ok ((a, w₁.toJumps), w₁.jump (b.leave w.toJumps w₁.toJumps)), σ₁) := by
  rw [inside_run, SessionM.bind_run, h]
  rfl

theorem checkCancelled_of_calm (hσ : σ.Calm) :
    checkCancelled.go scope w σ = (.ok ((), w), σ.countCheck) := by
  show (liftM SessionM.checkCancelled : Walk Unit).go scope w σ = _
  rw [session_run, SessionM.checkCancelled_run, if_neg (by simp [hσ.countCheck.cancelled])]

theorem writeExprTy_of_new (hnew : w.exprTypes.contains id.index = false) (ty : Ty) :
    (liftM (writeExprTy id ty) : Walk Unit).go scope w σ =
      (.ok ((), { w with exprTypes := w.exprTypes.insert id.index ty }), σ) := by
  refine lift_of_ok ?_
  rw [writeExprTy_run, if_neg (by simp [hnew])]

theorem expectation_determined (hty : ty.Determined) :
    expectation (some ty) scope s = .ok (some ty, s) := by
  have hrun : expectation (some ty) scope s =
      (do return some (← head ty) : Infer (Option Ty)) scope s := by
    cases ty with
    | unknown => cases hty.isUnknown
    | _ => rfl
  exact hrun.trans (Infer.ok_then (head_node hty.isVar) rfl)

theorem expectation_open {var : Var} (hs : s.vars.Sound) (hopen : s.vars.Open var) :
    expectation (some (.var var)) scope s = .ok (some (.var var), s) := by
  have hhead : head (.var var) scope s = .ok (.var var, s) :=
    Infer.ok_then rfl (Infer.lift_of_ok (hs.head_of_open hopen))
  exact Infer.ok_then hhead rfl

/-- An expression is recorded with the type that its kind gives it. -/
theorem expression_of_ok {e : Expr} (hσ : σ.Calm) (hid : scope.body.expr id = .ok e)
    (hexpected : expectation expected scope w.toState = .ok (seen, w.toState))
    (hkind : (kindTy v id seen e).go scope w σ.countCheck = (.ok (ty, w₁), σ₁))
    (hnew : w₁.exprTypes.contains id.index = false) : (expression v id expected).go scope w σ =
      (.ok (ty, { w₁ with exprTypes := w₁.exprTypes.insert id.index ty }), σ₁) := by
  refine ok_then (checkCancelled_of_calm hσ) (ok_then (lift_of_ok hexpected) ?_)
  refine ok_then rfl (ok_then (except_of_ok hid) ?_)
  exact ok_then hkind (ok_then (writeExprTy_of_new hnew ty) rfl)

/-- A path to a local has the type of the binding. -/
theorem expression_local {p : Path} {pat : PatId} {subst : Subst} (hσ : σ.Calm)
    (hid : scope.body.expr id = .ok (.path p))
    (hnames : scope.names.path id = [⟨.local pat, subst⟩])
    (hexpected : expectation expected scope w.toState = .ok (seen, w.toState))
    (hty : w.bindings.get? pat.index = some ty) (hnew : w.exprTypes.contains id.index = false) :
    (expression v id expected).go scope w σ = (.ok (ty, { w with
      paths := w.paths.insert id.index [.local pat]
      exprTypes := w.exprTypes.insert id.index ty }), σ.countCheck.countLookUp) := by
  have hlookup : (lookUpPath id).go scope w σ.countCheck =
      (.ok ([⟨.local pat, subst⟩], w), σ.countCheck.countLookUp) := by
    rw [← hnames]
    rfl
  have hbinding : bindingTy pat scope
      { w.toState with paths := w.paths.insert id.index [.local pat] } =
        .ok (ty, { w.toState with paths := w.paths.insert id.index [.local pat] }) := by
    refine Infer.ok_then rfl ?_
    rw [hty]
    rfl
  have hkind : (kindTy v id seen (.path p)).go scope w σ.countCheck =
      (.ok (ty, { w with paths := w.paths.insert id.index [.local pat] }),
        σ.countCheck.countLookUp) := by
    refine ok_then hlookup (ok_then (lift_of_ok rfl) ?_)
    exact lift_of_ok hbinding
  exact expression_of_ok hσ hid hexpected hkind hnew

theorem pattern_byValue {id : PatId} {name : String} {m : Mutability}
    (hid : scope.body.pat id = .ok (.bind name (.byValue m) none)) (hty : ty.Determined) :
    (pattern v id ty .move).go scope w σ =
      (.ok ((), { w with bindings := w.bindings.insert id.index ty }), σ) := by
  have hbinding : (BindingMode.byValue m).bindingTy .move ty = ty := by cases m <;> rfl
  refine ok_then rfl (ok_then (lift_of_ok (resolveSettled_determined hty)) ?_)
  refine ok_then (except_of_ok hid) (ok_then (except_of_ok rfl) ?_)
  refine ok_then (lift_of_ok rfl) ?_
  rw [hbinding]
  rfl

theorem root_of_ok {kind : BlockKind} {stmts : List Statement} {tail : Option ExprId} (hσ : σ.Calm)
    (hid : scope.body.expr id = .ok (.block kind none stmts tail)) (hplain : kind.isPlain = true)
    (hnew : w.exprTypes.contains id.index = false)
    (hstatements : (statements v stmts tail (some w.returnTy) true).go scope
      { w with exprTypes := w.exprTypes.insert id.index w.returnTy } σ.countCheck =
        (.ok (ty, w₁), σ₁)) : (root v id).go scope w σ =
      (if tail.isNone && !ty.isNever then discard (coerce id ty w.returnTy : Walk Bool)
        else pure () : Walk Unit).go scope w₁ σ₁ := by
  refine ok_then rfl (ok_then rfl (ok_then (except_of_ok hid) ?_))
  dsimp only
  rw [if_pos hplain, bind_of_ok (checkCancelled_of_calm hσ), bind_of_ok (writeExprTy_of_new hnew _)]
  exact bind_of_ok hstatements

theorem argumentsThat_singleton {arg : ExprId} {isClosure : Bool}
    (h : scope.body.isClosure arg = .ok isClosure) (areClosures : Bool) (param : Ty) :
    (argumentsThat v areClosures [param] [arg]).go scope w σ =
      if isClosure = areClosures then
        (do
          let param ← resolve param
          discard (v.coerced arg param) : Walk Unit).go scope w σ
      else (.ok ((), w), σ) := by
  let visit : Walk Unit := do
    let param ← resolve param
    discard (v.coerced arg param)
  have hrun : (argumentsThat v areClosures [param] [arg]).go scope w σ =
      (if isClosure = areClosures then visit else pure ()).go scope w σ := by
    refine ok_then rfl ?_
    show ((do
      if (← scope.body.isClosure arg) = areClosures then visit) >>= fun _ => pure () : Walk Unit).go
        scope w σ = _
    rw [bind_pure_unit]
    exact bind_of_ok (except_of_ok h)
  rw [hrun]
  split <;> rfl

end Walk

/-! ## Records -/

namespace Infer

variable {α : Type} {scope : Scope} {s : State} {xs : List α} {f : α → Infer α}

theorem forM_of_ok {f : α → Infer PUnit} (h : ∀ x ∈ xs, f x scope s = .ok ((), s)) :
    xs.forM f scope s = .ok ((), s) := by
  induction xs with
  | nil => rfl
  | cons x xs ih =>
    refine ok_then (h x (.head _)) ?_
    exact ih fun y hy => h y (.tail _ hy)

theorem idMapM_of_ok {m : IdMap α} (h : ∀ x ∈ m.values, f x scope s = .ok (x, s)) :
    m.mapM f scope s = .ok (m, s) := by
  have hentries : m.entries.mapM (fun e => do return (e.1, ← f e.2) : Nat × α → Infer (Nat × α))
      scope s = .ok (m.entries.map id, s) := by
    refine mapM_of_ok ?_
    rintro ⟨key, value⟩ hmem
    exact ok_then (h value (List.mem_map.2 ⟨_, hmem, rfl⟩)) rfl
  refine ok_then hentries ?_
  rw [List.map_id]
  rfl

theorem listMapM_of_ok (h : ∀ x ∈ xs, f x scope s = .ok (x, s)) :
    xs.mapM f scope s = .ok (xs, s) := by
  have hmap : xs.mapM f scope s = .ok (xs.map id, s) := mapM_of_ok h
  rwa [List.map_id] at hmap

/-- Closing leaves determined types alone. -/
theorem closeRecords_determined (hexprs : ∀ ty ∈ s.exprTypes.values, ty.Determined)
    (hbindings : ∀ ty ∈ s.bindings.values, ty.Determined)
    (hmethods : ∀ rs ∈ s.methods.values, ∀ r ∈ rs, r.self.Determined)
    (hadjustments : ∀ as ∈ s.adjustments.values, ∀ a ∈ as, a.mapM close scope s = .ok (a, s))
    (hdiagnostics : s.diagnostics = []) :
    closeRecords scope s =
      .ok (⟨s.exprTypes, s.bindings, s.paths, s.methods, s.fields, s.adjustments, []⟩, s) := by
  have hclosed {m : IdMap Ty} (hm : ∀ ty ∈ m.values, ty.Determined) :
      m.mapM close scope s = .ok (m, s) :=
    idMapM_of_ok fun ty hty => close_determined (hm ty hty)
  refine ok_then rfl (ok_then (hclosed hexprs) ?_)
  refine ok_then (hclosed hbindings) ?_
  refine ok_then (idMapM_of_ok fun rs hrs => listMapM_of_ok fun r hr => ?_) ?_
  · exact ok_then (close_determined (hmethods rs hrs r hr)) rfl
  refine ok_then (idMapM_of_ok fun as has => listMapM_of_ok (hadjustments as has)) ?_
  rw [hdiagnostics]
  rfl

end Infer

namespace Program.Overloads

open Infer

variable {p : Program} {n : Nat} {o : p.Overloads n} {k : Fin n} {f : FnId}

/-- The function `f` takes the struct as `s` and a value of the `k`-th type as `a`, and its body is
`{ s.m(a); }` or `{ s.m(a) }`. In the second form the result of the method is no reference: at the end of
the body it is converted to what the function returns, and a reference would be reborrowed there, for
which its `Deref` impls are looked at. Nothing is assumed in the function, and the trait is in scope. -/
structure Caller (o : p.Overloads n) (k : Fin n) (f : FnId) where
  fn : Function
  body : Body
  names : Names
  receiverPat : PatId
  argumentPat : PatId
  receiver : ExprId
  argument : ExprId
  call : ExprId
  kind : BlockKind
  fn_eq : p.items.function f = .ok fn
  selfParam_eq : fn.selfParam = none
  params_eq : fn.params = [o.self, o.arg k]
  env_eq : ParamEnv.ofOwner p.items (.function f) = .ok .empty
  visible : ∀ traits, names.traitsInScope = some traits → o.trait ∈ traits
  body_eq : p.body? (.function f) = some (body, names)
  patterns_eq : body.params = [receiverPat, argumentPat]
  patterns_ne : receiverPat ≠ argumentPat
  receiverPat_eq : ∃ name m, body.pat receiverPat = .ok (.bind name (.byValue m) none)
  argumentPat_eq : ∃ name m, body.pat argumentPat = .ok (.bind name (.byValue m) none)
  receiver_eq : ∃ path, body.expr receiver = .ok (.path path)
  receiver_names : ∃ subst, names.path receiver = [⟨.local receiverPat, subst⟩]
  argument_eq : ∃ path, body.expr argument = .ok (.path path)
  argument_names : ∃ subst, names.path argument = [⟨.local argumentPat, subst⟩]
  call_eq : body.expr call = .ok (.methodCall receiver o.method [] [argument])
  plain : kind.isPlain = true
  root_eq :
    (body.expr body.root = .ok (.block kind none [.expr call] none) ∧ fn.ret = .unit) ∨
    (body.expr body.root = .ok (.block kind none [] (some call)) ∧ fn.ret = o.ret ∧
      ∀ inner m r, o.ret ≠ .ref inner m r)

/-! ## The call -/

/-- The state when the call has been inferred: it names the declaration of the trait, and the impl at
`goal` is to take its place. -/
def called (c : o.Caller k f) (s : State) (cache : ProjectionCache) (vars : Vars) : State :=
  { s with
    cache
    vars
    pending := []
    paths := (s.paths.insert c.receiver.index [.local c.receiverPat]).insert c.argument.index
      [.local c.argumentPat]
    exprTypes := ((s.exprTypes.insert c.receiver.index o.self).insert c.argument.index
      (o.arg k)).insert c.call.index o.ret
    methods := s.methods.insert c.call.index [o.collapsed.resolution]
    adjustments := s.adjustments.insert c.receiver.index o.borrow
    methodRefinements := s.methodRefinements ++ [(c.call, o.goal s.vars.freshTy.1)] }

namespace Caller

variable (c : o.Caller k f) {scope : Scope} {w : WalkState} {σ : SessionState}
  {v inner : Visitor} {expected : Option Ty} {outer : Visitor} {id : ExprId} {s : State} {t ty : Ty}

/-- The scope is one of the body of the function. -/
structure Within (scope : Scope) : Prop where
  method : o.In scope
  body : scope.body = c.body
  names : scope.names = c.names

/-- The call is about to be inferred. -/
structure Ready (s : State) : Prop where
  wellFormed : s.WellFormed
  cache : s.cache = ∅
  pending : s.pending = []
  receiver : s.bindings.get? c.receiverPat.index = some o.self
  argument : s.bindings.get? c.argumentPat.index = some (o.arg k)
  unconverted : s.adjustments.get? c.receiver.index = none
  new : ∀ id ∈ [c.receiver, c.argument, c.call], s.exprTypes.contains id.index = false

theorem receiver_ne_argument : c.receiver ≠ c.argument := by
  intro heq
  obtain ⟨_, hreceiver⟩ := c.receiver_names
  obtain ⟨_, hargument⟩ := c.argument_names
  rw [heq, hargument] at hreceiver
  injection hreceiver with hres
  injection hres with hvalue
  injection hvalue with hpat
  exact c.patterns_ne hpat.symm

theorem call_ne_path {path : Path} (hid : c.body.expr id = .ok (.path path)) : c.call ≠ id := by
  intro heq
  have hcall := c.call_eq
  rw [heq, hid] at hcall
  cases hcall

/-- The argument is recorded, and the variables are what its type made of them. -/
def argued (s : State) (vars : Vars) : State :=
  { s with
    vars
    paths := s.paths.insert c.argument.index [.local c.argumentPat]
    exprTypes := s.exprTypes.insert c.argument.index (o.arg k) }

section

variable {c} (hscope : c.Within scope) (hσ : σ.Calm) {i : Nat}
  (hv : v.expr = Walk.expression inner) (hs : w.vars.Sound) (hi : w.vars.Open (.ty i))
  (hpending : w.pending = [.ofTrait 0 (o.goal (.var (.ty i)))])
  (hbinding : w.bindings.get? c.argumentPat.index = some (o.arg k))
  (hnew : w.exprTypes.contains c.argument.index = false)

include hscope hσ hv hs hi hpending hbinding hnew

/-- The argument is inferred and converted to the parameter of the trait, which is still open. -/
theorem coerced_argument :
    ∃ vars, (v.coerced c.argument (.var (.ty i))).go scope w σ =
        (.ok (.var (.ty i), { w with toState := c.argued w.toState vars }),
          σ.countCheck.countLookUp) ∧
      vars.resolve (.var (.ty i)) = .ok (o.arg k) := by
  obtain ⟨path, hid⟩ := c.argument_eq
  obtain ⟨subst, hnames⟩ := c.argument_names
  rw [← hscope.body] at hid
  rw [← hscope.names] at hnames
  have hexpr : (v.expr c.argument (some (.var (.ty i)))).go scope w σ = _ :=
    (congrFun (congrFun hv c.argument) _ ▸ Walk.expression_local (v := inner) hσ hid hnames
      (Walk.expectation_open hs hi) hbinding hnew)
  obtain ⟨vars, hcoerce, hresolve⟩ := coerce_argument (s := { w.toState with
    paths := w.paths.insert c.argument.index [.local c.argumentPat]
    exprTypes := w.exprTypes.insert c.argument.index (o.arg k) }) hscope.method hs hi hpending
    c.argument k
  refine ⟨vars, ?_, hresolve⟩
  refine Walk.ok_then hexpr ?_
  exact Walk.ok_then (Walk.lift_of_ok hcoerce) rfl

/-- When all arguments are walked, the obligation on the parameter of the trait is decided. -/
theorem arguments_run :
    ∃ vars, (Walk.arguments v [.var (.ty i)] [c.argument]).go scope w σ =
        (.ok ((), { w with toState := { c.argued w.toState vars with pending := [] } }),
          σ.countCheck.countLookUp) ∧
      vars.resolve (.var (.ty i)) = .ok (o.arg k) := by
  obtain ⟨vars, hcoerced, hresolve⟩ := coerced_argument hscope hσ hv hs hi hpending hbinding hnew
  refine ⟨vars, ?_, hresolve⟩
  have hclosure : scope.body.isClosure c.argument = .ok false := by
    obtain ⟨path, hid⟩ := c.argument_eq
    rw [hscope.body, Body.isClosure, hid]
    rfl
  have hparam : resolve (.var (.ty i)) scope w.toState = .ok (.var (.ty i), w.toState) :=
    readVars_of_ok (hs.resolve_open hi)
  have hfirst : (Walk.argumentsThat v false [.var (.ty i)] [c.argument]).go scope w σ =
      (.ok ((), { w with toState := c.argued w.toState vars }), σ.countCheck.countLookUp) := by
    rw [Walk.argumentsThat_singleton hclosure, if_pos rfl]
    refine Walk.ok_then (Walk.lift_of_ok hparam) ?_
    exact Walk.discard_of_ok hcoerced
  have hrounds : scope.fuel.rounds = (2 ^ 60 - 2) + 2 := by
    rw [hscope.method.fuel]
    rfl
  have hsettle : settlePending scope (c.argued w.toState vars) =
      .ok ((), { c.argued w.toState vars with pending := [] }) :=
    settlePending_of_decided hrounds hpending (process_goal hscope.method hresolve)
  refine Walk.ok_then hfirst (Walk.ok_then (Walk.lift_of_ok hsettle) ?_)
  rw [Walk.argumentsThat_singleton hclosure, if_neg Bool.false_ne_true]

end

/-- The state when the method is about to be instantiated: the receiver is recorded, and the call
names the declaration of the trait. -/
def looked (s : State) (cache : ProjectionCache) : State :=
  { s with
    cache
    paths := s.paths.insert c.receiver.index [.local c.receiverPat]
    exprTypes := s.exprTypes.insert c.receiver.index o.self
    methods := s.methods.insert c.call.index [o.collapsed.resolution] }

/-- The call is instantiated, and its argument selects the impl. -/
theorem callMethod_run (hscope : c.Within scope) (hσ : σ.Calm)
    (hv : v.expr = Walk.expression inner) (hexpected : expected = none ∨ expected = some o.ret)
    (hs : w.vars.Sound) (hpending : w.pending = [])
    (hunconverted : w.adjustments.get? c.receiver.index = none)
    (hbinding : w.bindings.get? c.argumentPat.index = some (o.arg k))
    (hnew : w.exprTypes.contains c.argument.index = false) :
    ∃ vars, (Walk.callMethod v c.call c.receiver [o.self] o.collapsed [] [c.argument] expected).go
        scope w σ =
      (.ok (o.ret, { w with toState := { c.argued w.toState vars with
        pending := []
        adjustments := w.adjustments.insert c.receiver.index o.borrow
        methodRefinements := w.methodRefinements ++ [(c.call, o.goal w.vars.freshTy.1)] } }),
        σ.countCheck.countLookUp) ∧
      vars.resolve w.vars.freshTy.1 = .ok (o.arg k) := by
  obtain ⟨hasBody, hdeclared⟩ := o.declared_eq
  rw [← hscope.method.items] at hdeclared
  let s := o.instantiated c.call w.toState
  let borrowed : State :=
    { s with adjustments := s.adjustments.insert c.receiver.index o.borrow }
  have hadjust : adjustReceiver c.receiver [o.self] (o.self.reference .shared) scope s =
      .ok ((), borrowed) :=
    adjustReceiver_run hunconverted
  have hmeets : ∀ ty ∈ expected, unify ty o.ret scope s = .ok ((), s) := by
    intro ty hty
    rcases hexpected with rfl | rfl
    · cases hty
    · cases hty
      have hret := o.ret_determined.isVar
      show (combine o.ret o.ret >>= fun _ => pure () : Infer Unit) scope s = _
      exact ok_then (combine_same hret hret o.ret.same_refl) rfl
  have hexpects : (expected.forM fun ty => Walk.liftInfer (unify ty o.ret)).go scope
      { w with toState := s } σ = (.ok ((), { w with toState := s }), σ) := by
    cases expected with
    | none => rfl
    | some ty => exact Walk.lift_of_ok (hmeets ty rfl)
  obtain ⟨vars, harguments, hresolve⟩ := arguments_run (w := { w with toState := borrowed }) hscope hσ hv
    hs.freshTy (Vars.open_freshTy hs)
    (by show w.pending ++ _ = _; rw [hpending]; rfl) hbinding hnew
  refine ⟨vars, ?_, hresolve⟩
  refine Walk.ok_then (Walk.lift_of_ok (instantiateMethod_run hscope.method c.call)) ?_
  refine Walk.ok_then rfl (Walk.ok_then (Walk.except_of_ok hdeclared) ?_)
  refine Walk.ok_then hexpects ?_
  refine Walk.ok_then (Walk.lift_of_ok hadjust) ?_
  exact Walk.ok_then harguments rfl

/-- The call is inferred, receiver first. -/
theorem call_run (hscope : c.Within scope) (hσ : σ.Calm) (hw : c.Ready w.toState)
    (hv : v.expr = Walk.expression inner) (hexpected : expected = none ∨ expected = some o.ret) :
    ∃ cache vars σ', σ'.Calm ∧
      (Walk.expression v c.call expected).go scope w σ =
        (.ok (o.ret, { w with toState := o.called c w.toState cache vars }), σ') ∧
      vars.resolve w.vars.freshTy.1 = .ok (o.arg k) := by
  obtain ⟨path, hreceiver⟩ := c.receiver_eq
  obtain ⟨argumentPath, hargument⟩ := c.argument_eq
  obtain ⟨subst, hnames⟩ := c.receiver_names
  have hcallReceiver := c.call_ne_path hreceiver
  have hcallArgument := c.call_ne_path hargument
  rw [← hscope.body] at hreceiver
  rw [← hscope.names] at hnames
  have hexpectation : Walk.expectation expected scope w.toState =
      .ok (expected, w.toState) := by
    rcases hexpected with rfl | rfl
    · rfl
    · exact Walk.expectation_determined o.ret_determined
  -- The receiver.
  let seen : State := { w.toState with
    paths := w.paths.insert c.receiver.index [.local c.receiverPat]
    exprTypes := w.exprTypes.insert c.receiver.index o.self }
  have hfirst : (v.free c.receiver).go scope w σ.countCheck =
      (.ok (o.self, { w with toState := seen }), σ.countCheck.countCheck.countLookUp) := by
    show (v.expr c.receiver none).go scope w σ.countCheck = _
    rw [hv]
    exact Walk.expression_local hσ.countCheck hreceiver hnames rfl hw.receiver
      (hw.new _ (.head _))
  -- Looking up the method leaves nothing but the type that the struct has no target.
  obtain ⟨cache, hsteps⟩ := derefSequence_self (s := seen) hscope.method hw.cache
  have hwell : State.WellFormed { seen with cache } := by
    have hevolves : w.toState.Evolves seen := .recorded rfl rfl
    have hseen := (hevolves.spec hw.wellFormed).1
    have hregular : Regular scope Fault.IsOrdinary (Noting CacheOp) (derefSequence o.self) :=
      .derefSequence
    exact ((hregular.quiet hseen hsteps).1.spec hseen).1
  obtain ⟨is, hall, hfound⟩ := candidates_run hscope.method hwell
  have hpick := pick_run hscope.method hwell hall
  let looked : WalkState := { w with toState := c.looked w.toState cache }
  have hcalm := hσ.countCheck.countCheck.countLookUp
  have hargumentNew : looked.exprTypes.contains c.argument.index = false :=
    IdMap.contains_insert_of_ne (hw.new _ (by simp))
      (mt ExprId.index_inj.1 c.receiver_ne_argument.symm)
  obtain ⟨vars, hcall, hresolve⟩ := c.callMethod_run (w := looked) hscope hcalm hv hexpected
    hw.wellFormed.vars hw.pending hw.unconverted hw.argument hargumentNew
  refine ⟨cache, vars, _, hcalm.countCheck.countLookUp, ?_, hresolve⟩
  have hid : scope.body.expr c.call = .ok (.methodCall c.receiver o.method [] [c.argument]) := by
    rw [hscope.body]
    exact c.call_eq
  have hkind : (Walk.kindTy v c.call expected
      (.methodCall c.receiver o.method [] [c.argument])).go scope w σ.countCheck =
        (Walk.callMethod v c.call c.receiver [o.self] o.collapsed [] [c.argument] expected).go
          scope looked σ.countCheck.countCheck.countLookUp := by
    refine Walk.ok_then hfirst ?_
    refine Walk.ok_then (Walk.lift_of_ok (resolveSettled_determined o.self_determined)) ?_
    refine Walk.ok_then (Walk.lift_of_ok hsteps) ?_
    refine Walk.ok_then (Walk.lift_of_ok hfound) ?_
    refine Walk.ok_then (Walk.lift_of_ok hpick) ?_
    exact Walk.bind_of_ok (Walk.lift_of_ok rfl)
  refine Walk.expression_of_ok hσ hid hexpectation (hkind.trans hcall) ?_
  refine IdMap.contains_insert_of_ne (IdMap.contains_insert_of_ne (hw.new _ (by simp)) ?_) ?_
  · exact mt ExprId.index_inj.1 hcallReceiver
  · exact mt ExprId.index_inj.1 hcallArgument

/-! ## The body -/

/-- The bindings of the parameters. -/
def bindings : IdMap Ty :=
  (IdMap.insert ∅ c.receiverPat.index o.self).insert c.argumentPat.index (o.arg k)

/-- The state when the parameters and the block of the body are recorded. -/
def entered : State :=
  { bindings := c.bindings, exprTypes := IdMap.insert ∅ c.body.root.index c.fn.ret }

theorem ret_determined : c.fn.ret.Determined := by
  rcases c.root_eq with ⟨-, hret⟩ | ⟨-, hret, -⟩
  · rw [hret]
    exact Ty.determined_unit
  · rw [hret]
    exact o.ret_determined

theorem root_ne {e : Expr} (hid : c.body.expr id = .ok e)
    (hblock : ∀ kind label stmts tail, e ≠ .block kind label stmts tail) : id ≠ c.body.root := by
  rintro rfl
  rcases c.root_eq with ⟨hroot, -⟩ | ⟨hroot, -⟩
  · rw [hid] at hroot
    cases hroot
    exact hblock _ _ _ _ rfl
  · rw [hid] at hroot
    cases hroot
    exact hblock _ _ _ _ rfl

theorem ready_entered : c.Ready c.entered where
  wellFormed := by
    have hevolves : State.Evolves {} c.entered := .recorded rfl rfl
    exact (hevolves.spec Session.wellFormed_start).1
  cache := rfl
  pending := rfl
  receiver := by
    have hne : c.receiverPat.index ≠ c.argumentPat.index := by
      intro heq
      refine c.patterns_ne ?_
      rcases hr : c.receiverPat
      rcases ha : c.argumentPat
      rw [hr, ha] at heq
      exact congrArg PatId.mk heq
    show c.bindings.get? _ = _
    rw [bindings, IdMap.get?_insert, if_neg hne, IdMap.get?_insert, if_pos rfl]
  argument := by
    show c.bindings.get? _ = _
    rw [bindings, IdMap.get?_insert, if_pos rfl]
  unconverted := rfl
  new := by
    obtain ⟨receiverPath, hreceiver⟩ := c.receiver_eq
    obtain ⟨argumentPath, hargument⟩ := c.argument_eq
    intro id hid
    refine IdMap.contains_insert_of_ne rfl (mt ExprId.index_inj.1 ?_)
    rcases List.mem_cons.1 hid with rfl | hid
    · exact c.root_ne hreceiver nofun
    rcases List.mem_cons.1 hid with rfl | hid
    · exact c.root_ne hargument nofun
    cases List.mem_singleton.1 hid
    exact c.root_ne c.call_eq nofun

theorem coerce_same {scope : Scope} (id : ExprId) (hty : ty.Determined)
    (hplain : ∀ inner m r, ty ≠ .ref inner m r) : coerce id ty ty scope s = .ok (true, s) := by
  have hcombine : combine ty ty scope s = .ok (true, s) :=
    combine_same hty.isVar hty.isVar ty.same_refl
  have htry : tryCoerce id ty ty scope s = .ok (true, s) := by
    refine ok_then (head_node hty.isVar) (ok_then (head_node hty.isVar) ?_)
    cases ty with
    | ref inner m r => exact absurd rfl (hplain inner m r)
    | ptr inner m => cases m <;> exact hcombine
    | _ => exact hcombine
  refine ok_then (resolveSettled_determined hty) ?_
  exact ok_then (resolveSettled_determined hty) (ok_then htry rfl)

/-- Then the body is done. -/
theorem root_run (hscope : c.Within scope) {j : Jumps} (hret : j.returnTy = c.fn.ret) (hσ : σ.Calm)
    (houter : outer.expr = Walk.expression v) (hv : v.expr = Walk.expression inner) :
    ∃ cache vars σ', σ'.Calm ∧
      (Walk.root outer c.body.root).go scope ⟨{ bindings := c.bindings }, j⟩ σ =
        (.ok ((), ⟨o.called c c.entered cache vars, j⟩), σ') ∧
      vars.resolve c.entered.vars.freshTy.1 = .ok (o.arg k) := by
  let w : WalkState := ⟨{ bindings := c.bindings }, j⟩
  let start : WalkState := ⟨c.entered, j⟩
  have hentered :
      { w with exprTypes := w.exprTypes.insert c.body.root.index w.returnTy } = start := by
    show WalkState.mk { w.toState with exprTypes := _ } j = _
    rw [hret]
    rfl
  rcases c.root_eq with ⟨hroot, hunit⟩ | ⟨hroot, hresult, hplain⟩
  · obtain ⟨cache, vars, σ', hσ', hcall, hresolve⟩ := c.call_run (w := start) hscope hσ.countCheck
      c.ready_entered hv (.inl rfl)
    refine ⟨cache, vars, σ', hσ', ?_, hresolve⟩
    let last : WalkState := ⟨o.called c c.entered cache vars, j⟩
    have hstatement : (Walk.statement outer (.expr c.call)).go scope start σ.countCheck =
        (.ok (false, last), σ') := by
      rw [← o.ret_determined.isNever]
      refine Walk.ok_then ?_ rfl
      rw [← hcall, ← houter]
      rfl
    have hall : ([Statement.expr c.call].mapM (Walk.statement outer)).go scope start σ.countCheck =
        (.ok ([false], last), σ') := by
      rw [List.mapM_cons, Walk.bind_of_ok hstatement]
      rfl
    have hstatements : (Walk.statements outer [.expr c.call] none (some j.returnTy) true).go scope
        start σ.countCheck = (.ok (.unit, last), σ') := Walk.ok_then hall rfl
    rw [← hscope.body] at hroot ⊢
    rw [← hentered, ← hscope.body] at hstatements
    refine (Walk.root_of_ok hσ hroot c.plain rfl hstatements).trans ?_
    rw [hret, hunit]
    exact Walk.discard_of_ok (Walk.lift_of_ok (coerce_same _ Ty.determined_unit nofun))
  · obtain ⟨cache, vars, σ', hσ', hcall, hresolve⟩ := c.call_run (w := start) hscope hσ.countCheck
      c.ready_entered hv (.inr rfl)
    refine ⟨cache, vars, σ', hσ', ?_, hresolve⟩
    let last : WalkState := ⟨o.called c c.entered cache vars, j⟩
    have hexpr : (outer.expr c.call (some j.returnTy)).go scope start σ.countCheck =
        (.ok (o.ret, last), σ') := by
      rw [← hcall, houter, hret, hresult]
    have htail : (outer.coerced c.call j.returnTy).go scope start σ.countCheck =
        (.ok (j.returnTy, last), σ') := by
      have hknown : ¬ j.returnTy.isUnknown = true := by
        rw [hret, c.ret_determined.isUnknown]
        exact Bool.false_ne_true
      have hcoerce : coerce c.call o.ret j.returnTy scope last.toState =
          .ok (true, last.toState) := by
        rw [hret, hresult]
        exact coerce_same _ o.ret_determined hplain
      refine Walk.ok_then hexpr ?_
      rw [if_neg hknown]
      exact Walk.ok_then (Walk.lift_of_ok hcoerce) rfl
    have hstatements : (Walk.statements outer [] (some c.call) (some j.returnTy) true).go scope
        start σ.countCheck = (.ok (j.returnTy, last), σ') :=
      Walk.ok_then rfl (Walk.ok_then htail rfl)
    rw [← hscope.body] at hroot ⊢
    rw [← hentered, ← hscope.body] at hstatements
    exact (Walk.root_of_ok hσ hroot c.plain rfl hstatements).trans rfl

theorem selfTy_ok : ∃ self, p.items.selfTy c.fn.owner = .ok self := by
  have henv := c.env_eq
  rw [ParamEnv.ofOwner, c.fn_eq, Except.ok_bind] at henv
  cases howner : c.fn.owner with
  | free | trait id => exact ⟨_, rfl⟩
  | impl id =>
    rw [howner] at henv
    obtain ⟨impl, himpl, -⟩ := Except.bind_eq_ok henv
    exact ⟨some impl.self, by rw [Items.selfTy, himpl]; rfl⟩

/-- Parameters are bound before. -/
theorem functionBody_run (hscope : c.Within scope) (hσ : σ.Calm)
    (houter : outer.expr = Walk.expression v) (hpat : outer.pat = Walk.pattern v)
    (hv : v.expr = Walk.expression inner) : ∃ cache vars σ', σ'.Calm ∧
      (Walk.functionBody outer f).go scope {} σ =
        (.ok ((), { toState := o.called c c.entered cache vars }), σ') ∧
      vars.resolve c.entered.vars.freshTy.1 = .ok (o.arg k) := by
  let inside : Jumps := (Boundary.body c.fn.ret).enter {}
  obtain ⟨cache, vars, σ', hσ', hroot, hresolve⟩ :=
    c.root_run (j := inside) hscope rfl hσ houter hv
  refine ⟨cache, vars, σ', hσ', ?_, hresolve⟩
  obtain ⟨self, hself⟩ := c.selfTy_ok
  have hfn := c.fn_eq
  rw [← hscope.method.items] at hfn hself
  have hparams : normalizedList (c.fn.bodyParams self) scope {} =
      .ok ([o.self, o.arg k], {}) := by
    have htypes : c.fn.bodyParams self = [o.self, o.arg k] := by
      rw [Function.bodyParams, c.selfParam_eq, c.params_eq]
      rfl
    rw [htypes]
    refine normalizedList_of_no_projection ?_
    intro t ht
    rcases List.mem_cons.1 ht with rfl | ht
    · exact o.self_determined.any_isProjection
    · cases List.mem_singleton.1 ht
      exact (o.arg_determined k).any_isProjection
  have hret : normalized c.fn.ret scope {} = .ok (c.fn.ret, {}) :=
    normalized_of_no_projection c.ret_determined.any_isProjection
  have hpatterns : (scope.body.params.zipIdx.forM fun entry =>
      outer.bindPat entry.1 ([o.self, o.arg k][entry.2]?.getD .unknown)).go scope ⟨{}, inside⟩ σ =
        (.ok ((), ⟨{ bindings := c.bindings }, inside⟩), σ) := by
    obtain ⟨receiverName, m, hreceiver⟩ := c.receiverPat_eq
    obtain ⟨argumentName, m', hargument⟩ := c.argumentPat_eq
    rw [← hscope.body] at hreceiver hargument
    let first : State := { bindings := IdMap.insert ∅ c.receiverPat.index o.self }
    have hfirst : (outer.bindPat c.receiverPat o.self).go scope ⟨{}, inside⟩ σ =
        (.ok ((), ⟨first, inside⟩), σ) := by
      rw [Visitor.bindPat, hpat]
      exact Walk.pattern_byValue hreceiver o.self_determined
    have hsecond : (outer.bindPat c.argumentPat (o.arg k)).go scope ⟨first, inside⟩ σ =
        (.ok ((), ⟨{ bindings := c.bindings }, inside⟩), σ) := by
      rw [Visitor.bindPat, hpat]
      exact Walk.pattern_byValue hargument (o.arg_determined k)
    rw [hscope.body, c.patterns_eq]
    exact Walk.ok_then hfirst (Walk.ok_then hsecond rfl)
  refine Walk.ok_then rfl (Walk.ok_then (Walk.except_of_ok hfn) ?_)
  refine Walk.ok_then (Walk.except_of_ok hself) ?_
  refine Walk.ok_then (Walk.lift_of_ok hparams) ?_
  refine Walk.ok_then (Walk.lift_of_ok hret) ?_
  have hlast := Walk.inside_of_ok (b := .body c.fn.ret) (w := {}) (Walk.ok_then hpatterns
    (f := fun _ => Walk.root outer scope.body.root) (by rw [hscope.body]; exact hroot))
  exact Walk.discard_of_ok hlast

/-! ## Finishing -/

theorem determined_exprTypes (cache : ProjectionCache) (vars : Vars) :
    ∀ ty ∈ (o.called c c.entered cache vars).exprTypes.values, ty.Determined := by
  refine IdMap.forall_mem_insert (IdMap.forall_mem_insert ?_ (o.arg_determined k)) o.ret_determined
  exact IdMap.forall_mem_insert (IdMap.forall_mem_insert nofun c.ret_determined) o.self_determined

theorem determined_bindings : ∀ ty ∈ c.bindings.values, ty.Determined :=
  IdMap.forall_mem_insert (IdMap.forall_mem_insert nofun o.self_determined) (o.arg_determined k)

theorem implFunction_run {scope : Scope} (h : o.In scope)
    (hresolve : s.vars.resolve t = .ok (o.arg k)) :
    implFunction (o.goal t) o.declared scope s = .ok (some (o.impl k, o.fn k), s) := by
  obtain ⟨hasBody, hdeclared⟩ := o.declared_eq
  have hmethod := o.implMethod_eq k
  rw [← h.items] at hdeclared hmethod
  refine ok_then rfl ((resolveSelect_run h hresolve).trans ?_)
  exact ok_then (lift_of_ok hdeclared) (ok_then (lift_of_ok hmethod) rfl)

/-- In the end the call names the method of the impl. -/
theorem finish_run {scope : Scope} (h : o.In scope) (cache : ProjectionCache) {vars : Vars}
    (hresolve : vars.resolve c.entered.vars.freshTy.1 = .ok (o.arg k)) :
    ∃ outcome s, finish scope (o.called c c.entered cache vars) = .ok (outcome, s) ∧
      outcome.methods.get? c.call.index = some [⟨o.fn k, o.self, 0, .impl (o.impl k)⟩] ∧
      outcome.diagnostics = [] := by
  let s := o.called c c.entered cache vars
  let resolution : MethodResolution := ⟨o.fn k, o.self, 0, .impl (o.impl k)⟩
  let refined : State := { s with methods := s.methods.insert c.call.index [resolution] }
  have hsettle : settlePending scope s = .ok ((), s) := by
    refine settlePending_of_blocked nofun ?_
    rw [h.fuel]
    exact nofun
  have hdefaults : defaultNumericVars scope s = .ok ((), s) := by
    refine ok_then rfl (forM_of_ok ?_)
    intro ty hty
    have hdetermined : ty.Determined :=
      (List.mem_append.1 hty).elim (c.determined_exprTypes cache vars ty) (c.determined_bindings ty)
    refine ok_then (resolve_determined hdetermined) ?_
    rw [hdetermined.vars]
    rfl
  have hrefine : refineMethod c.call (o.goal c.entered.vars.freshTy.1) scope s =
      .ok ((), refined) := by
    have hfound : s.methods.get? c.call.index = some [o.collapsed.resolution] := by
      rw [show s.methods = IdMap.insert ∅ _ _ from rfl, IdMap.get?_insert, if_pos rfl]
    refine ok_then rfl ?_
    rw [hfound]
    exact ok_then (implFunction_run h hresolve) rfl
  have hmethods : ∀ rs ∈ refined.methods.values, ∀ r ∈ rs, r.self.Determined := by
    refine IdMap.forall_mem_insert (IdMap.forall_mem_insert nofun ?_) ?_ <;>
      exact List.forall_mem_singleton.2 o.self_determined
  have hadjustments : ∀ as ∈ refined.adjustments.values, ∀ a ∈ as,
      a.mapM close scope refined = .ok (a, refined) := by
    refine IdMap.forall_mem_insert nofun (List.forall_mem_singleton.2 ?_)
    exact ok_then (close_determined (o.self_determined.reference .shared)) rfl
  have hclose := closeRecords_determined (s := refined) (c.determined_exprTypes cache vars)
    c.determined_bindings hmethods hadjustments rfl
  have hrun : finish scope s = closeRecords scope refined := by
    refine ok_then hsettle (ok_then hdefaults (ok_then hsettle ?_))
    refine ok_then rfl (ok_then rfl (ok_then rfl ?_))
    exact bind_of_ok (ok_then hrefine rfl)
  exact ⟨_, refined, hrun.trans hclose, (IdMap.get?_insert ..).trans (if_pos rfl), rfl⟩

end Caller

end Program.Overloads

/-! ## The session -/

open Program.Overloads in
/-- The type of the argument selects the impl: a call of an overloaded method with a value of the
`k`-th type means the method of the `k`-th impl, found on the receiver itself, and nothing is
reported. -/
theorem Session.infer_selects_overload (s : Session) {n : Nat} (o : s.program.Overloads n) (k : Fin n)
    {f : FnId} (c : o.Caller k f) (hlimit : 0 < s.config.autoderefLimit) {σ : SessionState}
    (hσ : σ.Calm) (hnew : .function f ∉ σ.running) :
    ∃ outcome σ', s.infer (.function f) σ = (.ok outcome, σ') ∧
      outcome.methods.get? c.call.index =
        some [⟨o.fn k, .adt o.struct [], 0, .impl (o.impl k)⟩] ∧
      outcome.diagnostics = [] := by
  let const : ConstId → SessionM Ty := fun id =>
    s.rootTy id (s.inferWithin s.program.bodies.length (.const id))
  let scope := s.scope (.function f) c.body c.names .empty
  let running : SessionState := { σ.countCheck with running := .function f :: σ.running }
  have hcalm : running.Calm := ⟨hσ.countCheck.cancelled, hσ.countCheck.request⟩
  have hscope : c.Within scope := ⟨⟨rfl, rfl, rfl, rfl, hlimit, c.visible⟩, rfl, rfl⟩
  have hvisitor : (Walk.visitor const c.body.walkDepth).expr = Walk.expression _ := rfl
  obtain ⟨cache, vars, σ', hσ', hwalk, hresolve⟩ :=
    c.functionBody_run hscope hcalm hvisitor rfl rfl
  obtain ⟨outcome, state, hfinish, hmethods, hdiagnostics⟩ :=
    c.finish_run hscope.method cache hresolve
  have hwhole : (Walk.wholeBody (Walk.visitor const c.body.walkDepth)).go scope {} running =
      (.ok (outcome, { toState := state }), σ') := by
    rw [Walk.wholeBody_run]
    exact Walk.ok_then hwalk (Walk.lift_of_ok hfinish)
  have hbody : s.inferBody const (.function f) c.body c.names running = (.ok outcome, σ') := by
    rw [inferBody, c.env_eq]
    show (((Walk.wholeBody _).go scope {} : SessionM _) >>= fun r => pure r.1) running = _
    rw [SessionM.bind_run, hwhole]
    rfl
  refine ⟨outcome, { σ' with running := σ'.running.tail }, ?_, hmethods, hdiagnostics⟩
  rw [infer, inferWithin, start_run, if_neg hnew, proceed, SessionM.bind_run,
    SessionM.checkCancelled_run, if_neg (by simp [hσ.countCheck.cancelled])]
  dsimp only
  rw [c.body_eq]
  exact whileRunning_of_eq hbody

/-! ## A length that is converted -/

/-- A struct that converts to characters and to Booleans, and another one with a method of the same
name. -/
def Items.conversions : Items where
  paramNames := #["Self", "T"]
  adts := #[⟨"Meters", .empty, .struct .unit, none⟩, ⟨"Feet", .empty, .struct .unit, none⟩]
  functions := #[
    ⟨"conv", .trait ⟨0⟩, .empty, some (.ref .shared), [.param ⟨1⟩], .str, false, false⟩,
    ⟨"conv", .impl ⟨0⟩, .empty, some (.ref .shared), [.char], .str, false, true⟩,
    ⟨"conv", .impl ⟨2⟩, .empty, some (.ref .shared), [.bool], .str, false, true⟩,
    ⟨"conv", .impl ⟨1⟩, .empty, some .value, [], .unit, false, true⟩,
    ⟨"main", .free, .empty, none, [.adt ⟨0⟩ [], .bool], .unit, false, true⟩]
  traits := #[⟨"Conv", ⟨[⟨1⟩], []⟩, []⟩]
  impls := #[
    ⟨.empty, some (⟨0⟩, [.char]), .adt ⟨0⟩ [], []⟩,
    ⟨.empty, none, .adt ⟨1⟩ [], []⟩,
    ⟨.empty, some (⟨0⟩, [.bool]), .adt ⟨0⟩ [], []⟩]
  consts := #[]

/-- The body `{ m.conv(b); }`. -/
def Body.conversion : Body := .ofNodes
  [.path ["m"], .path ["b"], .methodCall ⟨0⟩ "conv" [] [⟨1⟩], .block .plain none [.expr ⟨2⟩] none]
  [.bind "m" (.byValue .shared) none, .bind "b" (.byValue .shared) none] [⟨0⟩, ⟨1⟩]

def Session.conversions : Session where
  program := {
    items := .conversions
    known := {}
    bodies := [(.function ⟨4⟩, .conversion,
      (Names.empty.setPath ⟨0⟩ [⟨.local ⟨0⟩, .empty⟩]).setPath ⟨1⟩ [⟨.local ⟨1⟩, .empty⟩])] }

namespace Program.Overloads

theorem conversions_other {id : ImplId} {impl : Impl}
    (h : Items.conversions.impl id = .ok impl) (hother : ∀ i : Fin 2, ImplId.mk (2 * i.val) ≠ id) :
    id = ⟨1⟩ ∧ impl = ⟨.empty, none, .adt ⟨1⟩ [], []⟩ := by
  rcases id with ⟨_ | _ | _ | _⟩
  · exact absurd rfl (hother 0)
  · cases h
    exact ⟨rfl, rfl⟩
  · exact absurd rfl (hother 1)
  · cases h

def conversions : Session.conversions.program.Overloads 2 where
  struct := ⟨0⟩
  trait := ⟨0⟩
  param := ⟨1⟩
  method := "conv"
  declared := ⟨0⟩
  ret := .str
  arg i := if i = 0 then .char else .bool
  impl i := ⟨2 * i.val⟩
  fn i := ⟨i.val + 1⟩
  two_le := Nat.le_refl 2
  not_boxed := nofun
  no_deref := nofun
  trait_eq := ⟨_, _, rfl⟩
  param_ne_self := nofun
  traitMethod_eq := rfl
  declared_eq := ⟨false, rfl⟩
  ret_determined := by decide
  arg_determined := by decide
  arg_distinct := by decide
  impl_eq := Fin.forall_fin_two.2 ⟨⟨_, rfl⟩, ⟨_, rfl⟩⟩
  implMethod_eq := Fin.forall_fin_two.2 ⟨rfl, rfl⟩
  fn_eq := Fin.forall_fin_two.2 ⟨⟨_, rfl, rfl, rfl, rfl⟩, ⟨_, rfl, rfl, rfl, rfl⟩⟩
  other_methods := by
    intro id impl himpl hother
    obtain ⟨rfl, rfl⟩ := conversions_other himpl hother
    exact ⟨some ⟨3⟩, rfl, fun _ _ _ _ => ⟨_, rfl⟩⟩
  other_impls := by
    intro id impl himpl hother htrait
    obtain ⟨rfl, rfl⟩ := conversions_other himpl hother
    cases htrait

def conversions_caller : conversions.Caller 1 ⟨4⟩ where
  fn := ⟨"main", .free, .empty, none, [.adt ⟨0⟩ [], .bool], .unit, false, true⟩
  body := .conversion
  names := (Names.empty.setPath ⟨0⟩ [⟨.local ⟨0⟩, .empty⟩]).setPath ⟨1⟩ [⟨.local ⟨1⟩, .empty⟩]
  receiverPat := ⟨0⟩
  argumentPat := ⟨1⟩
  receiver := ⟨0⟩
  argument := ⟨1⟩
  call := ⟨2⟩
  kind := .plain
  fn_eq := rfl
  selfParam_eq := rfl
  params_eq := rfl
  env_eq := rfl
  visible := nofun
  body_eq := rfl
  patterns_eq := rfl
  patterns_ne := nofun
  receiverPat_eq := ⟨_, _, rfl⟩
  argumentPat_eq := ⟨_, _, rfl⟩
  receiver_eq := ⟨_, rfl⟩
  receiver_names := ⟨_, rfl⟩
  argument_eq := ⟨_, rfl⟩
  argument_names := ⟨_, rfl⟩
  call_eq := rfl
  plain := rfl
  root_eq := .inl ⟨rfl, rfl⟩

end Program.Overloads

open Program.Overloads in
theorem Session.infer_selects_overload_conversions :
    ∃ outcome σ', conversions.infer (.function ⟨4⟩) {} = (.ok outcome, σ') ∧
      outcome.methods.get? 2 = some [⟨⟨2⟩, .adt ⟨0⟩ [], 0, .impl ⟨2⟩⟩] ∧
      outcome.diagnostics = [] :=
  infer_selects_overload conversions .conversions 1 conversions_caller (by decide) ⟨rfl, rfl⟩ nofun

end TypeInference
