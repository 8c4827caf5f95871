import TypeInference.Proofs.ContainedSteps

/-!
# How walks are put together

The rules of a walk call the visitor for the nodes below their own, infer and record in between, and
do nothing else (`Walk.Composed`). What a rule hands on mentions no variables but those of its
arguments and of what it was given in between.

What holds of the visitor and of each of these parts holds of all rules: it is proved by induction
on `Walk.Composed`, and the rules need not be looked at again.
-/

namespace TypeInference

theorem Scope.signature?_reporting (scope : Scope) (on : Bool) (ty : Ty) :
    (scope.reporting on).signature? ty = scope.signature? ty := by
  fun_induction scope.signature? ty with
  | case5 inner m r ih => exact ih
  | case6 => simp_all [Scope.signature?]
  | _ => rfl

theorem Scope.within_true (scope : Scope) : scope.Within fun _ => True := by
  constructor <;> exact TypeInference.within_true

instance : Mentioning Jumps :=
  ⟨fun v j => Mentions v j.returnTy ∨ Mentions v j.tryTy ∨ Mentions v j.yieldTy⟩

theorem within_jumps {W : Var → Prop} {j : Jumps} :
    Within W j ↔ Within W j.returnTy ∧ Within W j.tryTy ∧ Within W j.yieldTy :=
  within_or.trans (and_congr_right' within_or)

/-- The type that jumps inside the boundary lead to. -/
def Boundary.ty : Boundary → Ty
  | .body ty | .asyncBlock ty | .tryBlock ty => ty

/-- What a rule can set: where `return` and `?` lead, or what is yielded. -/
inductive Outlet
  | jump
  | yield

/-- Whether the rule for the expression sets the outlet. -/
def Expr.sets : Expr → Outlet → Bool
  | .closure .., .jump | .block .asyncBlock .., .jump | .block .tryBlock .., .jump
  | .yieldValue _, .yield => true
  | _, _ => false

namespace Walk

open Infer

/-- A walk of the nodes `roots` that calls its visitor for them, infers and records, with variables
of `W` and such as come up on the way. The visitor is the only thing that is left open. `J` says
which outlets the walk may set, and `A` whether it may record adjustments on its own. -/
inductive Composed (body : Body) (J : Outlet → Prop) :
    (A : Prop) → (W : Var → Prop) → {α : Type} → [Mentioning α] → List Site → (Visitor → Walk α) →
      Prop
  | pure {A W} {α : Type} [Mentioning α] {a : α} : Within W a →
    Composed body J A W [] fun _ => (pure a : Walk α)
  /-- What follows need only be composed for results that there are. -/
  | bindOf {A W} {α β : Type} [Mentioning α] [Mentioning β] {roots roots' : List Site}
    {x : Visitor → Walk α} {f : Visitor → α → Walk β} : Composed body J A W roots x →
    (∀ {W'} v a, Gives body (x v) a → W ≤ W' → Within W' a → Composed body J A W' roots' (f · a)) →
    Composed body J A W (roots ++ roots') fun v => x v >>= f v
  | mono {A W W'} {α : Type} [Mentioning α] {roots : List Site} {x : Visitor → Walk α} :
    Composed body J A W roots x → W ≤ W' → Composed body J A W' roots x
  | perm {A W} {α : Type} [Mentioning α] {roots roots' : List Site}
    {x : Visitor → Walk α} : Composed body J A W roots x → roots.Perm roots' →
    Composed body J A W roots' x
  /-- Whether mismatches are reported is not looked at. -/
  | scopeBind {A W} {β : Type} [Mentioning β] {roots : List Site}
    {f : Visitor → Scope → Walk β} :
    (fun v scope on => f v (scope.reporting on)) = (fun v scope _ => f v scope) →
    (∀ {W'} scope, scope.body = body → W ≤ W' → scope.Within W' →
      Composed body J A W' roots (f · scope)) →
    Composed body J A W roots fun v => read >>= f v
  | lift {A W} {α : Type} [Mentioning α] {x : Infer α} :
    (∀ {W'} {K : Atoms} [∀ scope, Basis scope Fault.IsOrdinary K] scope, W ≤ W' →
      Orderly scope Fault.IsOrdinary (Filing K) W' x) →
    Composed body J A W [] fun _ => (liftM x : Walk α)
  | adjusting {A W} {α : Type} [Mentioning α] {x : Infer α} : A →
    (∀ {W'} scope, W ≤ W' → Orderly scope Fault.IsOrdinary (Noting CacheOp) W' x) →
    Composed body J A W [] fun _ => (liftM x : Walk α)
  | borrow {A W} {id : ExprId} {ty : Ty} {mutability : Mutability} : Within W ty →
    Composed body J A W [] fun _ => (liftM (adjust id [.borrowOf ty mutability]) : Walk Unit)
  | variantShape {A W} {id : PatId} {expected : Ty} : Within W expected → Composed body J A W []
    fun _ => (liftM (variantShape id expected) : Walk (Option (Shape × Subst)))
  | reportCannotDeref {A W} {id : ExprId} {ty : Ty} : body.HasExpr id → Within W ty →
    Composed body J A W [] fun _ => (liftM (reportCannotDeref id ty) : Walk Unit)
  | lookUpPath {A W} (id : ExprId) : Composed body J A W [] fun _ => lookUpPath id
  | checkCancelled {A W} : Composed body J A W [] fun _ => checkCancelled
  | jumps {A W} : Composed body J A W [] fun _ => jumps
  | setYielded {A W} {ty : Ty} : J .yield → Within W ty →
    Composed body J A W [] fun _ => setYielded ty
  | inside {A W} {α : Type} [Mentioning α] {roots : List Site}
    {x : Visitor → Walk α} (b : Boundary) : J .jump → Composed body J A W roots x →
    Within W b.ty → Composed body J A W roots fun v => inside b (x v)
  | const {A W} (id : ConstId) : Composed body J A W [] fun v => (liftM (v.const id) : Walk Ty)
  | expr {A W} {id : ExprId} {expected : Option Ty} : Within W expected →
    Composed body J A W [.expr id] (·.expr id expected)
  | pat {A W} {id : PatId} {ty : Ty} {default : DefaultBinding} : Within W ty →
    Composed body J A W [.pat id] (·.pat id ty default)
  /-- The number variable of a literal is recorded at once. -/
  | literal {A W} {id : ExprId} {lit : Literal} {expected : Option Ty} :
    body.expr id = .ok (.literal lit) → Within W expected →
    Composed body J A W [.expr id] fun _ => do
      let ty ← (literal lit expected : Walk Ty)
      writeExprTy id ty
      return ty
  /-- An expression is recorded after the nodes inside it. -/
  | node {A W} {id : ExprId} {e : Expr} {expected : Option Ty} : body.expr id = .ok e →
    (∀ lit, e ≠ .literal lit) → Composed body J A W e.parts (kindTy · id expected e) →
    Composed body J A W [.expr id] fun v => do
      let ty ← kindTy v id expected e
      writeExprTy id ty
      return ty
  /-- A block at the root is recorded before the nodes inside it. -/
  | blockRoot {A W} {α : Type} [Mentioning α] {id : ExprId} {kind : BlockKind}
    {stmts : List Statement} {tail : Option ExprId} {ty : Ty} {x : Visitor → Walk α} :
    body.expr id = .ok (.block kind none stmts tail) → Within W ty →
    Composed body J A W (Expr.block kind none stmts tail).parts x →
    Composed body J A W [.expr id] fun v => do
      writeExprTy id ty
      x v
  | binding {A W} {α : Type} [Mentioning α] {id : PatId} {ty : Ty} {parts : List Site}
    {x : Visitor → Walk α} : body.parts (.pat id) = .ok parts → body.Binds id → Within W ty →
    Composed body J A W parts x → Composed body J A W [.pat id] fun v => do
      writeBinding id ty
      x v
  /-- A pattern that is no binding is only visited for its parts. -/
  | unrecorded {A W} {α : Type} [Mentioning α] {id : PatId} {parts : List Site}
    {x : Visitor → Walk α} : body.parts (.pat id) = .ok parts → ¬ body.Binds id →
    Composed body J A W parts x → Composed body J A W [.pat id] x
  | converted {A W} {β : Type} [Mentioning β] {id : ExprId} {expected : Option Ty}
    {target : Ty} {roots : List Site} {f : Visitor → Ty → Bool → Walk β} : Within W expected →
    Within W target →
    (∀ {W'} inferred ok, W ≤ W' → Within W' inferred →
      Composed body J A W' roots (f · inferred ok)) →
    Composed body J A W (.expr id :: roots) fun v => do
      let inferred ← v.expr id expected
      let ok ← (coerce id inferred target : Walk Bool)
      f v inferred ok
  /-- A block without a tail gives a unit where it ends. -/
  | closing {A W} {id : ExprId} {target : Ty} {x : Visitor → Walk Ty} {ends : Ty → Bool} :
    body.HasExpr id → Within W target → Composed body J A W [.expr id] x →
    (∀ v ty, Gives body (x v) ty → ends ty = true → ty = .unit) →
    Composed body J A W [.expr id] fun v => do
      let ty ← x v
      if ends ty then
        discard (coerce id ty target)
  /-- The rest of the rules adjust what they visited earlier. -/
  | elements {A W} {first : ExprId} {rest : List ExprId} {expected : Ty} :
    Composed body J True W ((first :: rest).map .expr) (elements · (first :: rest) (some expected)) →
    Composed body J A W ((first :: rest).map .expr) (elements · (first :: rest) (some expected))
  | index {A W} {base idx : ExprId} :
    Composed body J True W [.expr base, .expr idx] (index · base idx) →
    Composed body J A W [.expr base, .expr idx] (index · base idx)
  | field {A W} {id receiver : ExprId} {name : FieldName} :
    Composed body J True W [.expr receiver] (field · id receiver name) →
    Composed body J A W [.expr receiver] (field · id receiver name)
  | methodCall {A W} {id receiver : ExprId} {method : String}
    {genericArgs : List Ty} {args : List ExprId} {expected : Option Ty} :
    Composed body J True W (.expr receiver :: args.map .expr)
      (methodCall · id receiver method genericArgs args expected) →
    Composed body J A W (.expr receiver :: args.map .expr)
      (methodCall · id receiver method genericArgs args expected)

/-- Statements without a tail give a unit, if they finish. -/
theorem eq_unit_of_statements {body : Body} {v : Visitor} {root : ExprId} {stmts : List Statement}
    {returnTy ty : Ty} (h : Gives body (do
      writeExprTy root returnTy
      statements v stmts none (some returnTy) true) ty) (hfinishes : (!ty.isNever) = true) :
    ty = .unit := by
  obtain ⟨scope, w, w', σ, σ', -, hrun⟩ := h
  obtain ⟨_, w₁, σ₁, -, hrun⟩ := bind_eq_ok hrun
  obtain ⟨diverging, w₂, σ₂, -, hrun⟩ := bind_eq_ok hrun
  cases hrun
  by_cases hnever : diverging.any id = true
  · rw [if_pos hnever] at hfinishes
    cases hfinishes
  · rw [if_neg hnever]

namespace Composed

variable {body : Body} {J : Outlet → Prop} {A : Prop} {W : Var → Prop}

section

variable {α β : Type} [Mentioning α] [Mentioning β] {roots roots' : List Site}
  {x y : Visitor → Walk α} {f : Visitor → α → Walk β} {nodes : α → List Site} {xs : List α}

theorem bind (hx : Composed body J A W roots x)
    (hf : ∀ {W'} a, W ≤ W' → Within W' a → Composed body J A W' roots' (f · a)) :
    Composed body J A W (roots ++ roots') fun v => x v >>= f v :=
  hx.bindOf fun _ a _ => hf a

theorem of_eq (h : Composed body J A W roots x) (heq : roots = roots') :
    Composed body J A W roots' x :=
  heq ▸ h

theorem beforeOf (hx : Composed body J A W [] x) (hf : ∀ {W'} v a, Gives body (x v) a → W ≤ W' →
      Within W' a → Composed body J A W' roots (f · a)) :
    Composed body J A W roots fun v => x v >>= f v :=
  hx.bindOf hf

theorem before (hx : Composed body J A W [] x)
    (hf : ∀ {W'} a, W ≤ W' → Within W' a → Composed body J A W' roots (f · a)) :
    Composed body J A W roots fun v => x v >>= f v :=
  hx.bind hf

theorem andThen (hx : Composed body J A W [] x) (hf : ∀ a, Composed body J A W roots (f · a)) :
    Composed body J A W roots fun v => x v >>= f v :=
  hx.before fun a hW _ => (hf a).mono hW

theorem after (hx : Composed body J A W roots x)
    (hf : ∀ {W'} a, W ≤ W' → Within W' a → Composed body J A W' [] (f · a)) :
    Composed body J A W roots fun v => x v >>= f v :=
  (hx.bind hf).of_eq (List.append_nil roots)

omit [Mentioning α] in
/-- A lookup that can only fail for want of a declaration, and what follows it. -/
theorem liftBind {x : Except Fault α}
    (hx : ∀ {E : Fault → Prop}, (∀ entity i, entity ≠ .variable → E (.dangling entity i)) →
      FailsWith E x)
    (hf : ∀ a, x = .ok a → Composed body J A W roots (f · a)) :
    Composed body J A W roots fun v => (liftM x : Walk α) >>= f v := by
  have : Plain α := ⟨⟩
  have hlook : Composed body J A W [] fun _ => (liftM (liftM x : Infer α) : Walk α) :=
    lift fun _ _ => .lift (hx Fault.Admits.named) (hx Fault.SparesVariables.dangling)
      fun _ _ => within_plain
  exact hlook.beforeOf fun _ a ha hW _ => (hf a (Gives.of_except ha)).mono hW

theorem entryBind {entity : Entity} {xs : Array α} {i : Nat} (hxs : Within W xs)
    (hentity : entity ≠ .variable) (hf : ∀ a, Within W a → Composed body J A W roots (f · a)) :
    Composed body J A W roots fun v => (liftM (entry entity xs i) : Walk α) >>= f v :=
  liftBind (fun h => entry_failsWith (h _ _ hentity)) fun a ha => hf a (hxs.entry ha)

theorem discard (hx : Composed body J A W roots x) :
    Composed body J A W roots fun v => discard (x v) :=
  hx.after fun _ _ _ => pure within_plain

theorem ite {c : Prop} [Decidable c] (hx : Composed body J A W roots x)
    (hy : Composed body J A W roots y) :
    Composed body J A W roots fun v => if c then x v else y v := by
  by_cases hc : c
  · simpa only [if_pos hc] using hx
  · simpa only [if_neg hc] using hy

omit [Mentioning α]

theorem mapM (hf : ∀ {W'} a, W ≤ W' → a ∈ xs → Composed body J A W' (nodes a) (f · a)) :
    Composed body J A W (xs.flatMap nodes) fun v => xs.mapM (f v) := by
  induction xs generalizing W with
  | nil =>
    simp only [List.mapM_nil]
    exact pure within_nil
  | cons a xs ih =>
    simp only [List.mapM_cons]
    refine (hf a le_rfl (.head _)).bind fun b hW hb => ?_
    have hrest := ih fun a hW' ha => hf a (hW.trans hW') (.tail _ ha)
    exact hrest.after fun bs hW' hbs => pure (within_cons.2 ⟨hb.mono hW', hbs⟩)

theorem forM {f : Visitor → α → Walk PUnit}
    (hf : ∀ {W'} a, W ≤ W' → a ∈ xs → Composed body J A W' (nodes a) (f · a)) :
    Composed body J A W (xs.flatMap nodes) fun v => xs.forM (f v) := by
  induction xs generalizing W with
  | nil => exact pure within_plain
  | cons a xs ih =>
    refine (hf a le_rfl (.head _)).bind fun _ hW _ => ?_
    exact ih fun a hW' ha => hf a (hW.trans hW') (.tail _ ha)

theorem flatMap_zipIdx : (xs.zipIdx.flatMap fun p => nodes p.1) = xs.flatMap nodes := by
  rw [← List.flatMap_map, List.zipIdx_map_fst]

theorem mapM_zipIdx {f : Visitor → α × Nat → Walk β}
    (hf : ∀ {W'} a i, W ≤ W' → a ∈ xs → Composed body J A W' (nodes a) (f · (a, i))) :
    Composed body J A W (xs.flatMap nodes) fun v => xs.zipIdx.mapM (f v) := by
  rw [← flatMap_zipIdx]
  exact mapM fun p hW hp => hf p.1 p.2 hW (List.fst_mem_of_mem_zipIdx hp)

theorem forM_zipIdx {f : Visitor → α × Nat → Walk PUnit}
    (hf : ∀ {W'} a i, W ≤ W' → Composed body J A W' (nodes a) (f · (a, i))) :
    Composed body J A W (xs.flatMap nodes) fun v => xs.zipIdx.forM (f v) := by
  rw [← flatMap_zipIdx]
  exact forM fun p hW _ => hf p.1 p.2 hW

theorem optionMapM {x : Option α} (hf : ∀ a, x = some a → Composed body J A W (nodes a) (f · a)) :
    Composed body J A W (x.toList.flatMap nodes) fun v => x.mapM (f v) := by
  cases x with
  | none => exact pure within_none
  | some a =>
    refine Composed.of_eq ((hf a rfl).after fun b _ hb => pure (within_some.2 hb)) ?_
    simp

theorem optionForM {f : Visitor → α → Walk PUnit} {x : Option α}
    (hf : ∀ a, x = some a → Composed body J A W (nodes a) (f · a)) :
    Composed body J A W (x.toList.flatMap nodes) fun v => x.forM (f v) := by
  cases x with
  | none => exact pure within_plain
  | some a => exact (hf a rfl).of_eq (by simp)

theorem convertedAnyway {id : ExprId} {expected : Option Ty} {target : Ty}
    {f : Visitor → Ty → Walk β} (h : Within W expected) (htarget : Within W target)
    (hf : ∀ {W'} inferred, W ≤ W' → Within W' inferred →
      Composed body J A W' roots (f · inferred)) :
    Composed body J A W (.expr id :: roots) (fun v => do
      let inferred ← v.expr id expected
      Functor.discard (coerce id inferred target : Walk Bool)
      f v inferred) := by
  have hwalk : Composed body J A W (.expr id :: roots) (fun v => do
      let inferred ← v.expr id expected
      let _ ← (coerce id inferred target : Walk Bool)
      f v inferred) :=
    converted h htarget fun inferred _ => hf inferred
  have heq (v : Visitor) (inferred : Ty) : (do
      Functor.discard (coerce id inferred target : Walk Bool)
      f v inferred) = (do
      let _ ← (coerce id inferred target : Walk Bool)
      f v inferred) := by
    show ((coerce id inferred target : Walk Bool) >>= fun _ => Pure.pure PUnit.unit) >>=
      (fun _ => f v inferred) = _
    rw [bind_assoc]
    simp only [pure_bind]
  simp only [heq]
  exact hwalk

end

variable {id inner expr lhs rhs cond callee idx iterable len receiver scrutinee thenBranch : ExprId}
  {expected declared ret : Option Ty} {default : DefaultBinding} {args elems ids : List ExprId}
  {tail elseBranch init spread value : Option ExprId} {name method : String} {pat : PatId}
  {stmts : List Statement} {ty base a b : Ty} {params genericArgs steps tys : List Ty}
  {convert areClosures isAsync labelled : Bool} {op : ArithOp}

/-! ## Steps of the inference -/

theorem freshTy : Composed body J A W [] fun _ => (liftM freshTy : Walk Ty) :=
  lift fun _ _ => .freshTy

theorem resolve (h : Within W ty) :
    Composed body J A W [] fun _ => (liftM (resolve ty) : Walk Ty) :=
  lift fun _ hW => .resolve (h.mono hW)

theorem resolveSettled (h : Within W ty) :
    Composed body J A W [] fun _ => (liftM (resolveSettled ty) : Walk Ty) :=
  lift fun _ hW => .resolveSettled (h.mono hW)

theorem normalized (h : Within W ty) :
    Composed body J A W [] fun _ => (liftM (normalized ty) : Walk Ty) :=
  lift fun _ hW => .normalized (h.mono hW)

theorem unify (ha : Within W a) (hb : Within W b) :
    Composed body J A W [] fun _ => (liftM (unify a b) : Walk Unit) :=
  lift fun _ hW => .unify (ha.mono hW) (hb.mono hW)

theorem join (h : Within W tys) : Composed body J A W [] fun _ => (liftM (join tys) : Walk Ty) :=
  lift fun _ hW => .join (h.mono hW)

theorem joinBreaks (h : Within W ty) :
    Composed body J A W [] fun _ => (liftM (joinBreaks id ty labelled) : Walk Ty) :=
  lift fun _ hW => .joinBreaks (h.mono hW)

theorem register {obligations : List Obligation} (h : Within W obligations) :
    Composed body J A W [] fun _ => (liftM (register obligations) : Walk Unit) :=
  lift fun _ hW => .register (h.mono hW)

/-- What is expected is unified with a type. -/
theorem unifyExpected (h : Within W expected) (hty : Within W ty) : Composed body J A W []
    fun _ => expected.forM fun t => liftInfer (Infer.unify t ty) := by
  cases expected with
  | none => exact pure within_plain
  | some t => exact unify (within_some.1 h) hty

theorem unitUnlessAffected (h : Within W ty) :
    Composed body J A W [] fun _ => (liftM (unitUnlessAffected ty) : Walk Ty) :=
  lift fun _ hW => .unitUnlessAffected (h.mono hW)

/-! ## Rules of the visitor -/

theorem free : Composed body J A W [.expr id] fun v => v.free id := .expr within_none

/-- An expression that is converted has the type it is converted to, or its own. -/
theorem coerced (hty : Within W ty) : Composed body J A W [.expr id] fun v => v.coerced id ty := by
  have h := within_some.2 hty
  by_cases hunknown : ty.isUnknown = true
  · simp only [Visitor.coerced, hunknown, if_true]
    exact (Composed.expr h).after fun _ _ hinferred => pure hinferred
  · simp only [Visitor.coerced, hunknown, Bool.false_eq_true, if_false]
    exact converted h hty fun _ _ hW hinferred => ite (pure (hty.mono hW)) (pure hinferred)

theorem condition : Composed body J A W [.expr id] fun v => v.condition id :=
  (coerced Ty.within_bool).discard

theorem bindPat {id : PatId} (hty : Within W ty) :
    Composed body J A W [.pat id] fun v => v.bindPat id ty :=
  .pat hty

theorem frees :
    Composed body J A W (ids.map .expr) fun v => ids.forM fun id => Functor.discard (v.free id) := by
  rw [List.map_eq_flatMap]
  exact forM fun id _ _ => free.discard

/-! ## Paths and struct literals -/

theorem constTy {id : ConstId} : Composed body J A W [] fun v => constTy v id := by
  refine scopeBind rfl fun scope _ _ hscope => ?_
  refine entryBind (within_items.1 hscope.items).2.2.2.2 (by decide) fun decl hdecl => ?_
  split
  · next ty hty => exact normalized (Within.of_some hdecl hty)
  · exact const id

theorem resolvedTy {res : PathResolution} (hres : Within W res) :
    Composed body J A W [] fun v => resolvedTy v expr res := by
  unfold Walk.resolvedTy
  split
  · exact lift fun _ _ => .bindingTy
  · exact lift fun _ hW => .instantiateFn (hres.mono hW)
  · exact constTy
  · exact lift fun _ hW => .instantiateCtor (hres.mono hW)
  · exact lift fun _ hW => .instantiateCtor (hres.mono hW)

theorem ambiguousPath {path : Path} {resolutions : List PathResolution} (h : Within W resolutions) :
    Composed body J A W [] fun v => ambiguousPath v expr path resolutions := by
  unfold Walk.ambiguousPath
  split
  · split
    · next uses huses =>
      have huses := within_functionUses? h huses
      refine scopeBind rfl fun scope _ hW _ => ?_
      refine liftBind (collapse?_failsWith · _ _) fun found _ => ?_
      split
      · refine (lift fun _ hW' => .collapsedArgs (huses.mono (hW.trans hW'))).before ?_
        exact fun subst _ hsubst => resolvedTy hsubst
      · exact pure Ty.within_unknown
    · exact pure Ty.within_unknown
  · exact pure Ty.within_unknown

theorem path {path : Path} : Composed body J A W [] fun v => Walk.path v expr path := by
  refine (lookUpPath expr).before fun resolutions _ h => ?_
  refine (lift fun _ _ => .writePath).andThen fun _ => ?_
  split
  · exact resolvedTy (within_singleton.1 h)
  · exact ambiguousPath h

theorem fieldSlot {shape : Option Shape} {subst : Subst} (hshape : Within W shape)
    (hsubst : Within W subst) : Composed body J A W [] fun _ => fieldSlot shape subst name := by
  have hfield := hshape.optionBind fun _ h => h.field? name
  unfold Walk.fieldSlot
  split
  · next hfound => exact normalized (hsubst.apply (hfield.of_some hfound).snd)
  · exact pure Ty.within_unknown

theorem structLit {fields : List FieldInit} (h : Within W expected) :
    Composed body J A W ((fields.map (·.expr) ++ spread.toList).map .expr)
      fun v => structLit v expr fields spread expected := by
  have hnodes : (fields.map (·.expr) ++ spread.toList).map Site.expr =
      (fields.flatMap fun field => [.expr field.expr]) ++
        spread.toList.flatMap fun id => [.expr id] := by
    simp only [← List.map_eq_flatMap, List.map_append, List.map_map, Function.comp_def]
  rw [hnodes]
  refine scopeBind rfl fun scope _ hW₁ hscope => ?_
  have hvariant := hscope.names.variant? (.expr expr)
  split
  · refine (forM fun field _ _ => free.discard).bind fun _ _ _ => ?_
    exact (optionForM fun base _ => free.discard).after fun _ _ _ => pure Ty.within_unknown
  · next variant explicit hfound =>
    have hexplicit := (hvariant.of_some hfound).snd
    refine (lift fun _ hW => .instantiateAdt (hexplicit.mono hW)).before ?_
    rintro W₂ ⟨adt, subst, args⟩ hW₂ hfound
    obtain ⟨hadt, hrest⟩ := within_pair.1 hfound
    obtain ⟨hsubst, hargs⟩ := within_pair.1 hrest
    have h := h.mono (hW₁.trans hW₂)
    refine (lift fun _ hW => .meetExpectedAdt (hargs.mono hW) (h.mono hW)).andThen fun _ => ?_
    refine (forM fun field hW _ => ?_).bind fun _ hW₃ _ => ?_
    · have hshape := (hadt.shape? variant).mono hW
      exact (fieldSlot hshape (hsubst.mono hW)).before fun ty _ hty => (coerced hty).discard
    · have hty : Within _ (Ty.adt variant.adt args) := Ty.within_adt.2 (hargs.mono hW₃)
      refine (optionForM fun base _ => (coerced hty).discard).after fun _ hW₄ _ => ?_
      exact pure (hty.mono hW₄)

/-! ## Fallible, asynchronous and generating code -/

theorem questionOutput (hbase : Within W base) :
    Composed body J A W [] fun _ => questionOutput base := by
  refine (resolveSettled hbase).before fun base hW₁ hbase => ?_
  refine (lift fun _ hW => .fallibleParts (hbase.mono hW)).before ?_
  rintro W₂ ⟨ok, error⟩ hW₂ hparts
  obtain ⟨hok, herror⟩ := within_pair.1 hparts
  have hok {W' : Var → Prop} (hW : W₂ ≤ W') :
      Composed body J A W' [] fun _ => (Pure.pure (ok.getD .unknown) : Walk Ty) :=
    pure ((hok.mono hW).getD Ty.within_unknown)
  refine scopeBind rfl fun scope _ hW₃ _ => ?_
  dsimp only
  split
  · next error' trait heq =>
    rw [(Prod.mk.inj heq).1] at herror
    refine ite (hok hW₃) (jumps.before fun j hW₄ hj => ?_)
    refine (register ?_).andThen fun _ => hok (hW₃.trans hW₄)
    exact Infer.Orderly.within_assocGoal (within_jumps.1 hj).2.1
      (within_some.1 (herror.mono (hW₃.trans hW₄)))
  · exact hok hW₃

theorem awaitOutput (hbase : Within W base) : Composed body J A W [] fun _ => awaitOutput base := by
  refine scopeBind rfl fun scope _ hW _ => ?_
  split
  · next future _ =>
    refine (resolveSettled (hbase.mono hW)).before fun base _ hbase => ?_
    split
    · next decl bounds =>
      have hbounds := Ty.within_existential.1 hbase
      have hfound : Within _ (bounds.find? (·.trait = future)) :=
        within_option.2 fun b hb => hbounds.mem (List.mem_of_find?_eq_some hb)
      refine pure (Within.getD (hfound.optionBind fun b hb => ?_) Ty.within_unknown)
      exact hb.assocTy? "Output"
    · exact pure Ty.within_unknown
    · exact pure Ty.within_unknown
    · exact lift fun _ hW => .assocOf (hbase.mono hW) future "Output"
  · exact pure Ty.within_unknown

theorem yieldValue (hJ : J .yield) :
    Composed body J A W (value.toList.map .expr) fun v => yieldValue v value := by
  have hlast {W' : Var → Prop} : Composed body J A W' [] fun _ => (Pure.pure Ty.unit : Walk Ty) :=
    pure Ty.within_unit
  refine jumps.before fun j _ hj => ?_
  have hty := (within_jumps.1 hj).2.2
  generalize j.yieldTy = ty at hty
  match ty, value with
  | some ty, some value =>
    exact (coerced (within_some.1 hty)).discard.after fun _ _ _ => hlast
  | none, some value =>
    refine free.after fun ty _ hty => ?_
    exact (setYielded hJ hty).before fun _ _ _ => hlast
  | none, none =>
    refine freshTy.before fun ty _ hty => ?_
    exact (setYielded hJ hty).before fun _ _ _ => hlast
  | some _, none => exact hlast

/-! ## Literals, tuples, arrays and macros -/

theorem tuple (h : Within W expected) :
    Composed body J A W (elems.map .expr) fun v => tuple v elems expected := by
  rw [List.map_eq_flatMap]
  refine (mapM_zipIdx fun elem i hW _ => ?_).after fun tys _ htys => pure (Ty.within_tuple.2 htys)
  have hslot := ((within_expectedElems h).getElem? i).getD Ty.within_unknown
  exact coerced (hslot.mono hW)

/-- The elements of an array are visited in order, and joined. -/
theorem elementsOf (h : Within W expected) :
    Composed body J A W (elems.map .expr) fun v => Walk.elements v elems expected := by
  cases elems with
  | nil =>
    cases expected with
    | some ty => exact pure (within_some.1 h)
    | none => exact freshTy
  | cons first rest =>
    cases expected with
    | some ty =>
      refine elements ?_
      have hty := within_some.1 h
      rw [List.map_eq_flatMap]
      refine (mapM fun elem hW _ => .expr (h.mono hW)).after fun tys hW₁ htys => ?_
      refine (join htys).before fun joined hW₂ hjoined => ?_
      have hty := hty.mono (hW₁.trans hW₂)
      refine (adjusting trivial fun _ hW => .tryCoerce _ (hjoined.mono hW) (hty.mono hW)).andThen ?_
      exact fun _ => ite (pure hty) (pure hjoined)
    | none =>
      rw [List.map_eq_flatMap]
      refine (mapM fun elem _ _ => .expr within_none).after fun tys _ htys => ?_
      exact (join htys).before fun _ _ hjoined => pure hjoined

theorem repeated {init : ExprId} (h : Within W expected) :
    Composed body J A W [.expr init, .expr len] fun v => repeated v init len expected := by
  have hlen {W' : Var → Prop} (elem : Ty) (_ : W ≤ W') (helem : Within W' elem) :
      Composed body J A W' [.expr len] fun v => do
        Functor.discard (v.coerced len (.int .usize))
        return elem :=
    (coerced Ty.within_int).discard.after fun _ hW _ => pure (helem.mono hW)
  cases expected with
  | some ty => exact (coerced (within_some.1 h)).bind hlen
  | none => exact free.bind hlen

theorem arrayElem {arr : ArrayExpr} (h : Within W expected) :
    Composed body J A W (arr.children.map .expr) fun v => arrayElem v arr expected := by
  cases arr with
  | list elems => exact elementsOf h
  | repeated init len _ => exact repeated h

theorem vecMacro (arr : ArrayExpr) (h : Within W expected) :
    Composed body J A W (arr.children.map .expr) fun v => vecMacro v arr expected := by
  refine scopeBind rfl fun scope _ hW _ => ?_
  refine (arrayElem (within_expectedVecElem scope.known (h.mono hW))).after fun elem _ helem => ?_
  exact lift fun _ hW => .wellKnownTy (within_singleton.2 (helem.mono hW))

theorem plainMacro : Composed body J A W (args.map .expr) fun v => plainMacro v name args := by
  refine scopeBind rfl fun scope _ _ _ => frees.after fun {W'} _ _ _ => ?_
  split
  · exact lift fun _ _ => .wellKnownTy within_nil
  · exact lift fun _ _ => .wellKnownTy within_nil
  · exact lift fun _ _ => .wellKnownTy (within_singleton.2 Ty.within_staticStr)
  · have hread : Composed body J A W' (args.flatMap fun _ => [])
        fun v => args.mapM fun arg => liftInfer (exprTy arg) :=
      mapM fun arg _ _ => lift fun _ _ => .exprTy
    exact (hread.of_eq (by simp)).before fun _ _ htys => pure (Ty.within_tuple.2 htys)
  · exact pure (within_fixedMacroTy _)

theorem macroCall {args : MacroArgs} (h : Within W expected) :
    Composed body J A W (args.children.map .expr) fun v => macroCall v name args expected := by
  unfold Walk.macroCall
  split
  · exact ite (vecMacro _ h) (frees.after fun _ _ _ => pure Ty.within_unknown)
  · split
    · exact vecMacro (.list _) h
    · exact .expr h
    · exact free.after fun _ _ hbase => questionOutput hbase
    · exact free.after fun _ _ hbase => awaitOutput hbase
    · exact plainMacro

/-! ## Blocks, branches and loops -/

theorem letStatement (hdeclared : Within W declared) :
    Composed body J A W (init.toList.map .expr ++ [.pat pat])
      fun v => letStatement v pat declared init := by
  have hexplicit : Composed body J A W (declared.toList.flatMap fun _ => [])
      fun v => declared.mapM fun ty => liftInfer (Infer.normalized ty) :=
    optionMapM fun ty heq => normalized (hdeclared.of_some heq)
  refine (hexplicit.of_eq (by simp)).before fun explicit _ h => ?_
  have hpat {W' : Var → Prop} (diverges : Bool) (ty : Ty) (hty : Within W' ty) :
      Composed body J A W' [.pat pat] fun v => do
        v.bindPat pat ty
        return diverges :=
    (bindPat hty).after fun _ _ _ => pure within_plain
  cases explicit with
  | some ty =>
    have hty := within_some.1 h
    cases init with
    | some init => exact convertedAnyway h hty fun _ hW _ => hpat _ ty (hty.mono hW)
    | none => exact freshTy.andThen fun _ => hpat _ ty hty
  | none =>
    have hrest {W' : Var → Prop} (diverges : Bool) (inferred : Ty) (hinferred : Within W' inferred) :
        Composed body J A W' [.pat pat] fun v => do
          let ty ← Infer.resolveSettled inferred
          v.bindPat pat ty
          return diverges :=
      (resolveSettled hinferred).before fun ty _ hty => hpat diverges ty hty
    cases init with
    | some init => exact (Composed.expr h).bind fun _ _ hinferred => hrest _ _ hinferred
    | none => exact freshTy.before fun _ _ hinferred => hrest _ _ hinferred

theorem statement {stmt : Statement} (hstmt : Within W stmt) :
    Composed body J A W stmt.parts fun v => statement v stmt := by
  cases stmt with
  | letPat pat ty init => exact letStatement hstmt
  | expr id => exact free.after fun _ _ _ => pure within_plain

theorem tailTy (h : Within W expected) :
    Composed body J A W (tail.toList.map .expr) fun v => tailTy v tail expected convert := by
  match tail, expected with
  | some tail, some ty => exact ite (coerced (within_some.1 h)) (.expr h)
  | some tail, none => exact free
  | none, _ => exact pure Ty.within_unit

theorem statements (hstmts : Within W stmts) (h : Within W expected) :
    Composed body J A W (stmts.flatMap Statement.parts ++ tail.toList.map .expr)
      fun v => statements v stmts tail expected convert := by
  refine (mapM fun stmt hW hstmt => statement ((hstmts.mem hstmt).mono hW)).bind fun _ hW _ => ?_
  exact (tailTy (h.mono hW)).after fun ty _ hty => pure (of_ite Ty.within_never hty)

theorem block {kind : BlockKind} {label : Option String}
    (hJ : ∀ o, (Expr.block kind label stmts tail).sets o → J o) (hstmts : Within W stmts)
    (h : Within W expected) :
    Composed body J A W (stmts.flatMap Statement.parts ++ tail.toList.map .expr)
      fun v => block v id kind stmts tail expected := by
  cases kind with
  | plain | unsafeBlock => exact (statements hstmts h).after fun _ _ hty => joinBreaks hty
  | asyncBlock =>
    refine freshTy.before fun output hW₁ houtput => ?_
    have hstmts := hstmts.mono hW₁
    refine (inside (.asyncBlock output) (hJ _ rfl) (statements hstmts (within_some.2 houtput))
      houtput).after fun {W₂} found hW₂ hfound => ?_
    have hty := (within_pair.1 hfound).1
    have houtput := houtput.mono hW₂
    have hlast : Composed body J A W₂ [] fun v => show Walk Ty from do
        return futureTy (← read).known (← Infer.resolve output) :=
      scopeBind rfl fun scope _ hW _ =>
        (resolve (houtput.mono hW)).before fun _ _ h => pure (h.futureTy scope.known)
    exact ite hlast ((unify houtput hty).andThen fun _ => hlast)
  | tryBlock =>
    -- Whichever type is wrapped, the statements come next.
    rcases expected with _ | ty
    on_goal 1 => refine freshTy.before fun wrapped hW hwrapped => ?_
    on_goal 2 => refine (pure (within_some.1 h)).before fun wrapped hW hwrapped => ?_
    all_goals
      refine (inside (.tryBlock wrapped) (hJ _ rfl) (statements (hstmts.mono hW) within_none)
        hwrapped).after fun found hW₁ hfound => scopeBind rfl fun scope _ hW₂ _ => ?_
      have hok := (within_pair.1 hfound).1
      have hwrapped := hwrapped.mono (hW₁.trans hW₂)
      split
      · refine (register ?_).andThen fun _ => pure hwrapped
        exact Infer.Orderly.within_assocGoal hwrapped (hok.mono hW₂)
      · exact pure hwrapped

theorem root : Composed body J A W [.expr id] fun v => root v id := by
  refine jumps.before fun j _ hj => ?_
  refine scopeBind rfl fun scope hscope hW hwithin => ?_
  have hreturn := (within_jumps.1 hj).1.mono hW
  refine liftBind (Body.expr_failsWith · scope.body id) fun e he => ?_
  split
  · next kind stmts tail =>
    refine ite ?_ (coerced hreturn).discard
    have hid : body.expr id = .ok (.block kind none stmts tail) := hscope ▸ he
    have hstmts : Within _ stmts := hwithin.body.expr he
    refine checkCancelled.andThen fun _ => ?_
    simp only [← bind_assoc]
    refine closing ⟨_, hid⟩ hreturn (blockRoot hid hreturn ?_) fun _ ty hty hend => ?_
    · exact (statements hstmts (within_some.2 hreturn)).perm (Expr.parts_block kind none stmts tail)
    · rw [Bool.and_eq_true] at hend
      rw [Option.isNone_iff_eq_none] at hend
      obtain ⟨rfl, hfinishes⟩ := hend
      exact eq_unit_of_statements hty hfinishes
  · exact (coerced hreturn).discard

theorem ifElse (h : Within W expected) :
    Composed body J A W (.expr cond :: .expr thenBranch :: elseBranch.toList.map .expr)
      fun v => ifElse v cond thenBranch elseBranch expected := by
  refine condition.bind fun _ hW₁ _ => ?_
  refine (Composed.expr (h.mono hW₁)).bind fun thenTy hW₂ hthen => ?_
  cases elseBranch with
  | some elseBranch =>
    refine (Composed.expr (h.mono (hW₁.trans hW₂))).after fun elseTy hW₃ helse => ?_
    exact join (within_cons.2 ⟨hthen.mono hW₃, within_singleton.2 helse⟩)
  | none => exact pure Ty.within_unit

theorem matchArm {arm : MatchArm} (hty : Within W ty) (h : Within W expected) :
    Composed body J A W arm.parts fun v => matchArm v ty expected arm := by
  refine (bindPat hty).bind fun _ hW₁ _ => ?_
  refine Composed.of_eq ?_ (List.map_append ..).symm
  rw [List.map_eq_flatMap]
  refine (optionForM fun _ _ => condition).bind fun _ hW₂ _ => ?_
  exact .expr (h.mono (hW₁.trans hW₂))

theorem matchOn {arms : List MatchArm} (h : Within W expected) :
    Composed body J A W (.expr scrutinee :: arms.flatMap MatchArm.parts)
      fun v => matchOn v scrutinee arms expected := by
  refine free.bind fun ty hW₁ hty => (resolveSettled hty).before fun ty hW₂ hty => ?_
  have h := h.mono (hW₁.trans hW₂)
  refine (mapM fun arm hW _ => matchArm (hty.mono hW) (h.mono hW)).after fun tys _ htys => ?_
  exact join htys

theorem letCond : Composed body J A W [.expr expr, .pat pat] fun v => letCond v pat expr := by
  refine free.bind fun ty _ hty => (resolveSettled hty).before fun ty _ hty => ?_
  exact (bindPat hty).after fun _ _ _ => pure Ty.within_bool

theorem loop : Composed body J A W [.expr inner] fun v => loop v id inner :=
  free.discard.after fun _ _ _ => joinBreaks Ty.within_never

theorem whileLoop : Composed body J A W [.expr cond, .expr inner] fun v => whileLoop v cond inner :=
  condition.bind fun _ _ _ => free.discard.after fun _ _ _ => pure Ty.within_unit

theorem forLoop : Composed body J A W [.expr iterable, .pat pat, .expr inner]
      fun v => forLoop v pat iterable inner := by
  refine free.bind fun ty _ hty => (resolveSettled hty).before fun ty _ hty => ?_
  refine (lift fun _ hW => .itemTy (hty.mono hW)).before fun item _ hitem => ?_
  refine (bindPat hitem).bind fun _ _ _ => ?_
  exact free.discard.after fun _ _ _ => pure Ty.within_unit

/-! ## Operators, indexing and ranges -/

theorem derefOp (hid : body.HasExpr id) :
    Composed body J A W [.expr inner] fun v => derefOp v id inner := by
  refine free.after fun ty _ hty => (resolveSettled hty).before fun base _ hbase => ?_
  refine (lift fun _ hW => .deref (hbase.mono hW)).before fun target hW htarget => ?_
  cases target with
  | some target => exact pure (within_some.1 htarget)
  | none =>
    refine ite (pure Ty.within_unknown) ?_
    exact (reportCannotDeref hid (hbase.mono hW)).andThen fun _ => pure Ty.within_unknown

theorem unary (hid : body.HasExpr id) {op : UnaryOp} (h : Within W expected) :
    Composed body J A W [.expr inner] fun v => unary v id op inner expected := by
  cases op with
  | ref mutability =>
    refine (Composed.expr (within_expectedPointee h)).after fun ty _ hty => ?_
    exact pure (Ty.within_reference.2 hty)
  | deref => exact derefOp hid
  | neg | not => exact .expr h
  | box =>
    refine scopeBind rfl fun scope _ hW _ => ?_
    refine (Composed.expr (within_expectedBoxed scope.known (h.mono hW))).after fun ty _ hty => ?_
    exact lift fun _ hW => .wellKnownTy (within_singleton.2 (hty.mono hW))

theorem operands {α : Type} [Mentioning α] {goalFor : Ty → Ty → Infer α}
    (hgoal : ∀ {W' a b} {K : Atoms} [∀ scope, Basis scope Fault.IsOrdinary K] scope,
      Within W' a → Within W' b → Orderly scope Fault.IsOrdinary (Filing K) W' (goalFor a b)) :
    Composed body J A W [.expr lhs, .expr rhs] fun v => operands v lhs rhs goalFor := by
  refine free.bind fun ty _ hty => (resolveSettled hty).before fun lhsTy _ hlhs => ?_
  refine freshTy.before fun rhsVar hW₁ hvar => ?_
  have hlhs := hlhs.mono hW₁
  refine (lift fun scope hW => hgoal scope (hlhs.mono hW) (hvar.mono hW)).before
    fun a hW₂ ha => ?_
  refine (coerced (hvar.mono hW₂)).after fun ty hW₃ hty => ?_
  refine (resolveSettled hty).before fun rhsTy hW₄ hrhs => pure ?_
  refine within_pair.2 ⟨hlhs.mono ((hW₂.trans hW₃).trans hW₄), within_pair.2 ⟨hrhs, ?_⟩⟩
  exact ha.mono (hW₃.trans hW₄)

theorem comparison {op : CmpOp} :
    Composed body J A W [.expr lhs, .expr rhs] fun v => comparison v op lhs rhs := by
  refine scopeBind rfl fun scope _ _ _ => ?_
  refine (operands fun _ => .registerOperator).after ?_
  rintro _ ⟨lhsTy, rhsTy, _⟩ - h
  obtain ⟨hlhs, hrest⟩ := within_pair.1 h
  have hrhs := (within_pair.1 hrest).1
  refine (borrow hlhs).andThen fun _ => (borrow hrhs).andThen fun _ => ?_
  refine ite ?_ (pure Ty.within_bool)
  exact (unify hlhs hrhs).andThen fun _ => pure Ty.within_bool

theorem arithmetic :
    Composed body J A W [.expr lhs, .expr rhs] fun v => arithmetic v op lhs rhs := by
  refine scopeBind rfl fun scope _ _ _ => ?_
  refine (operands fun _ => .operatorOutput).after ?_
  rintro _ ⟨lhsTy, rhsTy, output⟩ - h
  obtain ⟨hlhs, hrest⟩ := within_pair.1 h
  obtain ⟨hrhs, houtput⟩ := within_pair.1 hrest
  exact lift fun _ hW => .arithResult (hlhs.mono hW) (hrhs.mono hW) (houtput.mono hW)

theorem compoundAssign :
    Composed body J A W [.expr lhs, .expr rhs] fun v => compoundAssign v op lhs rhs := by
  refine scopeBind rfl fun scope _ _ _ => ?_
  refine (operands fun _ => .registerOperator).after ?_
  rintro _ ⟨lhsTy, rhsTy, _⟩ - h
  obtain ⟨hlhs, hrest⟩ := within_pair.1 h
  refine (borrow hlhs).andThen fun _ => ite ?_ (pure Ty.within_unit)
  exact (unify hlhs (within_pair.1 hrest).1).andThen fun _ => pure Ty.within_unit

theorem binary {op : BinaryOp} :
    Composed body J A W [.expr lhs, .expr rhs] fun v => binary v op lhs rhs := by
  unfold Walk.binary
  split
  · exact condition.bind fun _ _ _ => condition.after fun _ _ _ => pure Ty.within_bool
  · exact comparison
  · exact arithmetic
  · refine free.bind fun ty _ hty => (coerced hty).discard.after fun _ _ _ => ?_
    exact pure Ty.within_unit
  · exact compoundAssign

theorem range {lhs rhs : Option ExprId} :
    Composed body J A W ((lhs.toList ++ rhs.toList).map .expr) fun v => range v id lhs rhs := by
  rw [List.map_append, List.map_eq_flatMap, List.map_eq_flatMap]
  refine scopeBind rfl fun scope _ _ _ => ?_
  refine (optionMapM fun _ _ => free).bind fun lhsTy _ hlhs => ?_
  refine (optionMapM fun _ _ => free).after fun rhsTy hW hrhs => ?_
  refine (lift fun _ hW' => .rangeEnds (hlhs.mono (hW.trans hW')) (hrhs.mono hW')).before
    fun ends _ hends => ?_
  refine liftBind (Body.expr_failsWith · _ _) fun _ _ => lift fun _ hW => .wellKnownTy ?_
  exact within_list.2 fun ty hty => (within_option.1 hends ty (Option.mem_toList.1 hty)).mono hW

/-! ## Calls and fields -/

/-- Whether an argument is left for the second pass. -/
def isLate (body : Body) (arg : ExprId) : Bool :=
  match body.isClosure arg with
  | .ok isClosure => isClosure
  | .error _ => false

/-- One pass over the arguments visits the closures, or all others. -/
theorem argumentsThat (hparams : Within W params) :
    Composed body J A W ((args.filter fun arg => isLate body arg == areClosures).map .expr)
      fun v => argumentsThat v areClosures params args := by
  refine scopeBind rfl fun scope hscope hW _ => ?_
  have hnodes : (args.filter fun arg => isLate body arg == areClosures).map Site.expr =
      args.flatMap fun arg => if isLate body arg = areClosures then [Site.expr arg] else [] := by
    induction args with
    | nil => rfl
    | cons arg args ih =>
      rw [List.flatMap_cons, ← ih, List.filter_cons]
      by_cases harg : isLate body arg = areClosures
      · simp [harg]
      · simp [harg]
  rw [hnodes]
  refine forM_zipIdx fun arg i hW' => ?_
  refine liftBind (Body.isClosure_failsWith · _ _) fun c hc => ?_
  have hlate : isLate body arg = c := by
    rw [hscope] at hc
    rw [isLate, hc]
  rw [hlate]
  split
  · have hparam := ((hparams.mono (hW.trans hW')).getElem? i).getD Ty.within_unknown
    exact (resolve hparam).before fun ty _ hty => (coerced hty).discard
  · exact pure within_plain

/-- The closures among the arguments come last. -/
theorem arguments (hparams : Within W params) :
    Composed body J A W (args.map .expr) fun v => arguments v params args := by
  refine ((argumentsThat hparams).bind fun _ hW _ =>
    (lift fun _ _ => .settlePending).andThen fun _ =>
      argumentsThat (hparams.mono hW)).perm ?_
  rw [← List.map_append]
  refine List.Perm.map _ ?_
  have hperm := List.filter_append_perm (fun arg => isLate body arg == false) args
  simpa using hperm

theorem call (h : Within W expected) :
    Composed body J A W (.expr callee :: args.map .expr) fun v => call v callee args expected := by
  refine free.bind fun ty hW₁ hty => (resolveSettled hty).before fun calleeTy hW₂ hcallee => ?_
  refine (lift fun _ _ => .isFieldlessCtor).andThen fun fieldless => ite ?_ ?_
  · exact frees.after fun _ hW _ => pure (hcallee.mono hW)
  · refine scopeBind ?_ fun {W₃} scope _ hW₃ hscope => ?_
    · funext v scope on
      rw [scope.signature?_reporting]
    have hsig : Within W₃ ((scope.signature? calleeTy).getD (.ofArity args.length)) :=
      (hscope.env.signatureOf? (hcallee.mono hW₃)).getD (within_ofArity _)
    obtain ⟨hparams, hret⟩ := within_signature.1 hsig
    have h := h.mono ((hW₁.trans hW₂).trans hW₃)
    refine (unifyExpected h hret).andThen fun _ => ?_
    exact (arguments hparams).after fun _ hW _ => pure (hret.mono hW)

theorem indexed {base : ExprId} :
    Composed body J True W [.expr base, .expr idx] fun v => Walk.index v base idx := by
  refine (Composed.expr within_none).bind fun baseTy _ hbase => ?_
  refine (Composed.expr within_none).after fun ty hW₁ hty => ?_
  refine (resolve hty).before fun indexTy hW₂ hindex => ?_
  have hbase := hbase.mono (hW₁.trans hW₂)
  refine (adjusting trivial fun _ hW => .borrowIndex (hindex.mono hW)).andThen fun _ => ?_
  exact adjusting trivial fun _ hW => .indexThrough (hbase.mono hW) (hindex.mono hW)

theorem accessed {name : FieldName} :
    Composed body J True W [.expr receiver] fun v => Walk.field v id receiver name := by
  refine (Composed.expr within_none).after fun ty _ hty => ?_
  refine (lift fun _ hW => .derefSequence (hty.mono hW)).before fun steps _ hsteps => ?_
  refine scopeBind rfl fun scope _ hW hscope => ?_
  have hsteps := hsteps.mono hW
  refine liftBind (fieldFrom_failsWith · _ _ _ _) fun found hfound => ?_
  have hfound := within_fieldFrom hscope.items name hsteps hfound
  split
  · next depth resolution ty _ =>
    have hlast : Composed body J True _ [] fun _ => (do
        Infer.writeFields id [resolution]
        Infer.normalized ty : Walk Ty) :=
      (lift fun _ _ => .writeFields).andThen fun _ => normalized (within_some.1 hfound).snd.snd
    refine ite ((adjusting trivial fun _ hW => .adjust ?_).andThen fun _ => hlast) hlast
    exact (Infer.Orderly.within_derefsTo hsteps depth).mono hW
  · exact (lift fun _ _ => .writeFields).andThen fun _ => pure Ty.within_unknown

theorem callMethod {c : Candidate} (hsteps : Within W steps) (hc : Within W c)
    (hgenericArgs : Within W genericArgs) (h : Within W expected) :
    Composed body J True W (args.map .expr)
      fun v => callMethod v id receiver steps c genericArgs args expected := by
  refine (lift fun _ hW => .instantiateMethod (hc.mono hW) (hgenericArgs.mono hW)).before
    fun sig hW₁ hsig => scopeBind rfl fun {W₂} scope _ hW₂ hscope => ?_
  obtain ⟨hparams, hret⟩ := within_signature.1 (hsig.mono hW₂)
  refine entryBind (within_items.1 hscope.items).2.1 (by decide) fun fn hfn => ?_
  have hW := hW₁.trans hW₂
  have hlast : Composed body J True W₂ (args.map .expr) fun v => do
      fn.selfParam.forM fun param =>
        liftInfer (Infer.adjustReceiver receiver steps (param.ty c.self))
      Walk.arguments v sig.params args
      return sig.ret := by
    have hself := (within_candidate.1 hc).1.mono hW
    have hadjust : Composed body J True W₂ (fn.selfParam.toList.flatMap fun _ => []) fun _ =>
        fn.selfParam.forM fun param =>
          liftInfer (Infer.adjustReceiver receiver steps (param.ty c.self)) := by
      refine optionForM fun param heq => adjusting trivial fun _ hW' => ?_
      have hparam := (within_function.1 hfn).2.1.of_some heq
      exact .adjustReceiver ((hsteps.mono hW).mono hW') ((hparam.selfTy hself).mono hW')
    refine (hadjust.of_eq (by simp)).andThen fun _ => ?_
    exact (arguments hparams).after fun _ hW _ => pure (hret.mono hW)
  exact ite hlast ((unifyExpected (h.mono hW) hret).andThen fun _ => hlast)

theorem calledMethod (hgenericArgs : Within W genericArgs) (h : Within W expected) :
    Composed body J True W (.expr receiver :: args.map .expr)
      fun v => Walk.methodCall v id receiver method genericArgs args expected := by
  refine (Composed.expr within_none).bind fun ty hW₁ hty => ?_
  refine (resolveSettled hty).before fun receiverTy hW₂ hreceiver => ?_
  refine (lift fun _ hW => .derefSequence (hreceiver.mono hW)).before fun steps hW₃ hsteps => ?_
  refine (lift fun _ hW => .candidates (hsteps.mono hW)).before fun found hW₄ hfound => ?_
  have hsteps := hsteps.mono hW₄
  refine (lift fun _ hW => .pick (hsteps.mono hW) (hfound.mono hW)).before
    fun picked hW₅ hpicked => ?_
  have hfound := hfound.mono hW₅
  have hsteps := hsteps.mono hW₅
  have hW := (((hW₁.trans hW₂).trans hW₃).trans hW₄).trans hW₅
  have hgenericArgs := hgenericArgs.mono hW
  cases picked with
  | some only =>
    have hc := within_some.1 hpicked
    have hresolution := within_singleton.2 hc.resolution
    refine (lift fun _ hW => .writeMethods (hresolution.mono hW)).andThen fun _ => ?_
    exact callMethod hsteps hc hgenericArgs (h.mono hW)
  | none =>
    have hresolutions := hfound.map fun _ hc => hc.resolution
    refine (lift fun _ hW => .writeMethods (hresolutions.mono hW)).andThen fun _ => ?_
    cases found with
    | cons c rest => exact callMethod hsteps (within_cons.1 hfound).1 hgenericArgs (h.mono hW)
    | nil => exact (arguments within_nil).after fun _ _ _ => pure Ty.within_unknown

/-! ## Closures -/

theorem closureParam {sig : Signature} {param : ClosureParam} {i : Nat} (hsig : Within W sig)
    (hparam : Within W param) :
    Composed body J A W [.pat param.pat] fun v => closureParam v sig param i := by
  have hpat {W' : Var → Prop} (ty : Ty) (hty : Within W' ty) :
      Composed body J A W' [.pat param.pat] fun v => do
        v.bindPat param.pat ty
        return ty :=
    (bindPat hty).after fun _ hW _ => pure (hty.mono hW)
  unfold Walk.closureParam
  split
  · next heq => exact (normalized (Within.of_some hparam heq)).before fun ty _ hty => hpat ty hty
  · exact hpat _ (((within_signature.1 hsig).1.getElem? i).getD Ty.within_unknown)

theorem closureParams {sig : Signature} {params : List ClosureParam} (hsig : Within W sig)
    (hparams : Within W params) : Composed body J A W ((params.map (·.pat)).map .pat)
      fun v => params.zipIdx.mapM fun (param, i) => Walk.closureParam v sig param i := by
  rw [List.map_map, List.map_eq_flatMap]
  exact mapM_zipIdx fun param i hW hparam =>
    closureParam (hsig.mono hW) ((hparams.mem hparam).mono hW)

/-- A closure visits its parameters and its body, which jumps inside it. -/
theorem closure {params : List ClosureParam} (hJ : J .jump) (hparams : Within W params)
    (hret : Within W ret) (h : Within W expected) :
    Composed body J A W ((params.map (·.pat)).map .pat ++ [.expr inner])
      fun v => closure v params ret inner isAsync expected := by
  refine scopeBind rfl fun scope _ hW₀ _ => ?_
  refine (lift fun _ hW => .expectedSignature? (h.mono (hW₀.trans hW))).before
    fun found hW₁ hfound => ?_
  have hsig : Within _ (found.getD (.ofArity params.length)) := hfound.getD (within_ofArity _)
  have hparams := hparams.mono (hW₀.trans hW₁)
  have hret := hret.mono (hW₀.trans hW₁)
  refine (closureParams hsig hparams).bind fun paramTys hW₂ hparamTys => ?_
  have hret := hret.mono hW₂
  have hsig := hsig.mono hW₂
  refine (lift fun _ hW => .closureRet (hret.mono hW) (hsig.mono hW)).before ?_
  rintro _ ⟨retTy, isFresh⟩ hW₃ hfound
  have hretTy := (within_pair.1 hfound).1
  -- The body returns and yields on its own account.
  refine (inside (.body retTy) hJ root hretTy).after fun {W₄} found hW₄ hfound => ?_
  have hyield := (within_jumps.1 (within_pair.1 hfound).2).2.2
  have hretTy := hretTy.mono hW₄
  have hparamTys := hparamTys.mono (hW₃.trans hW₄)
  dsimp only
  generalize found.2.yieldTy = yieldTy? at hyield ⊢
  cases yieldTy? with
  | some yieldTy =>
    -- A body that yields makes the closure a generator.
    have hlast {W' : Var → Prop} (retTy : Ty) (hW : W₄ ≤ W') (hretTy : Within W' retTy) :
        Composed body J A W' [] fun v => show Walk Ty from do
          return generatorTy scope.known (← Walk.unitUnlessAffected yieldTy) retTy :=
      (unitUnlessAffected ((within_some.1 hyield).mono hW)).before fun yieldTy hW' hyield =>
        pure (hyield.generatorTy (hretTy.mono hW') scope.known)
    exact ite ((unitUnlessAffected hretTy).before hlast) (hlast retTy le_rfl hretTy)
  | none =>
    have hlast {W' : Var → Prop} (retTy : Ty) (hW : W₄ ≤ W') (hretTy : Within W' retTy) :
        Composed body J A W' [] fun v => show Walk Ty from
          return .fn paramTys (if isAsync then futureTy scope.known retTy else retTy) :=
      pure (Ty.within_fn.2
        ⟨hparamTys.mono hW, of_ite (hretTy.futureTy scope.known) hretTy⟩)
    exact ite ((unitUnlessAffected hretTy).before hlast) (hlast retTy le_rfl hretTy)

/-! ## Patterns -/

theorem literalPat (hty : Within W ty) :
    Composed body J A W [.expr id] fun v => literalPat v ty id :=
  (Composed.expr (within_some.2 hty)).after fun _ hW hfound => unify (hty.mono hW) hfound

theorem literalPats {id : Option ExprId} (hty : Within W ty) :
    Composed body J A W (id.toList.map .expr) fun v => id.forM (Walk.literalPat v ty) := by
  rw [List.map_eq_flatMap]
  exact optionForM (fun _ _ => literalPat hty)

theorem subpatterns {ids : List PatId} (hty : Within W ty) :
    Composed body J A W (ids.map .pat) fun v => ids.forM fun sub => v.pat sub ty default := by
  rw [List.map_eq_flatMap]
  exact forM fun id hW _ => .pat (hty.mono hW)

theorem subpattern? {id : Option PatId} (hty : Within W ty) :
    Composed body J A W (id.toList.map .pat) fun v => id.forM fun sub => v.pat sub ty default := by
  rw [List.map_eq_flatMap]
  exact optionForM fun sub _ => .pat hty

/-- A pattern is recorded if it binds, and visits the patterns and constants in it. -/
theorem matchPat {id : PatId} {pat : Pat} (hpat : body.pat id = .ok pat) (hty : Within W ty) :
    Composed body J A W [.pat id] fun v => matchPat v id pat ty default := by
  have hparts := Body.parts_pat hpat
  by_cases hbinds : body.Binds id
  · obtain ⟨name, mode, sub, hbind⟩ := hbinds
    rw [hpat] at hbind
    cases hbind
    exact binding hparts ⟨name, mode, sub, hpat⟩ (hty.bindingTy mode default) (subpattern? hty)
  · refine unrecorded hparts hbinds ?_
    cases pat with
    | missing | wild => exact pure within_plain
    | bind name mode sub => exact absurd ⟨name, mode, sub, hpat⟩ hbinds
    | tuple pats =>
      refine (lift fun _ hW => .tupleParts (hty.mono hW)).beforeOf
        fun {W'} _ elems helems _ hwithin => ?_
      have hlength : pats.length = elems.length := by
        obtain ⟨scope, helems⟩ := helems.of_lift
        exact (length_of_tupleParts helems).symm
      have hloop : Composed body J A W' ((pats.zip elems).flatMap fun p => [.pat p.1])
          fun v => (pats.zip elems).forM fun p => v.pat p.1 p.2 default :=
        forM fun p hW hp => .pat ((hwithin.mem (List.of_mem_zip hp).2).mono hW)
      refine hloop.of_eq ?_
      have hfirst : (pats.zip elems).map (fun p => Site.pat p.1) =
          ((pats.zip elems).map Prod.fst).map .pat := List.map_map.symm
      rw [← List.map_eq_flatMap, hfirst, List.map_fst_zip hlength.le]
      rfl
    | tupleStruct path args =>
      refine (variantShape hty).before fun shape _ hshape => ?_
      show Composed body J A _ (args.map .pat) fun v => _
      rw [List.map_eq_flatMap]
      refine forM_zipIdx fun sub i hW => ?_
      have hfield := ((within_tupleFields hshape).getElem? i).getD Ty.within_unknown
      exact (normalized (hfield.mono hW)).before fun ty _ hty => .pat hty
    | structPat path fields =>
      refine (variantShape hty).before fun shape _ hshape => ?_
      show Composed body J A _ ((fields.map (·.2)).map .pat) fun v => _
      rw [List.map_map, List.map_eq_flatMap]
      exact forM fun field hW _ =>
        (normalized ((within_fieldTy hshape field.1).mono hW)).before fun ty _ hty => .pat hty
    | path path => exact (variantShape hty).discard
    | ref inner mutability =>
      exact (lift fun _ hW => .refPart (hty.mono hW)).before fun ty _ hty => .pat hty
    | lit expr => exact literalPat hty
    | range start stop =>
      refine ((literalPats hty).bind fun _ hW _ => literalPats (hty.mono hW)).of_eq ?_
      simp [Pat.parts, Pat.constants, Pat.subpatterns]
    | slice front rest back =>
      refine ((subpatterns (within_sliceElem hty)).bind fun _ hW _ =>
        subpattern? ((within_sliceRest hty _).mono hW)).perm ?_
      rw [← List.map_append]
      refine List.Perm.map _ ?_
      rw [Pat.subpatterns, List.append_assoc, List.append_assoc]
      exact List.perm_append_comm.append_left front
    | or alternatives => exact subpatterns hty

theorem pattern {id : PatId} (hty : Within W ty) :
    Composed body J A W [.pat id] fun v => pattern v id ty default := by
  refine scopeBind rfl fun scope hscope hW _ => ?_
  refine (resolveSettled (hty.mono hW)).before fun ty _ hty => ?_
  refine liftBind (Body.pat_failsWith · scope.body id) fun pat hpat => ?_
  have hid : body.pat id = .ok pat := hscope ▸ hpat
  refine liftBind (looksThrough_failsWith · _ _) fun through _ => ?_
  exact ite (matchPat hid (within_peel hty default)) (matchPat hid hty)

/-! ## The rules together -/

/-- The rule for an expression visits all of its parts, each once. -/
theorem kindTy (hid : body.HasExpr id) {e : Expr} (hJ : ∀ o, e.sets o → J o)
    (hlit : ∀ lit, e ≠ .literal lit) (he : Within W e) (h : Within W expected) :
    Composed body J A W e.parts fun v => kindTy v id expected e := by
  -- Without patterns inside, the parts are the children.
  have hplain {x : Visitor → Walk Ty} (hnone : e.patterns = [])
      (hx : Composed body J A W (e.children.map .expr) x) : Composed body J A W e.parts x := by
    rwa [Expr.parts, hnone, List.map_nil, List.append_nil]
  cases e with
  | missing => exact pure Ty.within_unknown
  | path p => exact path
  | literal lit => exact absurd rfl (hlit lit)
  | structLit _ fields spread => exact hplain rfl (structLit h)
  | tuple elems => exact hplain rfl (tuple h)
  | array arr =>
    refine hplain rfl ((arrayElem (within_expectedElem h)).after fun elem _ helem => ?_)
    exact pure (Ty.within_array.2 helem)
  | range lhs rhs _ => exact hplain rfl range
  | index base idx => exact index indexed
  | cast inner ty =>
    have hty : Within W ty := he
    exact free.discard.after fun _ hW _ => normalized (hty.mono hW)
  | call callee args => exact hplain rfl (call h)
  | methodCall receiver method genericArgs args =>
    exact hplain rfl (methodCall (calledMethod he h))
  | field receiver name => exact field accessed
  | block kind label stmts tail =>
    have hstmts : Within W stmts := he
    exact (block hJ hstmts h).perm (Expr.parts_block kind label stmts tail)
  | ifElse cond thenBranch elseBranch =>
    exact hplain rfl (ifElse h)
  | letCond pat inner => exact letCond
  | loop _ inner => exact loop
  | whileLoop _ cond inner => exact whileLoop
  | forLoop _ pat iterable inner =>
    exact forLoop.perm (.cons _ (.swap ..))
  | matchOn scrutinee arms =>
    exact (matchOn h).perm (Expr.parts_matchOn scrutinee arms)
  | unary op inner => exact unary hid h
  | binary op lhs rhs => exact binary
  | question inner => exact free.after fun _ _ hbase => questionOutput hbase
  | await inner => exact free.after fun _ _ hbase => awaitOutput hbase
  | yieldValue value => exact hplain rfl (yieldValue (hJ _ rfl))
  | returnValue value =>
    refine hplain rfl ?_
    rw [Expr.children, List.map_eq_flatMap]
    refine (optionForM fun id _ => ?_).after fun _ _ _ => pure Ty.within_never
    exact jumps.before fun _ _ hj => (coerced (within_jumps.1 hj).1).discard
  | breakLoop _ value =>
    refine hplain rfl ?_
    rw [Expr.children, List.map_eq_flatMap]
    exact (optionForM fun id _ => free.discard).after fun _ _ _ => pure Ty.within_never
  | continueLoop _ => exact pure Ty.within_never
  | closure params ret inner isAsync =>
    refine (closure (hJ _ rfl) ?_ ?_ h).perm List.perm_append_comm
    · exact fun u hu => he u (.inl hu)
    · exact fun u hu => he u (.inr hu)
  | macroCall name args => exact hplain rfl (macroCall h)

/-- The rule of the visitor for expressions is composed. -/
theorem expression (hJ : ∀ o, J o) (h : Within W expected) :
    Composed body J A W [.expr id] fun v => expression v id expected := by
  refine checkCancelled.andThen fun _ => ?_
  refine (lift fun _ hW => .expectation (h.mono hW)).before fun expected _ h => ?_
  refine scopeBind rfl fun scope hscope hW hwithin => ?_
  refine liftBind (Body.expr_failsWith · scope.body id) fun e he => ?_
  have hid : body.expr id = .ok e := hscope ▸ he
  have h := h.mono hW
  by_cases hlit : ∃ lit, e = .literal lit
  · obtain ⟨lit, rfl⟩ := hlit
    exact literal hid h
  · rw [not_exists] at hlit
    exact node hid hlit (kindTy ⟨e, hid⟩ (fun o _ => hJ o) hlit (hwithin.body.expr he) h)

end Composed

/-! ## Whole bodies -/

/-- Walks the body of `owner`, without finishing its types. -/
def entries (v : Visitor) : Owner → Walk Unit
  | .function id => functionBody v id
  | owner => do
    let scope ← read
    let ty ← valueTy owner
    discard (inside (.body ty) (v.coerced scope.body.root ty))

/-- Inferring a body is walking it and then finishing its types. -/
theorem wholeBody_run (v : Visitor) (scope : Scope) :
    (wholeBody v).go scope = (do
      entries v scope.owner
      finish : Walk Outcome).go scope := by
  have hrun : wholeBody v scope = (do
      entries v scope.owner
      finish : Walk Outcome) scope := by
    have hrun : wholeBody v scope = (match scope.owner with
        | .function id => do
          functionBody v id
          finish
        | owner => do
          let ty ← valueTy owner
          discard (inside (.body ty) (v.coerced scope.body.root ty))
          finish : Walk Outcome) scope := rfl
    rw [hrun]
    cases scope.owner with
    | function id => rfl
    | _ =>
      simp only [entries, bind_assoc]
      rfl
  unfold go
  rw [hrun]

namespace Composed

variable {body : Body} {J : Outlet → Prop} {A : Prop} {W : Var → Prop}

/-- A function visits its parameters, and then its root. -/
theorem functionBody (hJ : J .jump) {id : FnId} :
    Composed body J A W (body.entries (.function id)) fun v => functionBody v id := by
  refine scopeBind rfl fun scope hscope _ hwithin => ?_
  refine entryBind (within_items.1 hwithin.items).2.1 (by decide) fun fn hfn => ?_
  refine liftBind (Items.selfTy_failsWith · _ _) fun self hself => ?_
  have hparams := hfn.bodyParams (within_selfTy hwithin.items hself)
  refine (lift fun _ hW => .normalizedList (hparams.mono hW)).before fun params hW₁ hparams => ?_
  have hret := (within_function.1 hfn).2.2.2.mono hW₁
  refine (normalized hret).before fun ret hW₂ hret => (inside (.body ret) hJ ?_ hret).discard
  rw [hscope, Body.entries, List.map_eq_flatMap]
  refine (forM_zipIdx fun pat i hW => ?_).bind fun _ _ _ => root
  exact bindPat (((hparams.mono (hW₂.trans hW)).getElem? i).getD Ty.within_unknown)

theorem entries (hJ : J .jump) {owner : Owner} :
    Composed body J A W (body.entries owner) fun v => Walk.entries v owner := by
  cases owner with
  | function id => exact functionBody hJ
  | const id | arrayLen index | discriminant adt index =>
    refine scopeBind rfl fun scope hscope _ _ => ?_
    refine (lift fun _ _ => .valueTy).before fun ty _ hty => ?_
    rw [hscope]
    exact (inside (.body ty) hJ (coerced hty) hty).discard

end Composed

end Walk

end TypeInference
