import TypeInference.Proofs.Composition

/-!
# Comparing walks

Two walks that follow the same rules can differ in the session around them: in what the constants
are, in whether the user asks to cancel, or in whether mismatches are reported. A relation that
holds of their parts and is kept by the ways in which parts are put together holds of whole walks.
-/

namespace TypeInference

namespace Walk

open Infer

/-- A relation between walks that holds of steps of inference. -/
structure Inferring (body : Body) (R : ∀ {α : Type}, Walk α → Walk α → Prop) : Prop where
  /-- Steps that neither report nor record the type of a node. -/
  infer : ∀ {α : Type} {x : Infer α},
    (∀ scope, Regular scope Fault.IsOrdinary (Noting CacheOp) x) →
    R (liftM x : Walk α) (liftM x)
  literal : ∀ lit expected,
    R (liftM (literal lit expected) : Walk Ty) (liftM (Walk.literal lit expected))
  writeExprTy : ∀ id ty, R (liftM (writeExprTy id ty) : Walk Unit) (liftM (Infer.writeExprTy id ty))
  writeBinding : ∀ id ty,
    R (liftM (writeBinding id ty) : Walk Unit) (liftM (Infer.writeBinding id ty))
  coerce : ∀ {id}, body.HasExpr id → ∀ source target,
    R (liftM (coerce id source target) : Walk Bool) (liftM (Infer.coerce id source target))
  variantShape : ∀ id expected, R (liftM (variantShape id expected) : Walk (Option (Shape × Subst)))
    (liftM (Walk.variantShape id expected))
  reportCannotDeref : ∀ {id}, body.HasExpr id → ∀ ty,
    R (liftM (reportCannotDeref id ty) : Walk Unit) (liftM (Infer.reportCannotDeref id ty))

theorem Inferring.of_lift {body : Body} {R : ∀ {α : Type}, Walk α → Walk α → Prop}
    (h : ∀ {α : Type} (x : Infer α), R (liftM x : Walk α) (liftM x)) : Inferring body R :=
  ⟨fun _ => h _, fun _ _ => h _, fun _ _ => h _, fun _ _ => h _, fun _ _ _ => h _, fun _ _ => h _,
    fun _ _ => h _⟩

/-- A relation between walks that holds of the parts of walks and is kept where they are put
together, with outlets set that satisfy `J`. -/
structure Congruence (body : Body) (J : Outlet → Prop)
    (R : ∀ {α : Type}, Walk α → Walk α → Prop) : Prop extends Inferring body R where
  pure : ∀ {α : Type} (a : α), R (pure a : Walk α) (pure a)
  /-- What follows need only be related for results that there are. -/
  bindOf : ∀ {α β : Type} {x y : Walk α} {f g : α → Walk β}, R x y →
    (∀ a, Gives body x a → R (f a) (g a)) → R (x >>= f) (y >>= g)
  /-- What follows does not depend on whether mismatches are reported. -/
  scopeBind : ∀ {β : Type} {f g : Scope → Walk β},
    (∀ scope on, f (scope.reporting on) = f scope) →
    (∀ scope on, g (scope.reporting on) = g scope) →
    (∀ scope, scope.body = body → R (f scope) (g scope)) → R (read >>= f) (read >>= g)
  exhausted : ∀ {α : Type}, R (throw (.fault .exhausted) : Walk α) (throw (.fault .exhausted))
  lookUpPath : ∀ id, R (lookUpPath id) (Walk.lookUpPath id)
  checkCancelled : R checkCancelled Walk.checkCancelled
  jumps : R jumps Walk.jumps
  setYielded : ∀ ty, J .yield → R (setYielded ty) (Walk.setYielded ty)
  inside : ∀ {α : Type} {x y : Walk α} b, J .jump → R x y → R (inside b x) (Walk.inside b y)

/-- Only expressions of the body are visited. -/
theorem hasExpr_of_expression {body : Body} {v : Visitor} {id : ExprId} {expected : Option Ty}
    {ty : Ty} (h : Gives body (expression v id expected) ty) : body.HasExpr id := by
  obtain ⟨scope, w, w', σ, σ', hbody, hrun⟩ := h
  obtain ⟨_, w₁, σ₁, -, hrun⟩ := bind_eq_ok hrun
  obtain ⟨_, w₂, σ₂, -, hrun⟩ := bind_eq_ok hrun
  obtain ⟨_, w₃, σ₃, ⟨⟩, hrun⟩ := bind_eq_ok hrun
  obtain ⟨e, w₄, σ₄, hexpr, -⟩ := bind_eq_ok hrun
  have hgives : Gives body (liftM (scope.body.expr id) : Walk Expr) e :=
    ⟨scope, _, _, _, _, hbody, hexpr⟩
  exact ⟨e, hbody ▸ hgives.of_except⟩

/-- The visitors are related in what they are called for among the nodes of `S`. -/
structure Related (body : Body) (S : Site → Prop) (R : ∀ {α : Type}, Walk α → Walk α → Prop)
    (v v' : Visitor) : Prop where
  hasExpr : ∀ {id expected ty}, Gives body (v.expr id expected) ty → body.HasExpr id
  expr : ∀ id expected, S (.expr id) → R (v.expr id expected) (v'.expr id expected)
  pat : ∀ id ty default, S (.pat id) → R (v.pat id ty default) (v'.pat id ty default)
  const : ∀ id, R (liftM (v.const id) : Walk Ty) (liftM (v'.const id))

namespace Congruence

variable {body : Body} {J : Outlet → Prop} {R : ∀ {α : Type}, Walk α → Walk α → Prop}
  {v v' : Visitor} {α β : Type} {x y : Walk α}

section

variable (hR : Congruence body J R) {f g : α → Walk β}

include hR

theorem bind (hx : R x y) (hf : ∀ a, R (f a) (g a)) : R (x >>= f) (y >>= g) :=
  hR.bindOf hx fun a _ => hf a

/-- What is put together from visits is related if the visits are. -/
theorem of_composed {S : Site → Prop} (hv : Related body S R v v')
    (hS : ∀ {site parts}, body.parts site = .ok parts → S site → ∀ p ∈ parts, S p) {A : Prop}
    {W : Var → Prop} [Mentioning α] {roots : List Site} {x : Visitor → Walk α}
    (h : Composed body J A W roots x) (hroots : ∀ site ∈ roots, S site) : R (x v) (x v') := by
  induction h with
  | pure _ => exact hR.pure _
  | bindOf _ _ ih ih' =>
    obtain ⟨hroots, hroots'⟩ := List.forall_mem_append.1 hroots
    exact hR.bindOf (ih hroots) fun a ha => ih' v a ha le_top within_true hroots'
  | mono _ _ ih | elements _ ih | index _ ih | field _ ih | methodCall _ ih => exact ih hroots
  | perm _ hperm ih => exact ih fun site hsite => hroots site (hperm.subset hsite)
  | scopeBind hsame _ ih =>
    have hsame (v) := congrFun₂ (congrFun hsame v)
    exact hR.scopeBind (hsame v) (hsame v') fun scope h => ih scope h le_top scope.within_true hroots
  | lift hx => exact hR.infer fun scope => (hx scope le_top).anyway.noting
  | adjusting _ hx => exact hR.infer fun scope => (hx scope le_top).anyway
  | borrow _ => exact hR.infer fun _ => .adjust
  | variantShape _ => exact hR.variantShape _ _
  | reportCannotDeref hid _ => exact hR.reportCannotDeref hid _
  | lookUpPath id => exact hR.lookUpPath id
  | checkCancelled => exact hR.checkCancelled
  | jumps => exact hR.jumps
  | setYielded hJ _ => exact hR.setYielded _ hJ
  | inside b hJ _ _ ih => exact hR.inside b hJ (ih hroots)
  | const id => exact hv.const id
  | expr _ => exact hv.expr _ _ (hroots _ List.mem_cons_self)
  | pat _ => exact hv.pat _ _ _ (hroots _ List.mem_cons_self)
  | literal _ _ =>
    exact hR.bind (hR.literal ..) fun _ => hR.bind (hR.writeExprTy ..) fun _ => hR.pure _
  | node hid _ _ ih =>
    have hnode := ih (hS (Body.parts_expr hid) (hroots _ List.mem_cons_self))
    exact hR.bind hnode fun _ => hR.bind (hR.writeExprTy ..) fun _ => hR.pure _
  | blockRoot hid _ _ ih =>
    have hblock := ih (hS (Body.parts_expr hid) (hroots _ List.mem_cons_self))
    exact hR.bind (hR.writeExprTy ..) fun _ => hblock
  | binding hparts _ _ _ ih =>
    have hbinding := ih (hS hparts (hroots _ List.mem_cons_self))
    exact hR.bind (hR.writeBinding ..) fun _ => hbinding
  | unrecorded hparts _ _ ih => exact ih (hS hparts (hroots _ List.mem_cons_self))
  | converted _ _ _ ih =>
    obtain ⟨hid, hroots⟩ := List.forall_mem_cons.1 hroots
    refine hR.bindOf (hv.expr _ _ hid) fun inferred hinferred => ?_
    exact hR.bind (hR.coerce (hv.hasExpr hinferred) ..) fun _ =>
      ih _ _ le_top within_true hroots
  | closing hid _ _ _ ih =>
    refine hR.bind (ih hroots) fun ty => ?_
    split
    · exact hR.bind (hR.coerce hid ..) fun _ => hR.pure _
    · exact hR.pure _

variable (const const' : ConstId → SessionM Ty)

theorem visitor_zero {S : Site → Prop}
    (hconst : ∀ id, R (liftM (const id) : Walk Ty) (liftM (const' id))) :
    Related body S R (visitor const 0) (Walk.visitor const' 0) := by
  refine ⟨?_, fun _ _ _ => hR.exhausted, fun _ _ _ _ => hR.exhausted, hconst⟩
  rintro id expected ty ⟨scope, w, w', σ, σ', -, ⟨⟩⟩

/-- The walks of nodes are related, at every depth. -/
theorem visitor (hJ : ∀ o, J o)
    (hconst : ∀ id, R (liftM (const id) : Walk Ty) (liftM (const' id))) (n : Nat) :
    Related body (fun _ => True) R (visitor const n) (Walk.visitor const' n) := by
  induction n with
  | zero => exact hR.visitor_zero const const' hconst
  | succ n ih =>
    have hrule {α : Type} [Mentioning α] {roots : List Site} {x : Visitor → Walk α}
        (h : Composed body J False (fun _ => True) roots x) :
        R (x (Walk.visitor const n)) (x (Walk.visitor const' n)) :=
      hR.of_composed ih (fun _ _ _ _ => trivial) h fun _ _ => trivial
    exact ⟨hasExpr_of_expression, fun _ _ _ => hrule (.expression hJ within_true),
      fun _ _ _ _ => hrule (.pattern within_true), hconst⟩

/-- So are the walks of whole bodies. -/
theorem entries (hJ : ∀ o, J o)
    (hconst : ∀ id, R (liftM (const id) : Walk Ty) (liftM (const' id))) (n : Nat) (owner : Owner) :
    R (entries (Walk.visitor const n) owner) (Walk.entries (Walk.visitor const' n) owner) :=
  hR.of_composed (A := False) (W := fun _ => True) (hR.visitor const const' hJ hconst n)
    (fun _ _ _ _ => trivial) (.entries (hJ _)) fun _ _ => trivial

end

end Congruence

end Walk

end TypeInference
