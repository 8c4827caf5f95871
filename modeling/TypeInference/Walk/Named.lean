import TypeInference.Walk.Basic

/-!
# Paths and struct literals

A path takes its type from what it resolved to. When it resolved to several functions of one trait,
the declaration in the trait stands for them until an impl is known; any other ambiguity leaves the
path unknown.
-/

namespace TypeInference.Walk

open Infer

/-- The type of a constant: as declared, or else that of its body. -/
def constTy (v : Visitor) (id : ConstId) : Walk Ty := do
  match (← (← read).items.const id).ty with
  | some ty => normalized ty
  | none => v.const id

def resolvedTy (v : Visitor) (expr : ExprId) (res : PathResolution) : Walk Ty := do
  match res.value with
  | .local pat => bindingTy pat
  | .function id => instantiateFn expr id res.subst
  | .const id => constTy v id
  | .struct adt => instantiateCtor (.struct adt) res.subst
  | .variant adt i => instantiateCtor (.enumVariant adt i) res.subst

/-- The functions among resolutions, if all of them are functions. -/
def functionUses? (resolutions : List PathResolution) : Option (List (FnId × PathResolution)) :=
  resolutions.mapM fun res =>
    match res.value with
    | .function id => some (id, res)
    | _ => none

def ambiguousPath (v : Visitor) (expr : ExprId) (path : Path)
    (resolutions : List PathResolution) : Walk Ty := do
  if path.isQualified then
    if let some uses := functionUses? resolutions then
      if let some fn ← collapse? (← read).items (uses.map (·.1)) then
        let subst ← collapsedArgs fn uses
        return ← resolvedTy v expr ⟨.function fn, subst⟩
  return .unknown

def path (v : Visitor) (expr : ExprId) (path : Path) : Walk Ty := do
  let resolutions ← lookUpPath expr
  writePath expr (resolutions.map (·.value))
  match resolutions with
  | [only] => resolvedTy v expr only
  | _ => ambiguousPath v expr path resolutions

/-- The type a struct literal of a known variant expects of a field, unknown for a field that is not
declared. -/
def fieldSlot (shape : Option Shape) (subst : Subst) (name : String) : Walk Ty := do
  match shape.bind (·.field? name) with
  | some (_, ty) => normalized (subst.apply ty)
  | none => return .unknown

/-- Unifies the arguments of a struct literal with those that are expected. -/
def meetExpectedAdt (id : AdtId) (args : List Ty) : Option Ty → Infer Unit
  | some (.adt expected expectedArgs) => do
    if expected = id then
      discard (combinePairs args expectedArgs)
  | _ => pure ()

def structLit (v : Visitor) (expr : ExprId) (fields : List FieldInit) (spread : Option ExprId)
    (expected : Option Ty) : Walk Ty := do
  match (← read).names.variant? (.expr expr) with
  | none =>
    fields.forM fun field => discard (v.free field.expr)
    spread.forM fun base => discard (v.free base)
    return .unknown
  | some (variant, explicit) =>
    let (adt, subst, args) ← instantiateAdt variant.adt explicit
    meetExpectedAdt variant.adt args expected
    let ty := Ty.adt variant.adt args
    fields.forM fun field => do
      discard (v.coerced field.expr (← fieldSlot (adt.shape? variant) subst field.name))
    spread.forM fun base => discard (v.coerced base ty)
    return ty

end TypeInference.Walk
