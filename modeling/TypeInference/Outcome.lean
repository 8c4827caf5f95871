import TypeInference.Body.Names
import TypeInference.Ty.Display

/-!
# Outcomes

What inferring a body produces: a type for every expression and binding, what paths, methods and
fields resolved to, the implicit conversions of expressions, and the problems found.
-/

namespace TypeInference

/-- An implicit conversion of an expression's value. -/
inductive Adjustment where
  /-- One dereference, which gives `target`. -/
  | deref (target : Ty)
  | borrowRef (target : Ty) (region : Region) (mutability : Mutability)
  | borrowPtr (target : Ty) (mutability : Mutability)

def Adjustment.mapM {m : Type → Type} [Monad m] (f : Ty → m Ty) : Adjustment → m Adjustment
  | .deref target => do return .deref (← f target)
  | .borrowRef target region mutability => do return .borrowRef (← f target) region mutability
  | .borrowPtr target mutability => do return .borrowPtr (← f target) mutability

/-- The borrow of a value of type `ty`. -/
def Adjustment.borrowOf (ty : Ty) (mutability : Mutability) : Adjustment :=
  .borrowRef (.reference ty mutability) .erased mutability

/-- How a method was found. -/
inductive MethodSource where
  /-- In an impl, or inherited by it. -/
  | impl (id : ImplId)
  /-- Through a where-clause. -/
  | traitBound (trait : TraitId)
  /-- Through a bound of a trait object or existential type. -/
  | object (trait : TraitId)
  /-- The trait's own declaration, in place of several impls. -/
  | collapsed (trait : TraitId)
deriving DecidableEq, Repr

structure MethodResolution where
  fn : FnId
  /-- The receiver type at the dereference where the method was found. -/
  self : Ty
  derefCount : Nat
  source : MethodSource

inductive FieldResolution where
  | field (variant : VariantRef) (index : Nat)
  | tupleIndex (index : Nat)
deriving DecidableEq, Repr

/-- A problem that inference reports and survives. -/
inductive Diagnostic where
  /-- A value of type `actual` where `expected` is needed. -/
  | mismatch (site : Site) (expected actual : Ty)
  /-- A dereference of a type that has none. -/
  | cannotDeref (expr : ExprId) (ty : Ty)

namespace Diagnostic

def site : Diagnostic → Site
  | .mismatch site .. => site
  | .cannotDeref expr _ => .expr expr

def code : Diagnostic → String
  | .mismatch .. => "T0001"
  | .cannotDeref .. => "T0002"

def mapM {m : Type → Type} [Monad m] (f : Ty → m Ty) : Diagnostic → m Diagnostic
  | .mismatch site expected actual => do return .mismatch site (← f expected) (← f actual)
  | .cannotDeref expr ty => do return .cannotDeref expr (← f ty)

/-- The sentence shown to the user, with the types written by `text`. -/
def messageM {m : Type → Type} [Monad m] (text : Ty → m String) : Diagnostic → m String
  | .mismatch _ expected actual => do
    let expected ← text expected
    let actual ← text actual
    return s!"mismatched types: expected `{expected}`, found `{actual}`"
  | .cannotDeref _ ty => do
    let ty ← text ty
    return s!"type `{ty}` cannot be dereferenced"

def text (d : Diagnostic) : String :=
  Id.run (d.messageM fun t => pure t.text)

def message (d : Diagnostic) (items : Items) : Except Fault String :=
  d.messageM fun t => t.textIn items

end Diagnostic

/-- The immutable result of inferring one body. -/
structure Outcome where
  exprTypes : IdMap Ty
  bindings : IdMap Ty
  paths : IdMap (List Value)
  methods : IdMap (List MethodResolution)
  fields : IdMap (List FieldResolution)
  adjustments : IdMap (List Adjustment)
  diagnostics : List Diagnostic

namespace Outcome

/-- The type of an expression, unknown for one that was never walked. -/
def exprTy (o : Outcome) (id : ExprId) : Ty :=
  (o.exprTypes.get? id.index).getD .unknown

/-- The type of a binding, unknown for a pattern that binds nothing. -/
def bindingTy (o : Outcome) (id : PatId) : Ty :=
  (o.bindings.get? id.index).getD .unknown

/-- One line for each typed expression, in the order of their numbers. -/
def dump (o : Outcome) (items : Items) : Except Fault String := do
  let lines ← o.exprTypes.entries.mapM fun (id, ty) => do
    return s!"{id}: " ++ (← ty.textIn items) ++ "\n"
  return String.join lines

end Outcome

end TypeInference
