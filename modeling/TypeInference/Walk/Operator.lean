import TypeInference.Walk.Basic

/-!
# Operators, indexing and ranges

An operator that can be overloaded goes through its trait. Where both operands are built-in
scalars of the right kind, the built-in rule pins their types together as well.
-/

namespace TypeInference.Walk

open Infer

/-! ## Unary operators -/

def expectedPointee : Option Ty → Option Ty
  | some (.ref pointee ..) => some pointee
  | _ => none

def expectedBoxed (known : WellKnown) : Option Ty → Option Ty
  | some (.adt id args) => if known.boxed = some id then args.head? else none
  | _ => none

/-- `*inner`, reported when the type is known and has no dereference. -/
def derefOp (v : Visitor) (id inner : ExprId) : Walk Ty := do
  let base ← resolveSettled (← v.free inner)
  match ← deref base with
  | some target => return target
  | none =>
    unless base.isUnknown || base.isVar do reportCannotDeref id base
    return .unknown

def unary (v : Visitor) (id : ExprId) (op : UnaryOp) (inner : ExprId) (expected : Option Ty) :
    Walk Ty := do
  match op with
  | .ref mutability =>
    return .reference (← v.expr inner (expectedPointee expected)) mutability
  | .deref => derefOp v id inner
  | .neg | .not => v.expr inner expected
  | .box =>
    let known := (← read).known
    let ty ← v.expr inner (expectedBoxed known expected)
    wellKnownTy known.boxed [ty]

/-! ## Binary operators -/

/-- Families of operators with built-in rules of their own. -/
inductive ArithFamily where
  | shift
  | math
  | bitwise
deriving DecidableEq

def ArithFamily.of : ArithOp → ArithFamily
  | .shl | .shr => .shift
  | .bitAnd | .bitOr | .bitXor => .bitwise
  | .add | .sub | .mul | .div | .rem => .math

/-- Whether the built-in operator applies. -/
def ArithFamily.isBuiltin (family : ArithFamily) (lhs rhs : Ty) : Bool :=
  let integral := lhs.isIntegral && rhs.isIntegral
  let float := lhs.isFloat && rhs.isFloat
  match family with
  | .shift => integral
  | .math => integral || float
  | .bitwise => integral || float || (lhs == .bool && rhs == .bool)

/-- The operands of an operator that goes through a trait. The right one is a fresh variable in
the goal, which `goalFor` may register, before it is inferred. -/
def operands {α : Type} (v : Visitor) (lhs rhs : ExprId) (goalFor : Ty → Ty → Infer α) :
    Walk (Ty × Ty × α) := do
  let lhsTy ← resolveSettled (← v.free lhs)
  let rhsVar ← freshTy
  let a ← goalFor lhsTy rhsVar
  let rhsTy ← resolveSettled (← v.coerced rhs rhsVar)
  return (lhsTy, rhsTy, a)

/-- Registers that the left operand implements an operator's trait. -/
def registerOperator (trait : Option TraitId) (lhs rhs : Ty) : Infer Unit := do
  if let some trait := trait then
    register [.ofTrait 0 ⟨lhs, trait, [rhs]⟩]

/-- Registers an operator's trait; the answer is its output. -/
def operatorOutput (trait : Option TraitId) (lhs rhs : Ty) : Infer Ty := do
  match trait with
  | some trait =>
    let goal : TraitRef := ⟨lhs, trait, [rhs]⟩
    register [.ofTrait 0 goal]
    projected ⟨goal, "Output"⟩
  | none => return .unknown

/-- Comparisons borrow both operands and give a truth value. -/
def comparison (v : Visitor) (op : CmpOp) (lhs rhs : ExprId) : Walk Ty := do
  let known := (← read).known
  let trait := if op.isEquality then known.partialEq else known.partialOrd
  let (lhsTy, rhsTy, _) ← operands v lhs rhs (registerOperator trait)
  adjust lhs [.borrowOf lhsTy .shared]
  adjust rhs [.borrowOf rhsTy .shared]
  if lhsTy.isScalar && rhsTy.isScalar then
    unify lhsTy rhsTy
  return .bool

/-- The type of `lhs op rhs`, given what the operator's trait says. -/
def arithResult (op : ArithOp) (lhs rhs output : Ty) : Infer Ty := do
  let family := ArithFamily.of op
  if family.isBuiltin lhs rhs then
    unless family = .shift do unify lhs rhs
    if output.isUnknown then
      return lhs
    unify lhs output
    return output
  else
    return output

def arithmetic (v : Visitor) (op : ArithOp) (lhs rhs : ExprId) : Walk Ty := do
  let known := (← read).known
  let (lhsTy, rhsTy, output) ← operands v lhs rhs (operatorOutput (known.arith op))
  arithResult op lhsTy rhsTy output

/-- `lhs op= rhs` borrows its left operand mutably. -/
def compoundAssign (v : Visitor) (op : ArithOp) (lhs rhs : ExprId) : Walk Ty := do
  let known := (← read).known
  let (lhsTy, rhsTy, _) ← operands v lhs rhs (registerOperator (known.arithAssign op))
  adjust lhs [.borrowOf lhsTy .mut]
  let family := ArithFamily.of op
  if family ≠ .shift && family.isBuiltin lhsTy rhsTy then
    unify lhsTy rhsTy
  return .unit

def binary (v : Visitor) (op : BinaryOp) (lhs rhs : ExprId) : Walk Ty := do
  match op with
  | .logic _ =>
    v.condition lhs
    v.condition rhs
    return .bool
  | .cmp op => comparison v op lhs rhs
  | .arith op => arithmetic v op lhs rhs
  | .assign none =>
    let ty ← v.free lhs
    discard (v.coerced rhs ty)
    return .unit
  | .assign (some op) => compoundAssign v op lhs rhs

/-! ## Indexing -/

/-- What the language itself gives for an index into a container. -/
def builtinIndex (container index : Ty) : Infer (Option Ty) := do
  let known := (← read).known
  let isRange := match index with
    | .adt id _ => known.isRange id
    | _ => false
  let elementOf (elem : Ty) : Infer (Option Ty) := do
    if index.isIntegral then
      unify index (.int .usize)
      return some elem
    return if isRange then some (.slice elem) else none
  match container with
  | .array elem _ => elementOf elem
  | .slice elem => elementOf elem
  | .str => return if isRange then some .str else none
  | _ => return none

/-- What the index trait gives for an index into a container, where that is something definite. -/
def overloadedIndex (container index : Ty) : Infer (Option Ty) := do
  let some trait := (← read).known.index | return none
  let goal : TraitRef := ⟨container, trait, [index]⟩
  let some result ← normalize? ⟨goal, "Output"⟩ 0 | return none
  match result.value with
  | .unknown | .projection .. => return none
  | output =>
    register result.obligations
    register [.ofTrait 0 goal]
    return some output

/-- The type of an element of a container, if it can be indexed. -/
def indexOutput (container index : Ty) : Infer (Option Ty) := do
  let index ← head index
  match ← builtinIndex container index with
  | some output => return some output
  | none => overloadedIndex container index

/-- Whether a step of a dereference sequence only forgets the length of an array. -/
def isUnsizing : Option Ty → Ty → Bool
  | some (.array ..), .slice _ => true
  | _, _ => false

/-- The first step of a dereference sequence that can be indexed, with the number of dereferences
before it. -/
def indexFrom (index : Ty) : Option Ty → Nat → List Ty → Infer (Option (Ty × Nat))
  | _, _, [] => return none
  | previous, derefs, step :: rest => do
    let derefs := if previous.isSome && !isUnsizing previous step then derefs + 1 else derefs
    match ← indexOutput step index with
    | some output => return some (output, derefs)
    | none => indexFrom index (some step) derefs rest

/-- What an expression is at an index, through its dereferences. -/
def indexThrough (base : ExprId) (baseTy index : Ty) : Infer Ty := do
  let steps ← derefSequence baseTy
  match ← indexFrom index none 0 steps with
  | some (output, derefs) =>
    if derefs > 0 then
      adjust base (derefsTo steps derefs)
    return output
  | none => return .unknown

/-- An index that is a reference is borrowed. -/
def borrowIndex (idx : ExprId) (index : Ty) : Infer Unit := do
  if let .ref .. := index then
    adjust idx [.borrowRef index .erased .shared]

def index (v : Visitor) (base idx : ExprId) : Walk Ty := do
  let baseTy ← v.free base
  let indexTy ← resolve (← v.free idx)
  borrowIndex idx indexTy
  indexThrough base baseTy indexTy

/-! ## Ranges -/

/-- The common type of the ends of a range. -/
def rangeEnds : Option Ty → Option Ty → Infer (Option Ty)
  | some a, some b => do return some (← join [a, b])
  | a, b => return a.or b

def range (v : Visitor) (id : ExprId) (lhs rhs : Option ExprId) : Walk Ty := do
  let scope ← read
  let lhsTy ← lhs.mapM v.free
  let rhsTy ← rhs.mapM v.free
  let ends ← rangeEnds lhsTy rhsTy
  let adt := (← scope.body.expr id).rangeKind?.bind scope.known.range
  wellKnownTy adt ends.toList

end TypeInference.Walk
