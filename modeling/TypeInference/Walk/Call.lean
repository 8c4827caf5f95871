import TypeInference.Infer.Method
import TypeInference.Walk.Basic

/-!
# Calls and fields

Arguments are walked in two passes, closures last, so that a closure sees what the other arguments
say about the parameters.
-/

namespace TypeInference

/-- The signature by which a value of a resolved type can be called. -/
def Scope.signature? (scope : Scope) : Ty → Option Signature
  | .fn params ret => some ⟨params, ret⟩
  | .dyn bound => bound.signature? scope.known
  | .existential _ bounds => bounds.findSome? (·.signature? scope.known)
  | .param id => (scope.env.boundsFor (.param id)).findSome? (·.signature? scope.known)
  | .ref inner _ _ => scope.signature? inner
  | _ => none

namespace Walk

open Infer

/-! ## Arguments -/

/-- Walks the arguments that are closures, or those that are not. -/
def argumentsThat (v : Visitor) (areClosures : Bool) (params : List Ty) (args : List ExprId) :
    Walk Unit := do
  let body := (← read).body
  args.zipIdx.forM fun (arg, i) => do
    if (← body.isClosure arg) = areClosures then
      let param ← resolve (params[i]?.getD .unknown)
      discard (v.coerced arg param)

def arguments (v : Visitor) (params : List Ty) (args : List ExprId) : Walk Unit := do
  argumentsThat v false params args
  settlePending
  argumentsThat v true params args

/-! ## Calls -/

/-- Whether a callee is a struct or variant without fields, which is already the value. -/
def isFieldlessCtor (callee : ExprId) : Infer Bool := do
  let items := (← read).items
  let isUnit (variant : VariantRef) : Infer Bool := do
    return ((← items.adt variant.adt).shape? variant).any (·.isUnit)
  match ← pathOf callee with
  | [.struct adt] => isUnit (.struct adt)
  | [.variant adt i] => isUnit (.enumVariant adt i)
  | _ => return false

def call (v : Visitor) (callee : ExprId) (args : List ExprId) (expected : Option Ty) :
    Walk Ty := do
  let calleeTy ← resolveSettled (← v.free callee)
  if ← isFieldlessCtor callee then
    args.forM fun arg => discard (v.free arg)
    return calleeTy
  let sig := ((← read).signature? calleeTy).getD (.ofArity args.length)
  expected.forM fun ty => liftInfer (unify ty sig.ret)
  arguments v sig.params args
  return sig.ret

def callMethod (v : Visitor) (id receiver : ExprId) (steps : List Ty) (c : Candidate)
    (genericArgs : List Ty) (args : List ExprId) (expected : Option Ty) : Walk Ty := do
  let sig ← instantiateMethod id c genericArgs
  let fn ← (← read).items.function c.fn
  unless fn.isAsync do
    expected.forM fun ty => liftInfer (unify ty sig.ret)
  fn.selfParam.forM fun param => liftInfer (adjustReceiver receiver steps (param.ty c.self))
  arguments v sig.params args
  return sig.ret

/-- A method call. If no candidate is singled out, all are recorded and the first is called. -/
def methodCall (v : Visitor) (id receiver : ExprId) (method : String) (genericArgs : List Ty)
    (args : List ExprId) (expected : Option Ty) : Walk Ty := do
  let receiverTy ← resolveSettled (← v.free receiver)
  let steps ← derefSequence receiverTy
  let found ← candidates steps method
  let recorded := match ← pick steps found with
    | some only => [only]
    | none => found
  writeMethods id (recorded.map (·.resolution))
  match recorded with
  | c :: _ => callMethod v id receiver steps c genericArgs args expected
  | [] =>
    arguments v [] args
    return .unknown

/-! ## Fields -/

def shapeField? (shape : Shape) : FieldName → Option (Nat × Ty)
  | .named name => shape.field? name
  | .index i => (shape.tupleField? i).map (i, ·)

/-- The field a type has by itself. -/
def ownField? (items : Items) (name : FieldName) : Ty → Except Fault (Option (FieldResolution × Ty))
  | .adt id args => do
    let adt ← items.adt id
    match adt.kind with
    | .struct shape =>
      return (shapeField? shape name).map fun (i, ty) =>
        let subst := Subst.ofPairs (adt.generics.params.zip args)
        (.field (.struct id) i, subst.apply ty)
    | .enum _ => return none
  | .tuple elems =>
    match name with
    | .index i => return elems[i]?.map fun ty => (.tupleIndex i, ty)
    | .named _ => return none
  | _ => return none

/-- The first step of a dereference sequence that has the field. -/
def fieldFrom (items : Items) (name : FieldName) :
    Nat → List Ty → Except Fault (Option (Nat × FieldResolution × Ty))
  | _, [] => return none
  | depth, step :: rest => do
    match ← ownField? items name step with
    | some (resolution, ty) => return some (depth, resolution, ty)
    | none => fieldFrom items name (depth + 1) rest

def field (v : Visitor) (id receiver : ExprId) (name : FieldName) : Walk Ty := do
  let steps ← derefSequence (← v.free receiver)
  match ← fieldFrom (← read).items name 0 steps with
  | some (depth, resolution, ty) =>
    if depth > 0 then
      adjust receiver (derefsTo steps depth)
    writeFields id [resolution]
    normalized ty
  | none =>
    writeFields id []
    return .unknown

end Walk

end TypeInference
