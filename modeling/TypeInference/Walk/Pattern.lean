import TypeInference.Walk.Basic

/-!
# Patterns

A pattern that is not written as a reference looks through the references of what it is matched
with, and the plain bindings inside it then bind by reference: `Some(x)` against `&Option<T>`
binds `x : &T`.
-/

namespace TypeInference

/-- The default after looking through one more reference. It never becomes more permissive. -/
def DefaultBinding.through : DefaultBinding → Mutability → DefaultBinding
  | .move, mutability => .ref mutability
  | .ref .mut, mutability => .ref mutability
  | .ref .shared, _ => .ref .shared

/-- The type of a binding to a place of type `ty`. -/
def BindingMode.bindingTy (mode : BindingMode) (default : DefaultBinding) (ty : Ty) : Ty :=
  match mode, default with
  | .byRef mutability, _ => .reference ty mutability
  | .byValue .shared, .ref mutability => .reference ty mutability
  | .byValue _, _ => ty

namespace Walk

open Infer

/-- Whether a pattern looks through references. A string literal is a reference itself. -/
def looksThrough (body : Body) : Pat → Except Fault Bool
  | .tuple _ | .tupleStruct .. | .structPat .. | .path _ | .slice .. | .range .. => return true
  | .lit id => do
    match ← body.expr id with
    | .literal .str | .literal (.byteStr _) => return false
    | _ => return true
  | .missing | .wild | .bind .. | .ref .. | .or _ => return false

/-- What is behind all references of a resolved type, and the default binding there. -/
def peel : Ty → DefaultBinding → Ty × DefaultBinding
  | .ref inner mutability _, default => peel inner (default.through mutability)
  | ty, default => (ty, default)

/-- The shape of the variant that a pattern names, with fresh arguments unified with the type it is
matched with. A pattern of another type is reported. -/
def variantShape (id : PatId) (expected : Ty) : Infer (Option (Shape × Subst)) := do
  match (← read).names.variant? (.pat id) with
  | none => return none
  | some (variant, explicit) =>
    let (adt, subst, args) ← instantiateAdt variant.adt explicit
    let patTy := Ty.adt variant.adt args
    unless ← combine expected patTy do reportMismatch (.pat id) expected patTy
    return (adt.shape? variant).map (·, subst)

/-- The element types for a tuple pattern of `n` parts. -/
def tupleParts (expected : Ty) (n : Nat) : Infer (List Ty) := do
  let unknown := List.replicate n Ty.unknown
  match expected with
  | .tuple elems => return if elems.length = n then elems else unknown
  | .var (.ty _) =>
    let elems ← (List.range n).mapM fun _ => freshTy
    unify expected (.tuple elems)
    return elems
  | _ => return unknown

def refPart (expected : Ty) (mutability : Mutability) : Infer Ty := do
  match expected with
  | .ref pointee .. => return pointee
  | .var (.ty _) =>
    let pointee ← freshTy
    unify expected (.reference pointee mutability)
    return pointee
  | _ => return .unknown

def tupleFields : Option (Shape × Subst) → List Ty
  | some (.tuple fields, subst) => subst.applyList fields
  | _ => []

/-- The type of a field of a variant, unknown for a field that is not declared. -/
def fieldTy (shape : Option (Shape × Subst)) (name : String) : Ty :=
  match shape with
  | some (shape, subst) => ((shape.field? name).map fun (_, ty) => subst.apply ty).getD .unknown
  | none => .unknown

def sliceElem : Ty → Ty
  | .array elem _ => elem
  | .slice elem => elem
  | _ => .unknown

/-- The type of the rest of a slice pattern that names `taken` elements. -/
def sliceRest (expected : Ty) (taken : Nat) : Ty :=
  match expected with
  | .array elem (some len) => .array elem (some (len - taken))
  | .array elem none => .slice elem
  | .slice elem => .slice elem
  | _ => .unknown

def literalPat (v : Visitor) (expected : Ty) (id : ExprId) : Walk Unit := do
  unify expected (← v.expr id (some expected))

/-- Matches a pattern against a type that is resolved and stripped of the references it looks
through. -/
def matchPat (v : Visitor) (id : PatId) (pat : Pat) (expected : Ty) (default : DefaultBinding) :
    Walk Unit := do
  match pat with
  | .missing | .wild => pure ()
  | .bind _ mode sub =>
    writeBinding id (mode.bindingTy default expected)
    sub.forM fun sub => v.pat sub expected default
  | .tuple pats =>
    let elems ← tupleParts expected pats.length
    (pats.zip elems).forM fun (sub, ty) => v.pat sub ty default
  | .tupleStruct _ args =>
    let fields := tupleFields (← variantShape id expected)
    args.zipIdx.forM fun (sub, i) => do
      v.pat sub (← normalized (fields[i]?.getD .unknown)) default
  | .structPat _ fields =>
    let shape ← variantShape id expected
    fields.forM fun (name, sub) => do
      v.pat sub (← normalized (fieldTy shape name)) default
  | .path _ => discard (variantShape id expected)
  | .ref inner mutability => v.pat inner (← refPart expected mutability) .move
  | .lit expr => literalPat v expected expr
  | .range start stop =>
    start.forM (literalPat v expected)
    stop.forM (literalPat v expected)
  | .slice front rest back =>
    (front ++ back).forM fun sub => v.pat sub (sliceElem expected) default
    rest.forM fun sub => v.pat sub (sliceRest expected (front.length + back.length)) default
  | .or alternatives => alternatives.forM fun sub => v.pat sub expected default

/-- Matches a pattern against a type and records the types of its bindings. -/
def pattern (v : Visitor) (id : PatId) (expected : Ty) (default : DefaultBinding) : Walk Unit := do
  let body := (← read).body
  let expected ← resolveSettled expected
  let pat ← body.pat id
  if ← looksThrough body pat then
    let (expected, default) := peel expected default
    matchPat v id pat expected default
  else
    matchPat v id pat expected default

end Walk

end TypeInference
