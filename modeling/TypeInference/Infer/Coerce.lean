import TypeInference.Infer.Deref

/-!
# Coercions

Where a value meets a slot of a known type it may be converted: a reference to an array becomes
one to a slice, a reference becomes a raw pointer, a mutable pointer becomes a constant one, and a
reference is reborrowed through the dereferences of its pointee. Otherwise the two types are
unified.
-/

namespace TypeInference.Infer

/-- A mutable borrow serves as a shared one, not the other way round. -/
def borrowServes (source target : Mutability) : Bool :=
  source = target || (source = .mut && target = .shared)

/-- Reborrows through the steps of a dereference sequence, from position `depth` on. The first step
that fits wins; the pointee itself needs no conversion. -/
def reborrowFrom (expr : ExprId) (seq : List Ty) (target : Ty) (mutability : Mutability) :
    Nat → List Ty → Infer Bool
  | _, [] => return false
  | depth, step :: rest => do
    let borrowed := Ty.reference step mutability
    if ← combineIfOk borrowed (.reference target mutability) then
      if depth > 1 then
        adjust expr (derefsTo seq depth ++ [.borrowRef borrowed .erased mutability])
      return true
    else
      reborrowFrom expr seq target mutability (depth + 1) rest

def reborrow (expr : ExprId) (source target : Ty) (mutability : Mutability) : Infer Bool := do
  let seq ← derefSequence source
  reborrowFrom expr seq target mutability 1 (seq.drop 1)

/-- Converts the value of an expression, silently. -/
def tryCoerce (expr : ExprId) (source target : Ty) : Infer Bool := do
  let source ← head source
  let target ← head target
  match source, target with
  | .ref s m _, .ref t n _ =>
    if borrowServes m n then
      match ← head s, ← head t with
      | .array elem _, .slice sliceElem => combine elem sliceElem
      | _, t => reborrow expr source t n
    else
      combine source target
  | .ref s m _, .ptr t n =>
    if borrowServes m n then
      let ok ← combine s t
      if ok then
        adjust expr [.borrowPtr target n]
      return ok
    else
      combine source target
  | .ptr s .mut, .ptr t .shared => combine s t
  | _, _ => combine source target

/-- Converts the value of an expression and reports a mismatch if that fails. -/
def coerce (expr : ExprId) (source target : Ty) : Infer Bool := do
  let source ← resolveSettled source
  let target ← resolveSettled target
  let ok ← tryCoerce expr source target
  unless ok do reportMismatch (.expr expr) target source
  return ok

end TypeInference.Infer
