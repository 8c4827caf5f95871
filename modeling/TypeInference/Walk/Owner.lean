import TypeInference.Infer.Finish
import TypeInference.Walk.Control

/-!
# Whole bodies

What is expected of the root of a body depends on the item it belongs to: a function gives its
parameters to the patterns and its return type to the root, a constant its declared type, an array
length is a `usize`, and a discriminant has the representation of its enum.
-/

namespace TypeInference.Walk

open Infer

def functionBody (v : Visitor) (id : FnId) : Walk Unit := do
  let scope ← read
  let fn ← scope.items.function id
  let self ← scope.items.selfTy fn.owner
  let params ← normalizedList (fn.bodyParams self)
  let ret ← normalized fn.ret
  discard <| inside (.body ret) do
    scope.body.params.zipIdx.forM fun (pat, i) => v.bindPat pat (params[i]?.getD .unknown)
    root v scope.body.root

/-- The type of the value that is not a function's. -/
def valueTy (owner : Owner) : Infer Ty := do
  let items := (← read).items
  match owner with
  | .const id =>
    match (← items.const id).ty with
    | some ty => normalized ty
    | none => freshTy
  | .discriminant adt _ => return .int ((← items.adt adt).repr.getD .isize)
  | .arrayLen _ | .function _ => return .int .usize

/-- Walks a body and finishes its types. -/
def wholeBody (v : Visitor) : Walk Outcome := do
  let scope ← read
  match scope.owner with
  | .function id => functionBody v id
  | owner =>
    let ty ← valueTy owner
    discard (inside (.body ty) (v.coerced scope.body.root ty))
  finish

end TypeInference.Walk
