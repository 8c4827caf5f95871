import TypeInference.Walk.Control

/-!
# Closures

The type of a closure is a plain function type. What its parameters and its result are comes from
annotations, or else from what is expected of it: a function type, a bound on a callable trait, or
the pending obligations on the variable that the closure is about to be unified with.
-/

namespace TypeInference.Walk

open Infer

/-! ## Expected signatures -/

/-- What the obligations seen so far say about a callable. -/
structure SignatureClues where
  params : Option (List Ty) := none
  ret : Option Ty := none

/-- Adds what one predicate says about the callable `var`. -/
def SignatureClues.add (known : WellKnown) (var : Ty) (clues : SignatureClues) :
    Predicate → Infer SignatureClues
  | .trait goal => do
    if known.isFnTrait goal.trait && clues.params.isNone then
      if (← head goal.self) == var then
        match ← goal.args.head?.mapM resolve with
        | some (.tuple params) => return { clues with params := some params }
        | _ => return clues
    return clues
  | .projection p ty => do
    if known.isFnTrait p.traitRef.trait && p.name = "Output" && clues.ret.isNone then
      if (← head p.self) == var then
        return { clues with ret := some ty }
    return clues

/-- The signature that the pending obligations on a variable describe. -/
def pendingSignature? (var : Ty) : Infer (Option Signature) := do
  let known := (← read).known
  let var ← head var
  let clues ← (← get).pending.foldlM
    (fun (clues : SignatureClues) o => clues.add known var o.predicate) {}
  return clues.params.map fun params => ⟨params, clues.ret.getD .unknown⟩

/-- The signature that is expected of a closure. -/
def expectedSignature? : Option Ty → Infer (Option Signature)
  | some (.fn params ret) => return some ⟨params, ret⟩
  | some (.dyn bound) => do return bound.signature? (← read).known
  | some (.existential _ bounds) => do
    let known := (← read).known
    return bounds.findSome? (·.signature? known)
  | some (.var (.ty v)) => pendingSignature? (.var (.ty v))
  | _ => return none

/-! ## Closures -/

/-- The type of a parameter: as annotated, or else as expected. -/
def closureParam (v : Visitor) (expected : Signature) (param : ClosureParam) (i : Nat) :
    Walk Ty := do
  let ty ← match param.ty with
    | some annotated => liftInfer (normalized annotated)
    | none => pure (expected.params[i]?.getD .unknown)
  v.bindPat param.pat ty
  return ty

/-- The result type of a closure and whether it is a fresh variable. -/
def closureRet (declared : Option Ty) (expected : Signature) : Infer (Ty × Bool) := do
  match declared with
  | some annotated => return (← normalized annotated, false)
  | none =>
    if expected.ret.isUnknown then return (← freshTy, true) else return (expected.ret, false)

/-- The unit type in place of a variable that nothing was unified with. -/
def unitUnlessAffected (ty : Ty) : Infer Ty := do
  match ty.asTyVar? with
  | some var => if ← isAffected var then return ty else return .unit
  | none => return ty

def closure (v : Visitor) (params : List ClosureParam) (ret : Option Ty) (body : ExprId)
    (isAsync : Bool) (expected : Option Ty) : Walk Ty := do
  let known := (← read).known
  let sig := (← expectedSignature? expected).getD (.ofArity params.length)
  let paramTys ← params.zipIdx.mapM fun (param, i) => closureParam v sig param i
  let (retTy, isFresh) ← closureRet ret sig
  let (_, inner) ← inside (.body retTy) (root v body)
  let retTy ← if isFresh then liftInfer (unitUnlessAffected retTy) else pure retTy
  match inner.yieldTy with
  | some yieldTy => return generatorTy known (← unitUnlessAffected yieldTy) retTy
  | none => return .fn paramTys (if isAsync then futureTy known retTy else retTy)

end TypeInference.Walk
