import TypeInference.Walk.Basic

/-!
# Fallible, asynchronous and generating code

`?` and `.await` read the associated types of the traits behind them, where the type at hand does
not tell directly. `async` and `try` blocks are the place that `?` inside them propagates to.
-/

namespace TypeInference.Walk

open Infer

/-- The associated type `name` of `ty : trait`, with its obligations registered. -/
def assocOf (ty : Ty) (trait : TraitId) (name : String) : Infer Ty :=
  projected ⟨⟨ty, trait, []⟩, name⟩

/-- What `?` extracts from a type: the value, and the error it may propagate. -/
def fallibleParts (base : Ty) : Infer (Option Ty × Option Ty) := do
  let known := (← read).known
  let throughTrait : Infer (Option Ty × Option Ty) := do
    match known.fallible with
    | some trait =>
      let ok ← assocOf base trait "Ok"
      let error ← assocOf base trait "Error"
      return (some ok, some error)
    | none => return (none, none)
  match base with
  | .adt id args =>
    if known.option = some id then return (args.head?, none)
    else if known.result = some id then return (args.head?, args[1]?)
    else throughTrait
  | .unknown | .var (.ty _) => return (none, none)
  | _ => throughTrait

/-- The value of `base?`. An error must be accepted by the place it propagates to. -/
def questionOutput (base : Ty) : Walk Ty := do
  let base ← resolveSettled base
  let (ok, error) ← fallibleParts base
  if let (some error, some trait) := (error, (← read).known.fallible) then
    unless error.isUnknown do
      register [.ofProjection 0 ⟨⟨(← jumps).tryTy, trait, []⟩, "Error"⟩ error]
  return ok.getD .unknown

def awaitOutput (base : Ty) : Walk Ty := do
  let some future := (← read).known.future | return .unknown
  let base ← resolveSettled base
  match base with
  | .existential _ bounds =>
    let output := (bounds.find? (·.trait = future)).bind (·.assocTy? "Output")
    return output.getD .unknown
  | .unknown | .var (.ty _) => return .unknown
  | _ => assocOf base future "Output"

/-- `yield`: the first value fixes what is yielded, and later ones convert to it. -/
def yieldValue (v : Visitor) (value : Option ExprId) : Walk Ty := do
  match (← jumps).yieldTy, value with
  | some ty, some value => discard (v.coerced value ty)
  | none, some value =>
    setYielded (← v.free value)
  | none, none =>
    setYielded (← freshTy)
  | some _, none => pure ()
  return .unit

end TypeInference.Walk
