import TypeInference.Infer.Fulfill

/-!
# Dereferencing

References, raw pointers and boxes can be dereferenced by the language, other types through the
`Target` of the `Deref` trait.
-/

namespace TypeInference.Infer

/-- The target of a type's `Deref`, where that is known to be something definite. -/
def derefThroughTrait (t : Ty) : Infer (Option Ty) := do
  let some trait := (← read).known.deref | return none
  let some result ← normalize? ⟨⟨t, trait, []⟩, "Target"⟩ 0 | return none
  match result.value with
  | .unknown | .projection .. => return none
  | target =>
    register result.obligations
    return some target

/-- One dereference of a type. -/
def deref (t : Ty) : Infer (Option Ty) := do
  match t with
  | .ref pointee .. => return some pointee
  | .ptr pointee _ => return some pointee
  | .adt id args =>
    if (← read).known.boxed = some id then return args.head? else derefThroughTrait t
  | .var _ | .unknown | .never => return none
  | _ => derefThroughTrait t

/-- One step of automatic dereferencing, which does not follow raw pointers. -/
def autoderef (t : Ty) : Infer (Option Ty) := do
  match t with
  | .ptr .. => return none
  | _ =>
    match ← deref t with
    | some target => return some (← resolveSettled target)
    | none => return none

/-- Continues a sequence of dereferences with `t`, for at most `room` more steps and up to a type
that is in it already. -/
def derefFrom : Nat → List Ty → Ty → Infer (List Ty)
  | 0, seq, _ => return seq
  | room + 1, seq, t => do
    if seq.any (· == t) then
      return seq
    match ← autoderef t with
    | some target => derefFrom room (seq ++ [t]) target
    | none => return seq ++ [t]

/-- A type and its successive dereferences. A final array is followed by its slice. -/
def derefSequence (t : Ty) : Infer (List Ty) := do
  let t ← resolveSettled t
  let seq ← derefFrom (← read).config.autoderefLimit [] t
  match seq.getLast? with
  | some (.array elem _) => return seq ++ [.slice elem]
  | _ => return seq

/-- The dereferences that lead to position `depth` of a sequence, as conversions. -/
def derefsTo (seq : List Ty) (depth : Nat) : List Adjustment :=
  ((seq.take (depth + 1)).drop 1).map .deref

end TypeInference.Infer
