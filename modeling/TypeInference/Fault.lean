/-!
# Faults

Inference is tolerant: whatever it cannot determine becomes an unknown type. A *fault* is the
one thing it does not tolerate, an ill-formed input: an identifier that names nothing, an
expression reached twice, a text range that ends before it starts, obligations nested deeper than
can be counted. A fault abandons the body (or the query) that met it.

Three recursions follow references whose chains the input decides: the nodes of a body, the
associated types of impls, the rounds of the obligation queue. They carry an explicit bound on
their length; reaching it is the separate fault `Fault.exhausted`, so that it is never confused
with a verdict.
-/

namespace TypeInference

/-- The kinds of things an identifier can name. -/
inductive Entity where
  | adt
  | function
  | trait
  | impl
  | const
  | expr
  | pat
  | variable
deriving DecidableEq, Repr

/-- Why a computation was abandoned. -/
inductive Fault where
  /-- Number `index` names no thing of kind `entity`. -/
  | dangling (entity : Entity) (index : Nat)
  /-- The type of expression `expr` was recorded a second time. -/
  | writtenTwice (expr : Nat)
  /-- A text range ends before it starts. -/
  | reversedRange (start stop : Nat)
  /-- An obligation arose below the deepest level there is. -/
  | tooDeep
  /-- A bounded recursion reached its bound. -/
  | exhausted
deriving DecidableEq, Repr

namespace Fault

/-- The wording of the one fault that is explained to the user. -/
def message? : Fault → Option String
  | .writtenTwice expr =>
    some s!"type of ExprId({expr}) written twice; the body was walked twice"
  | _ => none

end Fault

/-- The entry of `xs` at `index`, or the fault that names it. -/
def entry {α : Type} (entity : Entity) (xs : Array α) (index : Nat) : Except Fault α :=
  match xs[index]? with
  | some x => .ok x
  | none => .error (.dangling entity index)

end TypeInference
