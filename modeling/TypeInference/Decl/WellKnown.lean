import TypeInference.Ty.Basic

/-!
# Well-known declarations

Operators, ranges, formatting, `?`, `.await`, loops and closures are typed in terms of a few
declarations of the standard library. Each may be absent, and then the expressions that need it
have an unknown type.
-/

namespace TypeInference

/-- Operators that go through a trait when their operands are not built-in scalars. -/
inductive ArithOp where
  | add | sub | mul | div | rem | bitAnd | bitOr | bitXor | shl | shr
deriving DecidableEq, Repr

/-- The forms of range expressions. -/
inductive RangeKind where
  /-- `..` -/
  | full
  /-- `a..` -/
  | from
  /-- `..b` -/
  | to
  /-- `a..b` -/
  | exclusive
  /-- `a..=b` -/
  | inclusive
  /-- `..=b` -/
  | toInclusive
deriving DecidableEq, Repr

structure WellKnown where
  option : Option AdtId := none
  result : Option AdtId := none
  vec : Option AdtId := none
  boxed : Option AdtId := none
  string : Option AdtId := none
  arguments : Option AdtId := none
  /-- The struct that each form of range builds. -/
  range : RangeKind → Option AdtId := fun _ => none
  future : Option TraitId := none
  generator : Option TraitId := none
  fallible : Option TraitId := none
  deref : Option TraitId := none
  index : Option TraitId := none
  intoIterator : Option TraitId := none
  /-- The traits of callable values: one argument, the tuple of parameters. -/
  fnTraits : List TraitId := []
  partialEq : Option TraitId := none
  partialOrd : Option TraitId := none
  arith : ArithOp → Option TraitId := fun _ => none
  arithAssign : ArithOp → Option TraitId := fun _ => none

namespace WellKnown

instance : Inhabited WellKnown := ⟨{}⟩

/-- Whether `adt` is the struct of some form of range. -/
def isRange (known : WellKnown) (adt : AdtId) : Bool :=
  [RangeKind.full, .from, .to, .exclusive, .inclusive, .toInclusive].any fun kind =>
    known.range kind = some adt

def isFnTrait (known : WellKnown) (trait : TraitId) : Bool :=
  known.fnTraits.contains trait

def setArith (known : WellKnown) (op : ArithOp) (trait : TraitId) : WellKnown :=
  { known with arith := fun o => if o = op then some trait else known.arith o }

def setArithAssign (known : WellKnown) (op : ArithOp) (trait : TraitId) : WellKnown :=
  { known with arithAssign := fun o => if o = op then some trait else known.arithAssign o }

end WellKnown

end TypeInference
