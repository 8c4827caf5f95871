import TypeInference.Ty.Traversal
import TypeInference.Vars.Table

/-!
# Inference variables

`Vars` holds one table for each kind of variable: general variables stand for any type, integer
and float variables for a type of their kind.

*Resolving* a type replaces its variables by what is known of them. Values are stored as they were
when they were found, so resolution follows them from variable to variable. A chain of bound
variables visits each class at most once as long as no class occurs in its own value; the bound on
the recursion is the number of variables, and a chain that exceeded it would be the fault
`Fault.exhausted`.
-/

namespace TypeInference

structure Vars where
  tys : Table Ty
  ints : Table IntTy
  floats : Table FloatTy

namespace Vars

def empty : Vars := ⟨∅, ∅, ∅⟩

instance : EmptyCollection Vars := ⟨empty⟩

instance : Inhabited Vars := ⟨empty⟩

/-! ## New variables -/

def freshTy (vs : Vars) : Ty × Vars :=
  (.var (.ty vs.tys.size), { vs with tys := vs.tys.fresh })

def freshInt (vs : Vars) : Ty × Vars :=
  (.var (.int vs.ints.size), { vs with ints := vs.ints.fresh })

def freshFloat (vs : Vars) : Ty × Vars :=
  (.var (.float vs.floats.size), { vs with floats := vs.floats.fresh })

/-! ## Resolution -/

/-- Replaces a variable by its value, through at most `n` variables, or by the root of its class.
Other types stay. -/
def headWithin (vs : Vars) : Nat → Ty → Except Fault Ty
  | 0, _ => .error .exhausted
  | n + 1, .var (.ty v) => do
    match ← vs.tys.value v with
    | some t => vs.headWithin n t
    | none => return .var (.ty (← vs.tys.root v))
  | _ + 1, .var (.int v) => do
    match ← vs.ints.value v with
    | some kind => return .int kind
    | none => return .var (.int (← vs.ints.root v))
  | _ + 1, .var (.float v) => do
    match ← vs.floats.value v with
    | some kind => return .float kind
    | none => return .var (.float (← vs.floats.root v))
  | _ + 1, t => pure t

/-- Replaces a variable by its value, as long as that is a variable in turn, or by the root of its
class. Other types stay. -/
def head (vs : Vars) (t : Ty) : Except Fault Ty :=
  vs.headWithin (vs.tys.size + 1) t

/-- Replaces a variable by its value, resolved in turn; `openVar` says what an unbound one
becomes. -/
def resolveVar (vs : Vars) (openVar : Var → Ty) : Nat → Var → Except Fault Ty
  | 0, _ => .error .exhausted
  | n + 1, v => do
    match ← vs.head (.var v) with
    | .var root => return openVar root
    | t => t.mapM fun
      | .var v => vs.resolveVar openVar n v
      | t => pure t

def resolveNode (vs : Vars) (openVar : Var → Ty) : Ty → Except Fault Ty
  | .var v => vs.resolveVar openVar (vs.tys.size + 1) v
  | t => pure t

/-- Substitutes every bound variable and leaves the others, each as the root of its class. -/
def resolve (vs : Vars) (t : Ty) : Except Fault Ty :=
  t.mapM (vs.resolveNode .var)

/-- Substitutes every bound variable; the others become unknown. -/
def close (vs : Vars) (t : Ty) : Except Fault Ty :=
  t.mapM (vs.resolveNode fun _ => .unknown)

def resolveTraitRef (vs : Vars) (r : TraitRef) : Except Fault TraitRef :=
  r.mapM (vs.resolveNode .var)

def resolveProjection (vs : Vars) (p : Projection) : Except Fault Projection :=
  p.mapM (vs.resolveNode .var)

/-- Whether a type has variables left once it is resolved. -/
def isOpen (vs : Vars) (t : Ty) : Except Fault Bool := do
  return (← vs.resolve t).hasVar

/-- Whether the general variable `v` was merged into another class or has a value. -/
def isAffected (vs : Vars) (v : Nat) : Except Fault Bool := do
  if (← vs.tys.root v) ≠ v then
    return true
  return (← vs.tys.value v).isSome

/-- Whether a type mentions the class of `root`, looking through at most `n` values on the way. -/
def mentions (vs : Vars) (root : Nat) : Nat → Ty → Except Fault Bool
  | 0, _ => .error .exhausted
  | n + 1, t => t.vars.anyM fun
    | .ty v => do
      if (← vs.tys.root v) = root then
        return true
      match ← vs.tys.value v with
      | some t => vs.mentions root n t
      | none => return false
    | _ => pure false

/-- The occurs check: whether a type mentions the class of `root`. -/
def occursIn (vs : Vars) (root : Nat) (t : Ty) : Except Fault Bool :=
  vs.mentions root (vs.tys.size + 1) t

/-! ## Snapshots -/

structure Mark where
  tys : Nat
  ints : Nat
  floats : Nat

def mark (vs : Vars) : Mark := ⟨vs.tys.mark, vs.ints.mark, vs.floats.mark⟩

def opened (vs : Vars) : Vars := ⟨vs.tys.opened, vs.ints.opened, vs.floats.opened⟩

def rollback (m : Mark) (vs : Vars) : Vars :=
  ⟨vs.tys.rollback m.tys, vs.ints.rollback m.ints, vs.floats.rollback m.floats⟩

def commit (vs : Vars) : Vars := ⟨vs.tys.commit, vs.ints.commit, vs.floats.commit⟩

end Vars

end TypeInference
