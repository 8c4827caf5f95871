import TypeInference.Vars.Basic

/-!
# Unification

`combine` makes two types equal where that is possible, by binding and merging variables. It
answers whether it succeeded and is tolerant otherwise:

* when a component fails, its siblings are still combined, so that their variables get bound;
* a variable that would occur in its own value is bound to the unknown type instead;
* the type of expressions that never finish goes with every type.

Failure leaves the bindings made on the way. `combineIfOk` takes them back and `canCombine` always
does.

What becomes of a variable that would occur in its own value is the parameter `onCycle` of
everything below `combine`, so that the same unification can also be run strictly.

Two types are compared level by level, and the variables met on the way are replaced by their
values. The recursion is on the first type; a variable in it is followed into its value. On the way
down to a leaf each class of variables is entered at most once, so the number of variables bounds
how many are followed.
-/

namespace TypeInference

abbrev VarM := StateT Vars (Except Fault)

namespace Vars

section

variable (onCycle : Except Fault Ty)

/-! ## Variables -/

/-- Binds the class of a general variable, or merges it with that of another. A variable that would
occur in its own value gets the value `onCycle`. -/
def combineTyVar (v : Nat) (t : Ty) : VarM Unit := do
  let vs ← get
  match t with
  | .var (.ty w) => set { vs with tys := ← vs.tys.union v w }
  | _ =>
    let root ← vs.tys.root v
    let value ← if ← vs.occursIn root t then onCycle else pure t
    set { vs with tys := ← vs.tys.bind root value }

/-- Binds an unbound integer variable. It takes integer types and variables, and nothing else but
the type that goes with everything. -/
def combineIntVar (v : Nat) (t : Ty) : VarM Bool := do
  let vs ← get
  match t with
  | .var (.int w) =>
    set { vs with ints := ← vs.ints.union v w }
    return true
  | .int kind =>
    set { vs with ints := ← vs.ints.bind v kind }
    return true
  | t => return t.isNever

/-- Binds an unbound float variable, likewise. -/
def combineFloatVar (v : Nat) (t : Ty) : VarM Bool := do
  let vs ← get
  match t with
  | .var (.float w) =>
    set { vs with floats := ← vs.floats.union v w }
    return true
  | .float kind =>
    set { vs with floats := ← vs.floats.bind v kind }
    return true
  | t => return t.isNever

/-- Makes an open variable and a resolved type equal. A general variable takes a numeric one as its
value, on whichever side it stands. -/
def combineVar : Var → Ty → VarM Bool
  | .ty v, t => do
    combineTyVar onCycle v t
    return true
  | .int v, .var (.ty w) => do
    combineTyVar onCycle w (.var (.int v))
    return true
  | .float v, .var (.ty w) => do
    combineTyVar onCycle w (.var (.float v))
    return true
  | .int v, t => combineIntVar v t
  | .float v, t => combineFloatVar v t

/-! ## Types -/

/-- Whether two array lengths can be the same; an unknown length goes with any. -/
def lengthsAgree : Option Nat → Option Nat → Bool
  | some a, some b => a = b
  | _, _ => true

/-- Combines `a`, which is not a variable, with `b`. When `b` is not an open variable and nothing is
settled at this level, `inside` combines the components of `a` with what `b` resolves to. -/
def combineWith (a b : Ty) (inside : Ty → VarM Bool) : VarM Bool := do
  match ← (← get).head b with
  | .var v => combineVar onCycle v a
  | b => if a == b || a.isNever || b.isNever then return true else inside b

mutual

/-- Combines two types. Variables of the first are left to `follow`. -/
def combineBy (follow : Var → Ty → VarM Bool) : Ty → Ty → VarM Bool
  | .var v, b => follow v b
  | .ref a m r, b => combineWith onCycle (.ref a m r) b fun
    | .ref b n _ => if m = n then combineBy follow a b else pure false
    | _ => pure false
  | .ptr a m, b => combineWith onCycle (.ptr a m) b fun
    | .ptr b n => if m = n then combineBy follow a b else pure false
    | _ => pure false
  | .array a m, b => combineWith onCycle (.array a m) b fun
    | .array b n => if lengthsAgree m n then combineBy follow a b else pure false
    | _ => pure false
  | .slice a, b => combineWith onCycle (.slice a) b fun
    | .slice b => combineBy follow a b
    | _ => pure false
  | .tuple as, b => combineWith onCycle (.tuple as) b fun
    | .tuple bs => if as.length = bs.length then combineListBy follow as bs else pure false
    | _ => pure false
  | .fn as a, b => combineWith onCycle (.fn as a) b fun
    | .fn bs b => do
      if as.length = bs.length then
        if ← combineListBy follow as bs then combineBy follow a b else return false
      else
        return false
    | _ => pure false
  | .adt i as, b => combineWith onCycle (.adt i as) b fun
    | .adt j bs =>
      if i = j ∧ as.length = bs.length then combineListBy follow as bs else pure false
    | _ => pure false
  | .dyn a, b => combineWith onCycle (.dyn a) b fun
    | .dyn b => pure (a.trait = b.trait)
    | _ => pure false
  | .existential c bounds, b => combineWith onCycle (.existential c bounds) b fun
    | .existential d _ => pure (c.isSome && c = d)
    | _ => pure false
  | a, b => combineWith onCycle a b fun _ => pure false

/-- Combines types pairwise, going on after a failure. Extra types of the longer list are left. -/
def combineListBy (follow : Var → Ty → VarM Bool) : List Ty → List Ty → VarM Bool
  | a :: as, b :: bs => do
    let ok ← combineBy follow a b
    return (← combineListBy follow as bs) && ok
  | _, _ => pure true

end

/-- Combines a variable with a type, following at most `n` variables on the way down. -/
def followWithin : Nat → Var → Ty → VarM Bool
  | 0, _, _ => throw .exhausted
  | n + 1, v, b => do
    let vs ← get
    match ← vs.head (.var v) with
    | .var root => combineVar onCycle root (← vs.head b)
    | a => combineBy onCycle (followWithin n) a b

def follow (v : Var) (b : Ty) : VarM Bool := do
  followWithin onCycle ((← get).tys.size + 1) v b

/-- Makes two types equal if possible, with `onCycle` for variables that would occur in their own
value. -/
def combineOr (a b : Ty) : VarM Bool :=
  combineBy onCycle (follow onCycle) a b

end

/-! ## The operations -/

def combine (a b : Ty) : VarM Bool :=
  combineOr (pure .unknown) a b

def combinePairs (as bs : List Ty) : VarM Bool :=
  combineListBy (pure .unknown) (follow (pure .unknown)) as bs

/-- Combines two trait references: self types first, then arguments. -/
def combineTraitRefs (a b : TraitRef) : VarM Bool := do
  if a.trait = b.trait ∧ a.args.length = b.args.length then
    if ← combine a.self b.self then combinePairs a.args b.args else return false
  else
    return false

end Vars

end TypeInference
