import TypeInference.Infer.Fulfill

/-!
# Using declarations

Each use of a generic declaration gets fresh variables for its parameters, and its where-clauses
become obligations on them. Arguments written at the use pin the variables down.
-/

namespace TypeInference

/-! ## The types of functions -/

/-- A future of `output`, unknown when there is no such trait. -/
def futureTy (known : WellKnown) (output : Ty) : Ty :=
  match known.future with
  | some future => .existential none [⟨future, [], [⟨"Output", output⟩]⟩]
  | none => .unknown

/-- A generator, unknown when there is no such trait. -/
def generatorTy (known : WellKnown) (yielded ret : Ty) : Ty :=
  match known.generator with
  | some generator => .existential none [⟨generator, [], [⟨"Yield", yielded⟩, ⟨"Return", ret⟩]⟩]
  | none => .unknown

namespace Function

def outputTy (fn : Function) (known : WellKnown) : Ty :=
  if fn.isAsync then futureTy known fn.ret else fn.ret

/-- The function as a value, the self parameter first. -/
def valueTy (fn : Function) (known : WellKnown) : Ty :=
  let self := fn.selfParam.map (·.ty (.param .self))
  .fn (self.toList ++ fn.params) (fn.outputTy known)

/-- The parameter types seen from inside the body, the self parameter first. -/
def bodyParams (fn : Function) (self : Option Ty) : List Ty :=
  let self := fn.selfParam.map (·.ty (self.getD (.param .self)))
  self.toList ++ fn.params

end Function

/-- The signature that a bound on a callable trait describes. -/
def Bound.signature? (known : WellKnown) (b : Bound) : Option Signature :=
  if known.isFnTrait b.trait then
    match b.args with
    | .tuple params :: _ => some ⟨params, (b.assocTy? "Output").getD .unit⟩
    | _ => none
  else
    none

namespace Infer

def registerBounds (generics : Generics) (subst : Subst) : Infer Unit := do
  register (← instantiateBounds generics.bounds subst 0)

/-- Fresh variables for the parameters of a declaration, with its where-clauses registered. `Self`
is `self` where that is given. -/
def instantiate (generics : Generics) (self : Option Ty) : Infer Subst := do
  let fresh ← freshSubst generics
  let subst := match self with
    | some self => fresh.insert .self self
    | none => fresh
  registerBounds generics subst
  return subst

/-- Whether an explicit argument says anything. -/
def isInformative (p : ParamId) : Ty → Bool
  | .param _ | .unknown => false
  | _ => p ≠ .self

/-- Pins variables to the arguments written at a use, one after the other; one that does not fit is
passed over. In which order is left open, and matters only where variables are tied together. -/
def pin (explicit vars : Subst) : Infer Unit :=
  explicit.entries.reverse.forM fun (p, ty) => do
    if isInformative p ty then
      if let some var := vars.get? p then
        unify var ty

/-! ## Functions -/

/-- The trait function that stands for several functions of one name, when all belong to one
trait. -/
def collapse? (items : Items) : List FnId → Except Fault (Option FnId)
  | first :: second :: rest => do
    let some trait ← items.traitOf first | return none
    if ← (second :: rest).allM fun fn => do return (← items.traitOf fn) = some trait then
      items.traitMethod trait (← items.function first).name
    else
      return none
  | _ => return none

/-- The substitution for what surrounds a function: its impl, or its trait and `Self`. -/
def instantiateOwner (expr : ExprId) (fn : Function) (explicit : Subst) : Infer Subst := do
  let items := (← read).items
  match fn.owner with
  | .free => return .empty
  | .impl id =>
    let impl ← items.impl id
    let subst ← instantiate impl.generics none
    let self := subst.apply impl.self
    if let some explicitSelf := explicit.get? .self then
      unify self explicitSelf
    return subst.insert .self self
  | .trait id =>
    let self ← match explicit.get? .self with
      | some self => pure self
      | none => freshTy
    let generics := (← items.trait id).generics
    let subst ← instantiate generics (some self)
    let goal : TraitRef := ⟨self, id, subst.applyList generics.paramTys⟩
    register [.ofTrait 0 goal]
    refinePathLater expr goal
    return subst

def instantiateFn (expr : ExprId) (id : FnId) (explicit : Subst) : Infer Ty := do
  let fn ← (← read).items.function id
  let outer ← instantiateOwner expr fn explicit
  let own ← freshSubst fn.generics
  let subst := outer.union own
  registerBounds fn.generics subst
  pin explicit subst
  normalized (subst.apply (fn.valueTy (← read).known))

/-- What the several uses of a path agree on at one position of their parameters, a fresh variable
where they differ. -/
def agreedArg (args : List Ty) : Infer (Option Ty) := do
  match args with
  | [] => return none
  | first :: rest => if rest.all (· == first) then return some first else return some (← freshTy)

/-- The arguments given to the `i`-th parameter of the functions that a path resolved to. -/
def argsAt (items : Items) (i : Nat) (uses : List (FnId × PathResolution)) :
    Except Fault (List Ty) := do
  let args ← uses.mapM fun (id, use) => do
    return (← items.function id).generics.params[i]?.bind use.subst.get?
  return args.filterMap id

/-- The explicit arguments of the trait function that stands for several resolutions. `Self` comes
from the first of them. -/
def collapsedArgs (fn : FnId) (uses : List (FnId × PathResolution)) : Infer Subst := do
  let items := (← read).items
  let params := (← items.function fn).generics.params
  let subst ← params.zipIdx.foldlM (fun subst (p, i) => do
    match ← agreedArg (← argsAt items i uses) with
    | some ty => return subst.insert p ty
    | none => return subst) Subst.empty
  match uses.head?.bind (·.2.subst.get? .self) with
  | some self => return subst.insert .self self
  | none => return subst

/-! ## Structs and variants -/

/-- A struct or enum with fresh arguments, pinned to the explicit ones. -/
def instantiateAdt (id : AdtId) (explicit : Subst) : Infer (Adt × Subst × List Ty) := do
  let adt ← (← read).items.adt id
  let subst ← instantiate adt.generics none
  pin explicit subst
  return (adt, subst, subst.applyList adt.generics.paramTys)

/-- A struct or variant used as a value: a function from its fields if it is tuple-like. -/
def instantiateCtor (variant : VariantRef) (explicit : Subst) : Infer Ty := do
  let (adt, subst, args) ← instantiateAdt variant.adt explicit
  match adt.shape? variant with
  | some (.tuple fields) => normalized (.fn (subst.applyList fields) (.adt variant.adt args))
  | _ => normalized (.adt variant.adt args)

/-- A well-known struct or enum, unknown when it is absent. Missing arguments are unknown and extra
ones are dropped. -/
def wellKnownTy (id : Option AdtId) (args : List Ty) : Infer Ty := do
  let some id := id | return .unknown
  let arity := (← (← read).items.adt id).generics.params.length
  return .adt id ((args ++ List.replicate (arity - args.length) Ty.unknown).take arity)

end Infer

end TypeInference
