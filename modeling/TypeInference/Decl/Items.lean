import TypeInference.Decl.Basic
import TypeInference.Fault

/-!
# The registry of declarations

`Items` numbers the declarations of each kind in the order in which they were added. The methods
of an impl or a trait are the functions that name it as their owner, in the order of their
numbers, and likewise the impls of a trait: neither is stored a second time.
-/

namespace TypeInference

structure Items where
  /-- The names of the generic parameters; number zero is `Self`. -/
  paramNames : Array String
  adts : Array Adt
  functions : Array Function
  traits : Array Trait
  impls : Array Impl
  consts : Array Const

namespace Items

def empty : Items := ⟨#["Self"], #[], #[], #[], #[], #[]⟩

instance : Inhabited Items := ⟨empty⟩

/-! ## Access by number -/

def adt (items : Items) (id : AdtId) : Except Fault Adt :=
  entry .adt items.adts id.index

def function (items : Items) (id : FnId) : Except Fault Function :=
  entry .function items.functions id.index

def trait (items : Items) (id : TraitId) : Except Fault Trait :=
  entry .trait items.traits id.index

def impl (items : Items) (id : ImplId) : Except Fault Impl :=
  entry .impl items.impls id.index

def const (items : Items) (id : ConstId) : Except Fault Const :=
  entry .const items.consts id.index

/-! ## Adding declarations -/

def addParam (items : Items) (name : String) : Items :=
  { items with paramNames := items.paramNames.push name }

def addAdt (items : Items) (adt : Adt) : Items :=
  { items with adts := items.adts.push adt }

def addTrait (items : Items) (trait : Trait) : Items :=
  { items with traits := items.traits.push trait }

def addImpl (items : Items) (impl : Impl) : Items :=
  { items with impls := items.impls.push impl }

def addConst (items : Items) (const : Const) : Items :=
  { items with consts := items.consts.push const }

/-- Adds a function; the impl or trait that owns it must be there already. -/
def addFunction (items : Items) (fn : Function) : Except Fault Items := do
  match fn.owner with
  | .free => pure ()
  | .impl id => discard (items.impl id)
  | .trait id => discard (items.trait id)
  return { items with functions := items.functions.push fn }

/-! ## Queries -/

/-- The name of a parameter, or a question mark for an undeclared one. -/
def paramName (items : Items) (id : ParamId) : String :=
  items.paramNames[id.index]?.getD "?"

def traitIds (items : Items) : List TraitId :=
  (List.range items.traits.size).map .mk

def implsWhere (items : Items) (p : Impl → Bool) : List ImplId :=
  (List.range items.impls.size).filterMap fun i =>
    items.impls[i]?.bind fun impl => if p impl then some ⟨i⟩ else none

def implsOfTrait (items : Items) (id : TraitId) : List ImplId :=
  items.implsWhere fun impl => impl.trait? = some id

def inherentImpls (items : Items) : List ImplId :=
  items.implsWhere fun impl => impl.traitRef.isNone

def traitImpls (items : Items) : List ImplId :=
  items.implsWhere fun impl => impl.traitRef.isSome

def ownedBy (items : Items) (owner : FnOwner) : List FnId :=
  (List.range items.functions.size).filterMap fun i =>
    items.functions[i]?.bind fun fn => if fn.owner = owner then some ⟨i⟩ else none

def implMethods (items : Items) (id : ImplId) : Except Fault (List FnId) := do
  discard (items.impl id)
  return items.ownedBy (.impl id)

def traitMethods (items : Items) (id : TraitId) : Except Fault (List FnId) := do
  discard (items.trait id)
  return items.ownedBy (.trait id)

/-- The methods of an impl or a trait. Free functions are no one's methods. -/
def methods (items : Items) (owner : FnOwner) : Except Fault (Option (List FnId)) := do
  match owner with
  | .free => return none
  | .impl id => return some (← items.implMethods id)
  | .trait id => return some (← items.traitMethods id)

def named (items : Items) (ids : List FnId) (name : String) : Option FnId :=
  ids.find? fun id =>
    match items.functions[id.index]? with
    | some fn => fn.name = name
    | none => false

def traitMethod (items : Items) (id : TraitId) (name : String) : Except Fault (Option FnId) := do
  return items.named (← items.traitMethods id) name

/-- The method called `name` of an impl: its own, or one with a body that its trait provides. -/
def implMethod (items : Items) (id : ImplId) (name : String) : Except Fault (Option FnId) := do
  let impl ← items.impl id
  if let some own := items.named (← items.implMethods id) name then
    return some own
  let some trait := impl.trait? | return none
  let some inherited ← items.traitMethod trait name | return none
  return if (← items.function inherited).hasBody then some inherited else none

def selfTy (items : Items) (owner : FnOwner) : Except Fault (Option Ty) := do
  match owner with
  | .free => return none
  | .impl id => return some (← items.impl id).self
  | .trait _ => return some (.param .self)

/-- The trait a function belongs to, directly or through its impl. -/
def traitOf (items : Items) (id : FnId) : Except Fault (Option TraitId) := do
  match (← items.function id).owner with
  | .free => return none
  | .impl impl => return (← items.impl impl).trait?
  | .trait trait => return some trait

def adtTy (items : Items) (id : AdtId) : Except Fault Ty := do
  return .adt id (← items.adt id).generics.paramTys

end Items

end TypeInference
