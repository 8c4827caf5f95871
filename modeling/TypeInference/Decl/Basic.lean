import TypeInference.Ty.Subst

/-!
# Declarations

What a body can name: structs and enums, functions, traits, impls and constants, each with its
generic parameters and where-clauses.
-/

namespace TypeInference

/-! ## Generics -/

/-- The where-clause `self : bound`. -/
structure WherePredicate where
  self : Ty
  bound : Bound

def WherePredicate.traitRef (p : WherePredicate) : TraitRef :=
  p.bound.withSelf p.self

/-- The generic parameters of a declaration and the where-clauses on them. -/
structure Generics where
  params : List ParamId
  bounds : List WherePredicate

namespace Generics

def empty : Generics := ⟨[], []⟩

instance : Inhabited Generics := ⟨empty⟩

def isEmpty (g : Generics) : Bool :=
  g.params.isEmpty && g.bounds.isEmpty

def paramTys (g : Generics) : List Ty :=
  g.params.map .param

end Generics

/-! ## Structs and enums -/

structure Field where
  name : String
  ty : Ty

/-- The fields of a struct or of an enum variant. -/
inductive Shape where
  | unit
  | tuple (tys : List Ty)
  | record (fields : List Field)

namespace Shape

def field? : Shape → String → Option (Nat × Ty)
  | .record fields, name =>
    (fields.findIdx? (·.name = name)).bind fun i => fields[i]?.map fun f => (i, f.ty)
  | _, _ => none

def tupleField? : Shape → Nat → Option Ty
  | .tuple tys, i => tys[i]?
  | _, _ => none

def isUnit : Shape → Bool
  | .unit => true
  | _ => false

end Shape

structure Variant where
  name : String
  shape : Shape

inductive AdtKind where
  | struct (shape : Shape)
  | enum (variants : List Variant)

structure Adt where
  name : String
  generics : Generics
  kind : AdtKind
  /-- The integer type of the discriminant, where it is declared. -/
  repr : Option IntTy

/-- The shape a variant reference selects, if it fits the kind of the declaration. -/
def Adt.shape? (adt : Adt) : VariantRef → Option Shape
  | .struct _ =>
    match adt.kind with
    | .struct shape => some shape
    | .enum _ => none
  | .enumVariant _ i =>
    match adt.kind with
    | .struct _ => none
    | .enum variants => variants[i]?.map (·.shape)

/-! ## Functions -/

inductive SelfParam where
  /-- `self` -/
  | value
  /-- `&self` or `&mut self` -/
  | ref (mutability : Mutability)
  /-- `self : ty`, where `ty` mentions `Self` as `ParamId.self` -/
  | explicit (ty : Ty)

/-- The type of a self parameter once `Self` is known. -/
def SelfParam.ty (p : SelfParam) (self : Ty) : Ty :=
  match p with
  | .value => self
  | .ref mutability => .reference self mutability
  | .explicit t => (Subst.empty.insert .self self).apply t

/-- Where a function is declared. -/
inductive FnOwner where
  | free
  | impl (id : ImplId)
  | trait (id : TraitId)
deriving DecidableEq, Repr

structure Function where
  name : String
  owner : FnOwner
  generics : Generics
  selfParam : Option SelfParam
  /-- The types of the parameters after the self parameter. -/
  params : List Ty
  ret : Ty
  isAsync : Bool
  /-- A trait function with a body is inherited by the impls of the trait. -/
  hasBody : Bool

/-! ## Traits, impls and constants -/

structure Trait where
  name : String
  generics : Generics
  assocTypes : List String

structure Impl where
  generics : Generics
  /-- The trait and its arguments, or `none` for an inherent impl. -/
  traitRef : Option (TraitId × List Ty)
  self : Ty
  assocTypes : List Assoc

namespace Impl

def trait? (i : Impl) : Option TraitId :=
  i.traitRef.map (·.1)

def assocTy? (i : Impl) (name : String) : Option Ty :=
  (i.assocTypes.find? (·.name = name)).map (·.ty)

end Impl

structure Const where
  name : String
  /-- The declared type, where there is one. -/
  ty : Option Ty

end TypeInference
