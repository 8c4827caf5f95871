/-!
# Types

`Ty` is the immutable tree that declarations, bodies and inference share. Two leaves are special:
`Ty.unknown` stands for whatever could not be determined, and `Ty.var` for an inference variable,
identified by its number in the table of its kind.

Reference types carry the name of their region. It is shown to the user and otherwise ignored:
no comparison of types looks at it (see `TypeInference.Ty.Traversal`).
-/

namespace TypeInference

/-! ## Identifiers -/

structure AdtId where
  index : Nat
deriving DecidableEq, Repr

structure FnId where
  index : Nat
deriving DecidableEq, Repr

structure TraitId where
  index : Nat
deriving DecidableEq, Repr

structure ImplId where
  index : Nat
deriving DecidableEq, Repr

structure ConstId where
  index : Nat
deriving DecidableEq, Repr

structure ParamId where
  index : Nat
deriving DecidableEq, Repr

/-- The parameter `Self`. -/
def ParamId.self : ParamId := ⟨0⟩

/-- A struct, or one variant of an enum. -/
inductive VariantRef where
  | struct (adt : AdtId)
  | enumVariant (adt : AdtId) (index : Nat)
deriving DecidableEq, Repr

/-- The declaration a variant belongs to. -/
def VariantRef.adt : VariantRef → AdtId
  | .struct adt => adt
  | .enumVariant adt _ => adt

/-! ## Primitive kinds -/

inductive IntTy where
  | i8 | i16 | i32 | i64 | i128 | isize
  | u8 | u16 | u32 | u64 | u128 | usize
deriving DecidableEq, Repr

namespace IntTy

/-- The width of an integer literal that nothing else determines. -/
def default : IntTy := .i32

def name : IntTy → String
  | .i8 => "i8" | .i16 => "i16" | .i32 => "i32" | .i64 => "i64" | .i128 => "i128"
  | .isize => "isize"
  | .u8 => "u8" | .u16 => "u16" | .u32 => "u32" | .u64 => "u64" | .u128 => "u128"
  | .usize => "usize"

end IntTy

inductive FloatTy where
  | f32 | f64
deriving DecidableEq, Repr

namespace FloatTy

/-- The width of a float literal that nothing else determines. -/
def default : FloatTy := .f64

def name : FloatTy → String
  | .f32 => "f32"
  | .f64 => "f64"

end FloatTy

inductive Mutability where
  | shared
  | mut
deriving DecidableEq, Repr

/-- The region of a reference: its name, or `none` when it is erased. -/
structure Region where
  name : Option String
deriving DecidableEq, Repr

namespace Region

def erased : Region := ⟨none⟩

def static : Region := ⟨some "static"⟩

end Region

/-- An inference variable: its kind and its number in the table of that kind. -/
inductive Var where
  /-- Stands for any type. -/
  | ty (index : Nat)
  /-- Stands for an integer type. -/
  | int (index : Nat)
  /-- Stands for a float type. -/
  | float (index : Nat)
deriving DecidableEq, Repr

/-! ## Type trees -/

mutual

inductive Ty where
  | bool
  | char
  | str
  | int (kind : IntTy)
  | float (kind : FloatTy)
  | ref (pointee : Ty) (mutability : Mutability) (region : Region)
  | ptr (pointee : Ty) (mutability : Mutability)
  /-- An array, with its length where that is known. -/
  | array (elem : Ty) (len : Option Nat)
  | slice (elem : Ty)
  | tuple (elems : List Ty)
  | fn (params : List Ty) (ret : Ty)
  | adt (id : AdtId) (args : List Ty)
  | dyn (bound : Bound)
  /-- A type known only through its bounds. Anonymous ones have no declaration. -/
  | existential (decl : Option Nat) (bounds : List Bound)
  | param (id : ParamId)
  /-- The associated type `name` of `self : trait<args>`. -/
  | projection (self : Ty) (trait : TraitId) (args : List Ty) (name : String)
  | var (v : Var)
  /-- Stands for whatever could not be determined. -/
  | unknown
  /-- The type of expressions that never finish. -/
  | never

/-- A trait bound without its self type: `Trait<args, Name = ty, ..>`. -/
structure Bound where
  trait : TraitId
  args : List Ty
  assoc : List Assoc

/-- One associated-type binding of a bound. -/
structure Assoc where
  name : String
  ty : Ty

end

/-- The goal `self : trait<args>`. -/
structure TraitRef where
  self : Ty
  trait : TraitId
  args : List Ty

/-- The associated type `name` of a trait reference. -/
structure Projection where
  traitRef : TraitRef
  name : String

/-- What a callable takes and gives. -/
structure Signature where
  params : List Ty
  ret : Ty

instance : Inhabited Ty := ⟨.unknown⟩

namespace Ty

/-! ## Constructors -/

def unit : Ty := .tuple []

def reference (pointee : Ty) (mutability : Mutability) : Ty :=
  .ref pointee mutability .erased

def staticStr : Ty := .ref .str .shared .static

/-! ## Tests -/

def isUnit : Ty → Bool
  | .tuple [] => true
  | _ => false

def isUnknown : Ty → Bool
  | .unknown => true
  | _ => false

def isNever : Ty → Bool
  | .never => true
  | _ => false

def isVar : Ty → Bool
  | .var _ => true
  | _ => false

/-- A general type variable, not a numeric one. -/
def isTyVar : Ty → Bool
  | .var (.ty _) => true
  | _ => false

def asTyVar? : Ty → Option Nat
  | .var (.ty v) => some v
  | _ => none

def isProjection : Ty → Bool
  | .projection .. => true
  | _ => false

/-- An integer type or a variable that stands for one. -/
def isIntegral : Ty → Bool
  | .int _ | .var (.int _) => true
  | _ => false

/-- A float type or a variable that stands for one. -/
def isFloat : Ty → Bool
  | .float _ | .var (.float _) => true
  | _ => false

def isNumeric (t : Ty) : Bool :=
  t.isIntegral || t.isFloat

def isScalar : Ty → Bool
  | .bool | .char | .ptr .. => true
  | t => t.isNumeric

end Ty

namespace Bound

/-- The type a bound gives to the associated type `name`. -/
def assocTy? (b : Bound) (name : String) : Option Ty :=
  (b.assoc.find? (·.name = name)).map (·.ty)

def withSelf (b : Bound) (self : Ty) : TraitRef :=
  ⟨self, b.trait, b.args⟩

end Bound

namespace Projection

def self (p : Projection) : Ty := p.traitRef.self

def toTy (p : Projection) : Ty :=
  .projection p.traitRef.self p.traitRef.trait p.traitRef.args p.name

end Projection

namespace Signature

/-- A signature about which only the number of parameters is known. -/
def ofArity (n : Nat) : Signature :=
  ⟨List.replicate n .unknown, .unknown⟩

def toTy (s : Signature) : Ty := .fn s.params s.ret

end Signature

end TypeInference
