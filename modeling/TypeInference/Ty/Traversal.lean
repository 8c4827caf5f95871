import TypeInference.Ty.Basic

/-!
# Traversing and comparing types

Three traversals serve everything that looks inside a type:

* `Ty.mapM` rebuilds a type from its leaves upwards, passing every node through a function once
  its components are rebuilt;
* `Ty.subterms` lists a type and everything nested in it, each node before its components;
* `Ty.same` compares two types structurally, ignoring the names of regions. It is the `==` of
  types and of the values that contain them.

All three take the components of a node in the order in which they are written: the parameters of
a function type before its result, the self type of a projection before its arguments, the
arguments of a bound before its associated types.
-/

namespace TypeInference

/-! ## Rebuilding -/

mutual

/-- Rebuilds a type bottom-up: components first, left to right, then `f` on the node itself. -/
def Ty.mapM {m : Type → Type} [Monad m] (f : Ty → m Ty) : Ty → m Ty
  | .ref pointee mutability region => do f (.ref (← pointee.mapM f) mutability region)
  | .ptr pointee mutability => do f (.ptr (← pointee.mapM f) mutability)
  | .array elem len => do f (.array (← elem.mapM f) len)
  | .slice elem => do f (.slice (← elem.mapM f))
  | .tuple elems => do f (.tuple (← Ty.mapListM f elems))
  | .fn params ret => do f (.fn (← Ty.mapListM f params) (← ret.mapM f))
  | .adt id args => do f (.adt id (← Ty.mapListM f args))
  | .dyn bound => do f (.dyn (← bound.mapM f))
  | .existential decl bounds => do f (.existential decl (← Bound.mapListM f bounds))
  | .projection self trait args name => do
    f (.projection (← self.mapM f) trait (← Ty.mapListM f args) name)
  | .bool => f .bool
  | .char => f .char
  | .str => f .str
  | .int kind => f (.int kind)
  | .float kind => f (.float kind)
  | .param id => f (.param id)
  | .var v => f (.var v)
  | .unknown => f .unknown
  | .never => f .never

def Ty.mapListM {m : Type → Type} [Monad m] (f : Ty → m Ty) : List Ty → m (List Ty)
  | [] => pure []
  | t :: ts => do return (← t.mapM f) :: (← Ty.mapListM f ts)

def Bound.mapM {m : Type → Type} [Monad m] (f : Ty → m Ty) : Bound → m Bound
  | ⟨trait, args, assoc⟩ => do
    return ⟨trait, ← Ty.mapListM f args, ← Assoc.mapListM f assoc⟩

def Bound.mapListM {m : Type → Type} [Monad m] (f : Ty → m Ty) : List Bound → m (List Bound)
  | [] => pure []
  | b :: bs => do return (← b.mapM f) :: (← Bound.mapListM f bs)

def Assoc.mapM {m : Type → Type} [Monad m] (f : Ty → m Ty) : Assoc → m Assoc
  | ⟨name, ty⟩ => do return ⟨name, ← ty.mapM f⟩

def Assoc.mapListM {m : Type → Type} [Monad m] (f : Ty → m Ty) : List Assoc → m (List Assoc)
  | [] => pure []
  | a :: as => do return (← a.mapM f) :: (← Assoc.mapListM f as)

end

def TraitRef.mapM {m : Type → Type} [Monad m] (f : Ty → m Ty) (r : TraitRef) : m TraitRef := do
  return ⟨← r.self.mapM f, r.trait, ← Ty.mapListM f r.args⟩

def Projection.mapM {m : Type → Type} [Monad m] (f : Ty → m Ty) (p : Projection) :
    m Projection := do
  return ⟨← p.traitRef.mapM f, p.name⟩

/-! ## Visiting -/

mutual

/-- The type and every type nested in it, each before its components. -/
def Ty.subterms : Ty → List Ty
  | .ref pointee mutability region => .ref pointee mutability region :: pointee.subterms
  | .ptr pointee mutability => .ptr pointee mutability :: pointee.subterms
  | .array elem len => .array elem len :: elem.subterms
  | .slice elem => .slice elem :: elem.subterms
  | .tuple elems => .tuple elems :: Ty.listSubterms elems
  | .fn params ret => .fn params ret :: (Ty.listSubterms params ++ ret.subterms)
  | .adt id args => .adt id args :: Ty.listSubterms args
  | .dyn bound => .dyn bound :: bound.subterms
  | .existential decl bounds => .existential decl bounds :: Bound.listSubterms bounds
  | .projection self trait args name =>
    .projection self trait args name :: (self.subterms ++ Ty.listSubterms args)
  | .bool => [.bool]
  | .char => [.char]
  | .str => [.str]
  | .int kind => [.int kind]
  | .float kind => [.float kind]
  | .param id => [.param id]
  | .var v => [.var v]
  | .unknown => [.unknown]
  | .never => [.never]

def Ty.listSubterms : List Ty → List Ty
  | [] => []
  | t :: ts => t.subterms ++ Ty.listSubterms ts

def Bound.subterms : Bound → List Ty
  | ⟨_, args, assoc⟩ => Ty.listSubterms args ++ Assoc.listSubterms assoc

def Bound.listSubterms : List Bound → List Ty
  | [] => []
  | b :: bs => b.subterms ++ Bound.listSubterms bs

def Assoc.subterms : Assoc → List Ty
  | ⟨_, ty⟩ => ty.subterms

def Assoc.listSubterms : List Assoc → List Ty
  | [] => []
  | a :: as => a.subterms ++ Assoc.listSubterms as

end

def TraitRef.subterms (r : TraitRef) : List Ty :=
  r.self.subterms ++ Ty.listSubterms r.args

def Projection.subterms (p : Projection) : List Ty :=
  p.traitRef.subterms

namespace Ty

/-- Whether `p` holds of the type or of any type nested in it. -/
def any (t : Ty) (p : Ty → Bool) : Bool :=
  t.subterms.any p

def hasVar (t : Ty) : Bool :=
  t.any isVar

/-- The inference variables of a type, in the order of their occurrences. -/
def vars (t : Ty) : List Var :=
  t.subterms.filterMap fun
    | .var v => some v
    | _ => none

end Ty

/-! ## Comparing -/

mutual

/-- Structural equality of types, without the names of regions. -/
def Ty.same : Ty → Ty → Bool
  | .ref a m _, .ref b n _ => m = n && a.same b
  | .ptr a m, .ptr b n => m = n && a.same b
  | .array a l, .array b k => l = k && a.same b
  | .slice a, .slice b => a.same b
  | .tuple as, .tuple bs => Ty.sameList as bs
  | .fn as a, .fn bs b => Ty.sameList as bs && a.same b
  | .adt i as, .adt j bs => i = j && Ty.sameList as bs
  | .dyn a, .dyn b => a.same b
  | .existential d as, .existential e bs => d = e && Bound.sameList as bs
  | .projection a s as n, .projection b t bs k =>
    s = t && n = k && a.same b && Ty.sameList as bs
  | .bool, .bool => true
  | .char, .char => true
  | .str, .str => true
  | .int a, .int b => a = b
  | .float a, .float b => a = b
  | .param a, .param b => a = b
  | .var a, .var b => a = b
  | .unknown, .unknown => true
  | .never, .never => true
  | _, _ => false
termination_by structural a _ => a

def Ty.sameList : List Ty → List Ty → Bool
  | [], [] => true
  | a :: as, b :: bs => a.same b && Ty.sameList as bs
  | _, _ => false
termination_by structural a _ => a

def Bound.same : Bound → Bound → Bool
  | ⟨s, as, cs⟩, ⟨t, bs, ds⟩ => s = t && Ty.sameList as bs && Assoc.sameList cs ds
termination_by structural a _ => a

def Bound.sameList : List Bound → List Bound → Bool
  | [], [] => true
  | a :: as, b :: bs => a.same b && Bound.sameList as bs
  | _, _ => false
termination_by structural a _ => a

def Assoc.same : Assoc → Assoc → Bool
  | ⟨n, a⟩, ⟨k, b⟩ => n = k && a.same b
termination_by structural a _ => a

def Assoc.sameList : List Assoc → List Assoc → Bool
  | [], [] => true
  | a :: as, b :: bs => a.same b && Assoc.sameList as bs
  | _, _ => false
termination_by structural a _ => a

end

instance : BEq Ty := ⟨Ty.same⟩

instance : BEq Bound := ⟨Bound.same⟩

/-- Trait references agree when their trait, self type and arguments do. -/
def TraitRef.same (a b : TraitRef) : Bool :=
  a.trait = b.trait && a.self == b.self && Ty.sameList a.args b.args

instance : BEq TraitRef := ⟨TraitRef.same⟩

/-- Projections agree when their trait references and names do. -/
def Projection.same (a b : Projection) : Bool :=
  a.name = b.name && a.traitRef == b.traitRef

instance : BEq Projection := ⟨Projection.same⟩

end TypeInference
