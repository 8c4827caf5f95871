import TypeInference.Decl.Items

/-!
# The text of types

Types are written the way the user would write them. The names of declarations come from a
`Naming`: `Naming.plain` shows their numbers and `Items.naming` looks them up, which is a fault for
a struct, enum or trait that is not declared.
-/

namespace TypeInference

/-- How declarations are called in the text of a type. -/
structure Naming (m : Type → Type) where
  adt : AdtId → m String
  trait : TraitId → m String
  param : ParamId → m String

/-- Numbers in place of names. -/
def Naming.plain : Naming Id where
  adt id := s!"adt#{id.index}"
  trait id := s!"trait#{id.index}"
  param id := s!"T#{id.index}"

/-- The declared names. -/
def Items.naming (items : Items) : Naming (Except Fault) where
  adt id := do return (← items.adt id).name
  trait id := do return (← items.trait id).name
  param id := pure (items.paramName id)

def Mutability.text : Mutability → String
  | .shared => ""
  | .mut => "mut "

def Region.text : Region → String
  | ⟨some name⟩ => s!"'{name} "
  | ⟨none⟩ => ""

def Var.text : Var → String
  | .ty v => s!"?{v}"
  | .int v => s!"?int{v}"
  | .float v => s!"?float{v}"

def commaSep (texts : List String) : String :=
  ", ".intercalate texts

/-- A name with its bracketed arguments, without brackets when there are none. -/
def applied (name : String) (args : List String) : String :=
  if args.isEmpty then name else name ++ "<" ++ commaSep args ++ ">"

mutual

def Ty.textM {m : Type → Type} [Monad m] (names : Naming m) : Ty → m String
  | .bool => pure "bool"
  | .char => pure "char"
  | .str => pure "str"
  | .int kind => pure kind.name
  | .float kind => pure kind.name
  | .ref pointee mutability region => do
    return "&" ++ region.text ++ mutability.text ++ (← pointee.textM names)
  | .ptr pointee .mut => do return "*mut " ++ (← pointee.textM names)
  | .ptr pointee .shared => do return "*const " ++ (← pointee.textM names)
  | .array elem (some len) => do return "[" ++ (← elem.textM names) ++ s!"; {len}]"
  | .array elem none => do return "[" ++ (← elem.textM names) ++ "; _]"
  | .slice elem => do return "[" ++ (← elem.textM names) ++ "]"
  | .tuple elems => do
    let texts ← Ty.textListM names elems
    return match texts with
    | [only] => "(" ++ only ++ ",)"
    | _ => "(" ++ commaSep texts ++ ")"
  | .fn params ret => do
    let head := "fn(" ++ commaSep (← Ty.textListM names params) ++ ")"
    let result ← ret.textM names
    return if ret.isUnit then head else head ++ " -> " ++ result
  | .adt id args => do return applied (← names.adt id) (← Ty.textListM names args)
  | .dyn bound => do return "dyn " ++ (← bound.textM names)
  | .existential _ bounds => do
    return "impl " ++ " + ".intercalate (← Bound.textListM names bounds)
  | .param id => names.param id
  | .projection self trait args name => do
    let self ← self.textM names
    let trait := applied (← names.trait trait) (← Ty.textListM names args)
    return s!"<{self} as {trait}>::{name}"
  | .var v => pure v.text
  | .unknown => pure "\x7bunknown\x7d"
  | .never => pure "!"

def Ty.textListM {m : Type → Type} [Monad m] (names : Naming m) : List Ty → m (List String)
  | [] => pure []
  | t :: ts => do return (← t.textM names) :: (← Ty.textListM names ts)

def Bound.textM {m : Type → Type} [Monad m] (names : Naming m) : Bound → m String
  | ⟨trait, args, assoc⟩ => do
    let name ← names.trait trait
    return applied name ((← Ty.textListM names args) ++ (← Assoc.textListM names assoc))

def Bound.textListM {m : Type → Type} [Monad m] (names : Naming m) : List Bound → m (List String)
  | [] => pure []
  | b :: bs => do return (← b.textM names) :: (← Bound.textListM names bs)

def Assoc.textListM {m : Type → Type} [Monad m] (names : Naming m) : List Assoc → m (List String)
  | [] => pure []
  | ⟨name, ty⟩ :: as => do
    return (name ++ " = " ++ (← ty.textM names)) :: (← Assoc.textListM names as)

end

def Ty.text (t : Ty) : String :=
  Id.run (t.textM .plain)

def Ty.textIn (t : Ty) (items : Items) : Except Fault String :=
  t.textM items.naming

end TypeInference
