import TypeInference.Body.Syntax
import TypeInference.IdMap
import TypeInference.Ty.Subst

/-!
# Resolved names

What the front end found out about the paths of a body. A path may have several resolutions, as
when an associated function is reached through different impls; inference narrows them down.
-/

namespace TypeInference

/-- What a path in the place of a value names. -/
inductive Value where
  /-- A binding of the same body. -/
  | local (pat : PatId)
  | function (id : FnId)
  | const (id : ConstId)
  /-- A tuple or unit struct. -/
  | struct (adt : AdtId)
  /-- A tuple or unit variant. -/
  | variant (adt : AdtId) (index : Nat)
deriving DecidableEq, Repr

/-- One resolution of a path, with the generic arguments written at its use. -/
structure PathResolution where
  value : Value
  subst : Subst

structure Names where
  paths : IdMap (List PathResolution)
  exprVariants : IdMap (VariantRef × Subst)
  patVariants : IdMap (VariantRef × Subst)
  /-- The traits whose methods can be called, where they are restricted. -/
  traitsInScope : Option (List TraitId)

namespace Names

def empty : Names := ⟨∅, ∅, ∅, none⟩

instance : Inhabited Names := ⟨empty⟩

def path (names : Names) (expr : ExprId) : List PathResolution :=
  (names.paths.get? expr.index).getD []

/-- The variant that a struct literal or a pattern names. -/
def variant? (names : Names) : Site → Option (VariantRef × Subst)
  | .expr id => names.exprVariants.get? id.index
  | .pat id => names.patVariants.get? id.index

def setPath (names : Names) (expr : ExprId) (resolutions : List PathResolution) : Names :=
  { names with paths := names.paths.insert expr.index resolutions }

def setVariant (names : Names) (site : Site) (variant : VariantRef) (subst : Subst) : Names :=
  match site with
  | .expr id => { names with exprVariants := names.exprVariants.insert id.index (variant, subst) }
  | .pat id => { names with patVariants := names.patVariants.insert id.index (variant, subst) }

end Names

end TypeInference
