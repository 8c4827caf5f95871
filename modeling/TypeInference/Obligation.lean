import TypeInference.Fault
import TypeInference.Ty.Traversal

/-!
# Obligations

What has to hold for the types inferred so far to make sense: that a type implements a trait, or
that an associated type is a given type. Obligations wait until enough is known to decide them.
-/

namespace TypeInference

inductive Predicate where
  /-- `T : Trait<Args>` -/
  | trait (goal : TraitRef)
  /-- The associated type is `ty`. -/
  | projection (projection : Projection) (ty : Ty)

namespace Predicate

def subterms : Predicate → List Ty
  | .trait goal => goal.subterms
  | .projection p ty => p.subterms ++ ty.subterms

def mapM {m : Type → Type} [Monad m] (f : Ty → m Ty) : Predicate → m Predicate
  | .trait goal => do return .trait (← goal.mapM f)
  | .projection p ty => do return .projection (← p.mapM f) (← ty.mapM f)

def isProjection : Predicate → Bool
  | .projection .. => true
  | .trait _ => false

end Predicate

/-- A predicate to decide. Obligations that arise from deciding another are one level deeper. -/
structure Obligation where
  depth : Nat
  predicate : Predicate

namespace Obligation

/-- The level up to which depths are counted. -/
def maxDepth : Nat := UInt32.size - 1

/-- One level deeper than `depth`. There is no level below `maxDepth`. -/
def deeper (depth : Nat) : Except Fault Nat :=
  if depth < maxDepth then .ok (depth + 1) else .error .tooDeep

def ofTrait (depth : Nat) (goal : TraitRef) : Obligation :=
  ⟨depth, .trait goal⟩

def ofProjection (depth : Nat) (projection : Projection) (ty : Ty) : Obligation :=
  ⟨depth, .projection projection ty⟩

end Obligation

/-- A value and the obligations that make it valid. -/
structure Normalized (α : Type) where
  value : α
  obligations : List Obligation

def Normalized.plain {α : Type} (value : α) : Normalized α :=
  ⟨value, []⟩

end TypeInference
