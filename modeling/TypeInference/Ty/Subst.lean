import TypeInference.Ty.Traversal

/-!
# Substitutions

A substitution gives types to generic parameters. It is applied simultaneously: what it puts in
place of a parameter is not substituted again, and a parameter without an entry stays itself.
-/

namespace TypeInference

/-- Types for generic parameters, with at most one entry for each. -/
structure Subst where
  entries : List (ParamId × Ty)

namespace Subst

def empty : Subst := ⟨[]⟩

instance : EmptyCollection Subst := ⟨empty⟩

instance : Inhabited Subst := ⟨empty⟩

def isEmpty (s : Subst) : Bool := s.entries.isEmpty

def get? (s : Subst) (p : ParamId) : Option Ty :=
  (s.entries.find? (·.1 = p)).map (·.2)

def insert (s : Subst) (p : ParamId) (t : Ty) : Subst :=
  ⟨s.entries.filter (·.1 ≠ p) ++ [(p, t)]⟩

/-- The substitution of a list of pairs; of two pairs for one parameter the later wins. -/
def ofPairs (pairs : List (ParamId × Ty)) : Subst :=
  pairs.foldl (fun s (p, t) => s.insert p t) empty

/-- `s` extended by `other`, whose entries win. -/
def union (s other : Subst) : Subst :=
  other.entries.foldl (fun s (p, t) => s.insert p t) s

/-- The type of `p`, or the parameter itself. -/
def lookup (s : Subst) (p : ParamId) : Ty :=
  (s.get? p).getD (.param p)

def replace (s : Subst) : Ty → Ty
  | .param p => s.lookup p
  | t => t

/-- Substitutes in a type, all parameters at once. -/
def apply (s : Subst) (t : Ty) : Ty :=
  Id.run (t.mapM fun t => pure (s.replace t))

def applyList (s : Subst) (ts : List Ty) : List Ty :=
  ts.map s.apply

def applyBound (s : Subst) (b : Bound) : Bound :=
  Id.run (b.mapM fun t => pure (s.replace t))

def sorted (s : Subst) : List (ParamId × Ty) :=
  s.entries.mergeSort fun a b => a.1.index ≤ b.1.index

end Subst

end TypeInference
