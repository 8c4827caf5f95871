import TypeInference.Trait.Env
import TypeInference.Trait.Header

/-!
# Trait selection

Given a goal `T : Trait<Args>`, selection names what satisfies it. Asked in this order: the
where-clauses in scope, the bounds of a trait object or existential type, the callable traits of
function types, and the impls of the trait. One impl that may apply is enough to be selected, even
while the goal has open variables; several are ambiguous.
-/

namespace TypeInference

inductive Selection (α : Type) where
  | ok (found : α)
  /-- Nothing satisfies the goal. -/
  | err
  /-- Not decided until more variables are known. -/
  | ambiguous

/-- What satisfies a goal. -/
inductive Source where
  | impl (id : ImplId)
  /-- A where-clause in scope. -/
  | param (bound : Bound)
  /-- A bound of a trait object or existential type. -/
  | object (bound : Bound)
  /-- The language itself. -/
  | builtin

namespace TraitRef

def header (r : TraitRef) : List Ty := r.self :: r.args

end TraitRef

namespace WherePredicate

/-- How a where-clause on the trait of the goal compares with it. -/
def verdict (p : WherePredicate) (goal : TraitRef) : Verdict :=
  Header.compare p.traitRef.header goal.header

end WherePredicate

namespace Impl

/-- Whether an impl may satisfy the goal. -/
def mayApply (impl : Impl) (goal : TraitRef) : Bool :=
  match impl.traitRef with
  | some (_, args) =>
    args.length = goal.args.length &&
      Header.matchGoal impl.generics.params (impl.self :: args) goal.header ≠ .no
  | none => false

end Impl

namespace Selection

/-- The where-clauses in scope on the trait of the goal, each with its verdict. -/
def assumptions (env : ParamEnv) (goal : TraitRef) : List (Bound × Verdict) :=
  (env.bounds.filter (·.bound.trait = goal.trait)).map fun p => (p.bound, p.verdict goal)

/-- What the self type of the goal provides by itself. -/
def inherent (known : WellKnown) (goal : TraitRef) : Option Source :=
  match goal.self with
  | .dyn bound => if bound.trait = goal.trait then some (.object bound) else none
  | .existential _ bounds => (bounds.find? (·.trait = goal.trait)).map .object
  | .fn .. => if known.isFnTrait goal.trait then some .builtin else none
  | _ => none

/-- The impls that may satisfy the goal. -/
def candidates (items : Items) (goal : TraitRef) : List ImplId :=
  items.implsWhere fun impl => impl.trait? = some goal.trait && impl.mayApply goal

end Selection

def select (items : Items) (known : WellKnown) (env : ParamEnv) (goal : TraitRef) :
    Selection Source :=
  if goal.self.isTyVar || goal.self.isUnknown then
    .ambiguous
  else
    let assumptions := Selection.assumptions env goal
    match assumptions.find? (·.2 = .yes) with
    | some (bound, _) => .ok (.param bound)
    | none =>
      match Selection.inherent known goal with
      | some source => .ok source
      | none =>
        match Selection.candidates items goal with
        | [] => if assumptions.any (·.2 = .maybe) then .ambiguous else .err
        | [only] => .ok (.impl only)
        | _ => .ambiguous

end TypeInference
