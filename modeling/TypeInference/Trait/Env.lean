import TypeInference.Body.Syntax
import TypeInference.Decl.Items

/-!
# Where-clauses in scope

The assumptions under which a body is inferred. Only functions have any: their own where-clauses,
those of the impl or trait around them, and inside a trait that `Self` implements it.
-/

namespace TypeInference

structure ParamEnv where
  bounds : List WherePredicate

namespace ParamEnv

def empty : ParamEnv := ⟨[]⟩

instance : Inhabited ParamEnv := ⟨empty⟩

/-- The where-clauses that hold inside the body of `owner`. -/
def ofOwner (items : Items) : Owner → Except Fault ParamEnv
  | .function id => do
    let fn ← items.function id
    match fn.owner with
    | .free => return ⟨fn.generics.bounds⟩
    | .impl impl => return ⟨fn.generics.bounds ++ (← items.impl impl).generics.bounds⟩
    | .trait trait =>
      let generics := (← items.trait trait).generics
      let self : WherePredicate := ⟨.param .self, ⟨trait, generics.paramTys, []⟩⟩
      return ⟨fn.generics.bounds ++ generics.bounds ++ [self]⟩
  | _ => return .empty

/-- The bounds assumed of exactly `self`. -/
def boundsFor (env : ParamEnv) (self : Ty) : List Bound :=
  (env.bounds.filter (·.self == self)).map (·.bound)

end ParamEnv

end TypeInference
