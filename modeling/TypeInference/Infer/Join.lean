import TypeInference.Infer.Basic

/-!
# Joins and jumps

A branching expression has the common type of its branches. Branches that never finish do not count,
and unknown ones give way to those that are known.

The value of a loop or a labelled block is joined from the `break`s that target it. An unlabelled
`break` targets the innermost loop; a labelled one the nearest enclosing loop or block of that name.
No `break` leaves a closure.
-/

namespace TypeInference.Infer

/-- The common type of what is joined so far and one more branch. -/
def joinTwo (joined branch : Ty) : Infer Ty := do
  match ← head joined with
  | .never => return branch
  | .unknown => return if branch.isNever then .unknown else branch
  | _ =>
    unify joined branch
    return joined

def join : List Ty → Infer Ty
  | [] => return .unknown
  | first :: rest => rest.foldlM joinTwo first

/-- What a `break` hands to its target. -/
def breakValueTy : Option ExprId → Infer Ty
  | some value => exprTy value
  | none => return .unit

/-- Whether a `break` with label `written` targets a loop or block labelled `label`. With
`labelled`, only a label can tell. -/
def targets (label written : Option String) (labelled : Bool) : Bool :=
  match written with
  | none => !labelled
  | some name => some name = label

/-- The types of the `break`s inside an expression, at most `n` levels down, that target the
expression labelled `label`. -/
def breakTysWithin (label : Option String) : Nat → Bool → ExprId → Infer (List Ty)
  | 0, _, _ => throw .exhausted
  | n + 1, labelled, id => do
    let body := (← read).body
    let found ← (← body.expr id).children.mapM fun child => do
      match ← body.expr child with
      | .breakLoop written value =>
        let inner ← breakTysWithin label n labelled child
        if targets label written labelled then
          return inner ++ [← breakValueTy value]
        else
          return inner
      | .closure .. => return []
      | .loop .. | .whileLoop .. | .forLoop .. | .block _ (some _) .. =>
        if label.isSome then breakTysWithin label n true child else return []
      | _ => breakTysWithin label n labelled child
    return found.flatten

/-- Joins the type of a loop or block with the values of the `break`s that target it. With
`labelled`, unlabelled ones do not count. -/
def joinBreaks (id : ExprId) (base : Ty) (labelled : Bool) : Infer Ty := do
  let body := (← read).body
  let label := (← body.expr id).label?
  if label.isSome || !labelled then
    let breaks ← breakTysWithin label (body.exprs.size + 1) labelled id
    join (base :: breaks)
  else
    join [base]

end TypeInference.Infer
