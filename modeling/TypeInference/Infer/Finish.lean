import TypeInference.Infer.Fulfill

/-!
# Finishing

After the walk: obligations are decided once more, numeric variables that nothing determined get
their default width, obligations are decided a last time, and the trait functions that paths and
calls still name are replaced by those of the impl that is now known. Then every type is closed:
whatever is still open becomes unknown.
-/

namespace TypeInference.Infer

/-- Gives a numeric variable without a value the default width of its kind. -/
def defaultVar : Var → Infer Unit
  | .int v => do
    let vs := (← get).vars
    if (← vs.ints.value v).isNone then
      let ints ← vs.ints.bind v .default
      modify fun s => { s with vars := { vs with ints } }
  | .float v => do
    let vs := (← get).vars
    if (← vs.floats.value v).isNone then
      let floats ← vs.floats.bind v .default
      modify fun s => { s with vars := { vs with floats } }
  | .ty _ => pure ()

/-- Gives default widths to the numeric variables of the types of expressions and bindings. -/
def defaultNumericVars : Infer Unit := do
  let s ← get
  (s.exprTypes.values ++ s.bindings.values).forM fun ty => do
    (← resolve ty).vars.forM defaultVar

/-- The function called `name` of the one impl that satisfies a goal. -/
def implFunction (goal : TraitRef) (fn : FnId) : Infer (Option (ImplId × FnId)) := do
  let items := (← read).items
  let goal ← resolveTraitRef goal
  match ← selectGoal goal with
  | .ok (.impl id) =>
    match ← items.implMethod id (← items.function fn).name with
    | some concrete => return some (id, concrete)
    | none => return none
  | _ => return none

def refinePath (id : ExprId) (goal : TraitRef) : Infer Unit := do
  match (← pathOf id).head? with
  | some (.function fn) =>
    if let some (_, concrete) ← implFunction goal fn then
      writePath id [.function concrete]
  | _ => pure ()

def refineMethod (id : ExprId) (goal : TraitRef) : Infer Unit := do
  match ((← get).methods.get? id.index).bind (·.head?) with
  | some first =>
    if let some (impl, concrete) ← implFunction goal first.fn then
      writeMethods id [{ first with fn := concrete, source := .impl impl }]
  | none => pure ()

def closeRecords : Infer Outcome := do
  let s ← get
  return {
    exprTypes := ← s.exprTypes.mapM close
    bindings := ← s.bindings.mapM close
    paths := s.paths
    methods := ← s.methods.mapM (List.mapM fun r => do return { r with self := ← close r.self })
    fields := s.fields
    adjustments := ← s.adjustments.mapM (List.mapM (Adjustment.mapM close))
    diagnostics := ← s.diagnostics.mapM (Diagnostic.mapM close)
  }

def finish : Infer Outcome := do
  settlePending
  defaultNumericVars
  settlePending
  (← get).pathRefinements.forM fun (id, goal) => refinePath id goal
  (← get).methodRefinements.forM fun (id, goal) => refineMethod id goal
  closeRecords

end TypeInference.Infer
