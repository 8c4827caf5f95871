import TypeInference.Body.Basic
import TypeInference.Config
import TypeInference.Outcome
import TypeInference.ProjectionCache
import TypeInference.Trait.Select

/-!
# The state of an inference

Inferring a body happens inside a fixed `Scope` (the declarations, the body and the assumptions) and
changes a `State`: the variables, the cache of projections, the pending obligations, and everything
that will be part of the outcome.

`Infer` is the monad of these computations. A fault abandons the body and its state with it.
-/

namespace TypeInference

/-- Bounds on the two recursions whose length only the declarations decide. They are beyond what
can be computed, so that reaching them is not an outcome that is observed. -/
structure Fuel where
  /-- How deep the associated types of impls may lead into each other. -/
  nesting : Nat := Nat.pow 2 60
  /-- How many rounds the obligation queue may take. -/
  rounds : Nat := Nat.pow 2 60

/-- What stays fixed while a body is inferred. -/
structure Scope where
  items : Items
  known : WellKnown
  config : Config
  owner : Owner
  body : Body
  names : Names
  env : ParamEnv
  fuel : Fuel := {}

structure State where
  vars : Vars := ∅
  cache : ProjectionCache := ∅
  /-- The obligations that wait, in the order in which they will be tried. -/
  pending : List Obligation := []
  exprTypes : IdMap Ty := ∅
  bindings : IdMap Ty := ∅
  paths : IdMap (List Value) := ∅
  methods : IdMap (List MethodResolution) := ∅
  fields : IdMap (List FieldResolution) := ∅
  adjustments : IdMap (List Adjustment) := ∅
  diagnostics : List Diagnostic := []
  /-- Paths to a trait function, with the goal whose impl provides the function meant. -/
  pathRefinements : List (ExprId × TraitRef) := []
  /-- Calls of a trait method, likewise. -/
  methodRefinements : List (ExprId × TraitRef) := []

instance : Inhabited State := ⟨{}⟩

/-- The part of the state that snapshots cover. -/
structure Snapshot where
  vars : Vars
  cache : ProjectionCache

/-- The places in the logs of the state up to which a snapshot would be rolled back. -/
structure Mark where
  vars : Vars.Mark
  cache : Nat

namespace State

def snapshot (s : State) : Snapshot := ⟨s.vars, s.cache⟩

/-- Puts other variables and another cache in place of those of the state. -/
def restore (s : State) (saved : Snapshot) : State :=
  { s with vars := saved.vars, cache := saved.cache }

def mark (s : State) : Mark := ⟨s.vars.mark, s.cache.mark⟩

def opened (s : State) : State := s.restore ⟨s.vars.opened, s.cache.opened⟩

def rollback (m : Mark) (s : State) : State :=
  s.restore ⟨s.vars.rollback m.vars, s.cache.rollback m.cache⟩

def commit (s : State) : State := s.restore ⟨s.vars.commit, s.cache.commit⟩

end State

/-- Computations that infer types. -/
abbrev Infer := ReaderT Scope (StateT State (Except Fault))

namespace Infer

def onVars {α : Type} (act : VarM α) : Infer α := do
  let s ← get
  let (a, vars) ← act.run s.vars
  set { s with vars }
  return a

def readVars {α : Type} (f : Vars → Except Fault α) : Infer α := do
  f (← get).vars

/-! ## Variables -/

def freshTy : Infer Ty := do
  let s ← get
  let (t, vars) := s.vars.freshTy
  set { s with vars }
  return t

def freshInt : Infer Ty := do
  let s ← get
  let (t, vars) := s.vars.freshInt
  set { s with vars }
  return t

def freshFloat : Infer Ty := do
  let s ← get
  let (t, vars) := s.vars.freshFloat
  set { s with vars }
  return t

def freshSubst (generics : Generics) : Infer Subst :=
  generics.params.foldlM (fun subst p => do return subst.insert p (← freshTy)) .empty

def head (t : Ty) : Infer Ty := readVars (·.head t)

def resolve (t : Ty) : Infer Ty := readVars (·.resolve t)

def close (t : Ty) : Infer Ty := readVars (·.close t)

def resolveTraitRef (r : TraitRef) : Infer TraitRef := readVars (·.resolveTraitRef r)

def isOpen (t : Ty) : Infer Bool := readVars (·.isOpen t)

def isAffected (v : Nat) : Infer Bool := readVars (·.isAffected v)

/-! ## Unification -/

/-- Makes two types equal if possible; the answer says whether it was. -/
def combine (a b : Ty) : Infer Bool := onVars (Vars.combine a b)

/-- Makes two types equal as far as possible. -/
def unify (a b : Ty) : Infer Unit := discard (combine a b)

def combinePairs (as bs : List Ty) : Infer Bool := onVars (Vars.combinePairs as bs)

def combineTraitRefs (a b : TraitRef) : Infer Bool := onVars (Vars.combineTraitRefs a b)

/-! ## Snapshots -/

def snapshot : Infer Mark := do
  let s ← get
  set s.opened
  return s.mark

def rollback (m : Mark) : Infer Unit := modify (·.rollback m)

def commit : Infer Unit := modify (·.commit)

/-- Runs a computation and takes back what it did to the variables and the cache. -/
def probe {α : Type} (act : Infer α) : Infer α := do
  let m ← snapshot
  let a ← act
  rollback m
  return a

def canCombine (a b : Ty) : Infer Bool := probe (combine a b)

/-- Makes two types equal, or leaves everything as it was. -/
def combineIfOk (a b : Ty) : Infer Bool := do
  let m ← snapshot
  let ok ← combine a b
  if ok then commit else rollback m
  return ok

/-! ## Obligations -/

def register (obligations : List Obligation) : Infer Unit :=
  modify fun s => { s with pending := s.pending ++ obligations }

def selectGoal (goal : TraitRef) : Infer (Selection Source) := do
  let scope ← read
  return select scope.items scope.known scope.env goal

/-! ## Records -/

/-- Records the type of an expression, which happens once. -/
def writeExprTy (id : ExprId) (ty : Ty) : Infer Unit := do
  let s ← get
  if s.exprTypes.contains id.index then
    throw (.writtenTwice id.index)
  set { s with exprTypes := s.exprTypes.insert id.index ty }

def exprTy (id : ExprId) : Infer Ty := do
  return ((← get).exprTypes.get? id.index).getD .unknown

def writeBinding (id : PatId) (ty : Ty) : Infer Unit :=
  modify fun s => { s with bindings := s.bindings.insert id.index ty }

def bindingTy (id : PatId) : Infer Ty := do
  return ((← get).bindings.get? id.index).getD .unknown

def writePath (id : ExprId) (values : List Value) : Infer Unit :=
  modify fun s => { s with paths := s.paths.insert id.index values }

def pathOf (id : ExprId) : Infer (List Value) := do
  return ((← get).paths.get? id.index).getD []

def writeMethods (id : ExprId) (methods : List MethodResolution) : Infer Unit :=
  modify fun s => { s with methods := s.methods.insert id.index methods }

def writeFields (id : ExprId) (fields : List FieldResolution) : Infer Unit :=
  modify fun s => { s with fields := s.fields.insert id.index fields }

def adjustmentsOf (id : ExprId) : Infer (List Adjustment) := do
  return ((← get).adjustments.get? id.index).getD []

def adjust (id : ExprId) (adjustments : List Adjustment) : Infer Unit := do
  let before ← adjustmentsOf id
  modify fun s =>
    { s with adjustments := s.adjustments.insert id.index (before ++ adjustments) }

/-- Remembers that the trait function a path names is to be replaced by that of an impl. -/
def refinePathLater (id : ExprId) (goal : TraitRef) : Infer Unit :=
  modify fun s => { s with pathRefinements := s.pathRefinements ++ [(id, goal)] }

/-- Remembers that the trait method a call names is to be replaced by that of an impl. -/
def refineMethodLater (id : ExprId) (goal : TraitRef) : Infer Unit :=
  modify fun s => { s with methodRefinements := s.methodRefinements ++ [(id, goal)] }

/-! ## Reports -/

def report (d : Diagnostic) : Infer Unit :=
  modify fun s => { s with diagnostics := s.diagnostics ++ [d] }

def reportCannotDeref (id : ExprId) (ty : Ty) : Infer Unit :=
  report (.cannotDeref id ty)

/-- Too little is known of a type to call anything a mismatch with it. -/
def isIndefinite (t : Ty) : Bool :=
  t.any fun
    | .unknown | .var (.ty _) | .param _ | .projection .. | .dyn _ | .existential .. => true
    | _ => false

/-- Whether a problem was already reported at `id` or inside it. -/
def hasReportWithin (id : ExprId) : Infer Bool := do
  let body := (← read).body
  (← get).diagnostics.anyM fun d =>
    match d.site with
    | .expr other => body.isAncestorOf id other
    | .pat _ => pure false

/-- Reports a mismatch, unless one side is indefinite or a problem inside the site is known. -/
def reportMismatch (site : Site) (expected actual : Ty) : Infer Unit := do
  if (← read).config.reportMismatches then
    let expected ← resolve expected
    let actual ← resolve actual
    unless isIndefinite expected || isIndefinite actual do
      let known ← match site with
        | .expr id => hasReportWithin id
        | .pat _ => pure false
      unless known do report (.mismatch site expected actual)

end Infer

end TypeInference
