import TypeInference.Infer.Deref
import TypeInference.Infer.Instantiate

/-!
# Method lookup

The candidates for a method call are all functions of that name that some dereference of the
receiver reaches: through an impl, a where-clause, or a bound of a trait object or existential
type. While more than one is left they are narrowed down, in this order:

1. impls of traits that are not in scope are dropped, unless nothing else is left;
2. impls whose where-clauses cannot hold are dropped;
3. the dereferences are walked again, and the first that some self parameter accepts, by value, by
   shared or by mutable reference, decides;
4. several functions of one trait are replaced by the declaration in the trait.
-/

namespace TypeInference

/-- Where a candidate comes from. -/
inductive CandidateSource where
  | impl (id : ImplId)
  | bound (bound : Bound)
  | object (bound : Bound)
  | collapsed (trait : TraitId)

structure Candidate where
  fn : FnId
  /-- The dereference at which the candidate was found. -/
  self : Ty
  derefCount : Nat
  source : CandidateSource

def Candidate.resolution (c : Candidate) : MethodResolution :=
  let source : MethodSource := match c.source with
    | .impl id => .impl id
    | .bound bound => .traitBound bound.trait
    | .object bound => .object bound.trait
    | .collapsed trait => .collapsed trait
  ⟨c.fn, c.self, c.derefCount, source⟩

namespace Infer

/-! ## Finding candidates -/

def mayBeSelf (impl : Impl) (ty : Ty) : Infer Bool :=
  probe do
    let subst ← freshSubst impl.generics
    combine ty (subst.apply impl.self)

/-- The methods called `name` that impls provide for a type. -/
def implCandidates (name : String) (derefCount : Nat) (step : Ty) : Infer (List Candidate) := do
  let items := (← read).items
  let found ← (items.inherentImpls ++ items.traitImpls).mapM fun id => do
    match ← items.implMethod id name with
    | some fn =>
      if ← mayBeSelf (← items.impl id) step then
        return some (Candidate.mk fn step derefCount (.impl id))
      else
        return none
    | none => return none
  return found.filterMap id

/-- The methods called `name` that bounds on a type provide. -/
def boundCandidates (name : String) (derefCount : Nat) (step : Ty) (bounds : List Bound)
    (source : Bound → CandidateSource) : Infer (List Candidate) := do
  let items := (← read).items
  let found ← bounds.mapM fun bound => do
    match ← items.traitMethod bound.trait name with
    | some fn => return some (Candidate.mk fn step derefCount (source bound))
    | none => return none
  return found.filterMap id

/-- The bounds that a trait object or existential type is known by. -/
def objectBounds : Ty → List Bound
  | .dyn bound => [bound]
  | .existential _ bounds => bounds
  | _ => []

def stepCandidates (name : String) (derefCount : Nat) (step : Ty) : Infer (List Candidate) := do
  if step.isUnknown || step.isTyVar then
    return []
  let impls ← implCandidates name derefCount step
  let env := (← read).env
  let bounds ← boundCandidates name derefCount step (env.boundsFor step) .bound
  let objects ← boundCandidates name derefCount step (objectBounds step) .object
  return impls ++ bounds ++ objects

/-- All candidates for a method, from the shallowest dereference on. -/
def candidates (steps : List Ty) (name : String) : Infer (List Candidate) := do
  let found ← steps.zipIdx.mapM fun (step, depth) => stepCandidates name depth step
  return found.flatten

/-! ## Picking one -/

def traitsInScope : Infer (List TraitId) := do
  let scope ← read
  return scope.names.traitsInScope.getD scope.items.traitIds

/-- Whether a candidate is inherent, from a trait in scope, or from a bound. -/
def isVisible (inScope : List TraitId) (c : Candidate) : Infer Bool := do
  match c.source with
  | .impl id =>
    match (← (← read).items.impl id).trait? with
    | some trait => return inScope.contains trait
    | none => return true
  | _ => return true

/-- Keeps the visible candidates, or all when none is. -/
def keepVisible (cs : List Candidate) : Infer (List Candidate) := do
  let visible ← cs.filterM (isVisible (← traitsInScope))
  return if visible.isEmpty then cs else visible

/-- Drops the impls whose where-clauses cannot hold. -/
def keepHolding (cs : List Candidate) : Infer (List Candidate) :=
  cs.filterM fun c =>
    match c.source with
    | .impl id => implHolds id c.self
    | _ => pure true

def selfParamTy (c : Candidate) : Infer (Option Ty) := do
  match (← (← read).items.function c.fn).selfParam with
  | some p => return some (← resolve (p.ty c.self))
  | none => return none

/-- The candidates whose self parameter accepts the first form that any of them accepts. -/
def firstAccepted (cs : List (Candidate × Option Ty)) : List Ty → List Candidate
  | [] => []
  | form :: forms =>
    let accepting := cs.filter fun (_, param) => param == some form
    if accepting.isEmpty then firstAccepted cs forms else accepting.map (·.1)

/-- A dereference as it is, borrowed, and borrowed mutably. -/
def receiverForms (step : Ty) : List Ty :=
  [step, .reference step .shared, .reference step .mut]

/-- Keeps the candidates that accept the earliest form of the receiver. -/
def keepAccepting (steps : List Ty) (cs : List Candidate) : Infer (List Candidate) := do
  let params ← cs.mapM selfParamTy
  let steps ← steps.mapM resolve
  return firstAccepted (cs.zip params) (steps.flatMap receiverForms)

/-- Applies a stage while more than one candidate is left. -/
def narrow (stage : List Candidate → Infer (List Candidate)) (cs : List Candidate) :
    Infer (List Candidate) :=
  if cs.length > 1 then stage cs else pure cs

/-- One trait declaration in place of several functions of the trait. -/
def collapseCandidates (cs : List Candidate) : Infer (Option Candidate) := do
  let items := (← read).items
  let some fn ← collapse? items (cs.map (·.fn)) | return none
  let some trait ← items.traitOf fn | return none
  return cs.head?.map fun first => { first with fn, source := .collapsed trait }

/-- The candidate a call means, if the stages single one out. -/
def pick (steps : List Ty) (cs : List Candidate) : Infer (Option Candidate) := do
  let cs ← narrow keepVisible cs
  let cs ← narrow keepHolding cs
  let cs ← narrow (keepAccepting steps) cs
  match cs with
  | [] => return none
  | [only] => return some only
  | _ => collapseCandidates cs

/-! ## Using one -/

/-- The substitution for what surrounds a method: its impl, its trait, or a bound. -/
def methodOuterSubst (expr : ExprId) (fn : Function) (c : Candidate) : Infer Subst := do
  let items := (← read).items
  match c.source with
  | .impl id =>
    let impl ← items.impl id
    let subst ← instantiate impl.generics none
    unify c.self (subst.apply impl.self)
    match fn.owner, impl.traitRef with
    | .trait trait, some (_, args) =>
      let params := (← items.trait trait).generics.params
      return .ofPairs (params.zip (subst.applyList args))
    | _, _ => return subst
  | .bound bound | .object bound =>
    let params := (← items.trait bound.trait).generics.params
    return .ofPairs (params.zip bound.args)
  | .collapsed trait =>
    let generics := (← items.trait trait).generics
    let subst ← instantiate generics (some c.self)
    let goal : TraitRef := ⟨c.self, trait, subst.applyList generics.paramTys⟩
    register [.ofTrait 0 goal]
    refineMethodLater expr goal
    return subst

/-- The parameters, after the self parameter, and the result of a method. -/
def instantiateMethod (expr : ExprId) (c : Candidate) (genericArgs : List Ty) :
    Infer Signature := do
  let scope ← read
  let fn ← scope.items.function c.fn
  let outer := (← methodOuterSubst expr fn c).insert .self c.self
  let own ← freshSubst fn.generics
  (fn.generics.params.zip genericArgs).forM fun (p, arg) => do
    if let some var := own.get? p then
      unify var arg
  let subst := outer.union own
  registerBounds fn.generics subst
  let params ← normalizedList (subst.applyList fn.params)
  let ret ← normalized (subst.apply (fn.outputTy scope.known))
  return ⟨params, ret⟩

/-- How one dereference of a receiver becomes the self argument: `none` when it does not,
otherwise the borrow it needs. -/
def receiverBorrow? (step selfParam : Ty) : Option (List Adjustment) :=
  if step == selfParam then
    some []
  else
    match selfParam with
    | .ref inner mutability _ =>
      if inner == step then some [.borrowRef selfParam .erased mutability] else none
    | _ => none

/-- Records the conversions of a receiver: the dereferences to the first step that fits, then a
borrow. -/
def adjustReceiverFrom (receiver : ExprId) (steps : List Ty) (selfParam : Ty) :
    Nat → List Ty → Infer Unit
  | _, [] => pure ()
  | depth, step :: rest => do
    match receiverBorrow? (← resolve step) selfParam with
    | some borrow => adjust receiver (derefsTo steps depth ++ borrow)
    | none => adjustReceiverFrom receiver steps selfParam (depth + 1) rest

/-- Records how a receiver becomes the self argument. -/
def adjustReceiver (receiver : ExprId) (steps : List Ty) (selfParam : Ty) : Infer Unit := do
  adjustReceiverFrom receiver steps (← resolve selfParam) 0 steps

end Infer

end TypeInference
