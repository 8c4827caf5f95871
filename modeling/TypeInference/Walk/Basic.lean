import TypeInference.Infer.Coerce
import TypeInference.Infer.Instantiate
import TypeInference.Infer.Join

/-!
# Walking a body

The walk visits a body from its root, handing to each expression the type that its surroundings
expect, if they expect one. It is part of a session: looking up a path is counted there, the user
may have asked to cancel, and a constant without a declared type is inferred by another walk.

Each rule of the walk takes a `Visitor` for the nodes below its own, so the rules can be stated
one by one; `TypeInference.Walk.Rules` puts them together.
-/

namespace TypeInference

/-- Why no outcome was produced. -/
inductive Stop where
  | cancelled
  /-- The body is being inferred already. -/
  | cycle (owner : Owner)
  | missingBody (owner : Owner)
  | fault (fault : Fault)
deriving DecidableEq

/-- When the user asks to cancel. It only matters which check is the first one after that. -/
inductive Request where
  | never
  /-- While this look-up goes on. -/
  | duringLookUp (number : Nat)
  /-- Right before this check. -/
  | beforeCheck (number : Nat)
deriving DecidableEq

/-- What a session remembers from one body to the next. -/
structure SessionState where
  /-- How many paths were looked up. -/
  lookups : Nat := 0
  /-- How often it was checked whether to go on. -/
  checks : Nat := 0
  /-- Whether the user asked to cancel. -/
  cancelled : Bool := false
  /-- When the user does so. -/
  request : Request := .never
  /-- The bodies being inferred, the innermost first. -/
  running : List Owner := []

namespace SessionState

def countLookUp (s : SessionState) : SessionState :=
  { s with
    lookups := s.lookups + 1
    cancelled := s.cancelled || s.request = .duringLookUp (s.lookups + 1) }

def countCheck (s : SessionState) : SessionState :=
  { s with
    checks := s.checks + 1
    cancelled := s.cancelled || s.request = .beforeCheck (s.checks + 1) }

end SessionState

/-- Computations of a session. The session outlives a body that is abandoned. -/
abbrev SessionM := ExceptT Stop (StateM SessionState)

def SessionM.checkCancelled : SessionM Unit := do
  modify (·.countCheck)
  if (← get).cancelled then
    throw .cancelled

/-- Where `return`, `?` and `yield` lead. -/
structure Jumps where
  /-- What `return` converts its value to. -/
  returnTy : Ty := .unknown
  /-- The type whose error `?` propagates into. -/
  tryTy : Ty := .unknown
  /-- What the innermost generator yields, from its first `yield` on. -/
  yieldTy : Option Ty := none

/-- What has jumps of its own inside. -/
inductive Boundary where
  /-- The body of a function, a constant or a closure. -/
  | body (ret : Ty)
  | asyncBlock (output : Ty)
  | tryBlock (wrapped : Ty)

namespace Boundary

/-- The jumps inside. -/
def enter (outer : Jumps) : Boundary → Jumps
  | body ty => ⟨ty, ty, none⟩
  | asyncBlock ty => { outer with returnTy := ty, tryTy := ty }
  | tryBlock ty => { outer with tryTy := ty }

/-- The jumps outside again, after those inside became `inner`. -/
def leave (outer inner : Jumps) : Boundary → Jumps
  | body _ => outer
  | asyncBlock _ => { inner with returnTy := outer.returnTy, tryTy := outer.tryTy }
  | tryBlock _ => { inner with tryTy := outer.tryTy }

end Boundary

structure WalkState extends State, Jumps

/-- Computations that walk a body. What the walker keeps outlives a walk that is abandoned. -/
abbrev Walk := ReaderT Scope (ExceptT Stop (StateT WalkState (StateM SessionState)))

/-- How a plain binding binds when nothing at the binding says so. -/
inductive DefaultBinding where
  | move
  | ref (mutability : Mutability)
deriving DecidableEq, Repr

/-- How nodes below the current one are visited. -/
structure Visitor where
  /-- Infers an expression from the type that is expected of it. -/
  expr : ExprId → Option Ty → Walk Ty
  /-- Matches a pattern against a type. -/
  pat : PatId → Ty → DefaultBinding → Walk Unit
  /-- The type of the body of a constant. -/
  const : ConstId → SessionM Ty

namespace Walk

variable {α : Type}

/-- Runs a walk as a part of its session, which has no use for a walker that did not finish. -/
def go (act : Walk α) (scope : Scope) (w : WalkState) : SessionM (α × WalkState) := fun σ =>
  match act scope w σ with
  | ((.ok a, w'), σ') => (.ok (a, w'), σ')
  | ((.error stop, _), σ') => (.error stop, σ')

/-- An inference step of the walk. -/
def liftInfer (act : Infer α) : Walk α := fun scope w σ =>
  match act scope w.toState with
  | .ok (a, s) => ((.ok a, { w with toState := s }), σ)
  | .error fault => ((.error (.fault fault), w), σ)

instance : MonadLift Infer Walk := ⟨liftInfer⟩

instance : MonadLift (Except Fault) Walk where
  monadLift act := liftInfer (liftM act)

/-- What another part of the session does. -/
def liftSession (act : SessionM α) : Walk α := fun _ w σ =>
  let (result, σ') := act σ
  ((result, w), σ')

instance : MonadLift SessionM Walk := ⟨liftSession⟩

def checkCancelled : Walk Unit := liftM SessionM.checkCancelled

/-- The resolutions of a path. The look-up is counted, and may be the one that is interrupted. -/
def lookUpPath (id : ExprId) : Walk (List PathResolution) := do
  modifyThe SessionState (·.countLookUp)
  return (← read).names.path id

def jumps : Walk Jumps := return (← getThe WalkState).toJumps

def setJumps (j : Jumps) : Walk Unit :=
  modifyThe WalkState fun w => { w with toJumps := j }

def setYielded (ty : Ty) : Walk Unit := do
  setJumps { ← jumps with yieldTy := some ty }

/-- Runs a walk to its end, and answers how it ended. -/
def attempt (act : Walk α) : Walk (Except Stop α) := do
  try
    return .ok (← act)
  catch stop =>
    return .error stop

/-- Walks what is inside a boundary, and answers what the jumps inside became. The jumps outside are
set again however the walk ends. -/
def inside (b : Boundary) (act : Walk α) : Walk (α × Jumps) := do
  let outer ← jumps
  setJumps (b.enter outer)
  let result ← attempt act
  let inner ← jumps
  setJumps (b.leave outer inner)
  return (← ofExcept result, inner)

end Walk

namespace Visitor

open Infer

def free (v : Visitor) (id : ExprId) : Walk Ty := v.expr id none

/-- Infers an expression and converts it to the expected type. The answer is the type the expression
stands for: the expected one unless the conversion failed. -/
def coerced (v : Visitor) (id : ExprId) (expected : Ty) : Walk Ty := do
  let inferred ← v.expr id (some expected)
  if expected.isUnknown then
    return inferred
  if ← coerce id inferred expected then return expected else return inferred

def condition (v : Visitor) (id : ExprId) : Walk Unit := discard (v.coerced id .bool)

/-- Matches a pattern in a place of its own. -/
def bindPat (v : Visitor) (id : PatId) (ty : Ty) : Walk Unit := v.pat id ty .move

end Visitor

end TypeInference
