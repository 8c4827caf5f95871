import TypeInference.Walk.Owner
import TypeInference.Walk.Rules

/-!
# Sessions

A session infers the bodies of a program one after the other. A constant without a declared type is
inferred where it is used, inside the body that uses it; the session keeps the bodies that are being
inferred, so a constant that depends on itself is noticed and its type is unknown there.

Nothing else passes from one body to the next but the request to cancel: see `SessionState`.
-/

namespace TypeInference

/-- Declarations and the bodies that belong to them. -/
structure Program where
  items : Items
  known : WellKnown
  bodies : List (Owner × Body × Names) := []

namespace Program

def addBody (p : Program) (owner : Owner) (body : Body) (names : Names) : Program :=
  { p with bodies := (owner, body, names) :: p.bodies.filter (·.1 ≠ owner) }

def body? (p : Program) (owner : Owner) : Option (Body × Names) :=
  (p.bodies.find? (·.1 = owner)).map (·.2)

end Program

def Owner.text : Owner → String
  | .function id => s!"Function(FunctionId({id.index}))"
  | .const id => s!"Const(ConstId({id.index}))"
  | .arrayLen index => s!"ArrayLen({index})"
  | .discriminant adt index => s!"Discriminant(AdtId({adt.index}), {index})"

/-- The sentence shown to the user when there is no outcome. -/
def Stop.message? : Stop → Option String
  | .cancelled => some "type inference was cancelled"
  | .cycle owner => some ("inference of " ++ owner.text ++ " depends on itself")
  | .missingBody owner => some ("no body is known for " ++ owner.text)
  | .fault f => f.message?

structure Session where
  program : Program
  config : Config := {}
  /-- The number of the look-up during which the user asks to cancel, if there is one. -/
  cancelAfter : Option Nat := none

namespace Session

/-- Runs `act` while `owner` counts as being inferred. The mark goes away however `act` ends. -/
def whileRunning {α : Type} (owner : Owner) (act : SessionM α) : SessionM α :=
  ExceptT.mk fun s =>
    let (result, s') := act.run.run { s with running := owner :: s.running }
    (result, { s' with running := s'.running.tail })

/-- What a body is inferred with. -/
def scope (s : Session) (owner : Owner) (body : Body) (names : Names) (env : ParamEnv) :
    Scope where
  items := s.program.items
  known := s.program.known
  config := s.config
  owner := owner
  body := body
  names := names
  env := env

/-- Infers a body whose constants are inferred by `const`. -/
def inferBody (s : Session) (const : ConstId → SessionM Ty) (owner : Owner) (body : Body)
    (names : Names) : SessionM Outcome := do
  match ParamEnv.ofOwner s.program.items owner with
  | .error fault => throw (.fault fault)
  | .ok env =>
    let visitor := Walk.visitor const body.walkDepth
    let (outcome, _) ← (Walk.wholeBody visitor).go (s.scope owner body names env) {}
    return outcome

/-- Starts on a body, unless it is being inferred already, the user asked to cancel, or there is no
such body. -/
def start (s : Session) (const : ConstId → SessionM Ty) (owner : Owner) : SessionM Outcome := do
  if owner ∈ (← get).running then
    throw (.cycle owner)
  SessionM.checkCancelled
  match s.program.body? owner with
  | none => throw (.missingBody owner)
  | some (body, names) => whileRunning owner (s.inferBody const owner body names)

/-- The type at the root of a constant's body. One that cannot be inferred is unknown. -/
def rootTy (s : Session) (id : ConstId) (infer : SessionM Outcome) : SessionM Ty := do
  try
    let outcome ← infer
    match s.program.body? (.const id) with
    | some (body, _) => return outcome.exprTy body.root
    | none => return .unknown
  catch
    | .cycle _ | .missingBody _ => return .unknown
    | stop => throw stop

/-- Infers a body, with constants inside constants at most `n` deep. -/
def inferWithin (s : Session) : Nat → Owner → SessionM Outcome
  | 0, _ => throw (.fault .exhausted)
  | n + 1, owner => s.start (fun id => s.rootTy id (s.inferWithin n (.const id))) owner

/-- Infers the body of `owner`. Bodies that are being inferred are all different, so they are at
most as deep as there are bodies. -/
def infer (s : Session) (owner : Owner) : SessionM Outcome :=
  s.inferWithin (s.program.bodies.length + 1) owner

/-- When the user asks to cancel in this session. -/
def request (s : Session) : Request :=
  match s.cancelAfter with
  | some number => .duringLookUp number
  | none => .never

def inferAll (s : Session) (cancelled : Bool) (owners : List Owner) : List (Except Stop Outcome) :=
  let step (owner : Owner) : StateM SessionState (Except Stop Outcome) := (s.infer owner).run
  ((owners.mapM step).run { cancelled, request := s.request }).1

end Session

end TypeInference
