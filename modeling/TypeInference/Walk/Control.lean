import TypeInference.Walk.Effect

/-!
# Blocks, branches and loops

A block with a statement that never finishes never finishes, whatever its tail is.
-/

namespace TypeInference.Walk

open Infer

/-! ## Statements -/

/-- The type of a `let` without annotation is that of its value; with one, the value converts to
it. -/
def letStatement (v : Visitor) (pat : PatId) (declared : Option Ty) (init : Option ExprId) :
    Walk Bool := do
  let explicit ← declared.mapM fun ty => liftInfer (normalized ty)
  let (diverges, inferred) ← match init with
    | some init => do
      let inferred ← v.expr init explicit
      match explicit with
      | some ty => discard (coerce init inferred ty)
      | none => pure ()
      pure (inferred.isNever, inferred)
    | none => do
      let ty ← freshTy
      pure (false, ty)
  let ty ← match explicit with
    | some ty => pure ty
    | none => resolveSettled inferred
  v.bindPat pat ty
  return diverges

/-- Walks a statement; the answer says whether it never finishes. -/
def statement (v : Visitor) : Statement → Walk Bool
  | .letPat pat ty init => letStatement v pat ty init
  | .expr id => do return (← v.free id).isNever

/-- The type of a block's tail. With `convert`, it converts to the expected type. -/
def tailTy (v : Visitor) (tail : Option ExprId) (expected : Option Ty) (convert : Bool) :
    Walk Ty := do
  match tail, expected with
  | some tail, some ty => if convert then v.coerced tail ty else v.expr tail (some ty)
  | some tail, none => v.free tail
  | none, _ => return .unit

def statements (v : Visitor) (stmts : List Statement) (tail : Option ExprId)
    (expected : Option Ty) (convert : Bool) : Walk Ty := do
  let diverging ← stmts.mapM (statement v)
  let ty ← tailTy v tail expected convert
  return if diverging.any id then .never else ty

/-! ## Blocks -/

/-- `async { .. }` is a future of its value; `return` and `?` inside it stay inside. -/
def asyncBlock (v : Visitor) (stmts : List Statement) (tail : Option ExprId) : Walk Ty := do
  let output ← freshTy
  let (ty, _) ← inside (.asyncBlock output) (statements v stmts tail (some output) false)
  unless ty.isNever do unify output ty
  return futureTy (← read).known (← resolve output)

/-- `try { .. }` wraps its value in the type that is expected of it; `?` inside it stays inside. -/
def tryBlock (v : Visitor) (stmts : List Statement) (tail : Option ExprId)
    (expected : Option Ty) : Walk Ty := do
  let wrapped ← match expected with
    | some ty => pure ty
    | none => freshTy
  let (ok, _) ← inside (.tryBlock wrapped) (statements v stmts tail none false)
  if let some trait := (← read).known.fallible then
    register [.ofProjection 0 ⟨⟨wrapped, trait, []⟩, "Ok"⟩ ok]
  return wrapped

def block (v : Visitor) (id : ExprId) (kind : BlockKind) (stmts : List Statement)
    (tail : Option ExprId) (expected : Option Ty) : Walk Ty := do
  match kind with
  | .plain | .unsafeBlock =>
    let ty ← statements v stmts tail expected false
    joinBreaks id ty true
  | .asyncBlock => asyncBlock v stmts tail
  | .tryBlock => tryBlock v stmts tail expected

/-- The root of a function or closure. A plain block takes the return type as its own and hands it
to its tail, so that a mismatch is reported there. -/
def root (v : Visitor) (id : ExprId) : Walk Unit := do
  let returnTy := (← jumps).returnTy
  match ← (← read).body.expr id with
  | .block kind none stmts tail =>
    if kind.isPlain then
      checkCancelled
      writeExprTy id returnTy
      let ty ← statements v stmts tail (some returnTy) true
      if tail.isNone && !ty.isNever then
        discard (coerce id ty returnTy)
    else
      discard (v.coerced id returnTy)
  | _ => discard (v.coerced id returnTy)

/-! ## Branches -/

def ifElse (v : Visitor) (condition thenBranch : ExprId) (elseBranch : Option ExprId)
    (expected : Option Ty) : Walk Ty := do
  v.condition condition
  let thenTy ← v.expr thenBranch expected
  match elseBranch with
  | some elseBranch => join [thenTy, ← v.expr elseBranch expected]
  | none => return .unit

def matchArm (v : Visitor) (scrutinee : Ty) (expected : Option Ty) (arm : MatchArm) :
    Walk Ty := do
  v.bindPat arm.pat scrutinee
  arm.guard.forM v.condition
  v.expr arm.expr expected

def matchOn (v : Visitor) (scrutinee : ExprId) (arms : List MatchArm) (expected : Option Ty) :
    Walk Ty := do
  let ty ← resolveSettled (← v.free scrutinee)
  join (← arms.mapM (matchArm v ty expected))

def letCond (v : Visitor) (pat : PatId) (expr : ExprId) : Walk Ty := do
  v.bindPat pat (← resolveSettled (← v.free expr))
  return .bool

/-! ## Loops -/

def loop (v : Visitor) (id body : ExprId) : Walk Ty := do
  discard (v.free body)
  joinBreaks id .never false

def whileLoop (v : Visitor) (condition body : ExprId) : Walk Ty := do
  v.condition condition
  discard (v.free body)
  return .unit

/-- What a `for` loop over a type takes one by one. -/
def itemTy (iterable : Ty) : Infer Ty := do
  match (← read).known.intoIterator with
  | some trait =>
    if iterable.isUnknown then return .unknown
    else resolveSettled (← assocOf iterable trait "Item")
  | none => return .unknown

def forLoop (v : Visitor) (pat : PatId) (iterable body : ExprId) : Walk Ty := do
  let ty ← resolveSettled (← v.free iterable)
  v.bindPat pat (← itemTy ty)
  discard (v.free body)
  return .unit

end TypeInference.Walk
