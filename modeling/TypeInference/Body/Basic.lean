import TypeInference.Body.Names
import TypeInference.Fault

/-!
# Bodies

A body holds its expressions and patterns by number, the place of each in the source text, and
the parent of every expression. It grows as a `Draft`, node by node; `Draft.finish` links the
parents, which is where an expression with a child that is not there comes to light. A child of
several parents belongs to the last of them.
-/

namespace TypeInference

/-- A span of source text, in bytes. -/
structure TextRange where
  start : Nat
  stop : Nat
  start_le_stop : start ≤ stop
deriving DecidableEq

namespace TextRange

def ofBounds (start stop : Nat) : Except Fault TextRange :=
  if h : start ≤ stop then .ok ⟨start, stop, h⟩ else .error (.reversedRange start stop)

def byteAt (start : Nat) : TextRange :=
  ⟨start, start + 1, by omega⟩

end TextRange

structure ExprNode where
  expr : Expr
  range : TextRange
  parent : Option ExprId

structure PatNode where
  pat : Pat
  range : TextRange

structure Body where
  exprs : Array ExprNode
  pats : Array PatNode
  /-- The patterns of the parameters, the self parameter first. -/
  params : List PatId
  root : ExprId

namespace Body

def exprNode (body : Body) (id : ExprId) : Except Fault ExprNode :=
  entry .expr body.exprs id.index

def patNode (body : Body) (id : PatId) : Except Fault PatNode :=
  entry .pat body.pats id.index

def expr (body : Body) (id : ExprId) : Except Fault Expr := do
  return (← body.exprNode id).expr

def pat (body : Body) (id : PatId) : Except Fault Pat := do
  return (← body.patNode id).pat

def parent? (body : Body) (id : ExprId) : Except Fault (Option ExprId) := do
  return (← body.exprNode id).parent

def range (body : Body) : Site → Except Fault TextRange
  | .expr id => do return (← body.exprNode id).range
  | .pat id => do return (← body.patNode id).range

def isClosure (body : Body) (id : ExprId) : Except Fault Bool := do
  return (← body.expr id).isClosure

/-- How many levels down a walk of the body can get and still end. Below a node that is inside
itself, the walk takes the same way down again; it ends there when it comes past an expression
that it recorded on the first way down. So it meets each node at most twice on one way down. -/
def walkDepth (body : Body) : Nat :=
  2 * (body.exprs.size + body.pats.size) + 2

/-- Climbs at most `n` parent links from `expr` in search of `ancestor`. -/
def climbsTo (body : Body) (ancestor : ExprId) : Nat → ExprId → Except Fault Bool
  | 0, _ => .error .exhausted
  | n + 1, expr =>
    if expr = ancestor then .ok true
    else do
      match ← body.parent? expr with
      | some parent => body.climbsTo ancestor n parent
      | none => return false

/-- Whether `ancestor` is `expr` or encloses it. -/
def isAncestorOf (body : Body) (ancestor expr : ExprId) : Except Fault Bool :=
  body.climbsTo ancestor (body.exprs.size + 1) expr

end Body

/-! ## Growing a body -/

/-- A body whose parents are not linked yet. -/
structure Draft where
  exprs : List ExprNode
  pats : List PatNode
  names : Names
  /-- Where the next node without a place of its own is put. -/
  nextOffset : Nat

namespace Draft

def empty : Draft := ⟨[], [], .empty, 0⟩

/-- The given range, or the next free byte. -/
def place (draft : Draft) : Option TextRange → TextRange × Nat
  | some range => (range, draft.nextOffset)
  | none => (.byteAt draft.nextOffset, draft.nextOffset + 1)

def addExpr (draft : Draft) (expr : Expr) (range : Option TextRange) : ExprId × Draft :=
  let (range, nextOffset) := draft.place range
  (⟨draft.exprs.length⟩,
    { draft with exprs := draft.exprs ++ [⟨expr, range, none⟩], nextOffset })

def addPat (draft : Draft) (pat : Pat) (range : Option TextRange) : PatId × Draft :=
  let (range, nextOffset) := draft.place range
  (⟨draft.pats.length⟩, { draft with pats := draft.pats ++ [⟨pat, range⟩], nextOffset })

def linkChild (parent : ExprId) (nodes : List ExprNode) (child : ExprId) :
    Except Fault (List ExprNode) :=
  if child.index < nodes.length then
    .ok (nodes.modify child.index fun node => { node with parent := some parent })
  else
    .error (.dangling .expr child.index)

/-- Makes each expression the parent of its children, in the order of their numbers. -/
def linkParents (nodes : List ExprNode) : Except Fault (List ExprNode) :=
  nodes.zipIdx.foldlM (fun linked (node, i) => node.expr.children.foldlM (linkChild ⟨i⟩) linked)
    nodes

/-- The finished body. -/
def finish (draft : Draft) (params : List PatId) (root : ExprId) : Except Fault (Body × Names) := do
  let exprs ← linkParents draft.exprs
  return (⟨exprs.toArray, draft.pats.toArray, params, root⟩, draft.names)

end Draft

end TypeInference
