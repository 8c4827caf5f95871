import TypeInference.Decl.WellKnown

/-!
# Expressions and patterns

The syntax of one body, already lowered: nodes refer to each other by number, literals carry no
value beyond what their type depends on, and macro calls have become lists of expressions.
-/

namespace TypeInference

structure ExprId where
  index : Nat
deriving DecidableEq, Repr

structure PatId where
  index : Nat
deriving DecidableEq, Repr

/-- A node of a body: an expression or a pattern. -/
inductive Site where
  | expr (id : ExprId)
  | pat (id : PatId)
deriving DecidableEq, Repr

/-- The item a body belongs to. -/
inductive Owner where
  | function (id : FnId)
  | const (id : ConstId)
  /-- An anonymous constant in the length of an array type. -/
  | arrayLen (index : Nat)
  /-- The value given to a variant of an enum. -/
  | discriminant (adt : AdtId) (index : Nat)
deriving DecidableEq, Repr

abbrev Path := List String

/-- `S::f` rather than `f`. -/
def Path.isQualified (p : Path) : Bool :=
  1 < p.length

inductive Literal where
  | bool (value : Bool)
  | char
  | byteChar
  | str
  | byteStr (len : Nat)
  | int (suffix : Option IntTy)
  | float (suffix : Option FloatTy)

inductive FieldName where
  | named (name : String)
  | index (index : Nat)

inductive UnaryOp where
  | ref (mutability : Mutability)
  | deref
  | neg
  | not
  | box

inductive LogicOp where
  | and | or

inductive CmpOp where
  | eq | ne | lt | le | gt | ge

def CmpOp.isEquality : CmpOp → Bool
  | .eq | .ne => true
  | _ => false

inductive BinaryOp where
  | logic (op : LogicOp)
  | arith (op : ArithOp)
  | cmp (op : CmpOp)
  /-- Assignment, plain or through an operator. -/
  | assign (op : Option ArithOp)

inductive BlockKind where
  | plain
  | unsafeBlock
  | asyncBlock
  | tryBlock
deriving DecidableEq

/-- A block that only groups statements. -/
def BlockKind.isPlain : BlockKind → Bool
  | .plain | .unsafeBlock => true
  | _ => false

inductive Statement where
  | letPat (pat : PatId) (ty : Option Ty) (init : Option ExprId)
  | expr (expr : ExprId)

structure MatchArm where
  pat : PatId
  guard : Option ExprId
  expr : ExprId

inductive ArrayExpr where
  | list (elems : List ExprId)
  /-- `[init; len]`, with the value of the length where it is known. -/
  | repeated (init len : ExprId) (lenValue : Option Nat)

def ArrayExpr.children : ArrayExpr → List ExprId
  | .list elems => elems
  | .repeated init len _ => [init, len]

structure FieldInit where
  name : String
  expr : ExprId

structure ClosureParam where
  pat : PatId
  ty : Option Ty

inductive MacroArgs where
  | exprs (args : List ExprId)
  | array (array : ArrayExpr)

def MacroArgs.children : MacroArgs → List ExprId
  | .exprs args => args
  | .array arr => arr.children

inductive Expr where
  /-- A piece of text that could not be understood. -/
  | missing
  | path (path : Path)
  | literal (lit : Literal)
  | structLit (path : Path) (fields : List FieldInit) (spread : Option ExprId)
  | tuple (elems : List ExprId)
  | array (array : ArrayExpr)
  | range (lhs rhs : Option ExprId) (inclusive : Bool)
  | index (base index : ExprId)
  | cast (expr : ExprId) (ty : Ty)
  | call (callee : ExprId) (args : List ExprId)
  | methodCall (receiver : ExprId) (method : String) (genericArgs : List Ty) (args : List ExprId)
  | field (receiver : ExprId) (name : FieldName)
  | block (kind : BlockKind) (label : Option String) (stmts : List Statement)
      (tail : Option ExprId)
  | ifElse (condition thenBranch : ExprId) (elseBranch : Option ExprId)
  /-- `let PAT = EXPR` in the place of a condition. -/
  | letCond (pat : PatId) (expr : ExprId)
  | loop (label : Option String) (body : ExprId)
  | whileLoop (label : Option String) (condition body : ExprId)
  | forLoop (label : Option String) (pat : PatId) (iterable body : ExprId)
  | matchOn (scrutinee : ExprId) (arms : List MatchArm)
  | unary (op : UnaryOp) (expr : ExprId)
  | binary (op : BinaryOp) (lhs rhs : ExprId)
  /-- `expr?` -/
  | question (expr : ExprId)
  | await (expr : ExprId)
  | yieldValue (expr : Option ExprId)
  | returnValue (expr : Option ExprId)
  | breakLoop (label : Option String) (expr : Option ExprId)
  | continueLoop (label : Option String)
  | closure (params : List ClosureParam) (ret : Option Ty) (body : ExprId) (isAsync : Bool)
  | macroCall (name : String) (args : MacroArgs)

namespace Expr

def label? : Expr → Option String
  | .loop label _ | .whileLoop label .. | .forLoop label .. | .block _ label .. => label
  | _ => none

def rangeKind? : Expr → Option RangeKind
  | .range none none _ => some .full
  | .range (some _) none _ => some .from
  | .range none (some _) false => some .to
  | .range none (some _) true => some .toInclusive
  | .range (some _) (some _) false => some .exclusive
  | .range (some _) (some _) true => some .inclusive
  | _ => none

def isClosure : Expr → Bool
  | .closure .. => true
  | _ => false

/-- The expressions directly inside a statement. -/
def ofStatement : Statement → List ExprId
  | .letPat _ _ init => init.toList
  | .expr expr => [expr]

/-- The expressions directly inside an expression, in the order of evaluation. -/
def children : Expr → List ExprId
  | .missing | .path _ | .literal _ | .continueLoop _ => []
  | .structLit _ fields spread => fields.map (·.expr) ++ spread.toList
  | .tuple elems => elems
  | .array arr => arr.children
  | .range lhs rhs _ => lhs.toList ++ rhs.toList
  | .index base idx => [base, idx]
  | .cast expr _ => [expr]
  | .call callee args => callee :: args
  | .methodCall receiver _ _ args => receiver :: args
  | .field receiver _ => [receiver]
  | .block _ _ stmts tail => stmts.flatMap ofStatement ++ tail.toList
  | .ifElse condition thenBranch elseBranch => condition :: thenBranch :: elseBranch.toList
  | .letCond _ expr => [expr]
  | .loop _ body => [body]
  | .whileLoop _ condition body => [condition, body]
  | .forLoop _ _ iterable body => [iterable, body]
  | .matchOn scrutinee arms => scrutinee :: arms.flatMap fun arm => arm.guard.toList ++ [arm.expr]
  | .unary _ expr => [expr]
  | .binary _ lhs rhs => [lhs, rhs]
  | .question expr => [expr]
  | .await expr => [expr]
  | .yieldValue expr => expr.toList
  | .returnValue expr => expr.toList
  | .breakLoop _ expr => expr.toList
  | .closure _ _ body _ => [body]
  | .macroCall _ args => args.children

end Expr

inductive BindingMode where
  | byValue (mutability : Mutability)
  | byRef (mutability : Mutability)

inductive Pat where
  | missing
  | wild
  | bind (name : String) (mode : BindingMode) (sub : Option PatId)
  | tuple (pats : List PatId)
  | tupleStruct (path : Path) (args : List PatId)
  | structPat (path : Path) (fields : List (String × PatId))
  /-- A unit struct, a unit variant or a constant. -/
  | path (path : Path)
  | ref (pat : PatId) (mutability : Mutability)
  | lit (expr : ExprId)
  | range (start stop : Option ExprId)
  /-- `[front.., rest @ .., back..]` -/
  | slice (front : List PatId) (rest : Option PatId) (back : List PatId)
  | or (alternatives : List PatId)

end TypeInference
