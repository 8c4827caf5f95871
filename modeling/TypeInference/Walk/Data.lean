import TypeInference.Walk.Effect

/-!
# Literals, tuples, arrays and macros

A number without a suffix takes the expected type if that is a number of its kind, and otherwise
stands for any number of its kind until more is known.
-/

namespace TypeInference.Walk

open Infer

/-! ## Literals -/

def plainInt : Option Ty → Infer Ty
  | some (.int kind) => return .int kind
  | some (.var (.int v)) => return .var (.int v)
  | some .char => return .int .u8
  | some (.ptr ..) | some (.fn ..) => return .int .usize
  | _ => freshInt

def plainFloat : Option Ty → Infer Ty
  | some (.float kind) => return .float kind
  | some (.var (.float v)) => return .var (.float v)
  | _ => freshFloat

def literal (lit : Literal) (expected : Option Ty) : Infer Ty :=
  match lit with
  | .bool _ => return .bool
  | .char => return .char
  | .byteChar => return .int .u8
  | .str => return .staticStr
  | .byteStr len => return .ref (.array (.int .u8) (some len)) .shared .static
  | .int (some kind) => return .int kind
  | .int none => plainInt expected
  | .float (some kind) => return .float kind
  | .float none => plainFloat expected

/-! ## Tuples and arrays -/

def expectedElems : Option Ty → List Ty
  | some (.tuple tys) => tys
  | _ => []

def tuple (v : Visitor) (elems : List ExprId) (expected : Option Ty) : Walk Ty := do
  let slots := expectedElems expected
  let tys ← elems.zipIdx.mapM fun (elem, i) => v.coerced elem (slots[i]?.getD .unknown)
  return .tuple tys

def expectedElem : Option Ty → Option Ty
  | some (.array elem _) => some elem
  | some (.slice elem) => some elem
  | _ => none

/-- The common type of list elements. The expected type is taken if the common one converts
to it. -/
def elements (v : Visitor) (elems : List ExprId) (expected : Option Ty) : Walk Ty := do
  match elems with
  | [] =>
    match expected with
    | some ty => return ty
    | none => freshTy
  | first :: _ =>
    let joined ← join (← elems.mapM (v.expr · expected))
    match expected with
    | some ty => if ← tryCoerce first joined ty then return ty else return joined
    | none => return joined

def repeated (v : Visitor) (init len : ExprId) (expected : Option Ty) : Walk Ty := do
  let elem ← match expected with
    | some ty => v.coerced init ty
    | none => v.free init
  discard (v.coerced len (.int .usize))
  return elem

def arrayElem (v : Visitor) (arr : ArrayExpr) (expected : Option Ty) : Walk Ty :=
  match arr with
  | .list elems => elements v elems expected
  | .repeated init len _ => repeated v init len expected

def arrayLen : ArrayExpr → Option Nat
  | .list elems => some elems.length
  | .repeated _ _ value => value

def array (v : Visitor) (arr : ArrayExpr) (expected : Option Ty) : Walk Ty := do
  return .array (← arrayElem v arr (expectedElem expected)) (arrayLen arr)

/-! ## Macros -/

/-- The result of the well-known macros whose arguments do not matter. -/
def fixedMacroTy : String → Ty
  | "print" | "println" | "eprint" | "eprintln" | "write" | "writeln" => .unit
  | "assert" | "assert_eq" | "assert_ne" => .unit
  | "debug_assert" | "debug_assert_eq" | "debug_assert_ne" => .unit
  | "panic" | "unreachable" | "unimplemented" | "todo" => .never
  | "line" | "column" => .int .u32
  | "file" | "env" | "concat" | "stringify" | "include_str" | "module_path" => .staticStr
  | "cfg" => .bool
  | "include_bytes" => .ref (.slice (.int .u8)) .shared .static
  | _ => .unknown

def expectedVecElem (known : WellKnown) : Option Ty → Option Ty
  | some (.adt id args) => if known.vec = some id then args.head? else none
  | _ => none

def vecMacro (v : Visitor) (arr : ArrayExpr) (expected : Option Ty) : Walk Ty := do
  let known := (← read).known
  let elem ← arrayElem v arr (expectedVecElem known expected)
  wellKnownTy known.vec [elem]

/-- A macro on expressions that only looks at its name once the expressions are walked. -/
def plainMacro (v : Visitor) (name : String) (args : List ExprId) : Walk Ty := do
  let known := (← read).known
  args.forM fun arg => discard (v.free arg)
  match name with
  | "format" => wellKnownTy known.string []
  | "format_args" => wellKnownTy known.arguments []
  | "option_env" => wellKnownTy known.option [.staticStr]
  | "dbg" => return .tuple (← args.mapM fun arg => liftInfer (exprTy arg))
  | _ => return fixedMacroTy name

/-- The type of a macro call. Its arguments are always walked. -/
def macroCall (v : Visitor) (name : String) (args : MacroArgs) (expected : Option Ty) :
    Walk Ty := do
  match args with
  | .array arr =>
    if name = "vec" then
      vecMacro v arr expected
    else
      arr.children.forM fun child => discard (v.free child)
      return .unknown
  | .exprs args =>
    match name, args with
    | "vec", elems => vecMacro v (.list elems) expected
    | "dbg", [arg] => v.expr arg expected
    | "try", [arg] => questionOutput (← v.free arg)
    | "await", [arg] => awaitOutput (← v.free arg)
    | name, args => plainMacro v name args

end TypeInference.Walk
