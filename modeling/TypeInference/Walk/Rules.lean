import TypeInference.Walk.Call
import TypeInference.Walk.Closure
import TypeInference.Walk.Data
import TypeInference.Walk.Named
import TypeInference.Walk.Operator
import TypeInference.Walk.Pattern

/-!
# The rules together

`expression` has one rule for each kind of expression. The type of an expression is recorded once,
after those of its parts. `visitor` ties the rules into a walk of bounded depth; `Body.walkDepth` is
a bound that no walk that ends gets past.
-/

namespace TypeInference.Walk

open Infer

/-- The expectation as the rules see it: an unknown type is none, and a variable is resolved. -/
def expectation : Option Ty → Infer (Option Ty)
  | some .unknown | none => return none
  | some ty => do return some (← head ty)

def kindTy (v : Visitor) (id : ExprId) (expected : Option Ty) : Expr → Walk Ty
  | .missing => return .unknown
  | .path p => path v id p
  | .literal lit => literal lit expected
  | .structLit _ fields spread => structLit v id fields spread expected
  | .tuple elems => tuple v elems expected
  | .array arr => array v arr expected
  | .range lhs rhs _ => range v id lhs rhs
  | .index base idx => index v base idx
  | .cast inner ty => do
    discard (v.free inner)
    normalized ty
  | .call callee args => call v callee args expected
  | .methodCall receiver method genericArgs args =>
    methodCall v id receiver method genericArgs args expected
  | .field receiver name => field v id receiver name
  | .block kind _ stmts tail => block v id kind stmts tail expected
  | .ifElse condition thenBranch elseBranch => ifElse v condition thenBranch elseBranch expected
  | .letCond pat inner => letCond v pat inner
  | .loop _ body => loop v id body
  | .whileLoop _ condition body => whileLoop v condition body
  | .forLoop _ pat iterable body => forLoop v pat iterable body
  | .matchOn scrutinee arms => matchOn v scrutinee arms expected
  | .unary op inner => unary v id op inner expected
  | .binary op lhs rhs => binary v op lhs rhs
  | .question inner => do questionOutput (← v.free inner)
  | .await inner => do awaitOutput (← v.free inner)
  | .yieldValue value => yieldValue v value
  | .returnValue value => do
    value.forM fun value => do discard (v.coerced value (← jumps).returnTy)
    return .never
  | .breakLoop _ value => do
    value.forM fun value => discard (v.free value)
    return .never
  | .continueLoop _ => return .never
  | .closure params ret body isAsync => closure v params ret body isAsync expected
  | .macroCall name args => macroCall v name args expected

def expression (v : Visitor) (id : ExprId) (expected : Option Ty) : Walk Ty := do
  checkCancelled
  let expected ← expectation expected
  let ty ← kindTy v id expected (← (← read).body.expr id)
  writeExprTy id ty
  return ty

/-- Visits nodes at most `n` levels down. -/
def visitor (const : ConstId → SessionM Ty) : Nat → Visitor
  | 0 => {
      expr := fun _ _ => throw (.fault .exhausted)
      pat := fun _ _ _ => throw (.fault .exhausted)
      const }
  | n + 1 => {
      expr := expression (visitor const n)
      pat := pattern (visitor const n)
      const }

end TypeInference.Walk
