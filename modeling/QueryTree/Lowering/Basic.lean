import QueryTree.Nesting
import QueryTree.Params
import QueryTree.Surql.Basic

/-!
# Making query text of bound trees: effects and operands

A bound tree becomes a term of the query language. On the way record ids get names, and the nesting
of selects is kept so that rows further out can be reached.
-/

namespace QueryTree

/-- What is kept while terms are made. -/
structure LowerState where
  params : Params
  nesting : Nesting

/-- Computations that make terms. The `LowerState` outlives a failure. -/
abbrev LowerM := ExceptT Error (StateM LowerState)

namespace LowerM

/-- A result that may be an error. -/
def ofExcept {α : Type} (x : Except Error α) : LowerM α :=
  ExceptT.mk (pure x)

/-- The name that the record id `v` gets. -/
def recordId (v : Value) : LowerM String :=
  modifyGet fun s =>
    let (name, params) := s.params.recordId v
    (name, { s with params })

/-- `act` one level further in. The level is left again, also after a failure. -/
def nested {α : Type} (act : LowerM α) : LowerM α :=
  ExceptT.mk do
    modify fun s => { s with nesting := s.nesting.enter }
    let result ← act.run
    modify fun s => { s with nesting := s.nesting.exit }
    return result

/-- `act` with the rows of `scope` at the current level. What `scope` was before is put back, also
after a failure. -/
def withScope {α : Type} (scope : ScopeId) (act : LowerM α) : LowerM α :=
  ExceptT.mk do
    let previous ← modifyGet fun s =>
      let (previous, nesting) := s.nesting.bind scope
      (previous, { s with nesting })
    let result ← act.run
    modify fun s => { s with nesting := s.nesting.restore scope previous }
    return result

/-- The way from the current row to the row of `scope`: empty for the current row itself, else the
parent as often as there are levels between. -/
def rowPath (scope : ScopeId) : LowerM (List Surql.Part) := do
  match ← ofExcept ((← get).nesting.depth scope) with
  | 0 => return []
  | depth + 1 => return .start (.param "parent") :: List.replicate depth .parent

end LowerM

/-- An operand: the expression it is, and the making of its term. -/
structure Operand where
  expr : Expr
  lowered : LowerM Surql.Term

namespace Operand

/-- The term of the argument `x` of `method`, at `position` counted from zero. A lambda has none. -/
def argument (method : String) (position : Nat) (x : Operand) : LowerM Surql.Term :=
  if x.expr.unquote.isLambda then throw (.argumentNotValue method position) else x.lowered

/-- The terms of arguments in order, the first of them at `position`. -/
def arguments (method : String) : (position : Nat) → List Operand → LowerM (List Surql.Term)
  | _, [] => return []
  | position, x :: xs =>
    return (← x.argument method position) :: (← arguments method (position + 1) xs)

def all : List Operand → LowerM (List Surql.Term)
  | [] => return []
  | x :: xs => return (← x.lowered) :: (← all xs)

/-- A call of `function` with the terms of `xs`. -/
def callWith (function method : String) (xs : List Operand) : LowerM Surql.Term :=
  return .call function (← arguments method 0 xs)

/-- `op` on the terms of two arguments. -/
def combine (method : String) (op : Surql.BinaryOp) (left right : Operand) : LowerM Surql.Term :=
  return .binary (← left.argument method 0) op (← right.argument method 1)

end Operand

/-- The operands of a call: `receiver`, if there is one, and `args`. -/
def allOperands (receiver : Option Operand) (args : List Operand) : List Operand :=
  receiver.toList ++ args

end QueryTree
