import QueryTree.Proofs.Lowered

/-!
# Rows by the selects around them

Lowering counts the steps to a row by levels. `Expr.lowerAt` has no levels but a list of the scopes
around: the number of steps is the position of the first one that is the scope of the row. All else
is left to the functions of `Expr.lower`.
-/

namespace QueryTree

open Surql (Term)

namespace LowerM

/-- The way to the row that is so many selects further out. -/
def parents : Nat → List Surql.Part
  | 0 => []
  | k + 1 => .start (.param "parent") :: List.replicate k .parent

/-- How many selects further out the row of `scope` is, inside selects with the scopes `around`, the
innermost first. -/
def distance (around : List ScopeId) (scope : ScopeId) : Except Error Nat :=
  match around.idxOf? scope with
  | some k => .ok k
  | none => .error .rowOutOfScope

/-- The way to the row of `scope`, inside selects with the scopes `around`. -/
def pathAt (around : List ScopeId) (scope : ScopeId) : LowerM (List Surql.Part) :=
  return parents (← ofExcept (distance around scope))

end LowerM

namespace Lowering

/-- The row of a select around. -/
def rowAt (around : List ScopeId) (scope : ScopeId) : LowerM Term := do
  match ← LowerM.pathAt around scope with
  | [] => return .param "this"
  | parts => return .path parts

/-- A member; a column of a row is found by the selects `around`. -/
def memberAt (around : List ScopeId) (base : Operand) (members : List (String × Operand))
    (items : List (LowerM Term)) (name : String) : LowerM Term :=
  match base.expr with
  | .row scope t =>
    if isComputed t name then member base members items name
    else return .path ((← LowerM.pathAt around scope) ++ [.field (t.columnName name)])
  | _ => member base members items name

end Lowering

open Lowering

mutual

/-- `lower` of an expression inside selects with the scopes `around`. -/
def Expr.lowerAt (around : List ScopeId) : Expr → LowerM Term
  | .row scope _ => rowAt around scope
  | .member base name _ =>
    memberAt around ⟨base, base.lowerAt around⟩ (base.memberOperandsAt around)
      (base.knownItemsAt around) name
  | .call surface method receiver args _ =>
    call surface method (Expr.operandAt around receiver) (Expr.operandsAt around args)
  | .unary op operand t => unary op ⟨operand, operand.lowerAt around⟩ t
  | .binary op left right _ => binary op ⟨left, left.lowerAt around⟩ ⟨right, right.lowerAt around⟩
  | .newObject _ members => return .object (← Expr.lowerMembersAt around members)
  | .newArray _ items => return .array (← Operand.all (Expr.operandsAt around items))
  | .construct t args => construct t (Expr.operandsAt around args)
  | .select s => return .subquery (← s.lowerAt around)
  | .subquery s => return .subquery (← s.lowerAt around)
  | .custom inner _ => inner.lowerAt around
  | .groupAggregate kind selector _ =>
    return .call (kind.function true) (← Operand.all (Expr.operandAt around selector).toList)
  | e => e.lower
termination_by structural e => e

def Expr.operandAt (around : List ScopeId) : Option Expr → Option Operand
  | none => none
  | some e => some ⟨e, e.lowerAt around⟩
termination_by structural e => e

def Expr.operandsAt (around : List ScopeId) : List Expr → List Operand
  | [] => []
  | e :: es => ⟨e, e.lowerAt around⟩ :: Expr.operandsAt around es
termination_by structural es => es

def Expr.namedOperandsAt (around : List ScopeId) : List (String × Expr) → List (String × Operand)
  | [] => []
  | (name, e) :: es => (name, ⟨e, e.lowerAt around⟩) :: Expr.namedOperandsAt around es
termination_by structural es => es

def Expr.lowerMembersAt (around : List ScopeId) : List (String × Expr) →
    LowerM (List (String × Term))
  | [] => return []
  | (name, e) :: es => return (name, ← e.lowerAt around) :: (← Expr.lowerMembersAt around es)
termination_by structural es => es

def Expr.memberOperandsAt (around : List ScopeId) : Expr → List (String × Operand)
  | .newObject _ members => Expr.namedOperandsAt around members
  | _ => []
termination_by structural e => e

def Expr.knownItemsAt (around : List ScopeId) : Expr → List (LowerM Term)
  | .unary .quote e _ => e.knownItemsAt around
  | .construct _ args => (Expr.operandsAt around args).map (·.lowered)
  | .newArray _ items => (Expr.operandsAt around items).map (·.lowered)
  | .constant (.array items) _ => items.map Value.lower
  | _ => []
termination_by structural e => e

/-- `lower` of a select inside selects with the scopes `around`. Its clauses and what it reads are
inside itself too. -/
def Select.lowerAt (around : List ScopeId) : Select → LowerM Surql.Statement
  | ⟨scope, _, source, projection, filter, group, orderings, take, skip, single, _⟩ => do
    let target ← source.lowerAt (scope :: around)
    let columns ← projection.lowerAt scope (scope :: around)
    let cond ← Expr.lowerOptionAt (scope :: around) filter
    let group ← RowGroup.lowerAt (scope :: around) group
    let order ← SortKey.lowerAt (scope :: around) orderings
    let limit ← Expr.lowerOptionAt (scope :: around) take
    let start ← Expr.lowerOptionAt (scope :: around) skip
    return { columns, target, only := single, cond, group, order, limit, start }
termination_by structural s => s

def RowSource.lowerAt (around : List ScopeId) : RowSource → LowerM Surql.Target
  | .table name => return .table name
  | .subquery s => return .subquery (← s.lowerAt around)
termination_by structural s => s

def Projection.lowerAt (scope : ScopeId) (around : List ScopeId) : Projection → LowerM Surql.Columns
  | .all => return .all
  | .expr (.row s t) => do
    if s == scope then return .all else return .value (← (Expr.row s t).lowerAt around)
  | .expr (.newObject _ (m :: members)) =>
    return .list (← Expr.lowerColumnsAt around (m :: members))
  | .expr e => return .value (← e.lowerAt around)
  | .fields fields => return .list (← OutputField.lowerAt around fields)
  | .count predicate => do
    let args ← Operand.all (Expr.operandAt around predicate).toList
    return .list [⟨.call (AggregateKind.count.function false) args, none⟩]
  | .aggregation kind selector label => do
    return .list [⟨.call (kind.function false) [← selector.lowerAt around], some label⟩]
termination_by structural p => p

def Expr.lowerColumnsAt (around : List ScopeId) : List (String × Expr) → LowerM (List Surql.Column)
  | [] => return []
  | (name, e) :: es => return ⟨← e.lowerAt around, some name⟩ :: (← Expr.lowerColumnsAt around es)
termination_by structural es => es

def OutputField.lowerAt (around : List ScopeId) : List OutputField → LowerM (List Surql.Column)
  | [] => return []
  | ⟨e, label⟩ :: fields =>
    return ⟨← e.lowerAt around, label⟩ :: (← OutputField.lowerAt around fields)
termination_by structural fields => fields

def Expr.lowerOptionAt (around : List ScopeId) : Option Expr → LowerM (Option Term)
  | none => return none
  | some e => return some (← e.lowerAt around)
termination_by structural e => e

def RowGroup.lowerAt (around : List ScopeId) : Option RowGroup → LowerM (Option Surql.GroupBy)
  | none => return none
  | some .all => return some .all
  | some (.keys keys) => return some (.keys (← Operand.all (Expr.operandsAt around keys)))
termination_by structural g => g

def SortKey.lowerAt (around : List ScopeId) : List SortKey → LowerM (List Surql.OrderBy)
  | [] => return []
  | ⟨e, descending⟩ :: keys =>
    return ⟨← e.lowerAt around, descending⟩ :: (← SortKey.lowerAt around keys)
termination_by structural keys => keys

end

/-- The query of a bound tree, outside any select. -/
def Expr.lowerRootAt : Expr → LowerM Surql.Query
  | .select s => return .statement (← s.lowerAt [])
  | e => return .term (← e.lowerAt [])

end QueryTree
