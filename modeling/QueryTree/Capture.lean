import QueryTree.Expr.Traverse
import QueryTree.Params

/-!
# Captured variables

Captured values become named parameters of the query, and tables take the place of captured tables.
-/

namespace QueryTree

/-- Computations that give out the names of parameters. -/
abbrev NameM := StateT Params (Except Error)

/-- What a node becomes, if it is a `source` or `captured`. -/
def nameNode : Expr → NameM (Option Expr)
  | .source s => return some (.table s.table s.element)
  | .captured _ (.source s) _ => return some (.table s.table s.element)
  | .captured name (.value v) t => do
    let name ← modifyGet fun params => params.named name v
    return some (.named name t)
  | .captured name .unavailable _ => throw (.unresolvedCapture name)
  | _ => return none

/-- `e` with a parameter for each captured value. -/
def Expr.nameCaptures (e : Expr) : NameM Expr :=
  e.replaceM nameNode

/-- Whether a node is a captured value. -/
def Expr.isCapturedValue : Expr → Bool
  | .captured _ (.value _) _ => true
  | _ => false

/-- The number of captured values in `e`, each counted as often as it occurs. -/
def Expr.captureCount (e : Expr) : Nat :=
  (e.walk fun _ => true).countP isCapturedValue

end QueryTree
