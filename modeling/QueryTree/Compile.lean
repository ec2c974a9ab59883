import QueryTree.Capture
import QueryTree.Lowering.Tree
import QueryTree.Relation.Bind
import QueryTree.Surql.Text
import QueryTree.Value.Json

/-!
# Compiling trees

A tree goes through three steps: captured values get names, query operators become selects, and the
selects become a query.
-/

namespace QueryTree

/-- A query and what its parameters stand for. -/
structure CompiledQuery where
  text : String
  parameters : List (String × Value)

/-- The parameters of `q` as they are handed over with it. -/
def CompiledQuery.parametersJson (q : CompiledQuery) : Json :=
  .object (Value.membersToPlain q.parameters)

/-- The query of the bound tree `e`, and `params` with those that it needs in addition. -/
def Expr.toQuery (e : Expr) (params : Params) : Except Error (Surql.Query × Params) :=
  let (result, state) := (e.lowerRoot.run).run ⟨params, .empty⟩
  result.map fun query => (query, state.params)

/-- Names the captures of `e`, binds the tree, lowers it and prints the query. -/
def Expr.compile (o : Options) (e : Expr) : Except Error CompiledQuery := do
  let (tree, params) ← e.nameCaptures.run (.empty o)
  let bound ← (tree.bind.run.run 0).1
  let (query, params) ← bound.toQuery params
  return ⟨query.text, params.entries⟩

end QueryTree
