import QueryTree.Expr.Build

/-!
# Operations on selects

Each query operator changes one clause of a select, so that a chain of operators becomes one select.
-/

namespace QueryTree.Select

/-- All rows of `source`. -/
def ofSource (scope : ScopeId) (source : RowSource) (element : Ty) : Select :=
  { scope, element, source, projection := .all, filter := none, group := none, orderings := [],
    take := none, skip := none, single := false, groupKey := none }

def ofTable (scope : ScopeId) (name : String) (element : Ty) : Select :=
  ofSource scope (.table name) element

/-- All rows that `inner` puts out. -/
def ofSelect (scope : ScopeId) (inner : Select) : Select :=
  ofSource scope (.subquery inner) inner.projectedType

/-- Keeps only rows that also satisfy `predicate`. -/
def filterBy (s : Select) (predicate : Expr) : Select :=
  { s with filter := some (match s.filter with
    | some existing => existing.and predicate
    | none => predicate) }

/-- Puts rows in the order of `key`, whatever order they had. -/
def orderBy (s : Select) (key : Expr) (descending : Bool) : Select :=
  { s with orderings := [⟨key, descending⟩] }

/-- Puts rows that are equal so far in the order of `key`. -/
def thenBy (s : Select) (key : Expr) (descending : Bool) : Select :=
  { s with orderings := s.orderings ++ [⟨key, descending⟩] }

/-- Puts out `projection` for each row. -/
def project (s : Select) (projection : Projection) : Select :=
  { s with projection }

/-- Takes all rows together. -/
def groupAll (s : Select) : Select :=
  { s with group := some .all }

/-- Whether the rows put out are not simply those that pass the filter, so that an aggregate has to
be taken over the finished rows. -/
def isWindowed (s : Select) : Bool :=
  s.take.isSome || s.skip.isSome || s.single || s.groupKey.isSome

/-- What a lambda parameter that ranges over the results of `s` stands for. -/
def rowValue (s : Select) : Expr :=
  match s.projection with
  | .expr e => e
  | .fields fields => Expr.objectOf (fields.map fun f => (f.name, f.expr))
  | _ => .row s.scope s.projectedType

end Select

/-- The function that computes an aggregate, over all rows or over those of one group. -/
def AggregateKind.function (grouped : Bool) : AggregateKind → String
  | .count => "count"
  | .sum => "math::sum"
  | .min => if grouped then "array::min" else "math::min"
  | .max => if grouped then "array::max" else "math::max"
  | .average => "math::mean"
  | .flatten => "array::flatten"
  | .distinct => "array::distinct"

namespace Expr

/-- A member of the current row of the select with `scope`. -/
def rowMember (scope : ScopeId) (rowType : Ty) (name : String) (t : Ty) : Expr :=
  .member (.row scope rowType) name t

/-- A member of the only row of `s`. -/
def onlyRowMember (s : Select) (name : String) (t : Ty) : Expr :=
  .custom (.member (.binary .arrayIndex (.subquery s) (int32 0) s.projectedType) name t) t

/-- Whether a type is of records, so that its members are stored columns. -/
def isRecordType (t : Ty) : Bool :=
  match t.unwrap with
  | .entity _ _ | .anonymous _ | .prim .unknown | .prim .object => true
  | _ => false

/-- Whether the expression is a path of members from the current row of `scope`, through records
only. -/
def isRowPath (scope : ScopeId) : Expr → Bool
  | .member (.row s t) _ _ => s == scope && isRecordType t
  | .member base _ _ => isRecordType base.ty && base.isRowPath scope
  | _ => false
termination_by structural e => e

end QueryTree.Expr
