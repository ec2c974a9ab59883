import QueryTree.Relation.Grouping
import QueryTree.Relation.Operator

/-!
# Binding query operators

Binding turns chains of query operators into selects, from the inside out. The parameter of a lambda
is replaced by what the rows of its source stand for, and the body is then bound in turn, so that
queries inside it see the rows around them.

Operators that the query language lacks become the only row of a select over all rows, or functions
of arrays applied to a select as an array.

Binding a node binds its parts and the bodies of its lambdas by the function `bind` it is given.
`bindWith` ties the knot; its fuel runs out only for trees with more operators inside each other
than the fuel says.
-/

namespace QueryTree

/-- Computations that give out scopes. The next scope is known even after a failure. -/
abbrev BindM := ExceptT Error (StateM Nat)

namespace BindM

/-- A scope that no select has yet. -/
def freshScope : BindM ScopeId :=
  modifyGet fun next => (⟨next⟩, next + 1)

/-- A result that may be an error. -/
def ofExcept {α : Type} (x : Except Error α) : BindM α :=
  ExceptT.mk (pure x)

end BindM

namespace Binding

/-- The select a source is; other sources are no queries any more. -/
def expectSelect (method : String) : Expr → BindM Select
  | .select s => return s
  | _ => throw (.scalarSource method)

/-- The select an aggregate can be put on: one that `isWindowed` is read as a whole. -/
def aggregateSource (s : Select) : BindM Select := do
  if s.isWindowed then return .ofSelect (← BindM.freshScope) s else return s

/-- `s` with an aggregate over all its rows, and the value of that aggregate. -/
def aggregated (s : Select) (projection : Projection) (label : String) (t : Ty) : Expr :=
  .onlyRowMember (s.project projection).groupAll label t

/-- `e`, or the value for a missing element if that is `wanted`. -/
def orDefault (wanted : Bool) (e : Expr) (t : Ty) : Expr :=
  if wanted then e.coalesce (.constant t.defaultValue t) else e

section
variable (bind : Expr → BindM Expr)

/-- Binds the body of `lambda`, whose parameter ranges over the rows of `s`. -/
def applyLambda (s : Select) (method : String) (lambda : Expr) : BindM Expr := do
  let (param, body) ← BindM.ofExcept (lambda.asLambda method)
  bind (match s.groupKey with
    | some key => body.substituteGroup param.name key
    | none => body.substitute param.name s.rowValue)

/-- `applyLambda` of a lambda that may be missing. -/
def applyOptional (s : Select) (method : String) : Option Expr → BindM (Option Expr)
  | some lambda => return some (← applyLambda bind s method lambda)
  | none => return none

/-- The rows of `s` that satisfy `predicate`, if there is one. -/
def restricted (s : Select) (method : String) (predicate : Option Expr) : BindM Select := do
  match ← applyOptional bind s method predicate with
  | some condition => return s.filterBy condition
  | none => return s

/-- `source` as an array, cut down by `predicate` if there is one. -/
def sequence (method : String) (source : Expr) (predicate : Option Expr) : BindM Expr :=
  match source, predicate with
  | .select s, predicate => return .subquery (← restricted bind s method predicate)
  | other, none => return other
  | _, some _ => throw (.scalarSource method)

/-- Puts out something for each row. A select that puts out its rows stays as it is. -/
def bindProjection (s : Select) (selector : Expr) : BindM Expr := do
  let body ← applyLambda bind s "Select" selector
  match body with
  | .row scope _ =>
    if scope == s.scope then return .select s else return .select (s.project (.expr body))
  | _ => return .select (s.project (.expr body))

/-- Groups rows by `key`. The keys are what a select over `source` puts out when it is grouped, and
the rows of a group are those rows of `source` whose key is the group's. -/
def bindGroupBy (source : Select) (key : Expr) : BindM Expr := do
  let inner ← applyLambda bind source "GroupBy" key
  let scope ← BindM.freshScope
  let (fields, outer) := GroupKey.columns inner source.scope scope
  let values := Expr.subquery (source.filterBy (GroupKey.equality inner outer))
  let grouped : Select :=
    { source.project (.fields fields) with
      group := some (.keys (GroupKey.terms fields source.scope)), orderings := [] }
  let groups := (Select.ofSelect scope grouped).project
    (.fields [⟨outer, some "Key"⟩, ⟨values, some "Values"⟩])
  return .select { groups with groupKey := some { inner, outer, source, values } }

/-- Binds a node of a selector over groups whose only uses of the group `name` are its key and
aggregates: the key is the one computed over the rows, and aggregates are taken over the rows of the
source. -/
def mergeNode (name : String) (key : GroupKey) (node : Expr) : BindM (Option Expr) := do
  if node.isKeyOf name then return some key.inner
  match node.aggregateOf? name with
  | some (kind, method, rest, t) =>
    let selector ← match rest.head?, kind with
      | some lambda, _ => pure (some (← applyLambda bind key.source method lambda))
      | none, .count => pure none
      | none, _ => pure (some key.source.rowValue)
    return some (.groupAggregate kind selector t)
  | none => if node.shadows name then return some node else return none

/-- The fields that the bound selector `value` adds to a grouped select, and the selector as read
back from its rows, which have `scope`. -/
def readBack (scope : ScopeId) (value : Expr) : List OutputField × Expr :=
  match value with
  | .newObject _ members =>
    let rowType := Ty.anonymous (Expr.memberTypes members)
    (members.map fun (name, e) => ⟨e, some name⟩,
      .newObject rowType (members.map fun (name, e) =>
        (name, Expr.rowMember scope rowType name e.ty)))
  | value =>
    ([⟨value, some "Value"⟩],
      Expr.rowMember scope (.anonymous [("Value", value.ty)]) "Value" value.ty)

/-- Puts out something for each group. If the group is used for its key and in aggregates only, the
grouped select computes it; else each group is read row by row. -/
def bindGroupedProjection (groups : Select) (key : GroupKey) (selector : Expr) : BindM Expr := do
  let (param, body) ← BindM.ofExcept (selector.asLambda "Select")
  let uses := GroupUses.of body param.name
  let ungrouped := { groups with groupKey := none }
  if uses.aggregates == 0 || uses.other then
    let value ← bind (body.substituteGroup param.name key)
    return .select (ungrouped.project (.expr value))
  let merged ← bind (← body.replaceM (mergeNode bind param.name key))
  match groups.source with
  | .table _ => throw .ungroupedSource
  | .subquery grouped =>
    let keys := match grouped.projection with
      | .fields fields => fields
      | _ => []
    let (fields, value) := readBack groups.scope merged
    let grouped := grouped.project (.fields (keys ++ fields))
    return .select
      { ungrouped with
        source := .subquery grouped, element := grouped.projectedType, projection := .expr value }

/-- Counts rows, of a source that is no query any more the items. -/
def bindCount (method : String) (source : Expr) (predicate : Option Expr) (t : Ty) : BindM Expr :=
  match source, predicate with
  | .select s, predicate => do
    let s ← aggregateSource s
    return aggregated s (.count (← applyOptional bind s method predicate))
      AggregateKind.count.label t
  | other, none => return .custom (.staticCall .enumerable "Count" [other] t) t
  | _, some _ => throw (.scalarSource method)

/-- Takes the aggregate `kind` of what `selector` makes of each row. -/
def bindAggregate (kind : AggregateKind) (method : String) (source : Expr) (selector : Option Expr)
    (t : Ty) : BindM Expr := do
  let s ← aggregateSource (← expectSelect method source)
  let value := (← applyOptional bind s method selector).getD s.rowValue
  return aggregated s (.aggregation kind value kind.label) kind.label t

/-- Asks whether there is a row. -/
def existsTest (rows : Expr) : Expr :=
  match rows with
  | .subquery s =>
    .combine .greaterThan (.staticCall .enumerable "Count" [.subquery s] .int32) (.int32 0)
  | other => .staticCall .enumerable "Any" [other] .bool

/-- Binds `op` to its bound source and its other arguments. -/
def bindOperator (op : QueryOp) (method : String) (source : Expr) (args : List Expr) (t : Ty) :
    BindM Expr :=
  match op, args with
  | .filter, [predicate] => do
    let s ← expectSelect method source
    return .select (s.filterBy (← applyLambda bind s method predicate))
  | .select, [selector] => do
    let s ← expectSelect method source
    match s.groupKey with
    | some key => bindGroupedProjection bind s key selector
    | none => bindProjection bind s selector
  | .selectMany, [selector] => bindAggregate bind .flatten method source (some selector) t
  | .groupBy, [key] => do bindGroupBy bind (← expectSelect method source) key
  | .orderBy descending, [key] => do
    let s ← expectSelect method source
    return .select (s.orderBy (← applyLambda bind s method key) descending)
  | .thenBy descending, [key] => do
    let s ← expectSelect method source
    return .select (s.thenBy (← applyLambda bind s method key) descending)
  | .take, [count] => do
    let s ← expectSelect method source
    return .select { s with take := some (← bind count) }
  | .skip, [count] => do
    let s ← expectSelect method source
    return .select { s with skip := some (← bind count) }
  | .count, [] => bindCount bind method source none t
  | .count, [predicate] => bindCount bind method source (some predicate) t
  | .aggregate kind, [] => bindAggregate bind kind method source none t
  | .aggregate kind, [selector] => bindAggregate bind kind method source (some selector) t
  | .distinct, [] => bindAggregate bind .distinct method source none t
  | .all, [predicate] => do
    let s ← expectSelect method source
    let failing := s.filterBy (← applyLambda bind s method predicate).not
    let count := Expr.staticCall .enumerable "Count" [.subquery failing] .int32
    return .custom (count.eq (.int32 0)) t
  | .any, [] => return .custom (existsTest (← sequence bind method source none)) t
  | .any, [predicate] =>
    return .custom (existsTest (← sequence bind method source (some predicate))) t
  | .contains, [value] => do
    let rows ← sequence bind method source none
    return .custom (.staticCall .enumerable "Contains" [rows, ← bind value] .bool) t
  | .first default, [] => do
    let rows ← sequence bind method source none
    return .custom (orDefault default (rows.index (.int32 0)) t) t
  | .first default, [predicate] => do
    let rows ← sequence bind method source (some predicate)
    return .custom (orDefault default (rows.index (.int32 0)) t) t
  | .last default, [] => do
    let rows ← sequence bind method source none
    return .custom (orDefault default (.staticCall .enumerable "Last" [rows] t) t) t
  | .last default, [predicate] => do
    let rows ← sequence bind method source (some predicate)
    return .custom (orDefault default (.staticCall .enumerable "Last" [rows] t) t) t
  | .elementAt default, [position] => do
    let rows ← sequence bind method source none
    return .custom (orDefault default (rows.index (← bind position)) t) t
  | .single, [] => do
    let s ← expectSelect method source
    return .select { s with single := true }
  | .single, [predicate] => do
    let s ← restricted bind (← expectSelect method source) method (some predicate)
    return .select { s with single := true }
  | _, _ => throw (.methodUnsupported method)

/-- Binds a call of a query operator: first its source, then the operator itself. -/
def bindCall (method : String) (args : List Expr) (t : Ty) : BindM Expr :=
  match args with
  | [] => throw (.methodUnsupported method)
  | source :: rest => do
    let source ← bind source
    match QueryOp.ofMethod? method with
    | some op => bindOperator bind op method source rest t
    | none => throw (.methodUnsupported method)

/-- What a node is bound to, if it is a table or a query operator. -/
def bindNode : Expr → BindM (Option Expr)
  | .table name element => return some (.select (.ofTable (← BindM.freshScope) name element))
  | .call .queryable method none args t => return some (← bindCall bind method args t)
  | _ => return none

end

/-- Binds a tree with at most `fuel` levels of binding inside each other. -/
def bindWith : (fuel : Nat) → Expr → BindM Expr
  | 0, _ => throw .operatorsTooDeep
  | fuel + 1, e => e.replaceM (bindNode (bindWith fuel))

/-- Whether a node is a call of a query operator. -/
def isOperator : Expr → Bool
  | .call .queryable _ none _ _ => true
  | _ => false

/-- The number of query operators in `e`. Every level of binding is inside one more of them. -/
def operatorCount (e : Expr) : Nat :=
  (e.walk fun _ => true).countP isOperator

end Binding

/-- Binds the query operators of `e`. -/
def Expr.bind (e : Expr) : BindM Expr :=
  Binding.bindWith (Binding.operatorCount e + 1) e

end QueryTree
