import QueryTree.Expr.Traverse
import QueryTree.Relation.Basic

/-!
# Groups

A variable that ranges over groups is used in three ways: for the key of the group, as what an
aggregate is taken of, and as the sequence of the group's rows.
-/

namespace QueryTree

/-- The methods that aggregate the rows of a group, and what they compute. -/
def AggregateKind.ofMethod? : String → Option AggregateKind
  | "Count" => some .count
  | "LongCount" => some .count
  | "Sum" => some .sum
  | "Min" => some .min
  | "Max" => some .max
  | "Average" => some .average
  | _ => none

namespace Expr

/-- Whether the expression is the key of the group `name` stands for. -/
def isKeyOf (name : String) : Expr → Bool
  | .member base "Key" _ => base.isParameter name
  | _ => false

/-- The aggregate an expression takes of the group `name` stands for: what it computes, its method,
its other arguments and its type. -/
def aggregateOf? (name : String) : Expr → Option (AggregateKind × String × List Expr × Ty)
  | .call .enumerable method none (group :: rest) t =>
    if group.isParameter name then
      (AggregateKind.ofMethod? method).map fun kind => (kind, method, rest, t)
    else none
  | _ => none

/-- `e` with a group for the variable `name`: its key where the key is used, and the sequence of its
rows elsewhere. -/
def substituteGroup (e : Expr) (name : String) (key : GroupKey) : Expr :=
  e.replace fun node =>
    if node.isKeyOf name then some key.outer
    else if node.isParameter name then some key.values
    else if node.shadows name then some node
    else none

/-- `e` with the rows of `target` where those of `source` were current. -/
def rebase (e : Expr) (source target : ScopeId) : Expr :=
  e.replace fun node =>
    match node with
    | .row s t => if s == source then some (.row target t) else none
    | _ => none

end Expr

/-- How often a variable that ranges over groups is used. -/
structure GroupUses where
  /-- Uses of any kind. -/
  total : Nat
  /-- Uses for the key. -/
  key : Nat
  /-- Uses as what an aggregate is taken of. -/
  aggregates : Nat
deriving DecidableEq, Repr

namespace GroupUses

/-- The uses of the variable `name` in `body`. -/
def of (body : Expr) (name : String) : GroupUses :=
  let nodes := body.walk fun e => !e.shadows name
  { total := nodes.countP (·.isParameter name)
    key := nodes.countP (·.isKeyOf name)
    aggregates := nodes.countP fun e => (e.aggregateOf? name).isSome }

/-- Whether the variable is used in any other way than for the key or an aggregate. -/
def other (u : GroupUses) : Bool :=
  u.key + u.aggregates < u.total

end GroupUses

/-! ## Keys -/

/-- The fields that the key `inner` adds to the select that is grouped, and the key as read back
from its rows, which have the scope `outer`. An object has one field for each member, a path of the
row keeps its name, and any other key gets one. -/
def GroupKey.columns (inner : Expr) (source outer : ScopeId) : List OutputField × Expr :=
  match inner with
  | .newObject t (m :: members) =>
    ((m :: members).map fun (name, e) => ⟨e, some name⟩,
      .newObject t ((m :: members).map fun (name, e) => (name, Expr.rowMember outer t name e.ty)))
  | key =>
    if key.isRowPath source then ([⟨key, none⟩], key.rebase source outer)
    else
      ([⟨key, some "Key"⟩],
        Expr.rowMember outer (.anonymous [("Key", key.ty)]) "Key" key.ty)

/-- What the rows of a select are grouped by: fields with a label by their label. -/
def GroupKey.terms (fields : List OutputField) (source : ScopeId) : List Expr :=
  let rowType := Ty.anonymous (fields.filterMap fun f => f.label.map fun label =>
    (label, f.expr.ty))
  fields.map fun f =>
    match f.label with
    | some label => Expr.rowMember source rowType label f.expr.ty
    | none => f.expr

/-- The condition that `inner` and `outer` are equal, member by member if they are objects. -/
def GroupKey.equality (inner outer : Expr) : Expr :=
  match inner, outer with
  | .newObject _ as, .newObject _ bs =>
    match List.zipWith (fun a b => a.2.eq b.2) as bs with
    | [] => .constant (.bool true) .bool
    | first :: rest => rest.foldl Expr.and first
  | a, b => a.eq b

end QueryTree
