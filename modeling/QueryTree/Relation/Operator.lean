import QueryTree.Expr.Basic

/-!
# Query operators
-/

namespace QueryTree

/-- What a method of a query does. -/
inductive QueryOp where
  | filter
  | select
  | selectMany
  | groupBy
  | orderBy (descending : Bool)
  | thenBy (descending : Bool)
  | take
  | skip
  | count
  | aggregate (kind : AggregateKind)
  | distinct
  | all
  | any
  | contains
  | first (orDefault : Bool)
  | last (orDefault : Bool)
  | elementAt (orDefault : Bool)
  | single
deriving DecidableEq, Repr

/-- The operator of a method. -/
def QueryOp.ofMethod? : String → Option QueryOp
  | "Where" => some .filter
  | "Select" => some .select
  | "SelectMany" => some .selectMany
  | "GroupBy" => some .groupBy
  | "OrderBy" => some (.orderBy false)
  | "OrderByDescending" => some (.orderBy true)
  | "ThenBy" => some (.thenBy false)
  | "ThenByDescending" => some (.thenBy true)
  | "Take" => some .take
  | "Skip" => some .skip
  | "Count" | "LongCount" => some .count
  | "Sum" => some (.aggregate .sum)
  | "Min" => some (.aggregate .min)
  | "Max" => some (.aggregate .max)
  | "Average" => some (.aggregate .average)
  | "Distinct" => some .distinct
  | "All" => some .all
  | "Any" => some .any
  | "Contains" => some .contains
  | "First" => some (.first false)
  | "FirstOrDefault" => some (.first true)
  | "Last" => some (.last false)
  | "LastOrDefault" => some (.last true)
  | "ElementAt" => some (.elementAt false)
  | "ElementAtOrDefault" => some (.elementAt true)
  | "Single" | "SingleOrDefault" => some .single
  | _ => none

/-- The label of the column that holds an aggregate. -/
def AggregateKind.label : AggregateKind → String
  | .count => "count"
  | .sum => "Sum"
  | .min => "Min"
  | .max => "Max"
  | .average => "Avg"
  | .flatten | .distinct => "Values"

end QueryTree
