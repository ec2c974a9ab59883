import QueryTree.Expr.Build

/-!
# Building trees

Queries are built by calling their operators one after the other. The parameter of a lambda is named
after how many lambdas are around it, so that lambdas inside each other never have parameters of
the same name, and the same calls always build the same tree.
-/

namespace QueryTree

/-- Computations that build trees; the state counts the lambdas around the place that is being
built. -/
abbrev Build := StateM Nat

namespace Build

/-- The name of the parameter of a lambda inside `depth` others. -/
def paramName (depth : Nat) : String := "_x" ++ Nat.repr depth

/-- A lambda whose body `f` builds one lambda further in. -/
def lambda (t : Ty) (f : Expr → Build Expr) : Build Expr := do
  let name := paramName (← get)
  modify (· + 1)
  let body ← f (.parameter name t)
  modify (· - 1)
  return .lambda [⟨name, t⟩] body

end Build

/-- A query that is being built, and the type of its rows. -/
structure QueryBuilder where
  expr : Expr
  element : Ty

namespace QueryBuilder

def table (name : String) (element : Ty) : QueryBuilder :=
  ⟨.source ⟨name, element⟩, element⟩

/-- All rows of the table `name`, which the variable `variableName` holds. -/
def captured (variableName name : String) (element : Ty) : QueryBuilder :=
  ⟨.captured variableName (.source ⟨name, element⟩) (.queryable element), element⟩

def call (q : QueryBuilder) (method : String) (args : List Expr) (t : Ty) : Expr :=
  .staticCall .queryable method (q.expr :: args) t

/-- `q` after an operator whose result has rows of type `element`. -/
def chain (q : QueryBuilder) (method : String) (args : List Expr) (element : Ty) : QueryBuilder :=
  ⟨q.call method args (.queryable element), element⟩

/-- A lambda over the rows of `q`. -/
def lambda (q : QueryBuilder) (f : Expr → Build Expr) : Build Expr :=
  Build.lambda q.element f

/-! ## Operators that give a query -/

/-- `q` after `method` with the lambda `f`; the rows stay as they are. -/
def keeping (q : QueryBuilder) (method : String) (f : Expr → Build Expr) : Build QueryBuilder :=
  return q.chain method [← q.lambda f] q.element

/-- The rows of `q` that satisfy `f`. -/
def filter (q : QueryBuilder) (f : Expr → Build Expr) : Build QueryBuilder :=
  q.keeping "Where" f

/-- What `f` puts out for each row of `q`. -/
def select (q : QueryBuilder) (f : Expr → Build Expr) : Build QueryBuilder := do
  let selector ← q.lambda f
  return q.chain "Select" [selector] selector.ty

/-- The items of the sequences that `f` puts out for the rows of `q`. -/
def selectMany (q : QueryBuilder) (f : Expr → Build Expr) : Build QueryBuilder := do
  let selector ← q.lambda f
  return q.chain "SelectMany" [selector] (selector.ty.element.getD .unknown)

def groupBy (q : QueryBuilder) (f : Expr → Build Expr) : Build QueryBuilder := do
  let key ← q.lambda f
  return q.chain "GroupBy" [key] (.grouping key.ty q.element)

def orderBy (q : QueryBuilder) (descending : Bool) (f : Expr → Build Expr) : Build QueryBuilder :=
  q.keeping (if descending then "OrderByDescending" else "OrderBy") f

/-- Puts rows of `q` that are equal so far in order. -/
def thenBy (q : QueryBuilder) (descending : Bool) (f : Expr → Build Expr) : Build QueryBuilder :=
  q.keeping (if descending then "ThenByDescending" else "ThenBy") f

def take (q : QueryBuilder) (count : Expr) : QueryBuilder :=
  q.chain "Take" [count] q.element

def skip (q : QueryBuilder) (count : Expr) : QueryBuilder :=
  q.chain "Skip" [count] q.element

/-! ## Operators that give a value -/

/-- A call of `method`, with the lambda `f` or without, of type `t`. -/
def test (q : QueryBuilder) (method : String) (f : Option (Expr → Build Expr)) (t : Ty) :
    Build Expr :=
  match f with
  | some f => return q.call method [← q.lambda f] t
  | none => return q.call method [] t

/-- The aggregate `method` of the rows of `q`, or of what `f` makes of them. -/
def aggregate (q : QueryBuilder) (method : String) (f : Option (Expr → Build Expr)) : Build Expr :=
  match f with
  | some f => do
    let selector ← q.lambda f
    return q.call method [selector] selector.ty
  | none => return q.call method [] q.element

/-- The average of the rows of `q`, or of what `f` makes of them. -/
def average (q : QueryBuilder) (f : Option (Expr → Build Expr)) : Build Expr :=
  return (← q.aggregate "Average" f).withType .float64

def distinct (q : QueryBuilder) : Expr :=
  q.call "Distinct" [] (.array q.element)

/-- Whether `value` is among the rows of `q`. -/
def contains (q : QueryBuilder) (value : Expr) : Expr :=
  q.call "Contains" [value] .bool

/-- The name of `method`, which picks a row; with `orDefault` a missing one has a default. -/
def pickName (method : String) (orDefault : Bool) : String :=
  if orDefault then method ++ "OrDefault" else method

def elementAt (q : QueryBuilder) (orDefault : Bool) (position : Expr) : Expr :=
  q.call (pickName "ElementAt" orDefault) [position] q.element

end QueryBuilder

end QueryTree
