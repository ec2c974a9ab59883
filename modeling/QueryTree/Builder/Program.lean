import QueryTree.Builder.Basic

/-!
# Programs that build trees

A program says which building functions are called, each operand at the place where it is used. A
lambda binds a variable that the programs in its body can use.
-/

namespace QueryTree

mutual

/-- A program that builds a tree. A type that is `none` is worked out. -/
inductive Program where
  | lit (v : Value) (t : Option Ty)
  | null
  | capture (name : String) (v : Value) (t : Option Ty)
  | param (name : String) (t : Option Ty)
  /-- The parameter of the innermost lambda that binds `name`. -/
  | var (name : String)
  | lambda (t : Ty) (f : Closure)
  | object (members : List (String × Program))
  | array (element : Ty) (items : List Program)
  | construct (t : Ty) (args : List Program)
  | static (surface : Surface) (name : String) (t : Ty)
  | call (surface : Surface) (method : String) (args : List Program) (t : Ty)
  | field (base : Program) (name : String) (t : Option Ty)
  | invoke (receiver : Program) (surface : Surface) (method : String) (args : List Program) (t : Ty)
  | withType (base : Program) (t : Ty)
  | convert (base : Program) (t : Ty)
  | binary (op : BinaryOp) (left right : Program)
  | not (base : Program)
  | neg (base : Program)
  /-- A query over `table`, which the variable `captured` may hold, and its operators. -/
  | query (table : String) (element : Ty) (captured : Option String) (steps : List Step)

/-- The body of a lambda and the name it uses for the parameter. -/
structure Closure where
  variableName : String
  body : Program

/-- An operator of a query. -/
inductive Step where
  | filter (f : Closure)
  | select (f : Closure)
  | selectMany (f : Closure)
  | groupBy (f : Closure)
  | orderBy (descending : Bool) (f : Closure)
  | thenBy (descending : Bool) (f : Closure)
  | take (count : Program)
  | skip (count : Program)
  | distinct
  /-- A call of `method`, with a lambda or without, of type `t`. -/
  | test (method : String) (f : Option Closure) (t : Ty)
  /-- A call of `method`, with a lambda or without, that picks a row. -/
  | pick (method : String) (f : Option Closure)
  | aggregate (method : String) (f : Option Closure)
  | average (f : Option Closure)
  | contains (value : Program)
  | elementAt (orDefault : Bool) (position : Program)
  | call (method : String) (args : List Program) (t : Ty)

end

namespace Program

/-- What the variables of a program stand for, the innermost first. -/
abbrev Env := List (String × Expr)

/-- What a step makes of a query. -/
inductive Progress where
  | query (q : QueryBuilder)
  | value (e : Expr)

/-- What has been built so far, as a tree. -/
def Progress.expr : Progress → Expr
  | .query q => q.expr
  | .value e => e

mutual

/-- Runs a program. A variable that `env` does not bind is a parameter of that name. -/
def eval (env : Env) : Program → Build Expr
  | .lit v t => return .constant v (t.getD v.type)
  | .null => return Expr.null
  | .capture name v t => return .captured name (.value v) (t.getD v.type)
  | .param name t => return .parameter name (t.getD .unknown)
  | .var name => return (env.lookup name).getD (.parameter name .unknown)
  | .lambda t f => Build.lambda t (Closure.apply env f)
  | .object members => return Expr.objectOf (← evalMembers env members)
  | .array element items => return Expr.arrayOf element (← evalList env items)
  | .construct t args => return .construct t (← evalList env args)
  | .static surface name t => return .static surface name t
  | .call surface method args t => return .staticCall surface method (← evalList env args) t
  | .field base name none => return (← base.eval env).field name
  | .field base name (some t) => return .member (← base.eval env) name t
  | .invoke receiver surface method args t => do
    let receiver ← receiver.eval env
    return .methodCall receiver surface method (← evalList env args) t
  | .withType base t => return (← base.eval env).withType t
  | .convert base t => return (← base.eval env).convert t
  | .binary op left right => return .combine op (← left.eval env) (← right.eval env)
  | .not base => return (← base.eval env).not
  | .neg base => return (← base.eval env).neg
  | .query table element captured steps => do
    let start := match captured with
      | some name => QueryBuilder.captured name table element
      | none => QueryBuilder.table table element
    return (← Step.runAll env start steps).expr
termination_by structural p => p

/-- Runs the body of a `Closure` with an expression for its variable. -/
def Closure.apply (env : Env) : Closure → Expr → Build Expr
  | ⟨name, body⟩, x => body.eval ((name, x) :: env)
termination_by structural f => f

def Closure.applyOption (env : Env) : Option Closure → Option (Expr → Build Expr)
  | none => none
  | some f => some (Closure.apply env f)
termination_by structural f => f

def evalList (env : Env) : List Program → Build (List Expr)
  | [] => return []
  | p :: ps => return (← p.eval env) :: (← evalList env ps)
termination_by structural ps => ps

def evalMembers (env : Env) : List (String × Program) → Build (List (String × Expr))
  | [] => return []
  | (name, p) :: ps => return (name, ← p.eval env) :: (← evalMembers env ps)
termination_by structural ps => ps

def Step.run (env : Env) (q : QueryBuilder) : Step → Build Progress
  | .filter f => return .query (← q.filter (Closure.apply env f))
  | .select f => return .query (← q.select (Closure.apply env f))
  | .selectMany f => return .query (← q.selectMany (Closure.apply env f))
  | .groupBy f => return .query (← q.groupBy (Closure.apply env f))
  | .orderBy descending f => return .query (← q.orderBy descending (Closure.apply env f))
  | .thenBy descending f => return .query (← q.thenBy descending (Closure.apply env f))
  | .take count => return .query (q.take (← count.eval env))
  | .skip count => return .query (q.skip (← count.eval env))
  | .distinct => return .value q.distinct
  | .test method f t => return .value (← q.test method (Closure.applyOption env f) t)
  | .pick method f => return .value (← q.test method (Closure.applyOption env f) q.element)
  | .aggregate method f => return .value (← q.aggregate method (Closure.applyOption env f))
  | .average f => return .value (← q.average (Closure.applyOption env f))
  | .contains value => return .value (q.contains (← value.eval env))
  | .elementAt orDefault position => return .value (q.elementAt orDefault (← position.eval env))
  | .call method args t => return .value (q.call method (← evalList env args) t)
termination_by structural s => s

/-- Applies the operators to `q` in order, up to the first that gives a value. -/
def Step.runAll (env : Env) (q : QueryBuilder) : List Step → Build Progress
  | [] => return .query q
  | s :: steps => do
    match ← Step.run env q s with
    | .query q => Step.runAll env q steps
    | .value e => return .value e
termination_by structural steps => steps

end

/-- The tree that `p` builds outside any lambda. -/
def build (p : Program) : Expr :=
  ((p.eval []).run 0).1

end Program

end QueryTree
