import QueryTree.Expr.Basic

/-!
# Walking trees and replacing nodes

Both go from a node to its children, in the order in which they are written: the receiver of a call
before its arguments, the left operand before the right one. Rows and selects are leaves: what is
inside a select belongs to the select.
-/

namespace QueryTree.Expr

/-! ## Walking -/

mutual

/-- The nodes of a tree from the top down, without the children of nodes that `descend` refuses. -/
def walk (descend : Expr → Bool) (e : Expr) : List Expr :=
  e :: bif descend e then
    match e with
    | .member base _ _ => base.walk descend
    | .call _ _ receiver args _ => walkOption descend receiver ++ walkList descend args
    | .unary _ operand _ => operand.walk descend
    | .binary _ left right _ => left.walk descend ++ right.walk descend
    | .lambda _ body => body.walk descend
    | .newObject _ members => walkMembers descend members
    | .newArray _ items => walkList descend items
    | .construct _ args => walkList descend args
    | .custom inner _ => inner.walk descend
    | .groupAggregate _ selector _ => walkOption descend selector
    | _ => []
  else []
termination_by structural e

def walkOption (descend : Expr → Bool) : Option Expr → List Expr
  | none => []
  | some e => e.walk descend
termination_by structural e => e

def walkList (descend : Expr → Bool) : List Expr → List Expr
  | [] => []
  | e :: es => e.walk descend ++ walkList descend es
termination_by structural es => es

def walkMembers (descend : Expr → Bool) : List (String × Expr) → List Expr
  | [] => []
  | (_, e) :: es => e.walk descend ++ walkMembers descend es
termination_by structural es => es

end

/-! ## Replacing -/

section
variable {m : Type → Type} [Monad m]

mutual

/-- Rebuilds a tree from the top down. An expression that `f` gives takes the place of the node and
is left as it is; elsewhere the children are rebuilt. -/
def replaceM (f : Expr → m (Option Expr)) (e : Expr) : m Expr := do
  match ← f e with
  | some replacement => return replacement
  | none =>
    match e with
    | .member base name t => return .member (← base.replaceM f) name t
    | .call surface method receiver args t =>
      return .call surface method (← replaceOptionM f receiver) (← replaceListM f args) t
    | .unary op operand t => return .unary op (← operand.replaceM f) t
    | .binary op left right t => return .binary op (← left.replaceM f) (← right.replaceM f) t
    | .lambda params body => return .lambda params (← body.replaceM f)
    | .newObject t members => return .newObject t (← replaceMembersM f members)
    | .newArray t items => return .newArray t (← replaceListM f items)
    | .construct t args => return .construct t (← replaceListM f args)
    | .custom inner t => return .custom (← inner.replaceM f) t
    | .groupAggregate kind selector t => return .groupAggregate kind (← replaceOptionM f selector) t
    | leaf => return leaf
termination_by structural e

def replaceOptionM (f : Expr → m (Option Expr)) : Option Expr → m (Option Expr)
  | none => return none
  | some e => return some (← e.replaceM f)
termination_by structural e => e

def replaceListM (f : Expr → m (Option Expr)) : List Expr → m (List Expr)
  | [] => return []
  | e :: es => return (← e.replaceM f) :: (← replaceListM f es)
termination_by structural es => es

def replaceMembersM (f : Expr → m (Option Expr)) : List (String × Expr) → m (List (String × Expr))
  | [] => return []
  | (name, e) :: es => return (name, ← e.replaceM f) :: (← replaceMembersM f es)
termination_by structural es => es

end

end

/-- `replaceM` without effects. -/
def replace (f : Expr → Option Expr) (e : Expr) : Expr :=
  Id.run (e.replaceM (m := Id) fun node => pure (f node))

/-! ## Parameters -/

/-- What becomes of a node when the parameter `name` is replaced: a lambda that `shadows` it stays
as it is. -/
def substituteNode (name : String) (replacement e : Expr) : Option Expr :=
  if e.isParameter name then some replacement
  else if e.shadows name then some e
  else none

/-- `e` with `replacement` for the free occurrences of the parameter `name`. -/
def substitute (e : Expr) (name : String) (replacement : Expr) : Expr :=
  e.replace (substituteNode name replacement)

end QueryTree.Expr
