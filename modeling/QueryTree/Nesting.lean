import QueryTree.Expr.Basic

/-!
# Nesting of selects

While a select is written, the level at which its rows are current is kept. A row of a select
further out is reached by going to the parent once for each level between.
-/

namespace QueryTree

/-- The level that is being written, and the levels of the selects around it. -/
structure Nesting where
  level : Nat
  scopes : List (ScopeId × Nat)
deriving DecidableEq, Repr

namespace Nesting

/-- Outside any select. -/
def empty : Nesting := ⟨0, []⟩

def enter (n : Nesting) : Nesting := { n with level := n.level + 1 }

def exit (n : Nesting) : Nesting := { n with level := n.level - 1 }

/-- Sets the level of `scope`, where it stands or else at the end. -/
def put (scope : ScopeId) (level : Nat) : List (ScopeId × Nat) → List (ScopeId × Nat)
  | [] => [(scope, level)]
  | (s, l) :: scopes =>
    if s == scope then (s, level) :: scopes else (s, l) :: put scope level scopes

/-- Gives `scope` the current level; also returns the level it had. -/
def bind (n : Nesting) (scope : ScopeId) : Option Nat × Nesting :=
  (n.scopes.lookup scope, { n with scopes := put scope n.level n.scopes })

/-- Gives `scope` back the level that `bind` returned. -/
def restore (n : Nesting) (scope : ScopeId) : Option Nat → Nesting
  | some level => { n with scopes := put scope level n.scopes }
  | none => { n with scopes := n.scopes.eraseP (·.1 == scope) }

/-- The number of steps to the parent from the current level to `scope`. -/
def depth (n : Nesting) (scope : ScopeId) : Except Error Nat :=
  match n.scopes.lookup scope with
  | some level => if level ≤ n.level then .ok (n.level - level) else .error .rowOutOfScope
  | none => .error .rowOutOfScope

end Nesting

end QueryTree
