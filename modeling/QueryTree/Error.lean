import QueryTree.Ty.Basic

/-!
# Errors

Why a tree has no query. Each constructor is one cause; `Error.kind` groups the causes and
`Error.message` words them.
-/

namespace QueryTree

/-- Why a tree is refused. -/
inductive Error where
  /-- A method that has no counterpart in a query. -/
  | methodUnsupported (method : String)
  /-- A member that has no counterpart in a query. -/
  | memberUnsupported (member : String)
  /-- A constructor of a type whose values cannot be built in a query. -/
  | constructorUnsupported (type : String)
  /-- A query operator applied to what is no longer a query. -/
  | scalarSource (method : String)
  | bitwise
  /-- A conversion between types that no cast performs. -/
  | castUnsupported (source target : Ty)
  /-- A lambda as an argument, at a position counted from zero, that must be a value. -/
  | argumentNotValue (method : String) (position : Nat)
  /-- A lambda anywhere else that must be a value. -/
  | lambdaNotValue
  /-- Options for splitting text other than the default ones. -/
  | splitOptions (method : String)
  | invalidDate (year month day : Int)
  /-- A captured variable that could not be read. -/
  | unresolvedCapture (name : String)
  /-- Something other than a lambda where one is needed. -/
  | lambdaExpected (method kind : String)
  /-- A lambda with any number of parameters but one. -/
  | lambdaArity (method : String) (count : Nat)
  /-- A lambda parameter outside its lambda. -/
  | unboundParameter (name : String)
  /-- A node that binding should have replaced. -/
  | unexpectedNode (kind : String)
  /-- A row outside the query it belongs to. -/
  | rowOutOfScope
  /-- Groups of a query that has no grouped source. -/
  | ungroupedSource
  /-- Query operators nested more deeply than the tree has operators. -/
  | operatorsTooDeep
  | malformedTree (reason : String)
  /-- A date moved off the calendar. -/
  | dateOverflow
deriving DecidableEq

/-- The groups of causes. -/
inductive Error.Kind where
  | unsupportedOperation
  | invalidCast
  | unresolvedCapture
  | invalidTree
  | overflow
deriving DecidableEq, Repr

namespace Error

/-- The `Kind` a cause belongs to. -/
def kind : Error → Kind
  | methodUnsupported _ | memberUnsupported _ | constructorUnsupported _ | scalarSource _ | bitwise
  | castUnsupported _ _ => .unsupportedOperation
  | argumentNotValue _ _ | lambdaNotValue | splitOptions _ | invalidDate _ _ _ => .invalidCast
  | unresolvedCapture _ => .unresolvedCapture
  | lambdaExpected _ _ | lambdaArity _ _ | unboundParameter _ | unexpectedNode _ | rowOutOfScope
  | ungroupedSource | operatorsTooDeep | malformedTree _ => .invalidTree
  | dateOverflow => .overflow

/-- The position of an argument, counted from one, in words. -/
def ordinal : Nat → String
  | 1 => "first"
  | 2 => "second"
  | 3 => "third"
  | n => Nat.repr n ++ "th"

/-- What is wrong with a tree. -/
def treeFault : Error → String
  | lambdaExpected method kind => method ++ " expects a lambda, got " ++ kind
  | lambdaArity method count =>
    method ++ " expects a single-parameter lambda, got " ++ Nat.repr count ++ " parameters"
  | unboundParameter name => "parameter '" ++ name ++ "' is not bound to a query"
  | unexpectedNode kind => "unexpected " ++ kind ++ " node after binding"
  | rowOutOfScope => "a row reference is used outside of the query it belongs to"
  | ungroupedSource => "grouped query without a grouped source"
  | operatorsTooDeep => "query operators are nested too deeply"
  | malformedTree reason => reason
  | _ => ""

/-- The wording of a cause. -/
def message : Error → String
  | methodUnsupported method => "The method '" ++ method ++ "' is not supported."
  | memberUnsupported member => "The member '" ++ member ++ "' is not supported."
  | constructorUnsupported type => "The constructor of '" ++ type ++ "' is not supported."
  | scalarSource method =>
    "The method '" ++ method ++ "' is not supported on the result of a scalar query operator."
  | bitwise => "Bitwise operations are not supported."
  | castUnsupported source target => "cannot cast from " ++ source.text ++ " to " ++ target.text
  | argumentNotValue method position =>
    "The " ++ ordinal (position + 1) ++ " argument of " ++ method ++ " must be a value expression"
  | lambdaNotValue => "A lambda expression is not a value expression"
  | splitOptions method =>
    "The second argument of " ++ method ++ " must be StringSplitOptions.None."
  | invalidDate year month day =>
    toString year ++ "-" ++ toString month ++ "-" ++ toString day ++ " is not a valid date"
  | unresolvedCapture name => "captured variable '" ++ name ++ "' has no value"
  | dateOverflow => "the date is out of range"
  | e => "invalid expression tree: " ++ e.treeFault

end Error

end QueryTree
