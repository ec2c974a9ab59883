import QueryTree.Lowering.Basic

/-!
# Constants
-/

namespace QueryTree

open Surql (Term)

namespace Value

mutual

/-- The term of a constant. Record ids never stand in a query; they become parameters. -/
def lower : Value → LowerM Term
  | .null => return .null
  | .absent => return .absent
  | .bool b => return .bool b
  | .int n => return .number (.int n)
  | .uint n => return .number (.uint n)
  | .float32 x => return .number (.float32 x)
  | .float x => return .number (.float x)
  | .decimal d => return .number (.decimal d)
  | .string s => return .string s
  | .char c => return .char c
  | .dateTime t => return .dateTime t
  | .guid g => return .guid g
  | .duration d => return .duration d
  | .regex pattern => return .cast .regex (.string pattern)
  | .recordId r => return .param (← LowerM.recordId (.recordId r))
  | .enum variant => return .string variant
  | .point x y => return .point x y
  | .array items => return .array (← lowerItems items)
  | .object members => return .object (← lowerMembers members)
termination_by structural v => v

def lowerItems : List Value → LowerM (List Term)
  | [] => return []
  | v :: vs => return (← v.lower) :: (← lowerItems vs)
termination_by structural vs => vs

def lowerMembers : List (String × Value) → LowerM (List (String × Term))
  | [] => return []
  | (name, v) :: vs => return (name, ← v.lower) :: (← lowerMembers vs)
termination_by structural vs => vs

end

end Value

/-- The number a constant is, looking through conversions and signs. -/
def Expr.constantNumber? : Expr → Option Float
  | .constant v _ => v.asFloat?
  | .unary .quote e _ | .unary .convert e _ | .unary .unaryPlus e _ => e.constantNumber?
  | .unary .negate e _ => e.constantNumber?.map fun x => -x
  | _ => none
termination_by structural e => e

/-- The whole number that `e` is, if it is a constant. -/
def Expr.constantIndex? (e : Expr) : Option Int64 :=
  e.unquote.constant?.bind Value.asInt?

/-- The number with the other sign, unless it has none of 64 bits. -/
def Surql.Numeral.neg? : Surql.Numeral → Option Surql.Numeral
  | .int n => if n == Int64.minValue then none else some (.int (-n))
  | .uint n => ((Value.uint n).asInt?).map fun n => .int (-n)
  | .float x => some (.float (-x))
  | .float32 x => some (.float32 (-x))
  | .decimal d => some (.decimal d.neg)

/-- `t` with the other sign; numbers change theirs. -/
def Surql.Term.neg (t : Term) : Term :=
  match t with
  | .number n =>
    match n.neg? with
    | some m => .number m
    | none => .unary .neg t
  | _ => .unary .neg t

end QueryTree
