import QueryTree.Lowering.Literal

/-!
# Numbers
-/

namespace QueryTree.Lowering

open Surql (Term)

/-- The function of a mathematical method, by the number of its arguments. -/
def mathFunction? : String → Nat → Option String
  | "Abs", 1 => some "math::abs"
  | "Acos", 1 => some "math::acos"
  | "Asin", 1 => some "math::asin"
  | "Atan", 1 => some "math::atan"
  | "Ceiling", 1 => some "math::ceil"
  | "Clamp", 3 => some "math::clamp"
  | "Cos", 1 => some "math::cos"
  | "Floor", 1 => some "math::floor"
  | "Log", 1 => some "math::log"
  | "Log", 2 => some "math::log"
  | "Log2", 1 => some "math::log2"
  | "Log10", 1 => some "math::log10"
  | "Max", 2 => some "math::max"
  | "Min", 2 => some "math::min"
  | "Pow", 2 => some "math::pow"
  | "Round", 1 => some "math::round"
  | "Round", 2 => some "math::fixed"
  | "Sign", 1 => some "math::sign"
  | "Sin", 1 => some "math::sin"
  | "Sqrt", 1 => some "math::sqrt"
  | "Tan", 1 => some "math::tan"
  | _, _ => none

def mathFunctionCall (method : String) (args : List Operand) : LowerM Term :=
  let qualified := Surface.math.qualify method
  match mathFunction? method args.length with
  | some function => Operand.callWith function qualified args
  | none => throw (.methodUnsupported qualified)

/-- A mathematical call. A power of anything but a constant is an operation. -/
def mathCall (method : String) (args : List Operand) : LowerM Term :=
  match method, args with
  | "Pow", [base, exponent] =>
    if base.expr.constantNumber?.isNone then
      Operand.combine (Surface.math.qualify method) .pow base exponent
    else mathFunctionCall method args
  | _, _ => mathFunctionCall method args

def mathConstant? : Surface → String → Option Surql.Constant
  | .math, "PI" => some .mathPi
  | .math, "E" => some .mathE
  | .math, "Tau" => some .mathTau
  | .float32, "PositiveInfinity" => some .mathInf
  | .float32, "NegativeInfinity" => some .mathNegInf
  | .float64, "PositiveInfinity" => some .mathInf
  | .float64, "NegativeInfinity" => some .mathNegInf
  | _, _ => none

/-- The operator of the query language, except for bit operations and indexing. -/
def operator? : BinaryOp → Option Surql.BinaryOp
  | .andAlso => some .and
  | .orElse => some .or
  | .add => some .add
  | .subtract => some .sub
  | .multiply => some .mul
  | .divide => some .div
  | .modulo => some .mod
  | .power => some .pow
  | .equal => some .equal
  | .notEqual => some .notEqual
  | .lessThan => some .lessThan
  | .lessThanOrEqual => some .lessThanOrEqual
  | .greaterThan => some .moreThan
  | .greaterThanOrEqual => some .moreThanOrEqual
  | .coalesce => some .coalesce
  | .and | .or | .exclusiveOr | .leftShift | .rightShift | .arrayIndex => none

end QueryTree.Lowering
