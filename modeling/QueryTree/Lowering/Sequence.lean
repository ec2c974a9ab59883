import QueryTree.Lowering.Literal

/-!
# Sequences and vectors

Both are arrays in the query language. A call on them may have its first operand as receiver or as
first argument.
-/

namespace QueryTree.Lowering

open Surql (Term)

/-! ## Sequences -/

/-- The function of a method of sequences, by the number of its operands. -/
def sequenceFunction? : String → Nat → Option String
  | "Append", 2 => some "array::append"
  | "Chunk", 2 => some "array::clump"
  | "Concat", 2 => some "array::concat"
  | "Count", 1 => some "array::len"
  | "LongCount", 1 => some "array::len"
  | "Distinct", 1 => some "array::distinct"
  | "ElementAtOrDefault", 2 => some "array::at"
  | "Except", 2 => some "array::difference"
  | "First", 1 => some "array::first"
  | "FirstOrDefault", 1 => some "array::first"
  | "Last", 1 => some "array::last"
  | "LastOrDefault", 1 => some "array::last"
  | "Intersect", 2 => some "array::intersect"
  | "Max", 1 => some "array::max"
  | "Min", 1 => some "array::min"
  | "Sum", 1 => some "math::sum"
  | "Average", 1 => some "math::mean"
  | "Order", 1 => some "array::sort::asc"
  | "OrderDescending", 1 => some "array::sort::desc"
  | "Prepend", 2 => some "array::prepend"
  | "Repeat", 2 => some "array::repeat"
  | "Reverse", 1 => some "array::reverse"
  | "Skip", 2 => some "array::slice"
  | "Union", 2 => some "array::union"
  | _, _ => none

/-- A step to an item: a constant `index` stands as it is, any other is computed. -/
def itemStep (index : Expr) (term : Term) : Surql.Part :=
  match index.constantIndex? with
  | some n => .index n
  | none => .item term

/-- What `method`, which is no function, makes of the terms of its operands. -/
def sequenceTerm? (method : String) (operands : List Operand) (terms : List Term) : Option Term :=
  match method, terms with
  | "Empty", [] => some (.array [])
  | "Any", [xs] => some (.unary .not (.call "array::is_empty" [xs]))
  | "Contains", [xs, x] => some (.binary xs .contains x)
  | "ElementAt", [xs, i] => operands[1]?.map fun index => xs.step (itemStep index.expr i)
  | "Range", [start, count] => some (.range start (.binary start .add count))
  | "Take", [xs, count] => some (.call "array::slice" [xs, .int 0, count])
  | "ToArray", [xs] => some xs
  | "ToList", [xs] => some xs
  | "ToHashSet", [xs] => some (.cast .set xs)
  | _, _ => none

/-- A call on sequences. -/
def sequenceCall (method : String) (receiver : Option Operand) (args : List Operand) :
    LowerM Term := do
  let qualified := Surface.enumerable.qualify method
  let operands := allOperands receiver args
  let terms ← Operand.arguments qualified 0 operands
  match sequenceFunction? method terms.length with
  | some function => return .call function terms
  | none =>
    match sequenceTerm? method operands terms with
    | some term => return term
    | none => throw (.methodUnsupported qualified)

/-! ## Vectors -/

/-- The number of components of the vectors of a surface. -/
def vectorSize : Surface → Nat
  | .vector2 => 2
  | .vector3 => 3
  | _ => 4

/-- The names of the components of a vector. -/
def components : List String := ["X", "Y", "Z", "W"]

/-- The position of the component `name`. -/
def component? (name : String) : Option Nat :=
  components.idxOf? name

/-- The axis that the unit vector `name` lies on. -/
def axis? (name : String) : Option Nat :=
  (components.map ("Unit" ++ ·)).idxOf? name

/-- The vector with `component i` at `i`. -/
def vectorOf (size : Nat) (component : Nat → Float32) : Term :=
  .array ((List.range size).map fun i => .number (.float32 (component i)))

def vectorStatic? (surface : Surface) (name : String) : Option Term :=
  let size := vectorSize surface
  match name with
  | "Zero" => some (vectorOf size fun _ => 0)
  | "One" => some (vectorOf size fun _ => 1)
  | _ =>
    match axis? name with
    | some axis =>
      if axis < size then some (vectorOf size fun i => if i == axis then 1 else 0) else none
    | none => none

/-- The component of `vector` at `index`, looked up now if the term shows it. -/
def componentOf (index : Nat) (vector : Term) : Term :=
  match vector with
  | .array items =>
    match items[index]? with
    | some item => item
    | none => vector.step (.index (Int64.ofNat index))
  | _ => vector.step (.index (Int64.ofNat index))

/-- The member `name` of a vector. Of a vector whose `items` are known, the item is taken. -/
def vectorMember (base : Operand) (items : List (LowerM Term)) (name : String) : LowerM Term := do
  if name == "Length" then return .call "vector::magnitude" [← base.lowered]
  match component? name with
  | none => throw (.memberUnsupported name)
  | some index =>
    if base.expr.ty.vectorWidth.getD 4 ≤ index then throw (.memberUnsupported name)
    match items[index]? with
    | some item => item
    | none => return componentOf index (← base.lowered)

/-- The function of a method of vectors, by the number of its operands. -/
def vectorFunction? : String → Nat → Option String
  | "Add", 2 => some "vector::add"
  | "Cross", 2 => some "vector::cross"
  | "Distance", 2 => some "vector::distance::euclidean"
  | "Divide", 2 => some "vector::divide"
  | "Dot", 2 => some "vector::dot"
  | "Multiply", 2 => some "vector::multiply"
  | "Normalize", 1 => some "vector::normalize"
  | "Subtract", 2 => some "vector::subtract"
  | _, _ => none

def vectorFunctionCall (qualified method : String) (operands : List Operand) : LowerM Term :=
  match vectorFunction? method operands.length with
  | some function => Operand.callWith function qualified operands
  | none => throw (.methodUnsupported qualified)

/-- `vector` times `scalar`, at whichever place they stand. -/
def scaled (qualified : String) (vector scalar : Operand) (vectorAt scalarAt : Nat) :
    LowerM Term := do
  let vector ← vector.argument qualified vectorAt
  return .call "vector::scale" [vector, ← scalar.argument qualified scalarAt]

/-- A call on vectors. -/
def vectorCall (surface : Surface) (method : String) (receiver : Option Operand)
    (args : List Operand) : LowerM Term :=
  let qualified := surface.qualify method
  let operands := allOperands receiver args
  match method, operands with
  | "Multiply", [left, right] =>
    match left.expr.ty.isVector, right.expr.ty.isVector with
    | true, false => scaled qualified left right 0 1
    | false, true => scaled qualified right left 1 0
    | _, _ => vectorFunctionCall qualified method operands
  | _, _ => vectorFunctionCall qualified method operands

end QueryTree.Lowering
