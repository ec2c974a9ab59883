import QueryTree.Lowering.Cast
import QueryTree.Lowering.Number
import QueryTree.Lowering.Sequence
import QueryTree.Lowering.Text
import QueryTree.Lowering.Time
import QueryTree.Relation.Basic

/-!
# From bound trees to queries

Selects become statements, all other nodes terms. What a call or a member means is said by the
modules for the kinds of values; here the tree is taken apart.
-/

namespace QueryTree

open Surql (Term)

namespace Lowering

/-! ## Nodes without further parts -/

def static (surface : Surface) (name : String) : LowerM Term :=
  let term? : Option Term := match surface with
    | .math | .float32 | .float64 => (mathConstant? surface name).map .constant
    | .dateTime => instantStatic? name
    | .timeSpan => spanStatic? name
    | .vector2 | .vector3 | .vector4 => vectorStatic? surface name
    | .string => if name == "Empty" then some (.string "") else none
    | _ => none
  match term? with
  | some term => return term
  | none => throw (.memberUnsupported (surface.qualify name))

/-- The current row of the select with `scope`. -/
def row (scope : ScopeId) : LowerM Term := do
  match ← LowerM.rowPath scope with
  | [] => return .param "this"
  | parts => return .path parts

/-! ## Nodes over operands -/

/-- A call that any object answers. -/
def objectCall (method : String) (receiver : Option Operand) (args : List Operand) :
    LowerM Term := do
  let qualified := Surface.object.qualify method
  match method, allOperands receiver args with
  | "Equals", [left, right] => Operand.combine qualified .equal left right
  | "ToString", [x] =>
    match ← x.argument qualified 0 with
    | .string s => return .string s
    | .char c => return .char c
    | term => return .cast .string term
  | _, _ => throw (.methodUnsupported qualified)

/-- A call of a method. -/
def call (surface : Surface) (method : String) (receiver : Option Operand) (args : List Operand) :
    LowerM Term :=
  match surface with
  | .string => textCall method receiver args
  | .math => mathCall method args
  | .dateTime => instantCall method receiver args
  | .timeSpan => spanCall method receiver args
  | .enumerable => sequenceCall method receiver args
  | .regex => patternCall method receiver args
  | .vector2 | .vector3 | .vector4 => vectorCall surface method receiver args
  | .object => objectCall method receiver args
  | .queryable => throw (.methodUnsupported method)
  | .float32 | .float64 => throw (.methodUnsupported (surface.qualify method))

def unary (op : UnaryOp) (x : Operand) (t : Ty) : LowerM Term := do
  match op with
  | .quote | .unaryPlus => x.lowered
  | .not => if x.expr.ty.isInteger then throw .bitwise else return .unary .not (← x.lowered)
  | .negate => return (← x.lowered).neg
  | .arrayLength => return .call "array::len" [← x.lowered]
  | .convert =>
    match ← LowerM.ofExcept (x.expr.ty.castKind t) with
    | some kind => return .cast kind (← x.lowered)
    | none => x.lowered

def index (sequence position : Operand) : LowerM Term := do
  let sequence ← sequence.lowered
  match position.expr.constantIndex? with
  | some n => return sequence.step (.index n)
  | none => return sequence.step (.item (← position.lowered))

def binary (op : BinaryOp) (left right : Operand) : LowerM Term :=
  match operator? op with
  | some operator => return .binary (← left.lowered) operator (← right.lowered)
  | none => if op = .arrayIndex then index left right else throw .bitwise

/-- A new value of a type. -/
def construct (t : Ty) (args : List Operand) : LowerM Term :=
  if t.unwrap == .prim .timeSpan then newSpan args
  else if t.unwrap == .prim .dateTime then newInstant args
  else if t.unwrap.isVector then return .array (← Operand.all args)
  else throw (.constructorUnsupported t.unwrap.text)

/-- A member that is stored: a column of a row, or a field of a value. The `members` of an object
made on the spot are known. -/
def storedMember (base : Operand) (members : List (String × Operand)) (name : String) :
    LowerM Term :=
  match base.expr with
  | .row scope t => return .path ((← LowerM.rowPath scope) ++ [.field (t.columnName name)])
  | .newObject _ _ =>
    match members.lookup name with
    | some x => x.lowered
    | none => throw (.memberUnsupported name)
  | e => return (← base.lowered).step (.field (e.ty.columnName name))

/-- Whether a type is an array, list or set, which know their length. -/
def knowsLength : Ty → Bool
  | .array _ | .list _ | .hashSet _ => true
  | _ => false

def isNullable : Ty → Bool
  | .nullable _ => true
  | _ => false

/-- A member: computed for the types the query language knows, and else stored. -/
def member (base : Operand) (members : List (String × Operand)) (items : List (LowerM Term))
    (name : String) : LowerM Term := do
  let t := base.expr.ty
  if t.unwrap == .string then textMember base name
  else if t.unwrap == .prim .dateTime then instantMember base name
  else if t.unwrap.isSpan then spanMember base name
  else if t.unwrap.isVector then vectorMember base items name
  else if knowsLength t.unwrap && (name == "Length" || name == "Count") then
    return .call "array::len" [← base.lowered]
  else if isNullable t && name == "Value" then base.lowered
  else storedMember base members name

end Lowering

open Lowering

/-! ## The tree -/

mutual

/-- The term of an expression. -/
def Expr.lower : Expr → LowerM Term
  | .constant v _ => v.lower
  | .named name _ => return .param name
  | .row scope _ => row scope
  | .member base name _ => member ⟨base, base.lower⟩ base.memberOperands base.knownItems name
  | .static surface name _ => static surface name
  | .call surface method receiver args _ =>
    call surface method (Expr.operand receiver) (Expr.operands args)
  | .unary op operand t => unary op ⟨operand, operand.lower⟩ t
  | .binary op left right _ => binary op ⟨left, left.lower⟩ ⟨right, right.lower⟩
  | .newObject _ members => return .object (← Expr.lowerMembers members)
  | .newArray _ items => return .array (← Operand.all (Expr.operands items))
  | .construct t args => construct t (Expr.operands args)
  | .select s => return .subquery (← LowerM.nested s.lower)
  | .subquery s => return .subquery (← LowerM.nested s.lower)
  | .custom inner _ => inner.lower
  | .groupAggregate kind selector _ =>
    return .call (kind.function true) (← Operand.all (Expr.operand selector).toList)
  | .lambda _ _ => throw .lambdaNotValue
  | .parameter name _ => throw (.unboundParameter name)
  | .source s => throw (.unexpectedNode (Expr.source s).kind)
  | .captured name c t => throw (.unexpectedNode (Expr.captured name c t).kind)
  | .table name element => throw (.unexpectedNode (Expr.table name element).kind)
termination_by structural e => e

/-- An operand that may be missing. -/
def Expr.operand : Option Expr → Option Operand
  | none => none
  | some e => some ⟨e, e.lower⟩
termination_by structural e => e

def Expr.operands : List Expr → List Operand
  | [] => []
  | e :: es => ⟨e, e.lower⟩ :: Expr.operands es
termination_by structural es => es

def Expr.namedOperands : List (String × Expr) → List (String × Operand)
  | [] => []
  | (name, e) :: es => (name, ⟨e, e.lower⟩) :: Expr.namedOperands es
termination_by structural es => es

def Expr.lowerMembers : List (String × Expr) → LowerM (List (String × Term))
  | [] => return []
  | (name, e) :: es => return (name, ← e.lower) :: (← Expr.lowerMembers es)
termination_by structural es => es

/-- The members of an object that is made on the spot. -/
def Expr.memberOperands : Expr → List (String × Operand)
  | .newObject _ members => Expr.namedOperands members
  | _ => []
termination_by structural e => e

/-- The items of an array or vector that is made on the spot. -/
def Expr.knownItems : Expr → List (LowerM Term)
  | .unary .quote e _ => e.knownItems
  | .construct _ args => (Expr.operands args).map (·.lowered)
  | .newArray _ items => (Expr.operands items).map (·.lowered)
  | .constant (.array items) _ => items.map Value.lower
  | _ => []
termination_by structural e => e

/-- The statement of a select. -/
def Select.lower : Select → LowerM Surql.Statement
  | ⟨scope, _, source, projection, filter, group, orderings, take, skip, single, _⟩ =>
    LowerM.withScope scope do
      let target ← source.lower
      let columns ← projection.lower scope
      let cond ← Expr.lowerOption filter
      let group ← RowGroup.lower group
      let order ← SortKey.lower orderings
      let limit ← Expr.lowerOption take
      let start ← Expr.lowerOption skip
      return { columns, target, only := single, cond, group, order, limit, start }
termination_by structural s => s

/-- What a select reads. -/
def RowSource.lower : RowSource → LowerM Surql.Target
  | .table name => return .table name
  | .subquery s => return .subquery (← LowerM.nested s.lower)
termination_by structural s => s

/-- What a select with `scope` puts out. -/
def Projection.lower (scope : ScopeId) : Projection → LowerM Surql.Columns
  | .all => return .all
  | .expr (.row s t) => do
    if s == scope then return .all else return .value (← (Expr.row s t).lower)
  | .expr (.newObject _ (m :: members)) => return .list (← Expr.lowerColumns (m :: members))
  | .expr e => return .value (← e.lower)
  | .fields fields => return .list (← OutputField.lower fields)
  | .count predicate => do
    let args ← Operand.all (Expr.operand predicate).toList
    return .list [⟨.call (AggregateKind.count.function false) args, none⟩]
  | .aggregation kind selector label => do
    return .list [⟨.call (kind.function false) [← selector.lower], some label⟩]
termination_by structural p => p

/-- The members of an object as columns. -/
def Expr.lowerColumns : List (String × Expr) → LowerM (List Surql.Column)
  | [] => return []
  | (name, e) :: es => return ⟨← e.lower, some name⟩ :: (← Expr.lowerColumns es)
termination_by structural es => es

def OutputField.lower : List OutputField → LowerM (List Surql.Column)
  | [] => return []
  | ⟨e, label⟩ :: fields => return ⟨← e.lower, label⟩ :: (← OutputField.lower fields)
termination_by structural fields => fields

def Expr.lowerOption : Option Expr → LowerM (Option Term)
  | none => return none
  | some e => return some (← e.lower)
termination_by structural e => e

/-- Which rows are taken together. -/
def RowGroup.lower : Option RowGroup → LowerM (Option Surql.GroupBy)
  | none => return none
  | some .all => return some .all
  | some (.keys keys) => return some (.keys (← Operand.all (Expr.operands keys)))
termination_by structural g => g

/-- The order of rows. -/
def SortKey.lower : List SortKey → LowerM (List Surql.OrderBy)
  | [] => return []
  | ⟨e, descending⟩ :: keys => return ⟨← e.lower, descending⟩ :: (← SortKey.lower keys)
termination_by structural keys => keys

end

/-- The query of a bound tree: a `select` is a statement by itself. -/
def Expr.lowerRoot : Expr → LowerM Surql.Query
  | .select s => return .statement (← s.lower)
  | e => return .term (← e.lower)

end QueryTree
