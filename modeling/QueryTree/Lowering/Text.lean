import QueryTree.Lowering.Literal

/-!
# Text and patterns
-/

namespace QueryTree.Lowering

open Surql (Term)

/-! ## Text -/

/-- The function of a method of text, by the number of its arguments. -/
def textFunction? : String → Nat → Option String
  | "Contains", 1 => some "string::contains"
  | "StartsWith", 1 => some "string::starts_with"
  | "EndsWith", 1 => some "string::ends_with"
  | "Replace", 2 => some "string::replace"
  | "Substring", 1 => some "string::slice"
  | "Substring", 2 => some "string::slice"
  | "Trim", 0 => some "string::trim"
  | "ToLower", 0 => some "string::lowercase"
  | "ToLowerInvariant", 0 => some "string::lowercase"
  | "ToUpper", 0 => some "string::uppercase"
  | "ToUpperInvariant", 0 => some "string::uppercase"
  | "Split", 1 => some "string::split"
  | _, _ => none

/-- Whether options for splitting text ask for nothing in particular. -/
def isDefaultSplit (e : Expr) : Bool :=
  match e.constant? with
  | some (.enum variant) => variant == "None"
  | some v => v.asInt? == some 0
  | none => false

/-- A method of a text. -/
def textMethod (method : String) (receiver : Operand) (args : List Operand) : LowerM Term := do
  let qualified := Surface.string.qualify method
  match textFunction? method args.length with
  | some function =>
    return .call function ((← receiver.lowered) :: (← Operand.arguments qualified 0 args))
  | none =>
    match method, args with
    | "Split", [separator, options] =>
      if isDefaultSplit options.expr then
        return .call "string::split" [← receiver.lowered, ← separator.argument qualified 0]
      else throw (.splitOptions qualified)
    | "Equals", [other] =>
      return .binary (← receiver.lowered) .equal (← other.argument qualified 0)
    | "ToString", [] => receiver.lowered
    | _, _ => throw (.methodUnsupported qualified)

/-- A function of texts. -/
def textStatic (method : String) (args : List Operand) : LowerM Term := do
  let qualified := Surface.string.qualify method
  match method, args with
  | "Concat", args =>
    match ← Operand.arguments qualified 0 args with
    | [.array items] => return .call "string::concat" items
    | terms => return .call "string::concat" terms
  | "Join", [separator, items] =>
    let separator ← separator.argument qualified 0
    return .call "array::join" [← items.argument qualified 1, separator]
  | "Join", separator :: item :: items =>
    let separator ← separator.argument qualified 0
    return .call "array::join" [.array (← Operand.arguments qualified 1 (item :: items)), separator]
  | "IsNullOrEmpty", [x] => return .unary .not (← x.argument qualified 0)
  | "IsNullOrWhiteSpace", [x] =>
    let term ← x.argument qualified 0
    return .binary (.unary .not term) .or (.unary .not (.call "string::words" [term]))
  | "Equals", [left, right] => Operand.combine qualified .equal left right
  | _, _ => throw (.methodUnsupported qualified)

def textCall (method : String) (receiver : Option Operand) (args : List Operand) : LowerM Term :=
  match receiver with
  | some receiver => textMethod method receiver args
  | none => textStatic method args

def textMember (base : Operand) (name : String) : LowerM Term :=
  match name with
  | "Length" => return .call "string::len" [← base.lowered]
  | _ => throw (.memberUnsupported (Surface.string.qualify name))

/-! ## Patterns -/

/-- The term of a pattern: text is made one. -/
def pattern (method : String) (position : Nat) (x : Operand) : LowerM Term := do
  let term ← x.argument method position
  if x.expr.ty.unwrap == .prim .regex then return term
  match term with
  | .cast .regex _ => return term
  | _ => return .cast .regex term

/-- What is done with `input` and `pattern`, given further arguments, the first of them at
`position`. -/
def matching (method : String) (input pattern : Term) (rest : List Operand) (position : Nat) :
    LowerM Term :=
  let qualified := Surface.regex.qualify method
  match method, rest with
  | "IsMatch", [] => return .call "string::matches" [input, pattern]
  | "Replace", [replacement] =>
    return .call "string::replace" [input, pattern, ← replacement.argument qualified position]
  | _, _ => throw (.methodUnsupported qualified)

/-- A call on patterns. The pattern is the receiver, or else the second argument. -/
def patternCall (method : String) (receiver : Option Operand) (args : List Operand) :
    LowerM Term := do
  let qualified := Surface.regex.qualify method
  match receiver, args with
  | some regex, input :: rest =>
    let input ← input.argument qualified 0
    matching method input (← pattern qualified 0 regex) rest 1
  | none, input :: regex :: rest =>
    let input ← input.argument qualified 0
    matching method input (← pattern qualified 1 regex) rest 2
  | _, _ => throw (.methodUnsupported qualified)

end QueryTree.Lowering
