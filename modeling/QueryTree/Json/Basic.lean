/-!
# JSON

JSON values with object members in the order they were written. Whole numbers and floating-point
numbers are kept apart: `1` and `1.0` are different values.
-/

namespace QueryTree

/-- A JSON value. -/
inductive Json where
  | null
  | bool (b : Bool)
  | int (n : Int)
  | float (x : Float)
  | string (s : String)
  | array (items : List Json)
  | object (members : List (String × Json))
deriving Inhabited, Repr

namespace Json

def members? : Json → Option (List (String × Json))
  | .object members => some members
  | _ => none

/-- The member `name`, when `j` is an object that has one. -/
def get? (j : Json) (name : String) : Option Json :=
  j.members?.bind (·.lookup name)

/-- Whether no two members have the same one of the `names`. -/
def distinct (names : List String) (members : List (String × Json)) : Bool :=
  names.all fun name => members.countP (·.1 == name) ≤ 1

/-- The members of the object `j`, none of the `names` repeated. -/
def fields? (names : List String) (j : Json) : Option (List (String × Json)) :=
  j.members?.filter (distinct names)

def items? : Json → Option (List Json)
  | .array items => some items
  | _ => none

def string? : Json → Option String
  | .string s => some s
  | _ => none

def bool? : Json → Option Bool
  | .bool b => some b
  | _ => none

/-- A whole number that fits in 64 bits with a sign. -/
def int64? : Json → Option Int64
  | .int n =>
    if -9223372036854775808 ≤ n && n ≤ 9223372036854775807 then some (Int64.ofInt n) else none
  | _ => none

/-- A whole number that fits in `bits` bits without a sign. -/
def natural? (bits : Nat) : Json → Option Nat
  | .int n => if 0 ≤ n && n < Nat.pow 2 bits then some n.toNat else none
  | _ => none

/-- A number as a 64-bit float; whole numbers are rounded. -/
def float? : Json → Option Float
  | .int n => some (Float.ofInt n)
  | .float x => some x
  | _ => none

/-- A number as a 32-bit float: a whole number is rounded once, any other from 64 bits. -/
def float32? : Json → Option Float32
  | .int n =>
    let magnitude := Float32.ofScientific n.natAbs false 0
    some (if n < 0 then -magnitude else magnitude)
  | .float x => some x.toFloat32
  | _ => none

/-- The member `name`, which may be left out or `null`, read by `read`. -/
def optional? {α : Type} (j : Json) (name : String) (read : Json → Option α) : Option (Option α) :=
  match j.get? name with
  | none | some .null => some none
  | some value => (read value).map some

/-- The items of an array, each read by `read`. -/
def list? {α : Type} (read : Json → Option α) (j : Json) : Option (List α) :=
  j.items?.bind (·.mapM read)

/-- A float as JSON holds it: `null` if it is not finite. -/
def ofFloat (x : Float) : Json :=
  if x.isFinite then .float x else .null

end Json

end QueryTree
