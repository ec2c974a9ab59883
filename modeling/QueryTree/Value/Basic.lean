import QueryTree.Guid
import QueryTree.Number.Decimal
import QueryTree.Time.Duration
import QueryTree.Time.Instant
import QueryTree.Ty.Basic

/-!
# Values

The values that constants and captured variables hold.
-/

namespace QueryTree

/-- The key of a record within its table. -/
inductive RecordKey where
  | number (n : Int64)
  | text (s : String)
deriving DecidableEq, Repr

/-- The identity of a stored record. -/
structure RecordId where
  table : String
  key : RecordKey
deriving DecidableEq, Repr

/-- Whether the text key `s` can stand bare: a word that is not a number. -/
def RecordKey.isBare (s : String) : Bool :=
  !s.isEmpty && s.toList.all Text.isWordChar && !s.toList.all Char.isDigit

/-- Table and key of `r`; a key that is no bare word is in angle brackets. -/
def RecordId.text (r : RecordId) : String :=
  match r.key with
  | .number n => r.table ++ ":" ++ toString n.toInt
  | .text s => if RecordKey.isBare s then r.table ++ ":" ++ s else r.table ++ ":⟨" ++ s ++ "⟩"

/-- A value. -/
inductive Value where
  | null
  /-- No value at all, which is not the same as `null`. -/
  | absent
  | bool (b : Bool)
  | int (n : Int64)
  | uint (n : UInt64)
  | float32 (x : Float32)
  | float (x : Float)
  | decimal (d : Decimal)
  | string (s : String)
  | char (c : Char)
  | dateTime (t : Instant)
  | guid (g : Guid)
  | duration (d : Duration)
  /-- The pattern of a regular expression. -/
  | regex (pattern : String)
  | recordId (r : RecordId)
  /-- A variant of an enumeration, by name. -/
  | enum (variant : String)
  | point (x y : Float)
  | array (items : List Value)
  /-- Named members in the order they were written. -/
  | object (members : List (String × Value))

namespace Value

instance : Inhabited Value := ⟨.null⟩

mutual

/-- Equality of values: numbers by what they denote, so that a float that is undefined does not
equal itself, and objects whatever the order of their members. -/
def beq : Value → Value → Bool
  | .null, .null => true
  | .absent, .absent => true
  | .bool a, .bool b => a == b
  | .int a, .int b => a == b
  | .uint a, .uint b => a == b
  | .float32 a, .float32 b => a == b
  | .float a, .float b => a == b
  | .decimal a, .decimal b => a.sameNumber b
  | .string a, .string b => a == b
  | .char a, .char b => a == b
  | .dateTime a, .dateTime b => a == b
  | .guid a, .guid b => a == b
  | .duration a, .duration b => a == b
  | .regex a, .regex b => a == b
  | .recordId a, .recordId b => a == b
  | .enum a, .enum b => a == b
  | .point x y, .point u v => x == u && y == v
  | .array as, .array bs => beqItems as bs
  | .object as, .object bs => as.length == bs.length && beqMembers as bs
  | _, _ => false
termination_by structural v => v

def beqItems : List Value → List Value → Bool
  | [], [] => true
  | a :: as, b :: bs => beq a b && beqItems as bs
  | _, _ => false
termination_by structural vs => vs

/-- Whether each member has an equal member of its name on the other side. -/
def beqMembers : List (String × Value) → List (String × Value) → Bool
  | [], _ => true
  | (name, a) :: as, bs =>
    (match bs.lookup name with
      | some b => beq a b
      | none => false) && beqMembers as bs
termination_by structural vs => vs

end

instance : BEq Value := ⟨beq⟩

/-- The value as a whole number, when it is one of at most 64 bits with a sign. -/
def asInt? : Value → Option Int64
  | .int n => some n
  | .uint n => if n.toNat ≤ 9223372036854775807 then some (Int64.ofNat n.toNat) else none
  | _ => none

/-- The value as a float, when it is a number. -/
def asFloat? : Value → Option Float
  | .int n => some (Number.ofInt64 n)
  | .uint n => some n.toFloat
  | .float32 x => some (Number.widen x)
  | .float x => some x
  | .decimal d => some d.toFloat
  | _ => none

mutual

/-- The type of a constant that is given without one. -/
def type : Value → Ty
  | .null | .absent | .point _ _ => .prim .object
  | .bool _ => .prim .bool
  | .int _ => .prim .int32
  | .uint _ => .prim .uint32
  | .float32 _ => .prim .float32
  | .float _ => .prim .float64
  | .decimal _ => .prim .decimal
  | .string _ => .prim .string
  | .char _ => .prim .char
  | .dateTime _ => .prim .dateTime
  | .guid _ => .prim .guid
  | .duration _ => .prim .timeSpan
  | .regex _ => .prim .regex
  | .recordId _ => .prim .recordId
  | .enum _ => .enum ""
  | .array items => .array (headType items)
  | .object members => .anonymous (memberTypes members)
termination_by structural v => v

/-- The type of the first item, unknown if there is none. -/
def headType : List Value → Ty
  | [] => .unknown
  | v :: _ => v.type
termination_by structural vs => vs

def memberTypes : List (String × Value) → List (String × Ty)
  | [] => []
  | (name, v) :: members => (name, v.type) :: memberTypes members
termination_by structural vs => vs

end

end Value

/-- The value a variable of the type has before it is given one. -/
def Ty.defaultValue : Ty → Value
  | .prim .bool => .bool false
  | .prim .int8 | .prim .int16 | .prim .int32 | .prim .int64 => .int 0
  | .prim .uint8 | .prim .uint16 | .prim .uint32 | .prim .uint64 => .uint 0
  | .prim .float32 => .float32 0
  | .prim .float64 => .float 0
  | .prim .decimal => .decimal Decimal.zero
  | .prim .timeSpan => .duration Duration.zero
  | _ => .null

end QueryTree
