import QueryTree.Ty.Json
import QueryTree.Value.Basic

/-!
# Values as JSON

Two forms: the tagged form `{"type": …, "value": …}` in trees, which keeps every value apart, and
the plain form in which parameters are handed over.
-/

namespace QueryTree

def Duration.toJson (d : Duration) : Json :=
  .object [("secs", .int d.secs.toNat), ("nanos", .int d.nanos.toNat)]

def Duration.ofJson? (j : Json) : Option Duration := do
  let fields ← j.fields? ["secs", "nanos"]
  let secs ← (← fields.lookup "secs").natural? 64
  let nanos ← (← fields.lookup "nanos").natural? 32
  return ⟨UInt64.ofNat secs, UInt32.ofNat nanos⟩

def RecordId.toJson (r : RecordId) : Json :=
  .object [("table", .string r.table), ("id", match r.key with
    | .number n => .int n.toInt
    | .text s => .string s)]

def RecordKey.ofJson? (j : Json) : Option RecordKey :=
  (j.int64?.map .number).or (j.string?.map .text)

def RecordId.ofJson? (j : Json) : Option RecordId := do
  let fields ← j.fields? ["table", "id"]
  return ⟨← (← fields.lookup "table").string?, ← RecordKey.ofJson? (← fields.lookup "id")⟩

/-- Reads a decimal: text, or a number as it would be written out. -/
def Decimal.ofJson? : Json → Option Decimal
  | .string s => Decimal.ofText? s
  | .int n => Decimal.ofInt? n
  | .float x => Decimal.ofText? (Number.parts x).display
  | _ => none

/-- Reads a text of one character. -/
def charOfJson? (j : Json) : Option Char :=
  match j with
  | .string s => match s.toList with
    | [c] => some c
    | _ => none
  | _ => none

/-- Reads the two coordinates of a point. -/
def pointOfJson? (j : Json) : Option Value :=
  match j with
  | .array [x, y] => do return .point (← x.float?) (← y.float?)
  | _ => none

namespace Value

/-! ## The tagged form -/

/-- A tagged value without content. -/
def tagged (type : String) : Json :=
  .object [("type", .string type)]

/-- A tagged value with content. -/
def taggedOf (type : String) (content : Json) : Json :=
  .object [("type", .string type), ("value", content)]

mutual

/-- Writes a value with its tag. -/
def toTagged : Value → Json
  | .null => tagged "Null"
  | .absent => tagged "None"
  | .bool b => taggedOf "Bool" (.bool b)
  | .int n => taggedOf "Int" (.int n.toInt)
  | .uint n => taggedOf "UInt" (.int n.toNat)
  | .float32 x => taggedOf "Float32" (Json.ofFloat x.toFloat)
  | .float x => taggedOf "Float" (Json.ofFloat x)
  | .decimal d => taggedOf "Decimal" (.string d.text)
  | .string s => taggedOf "String" (.string s)
  | .char c => taggedOf "Char" (.string (String.singleton c))
  | .dateTime t => taggedOf "DateTime" (.string t.text)
  | .guid g => taggedOf "Guid" (.string g.text)
  | .duration d => taggedOf "Duration" d.toJson
  | .regex s => taggedOf "Regex" (.string s)
  | .recordId r => taggedOf "RecordId" r.toJson
  | .enum s => taggedOf "Enum" (.string s)
  | .point x y => taggedOf "Point" (.array [Json.ofFloat x, Json.ofFloat y])
  | .array items => taggedOf "Array" (.array (itemsToTagged items))
  | .object members => taggedOf "Object" (.object (membersToTagged members))
termination_by structural v => v

def itemsToTagged : List Value → List Json
  | [] => []
  | v :: items => v.toTagged :: itemsToTagged items
termination_by structural items => items

def membersToTagged : List (String × Value) → List (String × Json)
  | [] => []
  | (name, v) :: members => (name, v.toTagged) :: membersToTagged members
termination_by structural members => members

end

/-- Reads a value whose content holds no further values. -/
def scalarOf? (type : String) (content : Option Json) : Option Value := do
  match type with
  | "Bool" => return .bool (← (← content).bool?)
  | "Int" => return .int (← (← content).int64?)
  | "UInt" => return .uint (UInt64.ofNat (← (← content).natural? 64))
  | "Float32" => return .float32 (← (← content).float32?)
  | "Float" => return .float (← (← content).float?)
  | "Decimal" => return .decimal (← Decimal.ofJson? (← content))
  | "String" => return .string (← (← content).string?)
  | "Char" => return .char (← charOfJson? (← content))
  | "DateTime" => return .dateTime (← Instant.ofText? (← (← content).string?))
  | "Guid" => return .guid (← Guid.ofText? (← (← content).string?))
  | "Duration" => return .duration (← Duration.ofJson? (← content))
  | "Regex" => return .regex (← (← content).string?)
  | "RecordId" => return .recordId (← RecordId.ofJson? (← content))
  | "Enum" => return .enum (← (← content).string?)
  | "Point" => pointOfJson? (← content)
  | _ => none

/-- Adds a member, in place of an earlier one called `name`. -/
def insertMember (members : List (String × Value)) (name : String) (v : Value) :
    List (String × Value) :=
  if members.any (·.1 == name) then
    members.map fun m => if m.1 == name then (name, v) else m
  else members ++ [(name, v)]

mutual

/-- Reads a tagged value. Members of other names are passed over. -/
def ofTagged? : Json → Option Value
  | .object members =>
    if Json.distinct ["type", "value"] members then do
      match ← Ty.stringMember? "type" members with
      | "Null" => if Ty.hasNoContent "value" members then some .null else none
      | "None" => if Ty.hasNoContent "value" members then some .absent else none
      | "Array" => arrayOf? members
      | "Object" => objectOf? members
      | type => scalarOf? type (members.lookup "value")
    else none
  | _ => none
termination_by structural j => j

def arrayOf? : List (String × Json) → Option Value
  | [] => none
  | (key, j) :: members =>
    if "value" == key then
      match j with
      | .array items => (itemsOf? items).map .array
      | _ => none
    else arrayOf? members
termination_by structural members => members

def itemsOf? : List Json → Option (List Value)
  | [] => some []
  | j :: items => do return (← ofTagged? j) :: (← itemsOf? items)
termination_by structural items => items

def objectOf? : List (String × Json) → Option Value
  | [] => none
  | (key, j) :: members =>
    if "value" == key then
      match j with
      | .object parts => (membersOf? [] parts).map .object
      | _ => none
    else objectOf? members
termination_by structural members => members

/-- Reads tagged members after those in `read`. -/
def membersOf? (read : List (String × Value)) : List (String × Json) →
    Option (List (String × Value))
  | [] => some read
  | (name, j) :: parts => do membersOf? (insertMember read name (← ofTagged? j)) parts
termination_by structural parts => parts

end

/-! ## The plain form -/

mutual

/-- Writes a value the way it is handed over with a query. -/
def toPlain : Value → Json
  | .null | .absent => .null
  | .bool b => .bool b
  | .int n => .int n.toInt
  | .uint n => .int n.toNat
  | .float32 x => Json.ofFloat x.toFloat
  | .float x => Json.ofFloat x
  | .decimal d => .string d.text
  | .string s | .regex s | .enum s => .string s
  | .char c => .string (String.singleton c)
  | .dateTime t => .string t.text
  | .guid g => .string g.text
  | .duration d => .string d.text
  | .recordId r => .string r.text
  | .point x y => .object
      [("type", .string "Point"), ("coordinates", .array [Json.ofFloat x, Json.ofFloat y])]
  | .array items => .array (itemsToPlain items)
  | .object members => .object (membersToPlain members)
termination_by structural v => v

def itemsToPlain : List Value → List Json
  | [] => []
  | v :: items => v.toPlain :: itemsToPlain items
termination_by structural items => items

def membersToPlain : List (String × Value) → List (String × Json)
  | [] => []
  | (name, v) :: members => (name, v.toPlain) :: membersToPlain members
termination_by structural members => members

end

end Value

end QueryTree
