import QueryTree.Json.Basic
import QueryTree.Ty.Basic

/-!
# Types as JSON

A type is an object with its `kind` and, if it has parts, what it is `of`.
-/

namespace QueryTree.Ty

/-- A tagged object without content. -/
def tagged (kind : String) : Json :=
  .object [("kind", .string kind)]

/-- A tagged object with content. -/
def taggedOf (kind : String) (content : Json) : Json :=
  .object [("kind", .string kind), ("of", content)]

mutual

/-- Writes a type. -/
def toJson : Ty → Json
  | .prim p => tagged p.name
  | .enum name => taggedOf "Enum" (.string name)
  | .nullable t => taggedOf "Nullable" t.toJson
  | .array t => taggedOf "Array" t.toJson
  | .list t => taggedOf "List" t.toJson
  | .hashSet t => taggedOf "HashSet" t.toJson
  | .enumerable t => taggedOf "Enumerable" t.toJson
  | .queryable t => taggedOf "Queryable" t.toJson
  | .grouping k t => taggedOf "Grouping" (.object [("key", k.toJson), ("element", t.toJson)])
  | .anonymous members => taggedOf "Anonymous" (.array (membersToJson members))
  | .entity name fields =>
    taggedOf "Entity" (.object [("name", .string name), ("fields", .array (fieldsToJson fields))])
termination_by structural t => t

def membersToJson : List (String × Ty) → List Json
  | [] => []
  | (name, t) :: members => .array [.string name, t.toJson] :: membersToJson members
termination_by structural members => members

/-- Writes fields; the column is left out when there is none. -/
def fieldsToJson : List EntityField → List Json
  | [] => []
  | ⟨name, none, t⟩ :: fields =>
    .object [("name", .string name), ("ty", t.toJson)] :: fieldsToJson fields
  | ⟨name, some column, t⟩ :: fields =>
    .object [("name", .string name), ("column", .string column), ("ty", t.toJson)] ::
      fieldsToJson fields
termination_by structural fields => fields

end

/-- Whether a tagged object has no content: none, or `null`. -/
def hasNoContent (name : String) (members : List (String × Json)) : Bool :=
  match members.lookup name with
  | none | some .null => true
  | _ => false

/-- The member `name`, which is text. -/
def stringMember? (name : String) (members : List (String × Json)) : Option String :=
  (members.lookup name).bind Json.string?

/-- The member `name`, which may be missing or `null`, and else is text. -/
def optionalString? (name : String) (members : List (String × Json)) : Option (Option String) :=
  match members.lookup name with
  | none | some .null => some none
  | some j => j.string?.map some

mutual

/-- Reads a type. Members of other names are passed over, and none of its own may be repeated. -/
def ofJson? : Json → Option Ty
  | .object members =>
    if Json.distinct ["kind", "of"] members then do
      let kind ← stringMember? "kind" members
      match Prim.ofName? kind with
      | some p => if hasNoContent "of" members then some (.prim p) else none
      | none => match kind with
        | "Enum" => (stringMember? "of" members).map .enum
        | "Nullable" => (ofMember? "of" members).map .nullable
        | "Array" => (ofMember? "of" members).map .array
        | "List" => (ofMember? "of" members).map .list
        | "HashSet" => (ofMember? "of" members).map .hashSet
        | "Enumerable" => (ofMember? "of" members).map .enumerable
        | "Queryable" => (ofMember? "of" members).map .queryable
        | "Grouping" => groupingOf? members
        | "Anonymous" => anonymousOf? members
        | "Entity" => entityOf? members
        | _ => none
    else none
  | _ => none
termination_by structural j => j

/-- Reads the type in the member `name`. -/
def ofMember? (name : String) : List (String × Json) → Option Ty
  | [] => none
  | (key, j) :: members => if name == key then ofJson? j else ofMember? name members
termination_by structural members => members

def groupingOf? : List (String × Json) → Option Ty
  | [] => none
  | (key, j) :: members =>
    if "of" == key then
      match j with
      | .object parts =>
        if Json.distinct ["key", "element"] parts then do
          return .grouping (← ofMember? "key" parts) (← ofMember? "element" parts)
        else none
      | _ => none
    else groupingOf? members
termination_by structural members => members

/-- Reads the content of a type of named members. -/
def anonymousOf? : List (String × Json) → Option Ty
  | [] => none
  | (key, j) :: members =>
    if "of" == key then
      match j with
      | .array pairs => (pairsOf? pairs).map .anonymous
      | _ => none
    else anonymousOf? members
termination_by structural members => members

/-- Reads members written as pairs. -/
def pairsOf? : List Json → Option (List (String × Ty))
  | [] => some []
  | .array [.string name, j] :: pairs => do return (name, ← ofJson? j) :: (← pairsOf? pairs)
  | _ => none
termination_by structural pairs => pairs

/-- Reads the content of a stored record type. -/
def entityOf? : List (String × Json) → Option Ty
  | [] => none
  | (key, j) :: members =>
    if "of" == key then
      match j with
      | .object parts =>
        if Json.distinct ["name", "fields"] parts then do
          return .entity (← stringMember? "name" parts) (← fieldsMember? parts)
        else none
      | _ => none
    else entityOf? members
termination_by structural members => members

/-- Reads the member that holds the fields. -/
def fieldsMember? : List (String × Json) → Option (List EntityField)
  | [] => none
  | (key, j) :: members =>
    if "fields" == key then
      match j with
      | .array items => fieldsOf? items
      | _ => none
    else fieldsMember? members
termination_by structural members => members

def fieldsOf? : List Json → Option (List EntityField)
  | [] => some []
  | .object parts :: items =>
    if Json.distinct ["name", "column", "ty"] parts then do
      return ⟨← stringMember? "name" parts, ← optionalString? "column" parts,
        ← ofMember? "ty" parts⟩ :: (← fieldsOf? items)
    else none
  | _ => none
termination_by structural items => items

end

end QueryTree.Ty
