import QueryTree.Text.Basic

/-!
# Static types

Every node of an expression tree carries the static type of its result. Types say how a member
access is written in the query: which column a member is stored under, and which members are
computed.
-/

namespace QueryTree

/-- A type without parts. -/
inductive Prim where
  | unknown
  /-- Any value; nothing is ever converted to it. -/
  | object
  | bool
  | char
  | string
  | int8
  | int16
  | int32
  | int64
  | uint8
  | uint16
  | uint32
  | uint64
  | float32
  | float64
  | decimal
  | dateTime
  | guid
  | timeSpan
  | duration
  | regex
  | recordId
  | vector2
  | vector3
  | vector4
  | stringSplitOptions
deriving DecidableEq, Repr

/-- The name of a type without parts. -/
def Prim.name : Prim → String
  | .unknown => "Unknown"
  | .object => "Object"
  | .bool => "Bool"
  | .char => "Char"
  | .string => "String"
  | .int8 => "Int8"
  | .int16 => "Int16"
  | .int32 => "Int32"
  | .int64 => "Int64"
  | .uint8 => "UInt8"
  | .uint16 => "UInt16"
  | .uint32 => "UInt32"
  | .uint64 => "UInt64"
  | .float32 => "Float32"
  | .float64 => "Float64"
  | .decimal => "Decimal"
  | .dateTime => "DateTime"
  | .guid => "Guid"
  | .timeSpan => "TimeSpan"
  | .duration => "Duration"
  | .regex => "Regex"
  | .recordId => "RecordId"
  | .vector2 => "Vector2"
  | .vector3 => "Vector3"
  | .vector4 => "Vector4"
  | .stringSplitOptions => "StringSplitOptions"

/-- All types without parts. -/
def Prim.all : List Prim :=
  [.unknown, .object, .bool, .char, .string, .int8, .int16, .int32, .int64, .uint8,
    .uint16, .uint32,
   .uint64, .float32, .float64, .decimal, .dateTime, .guid, .timeSpan, .duration, .regex, .recordId,
   .vector2, .vector3, .vector4, .stringSplitOptions]

/-- The type without parts called `name`. -/
def Prim.ofName? (name : String) : Option Prim :=
  Prim.all.find? (·.name == name)

mutual

/-- The static type of an expression. -/
inductive Ty where
  | prim (p : Prim)
  | enum (name : String)
  | nullable (inner : Ty)
  | array (element : Ty)
  | list (element : Ty)
  | hashSet (element : Ty)
  | enumerable (element : Ty)
  | queryable (element : Ty)
  | grouping (key element : Ty)
  /-- A type of named members in declared order. -/
  | anonymous (members : List (String × Ty))
  /-- A record type that is stored in a table. -/
  | entity (name : String) (fields : List EntityField)

/-- A field of a stored record type. -/
structure EntityField where
  name : String
  /-- The name it is stored under, when it differs. -/
  column : Option String
  ty : Ty

end

namespace Ty

/-- The type of which nothing is known. -/
abbrev unknown : Ty := .prim .unknown
abbrev bool : Ty := .prim .bool
abbrev string : Ty := .prim .string
abbrev int32 : Ty := .prim .int32
abbrev int64 : Ty := .prim .int64
abbrev float64 : Ty := .prim .float64

instance : Inhabited Ty := ⟨unknown⟩

/-! ## Equality -/

mutual

/-- Whether two types are the same. -/
def beq : Ty → Ty → Bool
  | .prim p, .prim q => p == q
  | .enum n, .enum m => n == m
  | .nullable s, .nullable t => beq s t
  | .array s, .array t => beq s t
  | .list s, .list t => beq s t
  | .hashSet s, .hashSet t => beq s t
  | .enumerable s, .enumerable t => beq s t
  | .queryable s, .queryable t => beq s t
  | .grouping k s, .grouping l t => beq k l && beq s t
  | .anonymous ms, .anonymous ns => beqMembers ms ns
  | .entity n fs, .entity m gs => n == m && beqFields fs gs
  | _, _ => false
termination_by structural t => t

def beqMembers : List (String × Ty) → List (String × Ty) → Bool
  | [], [] => true
  | (n, s) :: ms, (m, t) :: ns => n == m && beq s t && beqMembers ms ns
  | _, _ => false
termination_by structural ms => ms

def beqFields : List EntityField → List EntityField → Bool
  | [], [] => true
  | ⟨n, c, s⟩ :: fs, ⟨m, d, t⟩ :: gs => n == m && c == d && beq s t && beqFields fs gs
  | _, _ => false
termination_by structural fs => fs

end

mutual

theorem eq_of_beq : ∀ {s t : Ty}, beq s t = true → s = t
  | .prim _, t, h => by cases t <;> simp_all [beq]
  | .enum _, t, h => by cases t <;> simp_all [beq]
  | .nullable _, t, h => by
    cases t <;> simp only [beq, Bool.false_eq_true] at h
    exact congrArg _ (eq_of_beq h)
  | .array _, t, h => by
    cases t <;> simp only [beq, Bool.false_eq_true] at h
    exact congrArg _ (eq_of_beq h)
  | .list _, t, h => by
    cases t <;> simp only [beq, Bool.false_eq_true] at h
    exact congrArg _ (eq_of_beq h)
  | .hashSet _, t, h => by
    cases t <;> simp only [beq, Bool.false_eq_true] at h
    exact congrArg _ (eq_of_beq h)
  | .enumerable _, t, h => by
    cases t <;> simp only [beq, Bool.false_eq_true] at h
    exact congrArg _ (eq_of_beq h)
  | .queryable _, t, h => by
    cases t <;> simp only [beq, Bool.false_eq_true] at h
    exact congrArg _ (eq_of_beq h)
  | .grouping _ _, t, h => by
    cases t <;> simp only [beq, Bool.false_eq_true, Bool.and_eq_true] at h
    rw [eq_of_beq h.1, eq_of_beq h.2]
  | .anonymous _, t, h => by
    cases t <;> simp only [beq, Bool.false_eq_true] at h
    exact congrArg _ (eq_of_beqMembers h)
  | .entity _ _, t, h => by
    cases t <;> simp only [beq, Bool.false_eq_true, Bool.and_eq_true, beq_iff_eq] at h
    rw [h.1, eq_of_beqFields h.2]

theorem eq_of_beqMembers : ∀ {ms ns : List (String × Ty)}, beqMembers ms ns = true → ms = ns
  | [], ns, h => by cases ns <;> simp_all [beqMembers]
  | (_, _) :: _, ns, h => by
    cases ns <;> simp only [beqMembers, Bool.false_eq_true, Bool.and_eq_true, beq_iff_eq] at h
    rw [h.1.1, eq_of_beq h.1.2, eq_of_beqMembers h.2]

theorem eq_of_beqFields : ∀ {fs gs : List EntityField}, beqFields fs gs = true → fs = gs
  | [], gs, h => by cases gs <;> simp_all [beqFields]
  | ⟨_, _, _⟩ :: _, [], h => by simp [beqFields] at h
  | ⟨_, _, _⟩ :: _, ⟨_, _, _⟩ :: _, h => by
    simp only [beqFields, Bool.and_eq_true, beq_iff_eq] at h
    rw [h.1.1.1, h.1.1.2, eq_of_beq h.1.2, eq_of_beqFields h.2]

end

mutual

theorem beq_refl : ∀ t : Ty, beq t t = true
  | .prim _ => by simp [beq]
  | .enum _ => by simp [beq]
  | .nullable t => by simp [beq, beq_refl t]
  | .array t => by simp [beq, beq_refl t]
  | .list t => by simp [beq, beq_refl t]
  | .hashSet t => by simp [beq, beq_refl t]
  | .enumerable t => by simp [beq, beq_refl t]
  | .queryable t => by simp [beq, beq_refl t]
  | .grouping k t => by simp [beq, beq_refl k, beq_refl t]
  | .anonymous ms => by simp [beq, beqMembers_refl ms]
  | .entity _ fs => by simp [beq, beqFields_refl fs]

theorem beqMembers_refl : ∀ ms : List (String × Ty), beqMembers ms ms = true
  | [] => rfl
  | (_, t) :: ms => by simp [beqMembers, beq_refl t, beqMembers_refl ms]

theorem beqFields_refl : ∀ fs : List EntityField, beqFields fs fs = true
  | [] => rfl
  | ⟨_, _, t⟩ :: fs => by simp [beqFields, beq_refl t, beqFields_refl fs]

end

theorem beq_eq_true_iff {s t : Ty} : beq s t = true ↔ s = t :=
  ⟨eq_of_beq, fun h => h ▸ beq_refl s⟩

instance : DecidableEq Ty := fun s t => decidable_of_iff (beq s t = true) beq_eq_true_iff

/-! ## Kinds of types -/

/-- The type without one level of `nullable`. -/
def unwrap : Ty → Ty
  | .nullable inner => inner
  | t => t

/-- Whether `t` says nothing about its values. -/
def isUnknown (t : Ty) : Bool :=
  t == .prim .unknown || t == .prim .object

/-- Whether `t`, nullable or not, is of whole numbers. -/
def isInteger (t : Ty) : Bool :=
  match t.unwrap with
  | .prim .int8 | .prim .int16 | .prim .int32 | .prim .int64 => true
  | .prim .uint8 | .prim .uint16 | .prim .uint32 | .prim .uint64 => true
  | _ => false

/-- Whether `t`, nullable or not, is of floating-point numbers. -/
def isFloat (t : Ty) : Bool :=
  match t.unwrap with
  | .prim .float32 | .prim .float64 => true
  | _ => false

/-- Whether `t`, nullable or not, is of numbers. -/
def isNumeric (t : Ty) : Bool :=
  t.isInteger || t.isFloat || t.unwrap == .prim .decimal

/-- Whether `t`, nullable or not, is of truth values. -/
def isBool (t : Ty) : Bool :=
  t.unwrap == .prim .bool

/-- The number of components of the vector type `t`, nullable or not. -/
def vectorWidth (t : Ty) : Option Nat :=
  match t.unwrap with
  | .prim .vector2 => some 2
  | .prim .vector3 => some 3
  | .prim .vector4 => some 4
  | _ => none

/-- Whether `t`, nullable or not, is of vectors. -/
def isVector (t : Ty) : Bool :=
  t.vectorWidth.isSome

/-- The element type of a sequence or of a grouping, nullable or not. -/
def element (t : Ty) : Option Ty :=
  match t.unwrap with
  | .array e | .list e | .hashSet e | .enumerable e | .queryable e | .grouping _ e => some e
  | _ => none

/-- Whether `t`, nullable or not, has elements. -/
def isSequence (t : Ty) : Bool :=
  t.element.isSome

/-! ## Members -/

/-- The first field called `name`. -/
def findField (fields : List EntityField) (name : String) : Option EntityField :=
  fields.find? (·.name == name)

/-- The type of `member`; `unknown` when `t` does not say. -/
def memberType (t : Ty) (member : String) : Ty :=
  match t.unwrap with
  | .entity _ fields => ((findField fields member).map (·.ty)).getD unknown
  | .anonymous members => (members.lookup member).getD unknown
  | .grouping key _ => if member == "Key" then key else unknown
  | _ => unknown

/-- The name `member` is stored under. -/
def columnName (t : Ty) (member : String) : String :=
  match t.unwrap with
  | .entity _ fields => ((findField fields member).bind (·.column)).getD member
  | _ => member

/-! ## Text -/

/-- The name of a type in messages. -/
def text : Ty → String
  | .prim p => p.name
  | .enum name => name
  | .nullable inner => "Nullable<" ++ inner.text ++ ">"
  | .array e => e.text ++ "[]"
  | .list e => "List<" ++ e.text ++ ">"
  | .hashSet e => "HashSet<" ++ e.text ++ ">"
  | .enumerable e => "IEnumerable<" ++ e.text ++ ">"
  | .queryable e => "IQueryable<" ++ e.text ++ ">"
  | .grouping k e => "IGrouping<" ++ k.text ++ ", " ++ e.text ++ ">"
  | .anonymous members => "\x7b " ++ Text.joinWith ", " (members.map (·.1)) ++ " \x7d"
  | .entity name _ => name

end Ty

end QueryTree
