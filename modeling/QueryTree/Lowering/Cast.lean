import QueryTree.Error
import QueryTree.Surql.Basic

/-!
# Conversions

Which cast of the query language a conversion between two types needs.
-/

namespace QueryTree.Ty

/-- Whether values of type `t` are single numbers, truth values or text. -/
def isScalar (t : Ty) : Bool :=
  t.isNumeric || t.isBool || t == .string

def isSpan : Ty → Bool
  | .prim .timeSpan | .prim .duration => true
  | _ => false

/-- Whether the type is an array or reads like one. -/
def isArrayLike : Ty → Bool
  | .array _ | .list _ | .enumerable _ => true
  | _ => false

def isQueryable : Ty → Bool
  | .queryable _ => true
  | _ => false

def isHashSet : Ty → Bool
  | .hashSet _ => true
  | _ => false

/-- Whether values of the type, though no scalars, have a text. -/
def hasText : Ty → Bool
  | .prim .dateTime | .prim .guid | .prim .timeSpan | .prim .duration | .prim .recordId => true
  | .enum _ => true
  | _ => false

/-- The cast from `source` to `target`, neither of them nullable; `some none` when none is needed,
and `none` when no cast does it. The first rule that fits decides. -/
def castBetween (source target : Ty) : Option (Option Surql.CastKind) :=
  if source == target || source.isUnknown || target.isUnknown then some none
  else if target == .bool && source.isScalar then some (some .bool)
  else if target.isInteger && source.isInteger then some none
  else if target.isFloat && source.isFloat then some none
  else if target.isNumeric && source == .prim .dateTime then some (some .number)
  else if target.isInteger && source.isScalar then some (some .int)
  else if target.isFloat && source.isScalar then some (some .float)
  else if target == .prim .decimal && source.isScalar then some (some .decimal)
  else if target == .string && source == .prim .char then some none
  else if target == .string && (source.isScalar || source.hasText) then some (some .string)
  else if target.isSpan && source.isSpan then some none
  else if target.isSpan && source == .string then some (some .duration)
  else if target == .prim .guid && source == .string then some (some .uuid)
  else if target == .prim .regex && source == .string then some (some .regex)
  else if target == .prim .recordId && source == .string then some (some .record)
  else if target.isHashSet && source.isSequence then some (some .set)
  else if target.isArrayLike && source.isHashSet then some (some .array)
  else if (target.isArrayLike || target.isQueryable) && (source.isSequence || source.isVector) then
    some none
  else if target.isVector && source.isSequence then some none
  else none

/-- The cast from `source` to `target`, if one is needed; nullability does not matter. -/
def castKind (source target : Ty) : Except Error (Option Surql.CastKind) :=
  match castBetween source.unwrap target.unwrap with
  | some kind => .ok kind
  | none => .error (.castUnsupported source.unwrap target.unwrap)

end QueryTree.Ty
