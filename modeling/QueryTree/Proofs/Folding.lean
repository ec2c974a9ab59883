import QueryTree.Lowering.Tree
import QueryTree.Proofs.Signs

/-!
# Constant numbers

Spans and points in time are computed while compiling if their numbers are constants;
`constantNumber?` looks through signs and conversions. Where nothing is computed, the same
expressions are lowered: a conversion becomes a cast, nothing, or an error. Both ways agree on the
number as long as no conversion needs a cast (`Expr.castsNeeded`), and only then.
-/

namespace QueryTree

open Surql (Term Numeral CastKind)

/-! ## Numbers under signs and casts -/

/-- A `number` under any number of signs and casts. -/
def Surql.Term.isNumeral : Term → Bool
  | .number _ => true
  | .unary .neg t => t.isNumeral
  | .cast _ t => t.isNumeral
  | _ => false

/-- The casts around a number, from the outside in. -/
def Surql.Term.casts : Term → List CastKind
  | .unary _ t => t.casts
  | .cast kind t => kind :: t.casts
  | _ => []

/-- The number of a literal under any number of signs. -/
def Surql.Term.number? : Term → Option Float
  | .number n => some n.toFloat
  | .unary .neg t => t.number?.map fun x => -x
  | _ => none

/-- What numbers stand for, and what signs and casts do. `Numeral.neg?` changes the sign of what a
number stands for. -/
structure NumberModel (V : Type) where
  literal : Numeral → V
  neg : V → V
  cast : CastKind → V → V
  literal_neg : ∀ {n m : Numeral}, n.neg? = some m → literal m = neg (literal n)

/-- What a number under signs and casts stands for. -/
def Surql.Term.valueIn {V : Type} (M : NumberModel V) : Term → Option V
  | .number n => some (M.literal n)
  | .unary .neg t => (t.valueIn M).map M.neg
  | .cast kind t => (t.valueIn M).map (M.cast kind)
  | _ => none

/-- The number a constant is written as. -/
def Value.numeral? : Value → Option Numeral
  | .int n => some (.int n)
  | .uint n => some (.uint n)
  | .float32 x => some (.float32 x)
  | .float x => some (.float x)
  | .decimal d => some (.decimal d)
  | _ => none

/-- What a constant number under signs and conversions stands for. -/
def Expr.valueIn {V : Type} (M : NumberModel V) : Expr → Option V
  | .constant v _ => v.numeral?.map M.literal
  | .unary .quote e _ | .unary .unaryPlus e _ => e.valueIn M
  | .unary .negate e _ => (e.valueIn M).map M.neg
  | .unary .convert e t =>
    match e.ty.castKind t with
    | .ok (some kind) => (e.valueIn M).map (M.cast kind)
    | .ok none => e.valueIn M
    | .error _ => none
  | _ => none
termination_by structural e => e

/-- The casts that the conversions around a constant need, from the outside in, or the error of the
first of them without a cast. -/
def Expr.castsNeeded : Expr → Except Error (List CastKind)
  | .unary .quote e _ | .unary .unaryPlus e _ | .unary .negate e _ => e.castsNeeded
  | .unary .convert e t => do
    let kind ← e.ty.castKind t
    return kind.toList ++ (← e.castsNeeded)
  | _ => return []
termination_by structural e => e

namespace Surql.Term

variable {t : Term}

theorem isNumeral_neg (h : t.isNumeral = true) : t.neg.isNumeral = true := by
  unfold neg
  split
  · split
    · rfl
    · exact h
  · exact h

theorem casts_neg : t.neg.casts = t.casts := by
  unfold neg
  split
  · split
    · rfl
    · rfl
  · rfl

/-- `Term.neg` of a number has the other sign, up to the sign of a whole zero. -/
theorem number?_neg {x : Float} (h : t.number? = some x) :
    ∃ y, t.neg.number? = some y ∧ Number.Same (-x) y := by
  have hkept : ∀ {t : Term}, t.number? = some x → (Term.unary .neg t).number? = some (-x) := by
    intro t h
    rw [number?, h, Option.map_some]
  unfold neg
  split
  · split
    · rename_i n m hneg
      cases h
      exact ⟨m.toFloat, rfl, Numeral.toFloat_neg? hneg⟩
    · exact ⟨-x, hkept h, .inl rfl⟩
  · exact ⟨-x, hkept h, .inl rfl⟩

/-- `neg` changes the sign of a number or stays in front of it; `valueIn` is the same. -/
theorem valueIn_neg {V : Type} (M : NumberModel V) : t.neg.valueIn M = (t.valueIn M).map M.neg := by
  unfold neg
  split
  · split
    · rename_i hneg
      exact congrArg some (M.literal_neg hneg)
    · rfl
  · rfl

end Surql.Term

/-! ## Lowering -/

/-- `t` stands for the constant number `x` that `e` is, with the casts that its conversions need. -/
structure Expr.WrittenAs (e : Expr) (x : Float) (t : Term) : Prop where
  isNumeral : t.isNumeral = true
  casts : e.castsNeeded = .ok t.casts
  number : t.casts = [] → ∃ y, t.number? = some y ∧ Number.Same x y
  valueIn : ∀ {V : Type} (M : NumberModel V), t.valueIn M = e.valueIn M

namespace Expr

variable {e : Expr} {t : Term} {u : Ty} {x : Float}

theorem WrittenAs.negated (h : e.WrittenAs x t) :
    (Expr.unary .negate e u).WrittenAs (-x) t.neg where
  isNumeral := Term.isNumeral_neg h.isNumeral
  casts := h.casts.trans (congrArg Except.ok Term.casts_neg.symm)
  number hnone := by
    obtain ⟨y, hy, hsame⟩ := h.number (Term.casts_neg.symm.trans hnone)
    obtain ⟨z, hz, hneg⟩ := Term.number?_neg hy
    exact ⟨z, hz, hsame.neg.trans hneg⟩
  valueIn M := (Term.valueIn_neg M).trans (congrArg _ (h.valueIn M))

theorem WrittenAs.cast {kind : CastKind} (hkind : e.ty.castKind u = .ok (some kind))
    (h : e.WrittenAs x t) : (Expr.unary .convert e u).WrittenAs x (.cast kind t) where
  isNumeral := h.isNumeral
  casts := by
    rw [castsNeeded, hkind, h.casts]
    rfl
  number hnone := by cases hnone
  valueIn M := by rw [Expr.valueIn, hkind, Term.valueIn, h.valueIn M]

theorem WrittenAs.kept (hkind : e.ty.castKind u = .ok none) (h : e.WrittenAs x t) :
    (Expr.unary .convert e u).WrittenAs x t where
  isNumeral := h.isNumeral
  casts := by
    rw [castsNeeded, hkind, h.casts]
    rfl
  number := h.number
  valueIn M := by rw [Expr.valueIn, hkind, h.valueIn M]

theorem lower_negate : (Expr.unary .negate e u).lower = Term.neg <$> e.lower := by
  rw [← bind_pure_comp]
  rfl

theorem lower_convert_cast {kind : CastKind} (hkind : e.ty.castKind u = .ok (some kind)) :
    (Expr.unary .convert e u).lower = Term.cast kind <$> e.lower := by
  show Lowering.unary .convert ⟨e, e.lower⟩ u = _
  rw [Lowering.unary, hkind, ← bind_pure_comp]
  rfl

theorem lower_convert_kept (hkind : e.ty.castKind u = .ok none) :
    (Expr.unary .convert e u).lower = e.lower := by
  show Lowering.unary .convert ⟨e, e.lower⟩ u = _
  rw [Lowering.unary, hkind]
  rfl

theorem lower_convert_refused {fault : Error} (hkind : e.ty.castKind u = .error fault) :
    (Expr.unary .convert e u).lower = throw fault := by
  show Lowering.unary .convert ⟨e, e.lower⟩ u = _
  rw [Lowering.unary, hkind]
  rfl

/-- A constant with `asFloat?` is written as that number. -/
theorem writtenAs_constant {v : Value} (h : v.asFloat? = some x) :
    ∃ t, v.lower = pure t ∧ (Expr.constant v u).WrittenAs x t := by
  cases v <;> cases h <;>
    exact ⟨.number _, rfl, rfl, rfl, fun _ => ⟨_, rfl, .inl rfl⟩, fun _ => rfl⟩

/-- A `constantNumber?` has a term, or the error of the outermost conversion without a cast. -/
theorem lower_of_constantNumber? (h : e.constantNumber? = some x) :
    (∃ t, e.lower = pure t ∧ e.WrittenAs x t) ∨ ∃ fault, e.castsNeeded = .error fault ∧
      e.lower = throw fault := by
  fun_induction constantNumber? e generalizing x with
  | case1 v t => exact .inl (writtenAs_constant h)
  | case2 e u ih =>
    rcases ih h with ⟨t, hlower, ht⟩ | hfails
    · exact .inl ⟨t, hlower, ht.isNumeral, ht.casts, ht.number, ht.valueIn⟩
    · exact .inr hfails
  | case3 e u ih =>
    -- The cast of a conversion is looked for before its operand is lowered.
    cases hkind : e.ty.castKind u with
    | error fault =>
      exact .inr ⟨fault, by rw [castsNeeded, hkind]; rfl, lower_convert_refused hkind⟩
    | ok kind =>
      rcases ih h with ⟨t, hlower, ht⟩ | ⟨fault, hcasts, hlower⟩
      · cases kind with
        | none => exact .inl ⟨t, (lower_convert_kept hkind).trans hlower, ht.kept hkind⟩
        | some kind =>
          refine .inl ⟨.cast kind t, ?_, ht.cast hkind⟩
          rw [lower_convert_cast hkind, hlower, map_pure]
      · refine .inr ⟨fault, by rw [castsNeeded, hkind, hcasts]; rfl, ?_⟩
        cases kind with
        | none => exact (lower_convert_kept hkind).trans hlower
        | some kind =>
          rw [lower_convert_cast hkind, hlower]
          rfl
  | case4 e u ih =>
    rcases ih h with ⟨t, hlower, ht⟩ | hfails
    · exact .inl ⟨t, hlower, ht.isNumeral, ht.casts, ht.number, ht.valueIn⟩
    · exact .inr hfails
  | case5 e u ih =>
    obtain ⟨y, hy, rfl⟩ := Option.map_eq_some_iff.mp h
    rcases ih hy with ⟨t, hlower, ht⟩ | ⟨fault, hcasts, hlower⟩
    · refine .inl ⟨t.neg, ?_, ht.negated⟩
      rw [lower_negate, hlower, map_pure]
    · refine .inr ⟨fault, hcasts, ?_⟩
      rw [lower_negate, hlower]
      rfl
  | case6 => cases h

end Expr

/-- A constant number is lowered without effects. If none of its conversions needs a cast, it is
lowered to a literal, perhaps under signs, whose number is `x`, the number that is computed with. In
general it is lowered to a literal under signs and casts, the casts are exactly `castsNeeded`, and
it stands for `e` in every `NumberModel`. Where there is no cast for a conversion, lowering fails at
the outermost such one. -/
theorem constant_number_lowered {e : Expr} {x : Float} (h : e.constantNumber? = some x) :
    (e.castsNeeded = .ok [] →
        ∃ t y, e.lower = pure t ∧ t.number? = some y ∧ Number.Same x y) ∧
      (∀ kinds, e.castsNeeded = .ok kinds → ∃ t, e.lower = pure t ∧ t.isNumeral = true ∧
        t.casts = kinds ∧ ∀ {V : Type} (M : NumberModel V), t.valueIn M = e.valueIn M) ∧
      ∀ fault, e.castsNeeded = .error fault → e.lower = throw fault := by
  rcases Expr.lower_of_constantNumber? h with ⟨t, hlower, ht⟩ | ⟨fault, hcasts, hlower⟩
  · have hkinds : ∀ {kinds}, e.castsNeeded = .ok kinds → t.casts = kinds := by
      intro kinds hkinds
      cases ht.casts.symm.trans hkinds
      rfl
    refine ⟨fun hnone => ?_, fun kinds hk => ⟨t, hlower, ht.isNumeral, hkinds hk, ht.valueIn⟩, ?_⟩
    · obtain ⟨y, hy, hsame⟩ := ht.number (hkinds hnone)
      exact ⟨t, y, hlower, hy, hsame⟩
    · intro fault hfault
      cases ht.casts.symm.trans hfault
  · refine ⟨fun hnone => ?_, fun kinds hk => ?_, fun fault' hfault => ?_⟩
    · cases hcasts.symm.trans hnone
    · cases hcasts.symm.trans hk
    · cases hcasts.symm.trans hfault
      exact hlower

theorem Lowering.span_of_folded {method : String} {unit : TimeUnit} {amount : Operand}
    {d : Duration}
    (h : (amount.expr.constantNumber?.bind fun x => Duration.ofUnits? x unit.nanos) = some d) :
    span method unit amount = pure (.duration d) := by
  rw [span, h]

namespace Sample

/-- A number that has to be cast to the type it is converted to. -/
def cutNumber : Expr := .unary .convert (.constant (.float 1.9) .float64) .int32

/-- A number that is converted to a type there is no cast to. -/
def numberAsGuid : Expr := .unary .convert (.constant (.int 5) .int32) (.prim .guid)

/-- `amount` days. -/
def days (amount : Expr) : Expr := .staticCall .timeSpan "FromDays" [amount] (.prim .timeSpan)

/-- Signs around a conversion of a number whose negation has no 64 bits. -/
def signedNumber : Expr :=
  .unary .negate (.unary .convert
    (.unary .negate (.constant (.uint 9223372036854775808) (.prim .uint64))
    (.prim .uint64)) .int32) .int32

end Sample

section
open Sample

theorem constant_number_lowered_signedNumber :
    signedNumber.constantNumber?.isSome = true ∧ signedNumber.castsNeeded = .ok [] ∧
      ∃ x t y, signedNumber.constantNumber? = some x ∧ signedNumber.lower = pure t ∧
        t.number? = some y ∧ Number.Same x y := by
  have hnumber : signedNumber.constantNumber? = some (- -(9223372036854775808 : UInt64).toFloat) :=
    rfl
  obtain ⟨t, y, hlower, hy, hsame⟩ := (constant_number_lowered hnumber).1 rfl
  exact ⟨rfl, rfl, _, t, y, hnumber, hlower, hy, hsame⟩

/-- Days are computed from a number before it is cut to a whole one, and from one that there is no
cast for. -/
theorem days_fold_unconverted :
    (days cutNumber).lower = pure (.duration ⟨164160, 0⟩) ∧
      cutNumber.lower = pure (.cast .int (.number (.float 1.9))) ∧
      (days numberAsGuid).lower = pure (.duration ⟨432000, 0⟩) ∧
      numberAsGuid.lower = throw (.castUnsupported .int32 (.prim .guid)) := by
  have hdays : ∀ (amount : Expr) (d : Duration),
      (amount.constantNumber?.bind fun x => Duration.ofUnits? x Duration.day) = some d →
      (days amount).lower = pure (.duration d) :=
    fun amount d h => @Lowering.span_of_folded _ .days ⟨amount, amount.lower⟩ d h
  refine ⟨hdays _ _ ?_, rfl, hdays _ _ ?_, rfl⟩ <;> decide

end

end QueryTree
