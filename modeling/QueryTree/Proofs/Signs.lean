import Mathlib
import QueryTree.Lowering.Literal

/-!
# Signs of numbers

A float is packed from a sign, an exponent and a mantissa, and changing its sign changes the first
alone. So a sign changed twice is the same again, and it may be changed before a number is read as a
float of 64 bits or after that. Only whole numbers have a zero without a sign.
-/

open Float.Model (Format UnpackedFloat)
open Float.Model.UnpackedFloat

namespace QueryTree.Number

/-! ## Packed numbers -/

section
variable {spec : Format}

/-- `pack` takes the exponent and the mantissa from a number whatever its sign is. -/
theorem exists_components {f : UnpackedFloat} (h : f ≠ .notANumber) :
    ∃ sign exponent mantissa, f.pack spec = packComponents spec sign exponent mantissa ∧
      f.neg.pack spec = packComponents spec (-sign) exponent mantissa := by
  cases f with
  | notANumber => exact absurd rfl h
  | infinity s => exact ⟨s, _, _, rfl, rfl⟩
  | zero s => exact ⟨s, _, _, rfl, rfl⟩
  | finite s m e hm =>
    simp only [UnpackedFloat.neg, UnpackedFloat.pack]
    split
    · exact ⟨s, _, _, rfl, rfl⟩
    · split <;> exact ⟨s, _, _, rfl, rfl⟩

theorem unpack_neg_sign (sign : Sign) (exponent : BitVec spec.exponentBits)
    (mantissa : BitVec spec.mantissaBitsWithoutImplicit) :
    unpack spec (packComponents spec (-sign) exponent mantissa) =
      (unpack spec (packComponents spec sign exponent mantissa)).neg := by
  simp only [unpack, unpackExponent_packComponents, unpackMantissa_packComponents,
    unpackSign_packComponents, Sign.ofBitVec_toBitVec]
  split
  · split <;> rfl
  · split
    · split <;> rfl
    · rfl

theorem unpacked_neg_neg (f : UnpackedFloat) : f.neg.neg = f := by
  cases f with
  | notANumber => rfl
  | infinity s | zero s | finite s _ _ _ => cases s <;> rfl

/-- The bits of a number with the other sign: those of `packedNaN` stay, and in all others the sign
changes. -/
theorem pack_neg {bits : BitVec spec.numBits} (hvalid : spec.Valid bits)
    (hwidth : 2 ≤ spec.exponentBits) :
    bits = packedNaN spec ∧ (unpack spec bits).neg.pack spec = bits ∨
      ∃ sign exponent mantissa, bits = packComponents spec sign exponent mantissa ∧
        (unpack spec bits).neg.pack spec = packComponents spec (-sign) exponent mantissa := by
  have hback := pack_unpack_of_valid hvalid hwidth
  by_cases hnan : unpack spec bits = .notANumber
  · rw [hnan] at hback ⊢
    exact .inl ⟨hback.symm, hback⟩
  · obtain ⟨sign, exponent, mantissa, hpack, hneg⟩ := @exists_components spec _ hnan
    exact .inr ⟨sign, exponent, mantissa, hback.symm.trans hpack, hneg⟩

end

@[simp] theorem neg_neg (x : Float) : - -x = x := by
  obtain ⟨⟨bits, hvalid⟩⟩ := x
  have hwidth : 2 ≤ Format.binary64.exponentBits := by decide
  have hbits : (unpack .binary64 ((unpack .binary64 bits.toBitVec).neg.pack .binary64)).neg.pack
      .binary64 = bits.toBitVec := by
    rcases pack_neg hvalid hwidth with ⟨-, hneg⟩ | ⟨sign, exponent, mantissa, heq, hneg⟩
    · rw [hneg, hneg]
    · rw [hneg, unpack_neg_sign, ← heq, unpacked_neg_neg, pack_unpack_of_valid hvalid hwidth]
  exact congrArg Float.ofModel ((Float.Model.mk.injEq _ _ _ _).mpr (UInt64.toBitVec_inj.mp hbits))

theorem withSign_not (negative : Bool) (x : Float) :
    withSign (!negative) x = -withSign negative x := by
  cases negative with
  | false => rfl
  | true => exact (neg_neg x).symm

/-! ## Numbers of 32 bits -/

/-- The parts with the other sign. -/
def FloatParts.neg : FloatParts → FloatParts
  | .nan => .nan
  | .infinity negative => .infinity !negative
  | .zero negative => .zero !negative
  | .finite negative x => .finite (!negative) x

theorem FloatParts.ofFields_not (width top : Nat) (least : Int) (negative : Bool)
    (biased fraction : Nat) : ofFields width top least (!negative) biased fraction =
      (ofFields width top least negative biased fraction).neg := by
  unfold ofFields
  repeat' split
  all_goals rfl

theorem FloatParts.toFloat_neg (x : FloatParts) : x.neg.toFloat = -x.toFloat := by
  cases x with
  | nan => decide
  | infinity negative | zero negative | finite negative _ => exact withSign_not negative _

theorem toNat_components (s : BitVec 1) (e : BitVec 8) (m : BitVec 23) :
    (s ++ e ++ m).toNat = s.toNat * 2 ^ 31 + e.toNat * 2 ^ 23 + m.toNat := by
  rw [BitVec.toNat_append, BitVec.toNat_append, ← Nat.shiftLeft_add_eq_or_of_lt e.isLt,
    ← Nat.shiftLeft_add_eq_or_of_lt m.isLt, Nat.shiftLeft_eq, Nat.shiftLeft_eq]
  omega

/-- `parts32` reads the components that the bits are packed from. -/
theorem parts32_of_components {x : Float32} {s : Sign} {e : BitVec 8} {m : BitVec 23}
    (h : x.toBits.toBitVec = packComponents .binary32 s e m) :
    parts32 x = .ofFields 23 255 (-149) (s.toBitVec.toNat == 1) e.toNat m.toNat := by
  have hbits : x.toBits.toNat = s.toBitVec.toNat * 2 ^ 31 + e.toNat * 2 ^ 23 + m.toNat :=
    (congrArg BitVec.toNat h).trans (toNat_components s.toBitVec e m)
  have he := e.isLt
  have hm := m.isLt
  have hsign : x.toBits.toNat / 2 ^ 31 = s.toBitVec.toNat := by omega
  have hexponent : x.toBits.toNat / 2 ^ 23 % 256 = e.toNat := by omega
  have hmantissa : x.toBits.toNat % 2 ^ 23 = m.toNat := by omega
  simp only [parts32, Nat.pow_eq, hsign, hexponent, hmantissa]

theorem parts32_neg (x : Float32) : parts32 (-x) = (parts32 x).neg := by
  have hundefined : ∀ y : Float32, y.toBits.toBitVec = packedNaN .binary32 → parts32 y = .nan := by
    intro y hy
    rw [parts32, show y.toBits = ⟨packedNaN .binary32⟩ from UInt32.toBitVec_inj.mp hy]
    decide
  rcases pack_neg x.toModel.valid (by decide) with ⟨hnan, hneg⟩ |
    ⟨sign, exponent, mantissa, heq, hneg⟩
  · rw [hundefined x hnan, hundefined (-x) (hneg.trans hnan)]
    rfl
  · rw [@parts32_of_components x _ _ _ heq, @parts32_of_components (-x) _ _ _ hneg,
      ← FloatParts.ofFields_not]
    cases sign <;> rfl

theorem widen_neg (x : Float32) : widen (-x) = -widen x := by
  rw [widen, parts32_neg, FloatParts.toFloat_neg, widen]

/-! ## Literals -/

/-- `x = y`, or both are zeros, which may have different signs. -/
def Same (x y : Float) : Prop :=
  x = y ∨ ∃ a b, x = withSign a 0 ∧ y = withSign b 0

theorem Same.neg {x y : Float} (h : Same x y) : Same (-x) (-y) := by
  rcases h with rfl | ⟨a, b, rfl, rfl⟩
  · exact .inl rfl
  · exact .inr ⟨!a, !b, (withSign_not a 0).symm, (withSign_not b 0).symm⟩

theorem Same.trans {x y z : Float} (h : Same x y) (h' : Same y z) : Same x z := by
  rcases h with rfl | ⟨a, b, rfl, rfl⟩
  · exact h'
  · rcases h' with rfl | ⟨_, c, -, rfl⟩
    · exact .inr ⟨a, b, rfl, rfl⟩
    · exact .inr ⟨a, c, rfl, rfl⟩

/-- `ofInt64` by sign and magnitude, which has 64 bits as well. -/
theorem ofInt64_eq (n : Int64) :
    ofInt64 n = withSign (decide (n.toInt < 0)) n.toInt.natAbs.toUInt64.toFloat := by
  simp only [ofInt64, Int64.lt_iff_toInt_lt, Int64.toInt_zero]

theorem ofInt64_neg {n : Int64} (h : n ≠ Int64.minValue) : Same (-ofInt64 n) (ofInt64 (-n)) := by
  by_cases hzero : n = 0
  · subst hzero
    exact .inr ⟨true, false, by decide, by decide⟩
  · have hne : n.toInt ≠ 0 := fun hn => hzero (Int64.toInt_inj.mp hn)
    have hmin : n.toInt ≠ -2 ^ 63 := fun hn => h (Int64.toInt_inj.mp hn)
    have hneg : (-n).toInt = -n.toInt := by
      have hlow := n.le_toInt
      have hhigh := n.toInt_lt
      rw [Int64.toInt_neg, Int.bmod_eq_of_le] <;> omega
    have hsign : decide (-n.toInt < 0) = !decide (n.toInt < 0) := by
      rw [← decide_not]
      exact decide_eq_decide.mpr (by omega)
    rw [ofInt64_eq, ofInt64_eq, hneg, Int.natAbs_neg, hsign, withSign_not]
    exact .inl rfl

/-- `ofInt64` of a number without a sign. -/
theorem ofInt64_ofNat {n : UInt64} (h : n.toNat ≤ 9223372036854775807) :
    ofInt64 (Int64.ofNat n.toNat) = n.toFloat := by
  have hvalue : (Int64.ofNat n.toNat).toInt = n.toNat := Int64.toInt_ofNat_of_lt (by omega)
  have hpos : decide ((n.toNat : Int) < 0) = false := by simp
  rw [ofInt64_eq, hvalue, hpos, Int.natAbs_natCast]
  simp [withSign]

end QueryTree.Number

namespace QueryTree.Surql.Numeral

open Number

/-- The number of 64 bits nearest to a literal. -/
def toFloat : Numeral → Float
  | .int n => ofInt64 n
  | .uint n => n.toFloat
  | .float x => x
  | .float32 x => widen x
  | .decimal d => d.toFloat

/-- `neg?` of a literal is the number with the other sign. -/
theorem toFloat_neg? {n m : Numeral} (h : n.neg? = some m) : Same (-n.toFloat) m.toFloat := by
  cases n with
  | int n =>
    simp only [neg?] at h
    split at h
    · cases h
    · cases h
      rename_i hmin
      exact ofInt64_neg (by simpa using hmin)
  | uint n =>
    obtain ⟨k, hk, rfl⟩ := Option.map_eq_some_iff.mp h
    simp only [Value.asInt?] at hk
    split at hk
    · cases hk
      rename_i hle
      have hmin : Int64.ofNat n.toNat ≠ Int64.minValue := by
        intro hn
        have hvalue : (Int64.ofNat n.toNat).toInt = n.toNat := Int64.toInt_ofNat_of_lt (by omega)
        rw [hn] at hvalue
        have : Int64.minValue.toInt < 0 := by decide
        omega
      have hsame := ofInt64_neg hmin
      rw [ofInt64_ofNat hle] at hsame
      exact hsame
    · cases hk
  | float x =>
    cases h
    exact .inl rfl
  | float32 x =>
    cases h
    exact .inl (widen_neg x).symm
  | decimal d =>
    cases h
    exact .inl (withSign_not d.negative _).symm

end QueryTree.Surql.Numeral
