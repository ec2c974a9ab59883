import QueryTree.Guid
import QueryTree.Number.Decimal
import QueryTree.Proofs.Digits

/-!
# Decimals and unique identifiers read back

A decimal is written with all of its digits, so reading it never rounds. Only the sign of a zero is
lost.
-/

namespace QueryTree

/-! ## Decimals -/

namespace Decimal

open Text

/-- `d` without the sign of a zero. -/
def settled (d : Decimal) : Decimal := { d with negative := d.negative && d.mantissa != 0 }

@[simp] theorem settled_settled (d : Decimal) : d.settled.settled = d.settled := by
  simp [settled]

@[simp] theorem signedMantissa_settled (d : Decimal) :
    d.settled.signedMantissa = d.signedMantissa := by
  unfold signedMantissa settled
  cases d.negative with
  | false => rfl
  | true =>
    by_cases h : d.mantissa = 0
    · simp [h]
    · simp [h]

theorem sameNumber_settled (a b : Decimal) : a.settled.sameNumber b.settled = a.sameNumber b := by
  unfold sameNumber
  rw [signedMantissa_settled, signedMantissa_settled]
  rfl

theorem sameNumber_self (d : Decimal) : d.sameNumber d = true := by
  simp [sameNumber]

theorem ofParts?_eq (d : Decimal) : ofParts? d.negative d.mantissa d.scale = some d.settled := by
  unfold ofParts? ofSignedParts?
  rw [dif_pos ⟨d.mantissa_lt, d.scale_le⟩]
  rfl

/-- `readDigits` goes on over digits as long as their number is in range and there is room for their
decimals. -/
theorem readDigits_digits {negative point : Bool} {ds : List Char} (h : ∀ c ∈ ds, c.isDigit = true)
    {mantissa scale : Nat} (hlimit : Nat.ofDigitChars 10 ds mantissa < limit)
    (hscale : point = true → scale + ds.length ≤ maxScale) (started : Bool) (rest : List Char) :
    readDigits negative mantissa scale point started (ds ++ rest) =
      readDigits negative (Nat.ofDigitChars 10 ds mantissa)
        (if point then scale + ds.length else scale) point (started || !ds.isEmpty) rest := by
  induction ds generalizing mantissa scale started with
  | nil => simp
  | cons c ds ih =>
    have hroom : ¬(point && scale == maxScale) = true := by
      intro hfull
      simp only [Bool.and_eq_true, beq_iff_eq] at hfull
      have := hscale hfull.1
      rw [List.length_cons] at this
      omega
    have hdigit := digit?_of_isDigit (h c List.mem_cons_self)
    -- The number of all digits fits, so the number of the first ones does.
    have hnext : mantissa * 10 + (c.toNat - '0'.toNat) < limit := by
      rw [Nat.ofDigitChars_cons] at hlimit
      have := le_ofDigitChars ds (10 * mantissa + (c.toNat - '0'.toNat))
      omega
    rw [Nat.ofDigitChars_cons, Nat.mul_comm 10 mantissa] at hlimit ⊢
    rw [List.cons_append, readDigits, if_neg hroom, hdigit]
    simp only [if_pos hnext]
    rw [ih (fun c hc => h c (List.mem_cons_of_mem _ hc)) hlimit]
    · cases point <;> simp [Nat.add_assoc, Nat.add_comm 1]
    · intro hpoint
      have := hscale hpoint
      rw [List.length_cons] at this
      rw [if_pos hpoint]
      omega

/-- `readDigits` reads the digits of a decimal on both sides of the point. -/
theorem readDigits_parts (d : Decimal) {whole fraction : List Char} (hne : whole ≠ [])
    (h : ∀ c ∈ whole ++ fraction, c.isDigit = true)
    (hnumber : Nat.ofDigitChars 10 (whole ++ fraction) 0 = d.mantissa)
    (hlength : fraction.length = d.scale) :
    readDigits d.negative 0 0 false false (whole ++ '.' :: fraction) = some d.settled := by
  rw [Nat.ofDigitChars_append] at hnumber
  have hwhole : Nat.ofDigitChars 10 whole 0 < limit :=
    Nat.lt_of_le_of_lt (le_ofDigitChars fraction _) (hnumber ▸ d.mantissa_lt)
  have hpoint : ∀ mantissa, readDigits d.negative mantissa 0 false true ('.' :: fraction) =
      readDigits d.negative mantissa 0 true true (fraction ++ []) := by
    intro mantissa
    rw [List.append_nil]
    rfl
  rw [readDigits_digits (fun c hc => h c (List.mem_append_left _ hc)) hwhole (fun h => by cases h),
    show (false || !whole.isEmpty) = true by simpa using hne, if_neg (by decide), hpoint,
    readDigits_digits (fun c hc => h c (List.mem_append_right _ hc)) (hnumber ▸ d.mantissa_lt)
      (fun _ => by rw [Nat.zero_add, hlength]; exact d.scale_le),
    hnumber, hlength, if_pos rfl, Nat.zero_add]
  exact ofParts?_eq d

theorem readDigits_whole (d : Decimal) {digits : List Char} (hne : digits ≠ [])
    (h : ∀ c ∈ digits, c.isDigit = true) (hnumber : Nat.ofDigitChars 10 digits 0 = d.mantissa)
    (hscale : d.scale = 0) : readDigits d.negative 0 0 false false digits = some d.settled := by
  rw [← List.append_nil digits, readDigits_digits h (hnumber ▸ d.mantissa_lt) (fun h => by cases h),
    hnumber, show (false || !digits.isEmpty) = true by simpa using hne, ← ofParts?_eq, hscale]
  rfl

theorem ofPlain?_digits {ds rest : List Char} (hne : ds ≠ []) (h : ∀ c ∈ ds, c.isDigit = true) :
    ofPlain? (ds ++ rest) = readDigits false 0 0 false false (ds ++ rest) := by
  cases ds with
  | nil => exact absurd rfl hne
  | cons c ds =>
    have hc := h c List.mem_cons_self
    unfold ofPlain?
    split
    case h_1 heq => cases heq; cases hc
    case h_2 heq => cases heq; cases hc
    case h_3 => rfl

theorem ofPlain?_signed (negative : Bool) {ds rest : List Char} (hne : ds ≠ [])
    (h : ∀ c ∈ ds, c.isDigit = true) :
    ofPlain? (Number.signed negative (String.ofList (ds ++ rest))).toList =
      readDigits negative 0 0 false false (ds ++ rest) := by
  cases negative with
  | false => simpa [Number.signed] using ofPlain?_digits hne h
  | true => simp [Number.signed, ofPlain?]

/-- `ofText?` reads the text of a decimal as that decimal. -/
theorem ofText?_text (d : Decimal) : ofText? d.text = some d.settled := by
  suffices hplain : ofPlain? d.text.toList = some d.settled by rw [ofText?, hplain, Option.some_or]
  have hdigits : ∀ c ∈ (padded (d.scale + 1) d.mantissa).toList, c.isDigit = true := fun _ =>
    isDigit_of_mem_padded
  have hnumber := ofDigitChars_padded (d.scale + 1) d.mantissa
  have hlength := le_length_padded (d.scale + 1) d.mantissa
  simp only [text]
  generalize (padded (d.scale + 1) d.mantissa).toList = ds at hdigits hnumber hlength
  have hne : ds ≠ [] := List.length_pos_iff.mp (by omega)
  by_cases hscale : d.scale = 0
  · rw [if_pos (by simpa using hscale), ← List.append_nil ds, ofPlain?_signed _ hne hdigits,
      List.append_nil]
    exact d.readDigits_whole hne hdigits hnumber hscale
  · have hcut : ds.take (ds.length - d.scale) ++ ds.drop (ds.length - d.scale) = ds :=
      List.take_append_drop _ _
    have hwhole : ds.take (ds.length - d.scale) ≠ [] := by
      rw [← List.length_pos_iff, List.length_take]
      omega
    have htext : String.ofList (ds.take (ds.length - d.scale)) ++ "." ++
      String.ofList (ds.drop (ds.length - d.scale)) =
        String.ofList (ds.take (ds.length - d.scale) ++ '.' :: ds.drop (ds.length - d.scale)) := by
      simp [← String.toList_inj]
    rw [if_neg (by simpa using hscale), htext,
      ofPlain?_signed _ hwhole fun c hc => hdigits c (List.mem_of_mem_take hc)]
    exact d.readDigits_parts hwhole (by rwa [hcut]) (by rwa [hcut])
      (by rw [List.length_drop]; omega)

end Decimal

/-! ## Unique identifiers -/

namespace Guid

open Text

theorem hexChar_ne_hyphen {n : Nat} (h : n < 16) : hexChar n ≠ '-' := by
  revert n
  decide

theorem ne_hyphen_of_mem_hexDigits {width n : Nat} {c : Char} (h : c ∈ hexDigits width n) :
    c ≠ '-' := by
  induction width generalizing n with
  | zero => cases h
  | succ width ih =>
    rw [hexDigits, List.mem_append, List.mem_singleton] at h
    rcases h with h | rfl
    · exact ih h
    · exact hexChar_ne_hyphen (Nat.mod_lt n (by decide))

/-- `ofText?` reads groups with hyphens between them as their digits. -/
theorem ofText?_groups {a b c d e : List Char} (ha : a.length = 8) (hb : b.length = 4)
    (hc : c.length = 4) (hd : d.length = 4) (he : e.length = 12)
    (h : ∀ x ∈ a ++ b ++ c ++ d ++ e, x ≠ '-') :
    ofText? (joinWith "-" ([a, b, c, d, e].map String.ofList)) =
      ofDigits? (a ++ b ++ c ++ d ++ e) := by
  have htext : (joinWith "-" ([a, b, c, d, e].map String.ofList)).toList =
      a ++ '-' :: (b ++ '-' :: (c ++ '-' :: (d ++ '-' :: e))) := by
    simp [joinWith]
  have hlength : (a ++ '-' :: (b ++ '-' :: (c ++ '-' :: (d ++ '-' :: e)))).length = 36 := by
    simp [ha, hb, hc, hd, he]
  have hhyphens : [8, 13, 18, 23].all (fun i =>
      (a ++ '-' :: (b ++ '-' :: (c ++ '-' :: (d ++ '-' :: e))))[i]? == some '-') = true := by
    simp [List.getElem?_append, List.getElem?_cons, ha, hb, hc, hd]
  have hdigits : (a ++ '-' :: (b ++ '-' :: (c ++ '-' :: (d ++ '-' :: e)))).filter (· != '-') =
      a ++ b ++ c ++ d ++ e := by
    have hall : ∀ ds : List Char, (∀ x ∈ ds, x ≠ '-') → ds.filter (· != '-') = ds := by
      intro ds hds
      rw [List.filter_eq_self]
      simpa using hds
    simp only [List.mem_append] at h
    simp only [List.filter_append, List.filter_cons_of_neg, bne_self_eq_false, Bool.false_eq_true,
      not_false_iff]
    rw [hall a fun x hx => h x (by simp [hx]), hall b fun x hx => h x (by simp [hx]),
      hall c fun x hx => h x (by simp [hx]), hall d fun x hx => h x (by simp [hx]),
      hall e fun x hx => h x (by simp [hx])]
    simp
  -- The form that is tried before starts with a word, which has a colon where the first hyphen is.
  have hurn : ((a ++ '-' :: (b ++ '-' :: (c ++ '-' :: (d ++ '-' :: e)))).take 9).map Char.toLower ≠
      "urn:uuid:".toList := by
    intro heq
    have := congrArg (·[8]?) heq
    simp [ha] at this
  rw [ofText?, htext]
  simp only [hlength]
  rw [if_neg (by decide), if_neg (by simp), if_neg (by simpa using hurn), ofGroups?, hhyphens,
    hdigits, hlength]
  rfl

/-- `ofText?` reads the text of an identifier as that identifier. -/
theorem ofText?_text (g : Guid) : ofText? g.text = some g := by
  have hlength := length_hexDigits 32 g.bits.toNat
  have hhyphen : ∀ c ∈ hexDigits 32 g.bits.toNat, c ≠ '-' := fun _ => ne_hyphen_of_mem_hexDigits
  have hread : hexadecimal? (hexDigits 32 g.bits.toNat) = some g.bits.toNat :=
    hexadecimal?_hexDigits (by decide) g.bits.isLt
  have hback : ofDigits? (hexDigits 32 g.bits.toNat) = some g := by
    simp [ofDigits?, hread, hlength]
  unfold text
  generalize hexDigits 32 g.bits.toNat = ds at hlength hhyphen hback
  have hcut : ds.take 8 ++ (ds.drop 8).take 4 ++ ((ds.drop 8).drop 4).take 4 ++
      (((ds.drop 8).drop 4).drop 4).take 4 ++
        ((((ds.drop 8).drop 4).drop 4).drop 4).take 12 = ds := by
    have hend : ((((ds.drop 8).drop 4).drop 4).drop 4).take 12 = (((ds.drop 8).drop 4).drop 4).drop
        4 :=
      List.take_of_length_le (by simp [hlength])
    rw [hend]
    simp only [List.append_assoc, List.take_append_drop]
  rw [show cut groups ds = [_, _, _, _, _] from rfl,
    ofText?_groups (by simp [hlength]) (by simp [hlength]) (by simp [hlength]) (by simp [hlength])
      (by simp [hlength]) (by rwa [hcut]), hcut, hback]

end Guid

end QueryTree
