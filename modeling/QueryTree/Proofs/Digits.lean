import Mathlib.Algebra.GroupWithZero.Nat
import Mathlib.Data.List.Induction
import QueryTree.Text.Basic

/-!
# Digits

Numbers are written digit by digit, some of them with zeros in front. Reading the digits gives the
number back.
-/

namespace QueryTree.Text

/-! ## Decimal digits -/

theorem digit?_of_isDigit {c : Char} (h : c.isDigit = true) :
    digit? c = some (c.toNat - '0'.toNat) :=
  if_pos h

/-- Reading digits after those that make up `n`. -/
theorem foldl_digits {cs : List Char} (h : ∀ c ∈ cs, c.isDigit = true) (n : Nat) :
    cs.foldl (fun n? c => do return (← n?) * 10 + (← digit? c)) (some n) =
      some (Nat.ofDigitChars 10 cs n) := by
  induction cs generalizing n with
  | nil => rfl
  | cons c cs ih =>
    have hstep : (do return (← some n) * 10 + (← digit? c) : Option Nat) = some
        (10 * n + (c.toNat - '0'.toNat)) := by
      rw [digit?_of_isDigit (h c List.mem_cons_self), Nat.mul_comm 10 n]
      rfl
    rw [List.foldl_cons, hstep, ih fun c hc => h c (List.mem_cons_of_mem _ hc),
      Nat.ofDigitChars_cons]

theorem natural?_eq {cs : List Char} (hne : cs ≠ []) (h : ∀ c ∈ cs, c.isDigit = true) :
    natural? cs = some (Nat.ofDigitChars 10 cs 0) := by
  unfold natural?
  rw [if_neg (by simpa using hne), foldl_digits h]

theorem isDigit_of_mem_toDigits {n : Nat} {c : Char} (h : c ∈ Nat.toDigits 10 n) :
    c.isDigit = true :=
  Nat.isDigit_of_mem_toDigits (by decide) (by decide) h

theorem natural?_toDigits (n : Nat) : natural? (Nat.toDigits 10 n) = some n := by
  rw [natural?_eq Nat.toDigits_ne_nil fun _ => isDigit_of_mem_toDigits,
    Nat.ofDigitChars_ten_toDigits]

theorem padded_toList (width n : Nat) :
    (padded width n).toList =
      List.replicate (width - (Nat.toDigits 10 n).length) '0' ++ Nat.toDigits 10 n := by
  simp [padded, ← String.length_toList]

theorem isDigit_of_mem_padded {width n : Nat} {c : Char} (h : c ∈ (padded width n).toList) :
    c.isDigit = true := by
  rw [padded_toList, List.mem_append] at h
  rcases h with h | h
  · rw [List.eq_of_mem_replicate h]
    rfl
  · exact isDigit_of_mem_toDigits h

theorem padded_ne_nil (width n : Nat) : (padded width n).toList ≠ [] := by
  rw [padded_toList]
  exact List.append_ne_nil_of_right_ne_nil _ Nat.toDigits_ne_nil

theorem ofDigitChars_padded (width n : Nat) :
    Nat.ofDigitChars 10 (padded width n).toList 0 = n := by
  rw [padded_toList, Nat.ofDigitChars_append, Nat.ofDigitChars_replicate_zero, Nat.mul_zero,
    Nat.ofDigitChars_ten_toDigits]

theorem length_padded {width n : Nat} (hwidth : 0 < width) (h : n < 10 ^ width) :
    (padded width n).toList.length = width := by
  have hdigits : (Nat.toDigits 10 n).length ≤ width :=
    (Nat.length_toDigits_le_iff (by decide) hwidth).mpr h
  rw [padded_toList, List.length_append, List.length_replicate]
  omega

theorem le_length_padded (width n : Nat) : width ≤ (padded width n).toList.length := by
  rw [padded_toList, List.length_append, List.length_replicate]
  omega

/-- `ofDigitChars` only grows with the digits that follow. -/
theorem le_ofDigitChars (ds : List Char) (n : Nat) : n ≤ Nat.ofDigitChars 10 ds n := by
  have hpos : 0 < 10 ^ ds.length := Nat.pow_pos (by decide)
  rw [Nat.ofDigitChars_eq_ofDigitChars_zero]
  exact Nat.le_trans (Nat.le_mul_of_pos_left n hpos) (Nat.le_add_right _ _)

/-- `toDigits` has no zero in front, unless the number is zero. -/
theorem head?_toDigits {n : Nat} (h : n ≠ 0) : (Nat.toDigits 10 n).head? ≠ some '0' := by
  induction n using Nat.strongRecOn with
  | ind n ih =>
    rw [Nat.toDigits_eq_if (by decide)]
    split
    case isTrue hsmall =>
      have hdigits : ∀ d < 10, d ≠ 0 → [d.digitChar].head? ≠ some '0' := by decide
      exact hdigits n hsmall h
    case isFalse hlarge =>
      rw [List.head?_append, List.head?_eq_some_head Nat.toDigits_ne_nil, Option.some_or,
        ← List.head?_eq_some_head Nat.toDigits_ne_nil]
      exact ih (n / 10) (by omega) (by omega)

theorem exists_digitChar {c : Char} (h : c.isDigit = true) : ∃ d < 10, c = d.digitChar := by
  have hrange : 48 ≤ c.toNat ∧ c.toNat ≤ 57 := by
    simpa [Char.isDigit, UInt32.le_iff_toNat_le] using h
  have hchars : ∀ d < 10, d.digitChar.toNat = 48 + d := by decide
  refine ⟨c.toNat - 48, by omega, Char.ext (UInt32.toNat_inj.mp ?_)⟩
  show c.toNat = Char.toNat _
  rw [hchars _ (by omega)]
  omega

/-- The number that `cs` make up is written with `cs`, unless there is a zero in front. -/
theorem toDigits_ofDigitChars {cs : List Char} (hdigits : ∀ c ∈ cs, c.isDigit = true)
    (hne : cs ≠ []) (hhead : cs.head? ≠ some '0') :
    Nat.toDigits 10 (Nat.ofDigitChars 10 cs 0) = cs := by
  induction cs using List.reverseRecOn with
  | nil => exact absurd rfl hne
  | append_singleton ds c ih =>
    obtain ⟨d, hd, rfl⟩ := exists_digitChar (hdigits c (by simp))
    rw [Nat.ofDigitChars_append, Nat.ofDigitChars_cons_digitChar_of_lt_ten hd, Nat.ofDigitChars_nil]
    by_cases hds : ds = []
    · rw [hds, Nat.ofDigitChars_nil, Nat.mul_zero, Nat.zero_add, Nat.toDigits_of_lt_base hd]
      rfl
    · rw [List.head?_append, List.head?_eq_some_head hds, Option.some_or,
        ← List.head?_eq_some_head hds] at hhead
      have hprevious := ih (fun c hc => hdigits c (List.mem_append_left _ hc)) hds hhead
      generalize Nat.ofDigitChars 10 ds 0 = n at hprevious ⊢
      have hpos : n ≠ 0 := by
        rintro rfl
        rw [← hprevious] at hhead
        exact hhead rfl
      rw [Nat.toDigits_of_base_le (by decide) (by omega), show (10 * n + d) / 10 = n by omega,
        show (10 * n + d) % 10 = d by omega, hprevious]

/-! ## Whole numbers with a sign -/

theorem toString_ofNat_toList (n : Nat) : (toString (Int.ofNat n)).toList = Nat.toDigits 10 n :=
  Nat.toList_repr

theorem toString_negSucc_toList (n : Nat) :
    (toString (Int.negSucc n)).toList = '-' :: Nat.toDigits 10 (n + 1) := by
  rw [show toString (Int.negSucc n) = "-" ++ Nat.repr (n + 1) from rfl]
  simp

theorem head_toString (n : Int) :
    ∃ c cs, (toString n).toList = c :: cs ∧ (c.isDigit || c == '-') = true := by
  cases n with
  | ofNat n =>
    rw [toString_ofNat_toList]
    cases htext : Nat.toDigits 10 n with
    | nil => exact absurd htext Nat.toDigits_ne_nil
    | cons c cs =>
      have hc : c.isDigit = true := isDigit_of_mem_toDigits (n := n) (by simp [htext])
      exact ⟨c, cs, rfl, by simp [hc]⟩
  | negSucc n => exact ⟨'-', Nat.toDigits 10 (n + 1), toString_negSucc_toList n, rfl⟩

/-! ## A run of digits before other text -/

/-- Whether `rest` does not begin with a digit. -/
def EndsDigits (rest : List Char) : Prop :=
  ∀ c ∈ rest.head?, c.isDigit = false

theorem takeWhile_digits {cs rest : List Char} (h : ∀ c ∈ cs, c.isDigit = true)
    (hrest : EndsDigits rest) : (cs ++ rest).takeWhile Char.isDigit = cs := by
  rw [List.takeWhile_append_of_pos h]
  cases rest with
  | nil => simp
  | cons c rest => simp [hrest c rfl]

theorem dropWhile_digits {cs rest : List Char} (h : ∀ c ∈ cs, c.isDigit = true)
    (hrest : EndsDigits rest) : (cs ++ rest).dropWhile Char.isDigit = rest := by
  rw [List.dropWhile_append_of_pos h]
  cases rest with
  | nil => rfl
  | cons c rest => simp [hrest c rfl]

/-! ## Hexadecimal digits -/

theorem hexDigit?_hexChar {n : Nat} (h : n < 16) : hexDigit? (hexChar n) = some n := by
  revert n
  decide

theorem foldl_hexDigits (width n start : Nat) :
    (hexDigits width n).foldl (fun n? c => do return (← n?) * 16 + (← hexDigit? c)) (some start) =
      some (start * 16 ^ width + n % 16 ^ width) := by
  induction width generalizing n with
  | zero => simp [hexDigits, Nat.mod_one]
  | succ width ih =>
    have hdigit := hexDigit?_hexChar (Nat.mod_lt n (show 0 < 16 by decide))
    have hsplit : n % 16 ^ (width + 1) = n / 16 % 16 ^ width * 16 + n % 16 := by
      rw [Nat.pow_succ, Nat.mul_comm (16 ^ width) 16, Nat.mod_mul]
      omega
    rw [hexDigits, List.foldl_append, ih, List.foldl_cons, List.foldl_nil, hdigit, hsplit,
      Nat.pow_succ]
    simp only [Option.bind_eq_bind, Option.bind_some, Option.pure_def, Option.some.injEq]
    rw [Nat.add_mul, Nat.mul_assoc, Nat.add_assoc]

theorem length_hexDigits (width n : Nat) : (hexDigits width n).length = width := by
  induction width generalizing n with
  | zero => rfl
  | succ width ih => simp [hexDigits, ih]

theorem hexadecimal?_hexDigits {width n : Nat} (hwidth : 0 < width) (h : n < 16 ^ width) :
    hexadecimal? (hexDigits width n) = some n := by
  have hne : hexDigits width n ≠ [] := by
    rw [← List.length_pos_iff, length_hexDigits]
    exact hwidth
  unfold hexadecimal?
  rw [if_neg (by simpa using hne), foldl_hexDigits, Nat.zero_mul, Nat.zero_add, Nat.mod_eq_of_lt h]

end QueryTree.Text
