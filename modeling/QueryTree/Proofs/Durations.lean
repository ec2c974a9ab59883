import Mathlib.Algebra.BigOperators.Group.List.Basic
import Mathlib.Algebra.GroupWithZero.Nat
import Mathlib.Data.List.MinMax
import QueryTree.Proofs.Digits
import QueryTree.Proofs.Tokens
import QueryTree.Time.Duration

/-!
# Durations

Sums are exact as long as their seconds fit into 64 bits, and begin again at zero after that. The
text of a duration is `Canonical`: counts with units after them, each unit taking all it can of what
the larger ones leave. Units can begin alike (`m` and `ms`), so `readUnit?` takes the longest one.
-/

namespace QueryTree.Duration

/-! ## Sums -/

theorem nanos_ofNanos (n : Nat) : (ofNanos n).nanos.toNat = n % second := by
  have hlt : n % second < 2 ^ 32 := Nat.lt_trans (Nat.mod_lt n (by decide)) (by decide)
  exact UInt32.toNat_ofNat_of_lt' hlt

theorem secs_ofNanos (n : Nat) : (ofNanos n).secs.toNat = n / second % 2 ^ 64 := UInt64.toNat_ofNat'

/-- Seconds are counted modulo `2 ^ 64`. -/
theorem asNanos_ofNanos (n : Nat) : (ofNanos n).asNanos = n % (2 ^ 64 * second) := by
  rw [asNanos, secs_ofNanos, nanos_ofNanos, Nat.mul_comm (2 ^ 64) second, Nat.mod_mul]
  rw [Nat.add_comm, Nat.mul_comm]

theorem asNanos_ofNanos_eq_iff (n : Nat) : (ofNanos n).asNanos = n ↔ n / second < 2 ^ 64 := by
  rw [asNanos_ofNanos, Nat.div_lt_iff_lt_mul (by decide)]
  exact Nat.mod_eq_iff_lt (by decide)

/-- `checkedAdd` never needs more than 128 bits. -/
theorem checkedAdd_eq (a b : Duration) :
    a.checkedAdd b = some (ofNanos (a.asNanos + b.asNanos)) := by
  have hlt : ∀ d : Duration, d.asNanos < 2 ^ 127 := by
    intro d
    have hsecs := d.secs.toNat_lt
    have hnanos := d.nanos.toNat_lt
    unfold asNanos second
    omega
  have hsum : a.asNanos + b.asNanos < Nat.pow 2 128 := Nat.add_lt_add (hlt a) (hlt b)
  simp only [checkedAdd, hsum, if_true]

/-- `checkedAdd` always gives a duration with less than a second of nanoseconds. It is the exact sum
if and only if the seconds of that fit into 64 bits; otherwise whole multiples of `2 ^ 64` seconds
are missing. -/
theorem checkedAdd_exact_iff (a b : Duration) :
    ∃ c, a.checkedAdd b = some c ∧ c.nanos.toNat < second ∧
      c.asNanos = (a.asNanos + b.asNanos) % (2 ^ 64 * second) ∧
      (c.asNanos = a.asNanos + b.asNanos ↔ (a.asNanos + b.asNanos) / second < 2 ^ 64) := by
  refine ⟨ofNanos (a.asNanos + b.asNanos), checkedAdd_eq a b, ?_, asNanos_ofNanos _,
    asNanos_ofNanos_eq_iff _⟩
  rw [nanos_ofNanos]
  exact Nat.mod_lt _ (by decide)

/-- A second more than the largest number of seconds is no time at all. -/
theorem checkedAdd_starts_over :
    ((ofSecs 18446744073709551615).asNanos + (ofSecs 1).asNanos) / second = 2 ^ 64 ∧
      (ofSecs 18446744073709551615).checkedAdd (ofSecs 1) = some zero := by
  decide

/-! ## Counts and units -/

/-- A count with its unit. -/
structure Part where
  count : Nat
  unit : Nat × String

namespace Part

/-- The nanoseconds that a part stands for. -/
def nanos (p : Part) : Nat := p.count * p.unit.1

/-- The text of a part. -/
def text (p : Part) : String := Nat.repr p.count ++ p.unit.2

/-- The texts of parts, one after the other. -/
def texts : List Part → String
  | [] => ""
  | p :: ps => p.text ++ texts ps

/-- The nanoseconds that `ps` stand for together. -/
def total (ps : List Part) : Nat := (ps.map nanos).sum

end Part

/-- The units of durations with their nanoseconds, largest first. A year has 365 days. -/
def standardUnits : List (Nat × String) :=
  [(31536000000000000, "y"), (604800000000000, "w"), (86400000000000, "d"), (3600000000000, "h"),
    (60000000000, "m"), (1000000000, "s"), (1000000, "ms"), (1000, "us"), (1, "ns")]

theorem units_eq : units = standardUnits := rfl

/-- The largest count of each unit beside the next larger one; there can be any number of years. -/
def largestCounts : List (String × Nat) :=
  [("w", 52), ("d", 6), ("h", 23), ("m", 59), ("s", 59), ("ms", 999), ("us", 999), ("ns", 999)]

/-- The parts a duration may be written with: larger units first, each at most once, with counts
that are not zero and too small for the next larger unit. -/
structure Canonical (ps : List Part) : Prop where
  known : ∀ p ∈ ps, p.unit ∈ standardUnits
  decreasing : ps.Pairwise fun p q => q.unit.1 < p.unit.1
  positive : ∀ p ∈ ps, 0 < p.count
  bounded : ∀ p ∈ ps, ∀ most, (p.unit.2, most) ∈ largestCounts → p.count ≤ most

/-- The parts of `nanos` in the given units, as large as possible. -/
def parts : List (Nat × String) → (nanos : Nat) → List Part
  | [], _ => []
  | u :: us, nanos =>
    if nanos / u.1 = 0 then parts us nanos else ⟨nanos / u.1, u⟩ :: parts us (nanos % u.1)

variable {us : List (Nat × String)}

theorem writeUnits_eq (us : List (Nat × String)) (n : Nat) :
    writeUnits us n = Part.texts (parts us n) := by
  induction us generalizing n with
  | nil => rfl
  | cons u us ih =>
    by_cases h : n / u.1 = 0
    · simp [writeUnits, parts, h, ih]
    · simp [writeUnits, parts, h, ih, Part.texts, Part.text]

/-- What `u` leaves over is what the smaller units `us` get. -/
theorem parts_cons {u : Nat × String} (n : Nat) :
    parts (u :: us) n = (if n / u.1 = 0 then [] else [⟨n / u.1, u⟩]) ++ parts us (n % u.1) := by
  rw [parts]
  split
  case isTrue h =>
    rcases Nat.div_eq_zero_iff.mp h with hzero | hlt
    · rw [hzero, Nat.mod_zero, List.nil_append]
    · rw [Nat.mod_eq_of_lt hlt, List.nil_append]
  case isFalse => rfl

theorem map_unit_parts (us : List (Nat × String)) (n : Nat) :
    ((parts us n).map Part.unit).Sublist us := by
  induction us generalizing n with
  | nil => exact .slnil
  | cons u us ih =>
    rw [parts]
    split
    · exact (ih n).cons u
    · exact (ih (n % u.1)).cons_cons u

theorem count_pos_of_mem_parts {n : Nat} {p : Part} (h : p ∈ parts us n) : 0 < p.count := by
  induction us generalizing n with
  | nil => cases h
  | cons u us ih =>
    rw [parts] at h
    split at h
    case isTrue => exact ih h
    case isFalse hcount =>
      rcases List.mem_cons.mp h with rfl | h
      · exact Nat.pos_of_ne_zero hcount
      · exact ih h

theorem nanos_le_of_mem_parts {n : Nat} {p : Part} (h : p ∈ parts us n) : p.nanos ≤ n := by
  induction us generalizing n with
  | nil => cases h
  | cons u us ih =>
    rw [parts] at h
    split at h
    case isTrue => exact ih h
    case isFalse =>
      rcases List.mem_cons.mp h with rfl | h
      · exact Nat.div_mul_le_self n u.1
      · exact Nat.le_trans (ih h) (Nat.mod_le n u.1)

/-- Each of the `parts` is smaller than one of any larger unit. -/
theorem nanos_lt_of_mem_parts (hus : us.Pairwise fun u v => v.1 < u.1) {n : Nat} {p : Part}
    (hp : p ∈ parts us n) {larger : Nat × String} (hlarger : larger ∈ us)
    (hlt : p.unit.1 < larger.1) : p.nanos < larger.1 := by
  induction us generalizing n with
  | nil => cases hp
  | cons u us ih =>
    rw [List.pairwise_cons] at hus
    rw [parts_cons] at hp
    rcases List.mem_append.mp hp with hp | hp
    · -- no unit is larger than the first one
      split at hp
      · cases hp
      · rw [List.mem_singleton.mp hp] at hlt
        rcases List.mem_cons.mp hlarger with rfl | hlarger
        · exact absurd hlt (Nat.lt_irrefl _)
        · exact absurd hlt (Nat.lt_asymm (hus.1 larger hlarger))
    · rcases List.mem_cons.mp hlarger with rfl | hlarger
      · exact Nat.lt_of_le_of_lt (nanos_le_of_mem_parts hp) (Nat.mod_lt n (Nat.zero_lt_of_lt hlt))
      · exact ih hus.2 hp hlarger

@[simp] theorem parts_zero (us : List (Nat × String)) : parts us 0 = [] := by
  induction us with
  | nil => rfl
  | cons u us ih => simp [parts, ih]

/-- If there is a unit of one nanosecond, `parts` leaves nothing over. -/
theorem total_parts (h : 1 ∈ us.map Prod.fst) (n : Nat) : Part.total (parts us n) = n := by
  induction us generalizing n with
  | nil => cases h
  | cons u us ih =>
    have hrest : Part.total (parts us (n % u.1)) = n % u.1 := by
      -- after the unit of one nanosecond there is nothing to write
      rcases List.mem_cons.mp h with hone | h
      · rw [← hone, Nat.mod_one, parts_zero]
        rfl
      · exact ih h (n % u.1)
    have hfirst : Part.total (if n / u.1 = 0 then [] else [⟨n / u.1, u⟩]) = n / u.1 * u.1 := by
      split
      case isTrue hcount => simp [Part.total, hcount]
      case isFalse => simp [Part.total, Part.nanos]
    rw [Part.total] at hrest hfirst ⊢
    rw [parts_cons, List.map_append, List.sum_append, hfirst, hrest]
    exact Nat.div_add_mod' n u.1

theorem pairwise_units : units.Pairwise fun u v => v.1 < u.1 := by decide

/-- `largestCounts` are exact: one more makes some larger unit. -/
theorem exists_larger : ∀ u ∈ units, ∀ largest ∈ largestCounts, u.2 = largest.1 →
    ∃ larger ∈ units, u.1 < larger.1 ∧ larger.1 ≤ (largest.2 + 1) * u.1 := by
  decide

theorem count_le_of_mem_parts {n : Nat} {p : Part} (hunit : p.unit ∈ units) (hp : p ∈ parts units n)
    {most : Nat} (hmost : (p.unit.2, most) ∈ largestCounts) : p.count ≤ most := by
  obtain ⟨larger, hlarger, hlt, hle⟩ := exists_larger p.unit hunit _ hmost rfl
  have hnanos : p.count * p.unit.1 < (most + 1) * p.unit.1 :=
    Nat.lt_of_lt_of_le (nanos_lt_of_mem_parts pairwise_units hp hlarger hlt) hle
  exact Nat.le_of_lt_succ (Nat.lt_of_mul_lt_mul_right hnanos)

theorem unit_mem_of_mem_parts {n : Nat} {p : Part} (h : p ∈ parts us n) : p.unit ∈ us :=
  (map_unit_parts us n).subset (List.mem_map_of_mem h)

theorem canonical_parts (n : Nat) : Canonical (parts units n) where
  known _ hp := units_eq ▸ unit_mem_of_mem_parts hp
  decreasing := List.pairwise_map.mp (pairwise_units.sublist (map_unit_parts units n))
  positive _ := count_pos_of_mem_parts
  bounded _ hp _ := count_le_of_mem_parts (unit_mem_of_mem_parts hp) hp

/-! ## Reading -/

/-- The longest name of a unit at the beginning of `cs`: the size of the unit, and what follows the
name. -/
def readUnit? (cs : List Char) : Option (Nat × List Char) :=
  (standardUnits.filterMap fun (size, name) => (Text.strip? name.toList cs).map fun rest =>
    (size, rest)).argmin
    (·.2.length)

/-- Reads at most `most` counts with units up to the end of the text: what they add up to. -/
def readParts? : (most : Nat) → List Char → Option Nat
  | 0, _ => none
  | most + 1, cs => do
    let count ← Text.natural? (cs.takeWhile Char.isDigit)
    let (size, rest) ← readUnit? (cs.dropWhile Char.isDigit)
    if rest.isEmpty then return count * size
    else return count * size + (← readParts? most rest)

/-- The nanoseconds that `text` stands for. -/
def read? (text : String) : Option Nat :=
  readParts? text.toList.length text.toList

/-- Whether `rest` is empty or begins with a digit. -/
def BeginsCount (rest : List Char) : Prop :=
  ∀ c ∈ rest.head?, c.isDigit = true

/-- `readUnit?` reads the name of a unit, as no letter follows it. -/
theorem readUnit?_name {u : Nat × String} (hu : u ∈ standardUnits) {rest : List Char}
    (hrest : BeginsCount rest) : readUnit? (u.2.toList ++ rest) = some (u.1, rest) := by
  -- the only name that another one begins with is `m`, and the other one is `ms`
  have hs : Text.strip? ['s'] rest = none := by
    cases rest with
    | nil => rfl
    | cons c rest =>
      refine Text.strip?_ne ?_ [] rest
      rintro rfl
      exact absurd (hrest 's' rfl) (by decide)
  simp only [standardUnits, List.mem_cons, List.not_mem_nil, or_false] at hu
  rcases hu with rfl | rfl | rfl | rfl | rfl | rfl | rfl | rfl | rfl
  all_goals simp [readUnit?, standardUnits, Text.strip?, hs, List.argmin_cons]

theorem endsDigits_name {u : Nat × String} (hu : u ∈ standardUnits) (rest : List Char) :
    Text.EndsDigits (u.2.toList ++ rest) := by
  simp only [standardUnits, List.mem_cons, List.not_mem_nil, or_false] at hu
  rcases hu with rfl | rfl | rfl | rfl | rfl | rfl | rfl | rfl | rfl
  all_goals simp [Text.EndsDigits]

theorem Part.toList_text (p : Part) :
    p.text.toList = Nat.toDigits 10 p.count ++ p.unit.2.toList := by
  rw [Part.text, String.toList_append, Nat.toList_repr]

/-- `readParts?` reads one part, and then what follows it. -/
theorem readParts?_part {p : Part} (hunit : p.unit ∈ standardUnits) {rest : List Char}
    (hrest : BeginsCount rest) (most : Nat) :
    readParts? (most + 1) (p.text.toList ++ rest) =
      if rest.isEmpty then some p.nanos else (readParts? most rest).map (p.nanos + ·) := by
  have hdigits := fun c => Text.isDigit_of_mem_toDigits (n := p.count) (c := c)
  have hends := endsDigits_name hunit rest
  rw [p.toList_text, List.append_assoc, readParts?, Text.takeWhile_digits hdigits hends,
    Text.dropWhile_digits hdigits hends, Text.natural?_toDigits, readUnit?_name hunit hrest]
  simp only [Option.bind_eq_bind, Option.bind_some]
  split
  case isTrue => rfl
  case isFalse => cases readParts? most rest <;> rfl

theorem beginsCount_texts (ps : List Part) : BeginsCount (Part.texts ps).toList := by
  cases ps with
  | nil =>
    intro c hc
    cases hc
  | cons p ps =>
    intro c hc
    have hdigits := fun c => Text.isDigit_of_mem_toDigits (n := p.count) (c := c)
    rw [Part.texts, String.toList_append, p.toList_text, List.append_assoc] at hc
    cases hcount : Nat.toDigits 10 p.count with
    | nil => exact absurd hcount Nat.toDigits_ne_nil
    | cons d ds =>
      rw [hcount] at hc hdigits
      cases hc
      exact hdigits _ List.mem_cons_self

theorem length_le_texts (ps : List Part) : ps.length ≤ (Part.texts ps).toList.length := by
  induction ps with
  | nil => exact Nat.zero_le _
  | cons p ps ih =>
    have hcount : 0 < (Nat.toDigits 10 p.count).length :=
      List.length_pos_iff.mpr Nat.toDigits_ne_nil
    rw [Part.texts, String.toList_append, p.toList_text, List.length_append, List.length_append,
      List.length_cons]
    omega

theorem readParts?_texts {ps : List Part} (hne : ps ≠ [])
    (hunits : ∀ p ∈ ps, p.unit ∈ standardUnits) {most : Nat} (hmost : ps.length ≤ most) :
    readParts? most (Part.texts ps).toList = some (Part.total ps) := by
  induction ps generalizing most with
  | nil => exact absurd rfl hne
  | cons p ps ih =>
    obtain ⟨most, rfl⟩ : ∃ m, most = m + 1 := ⟨most - 1, by rw [List.length_cons] at hmost; omega⟩
    rw [List.forall_mem_cons] at hunits
    rw [Part.texts, String.toList_append, readParts?_part hunits.1 (beginsCount_texts ps)]
    by_cases hps : ps = []
    · simp [hps, Part.texts, Part.total]
    · have hrest : ¬ (Part.texts ps).toList.isEmpty = true := by
        have hlength := length_le_texts ps
        have := List.length_pos_iff.mpr hps
        rw [List.isEmpty_iff_length_eq_zero]
        omega
      rw [if_neg hrest, ih hps hunits.2 (Nat.le_of_succ_le_succ hmost)]
      rfl

theorem read?_texts {ps : List Part} (hne : ps ≠ []) (hunits : ∀ p ∈ ps, p.unit ∈ standardUnits) :
    read? (Part.texts ps) = some (Part.total ps) :=
  readParts?_texts hne hunits (length_le_texts ps)

/-! ## The text of a duration -/

theorem text_of_zero {d : Duration} (h : d.asNanos = 0) : d.text = "0ns" := by
  rw [text, h]
  rfl

theorem text_of_ne_zero {d : Duration} (h : d.asNanos ≠ 0) :
    d.text = Part.texts (parts units d.asNanos) := by
  rw [text, if_neg (by simpa using h), writeUnits_eq]

theorem total_parts_units (n : Nat) : Part.total (parts units n) = n := total_parts (by decide) n

theorem parts_units_ne_nil {n : Nat} (h : n ≠ 0) : parts units n ≠ [] := by
  intro hnil
  have htotal := total_parts_units n
  rw [hnil] at htotal
  exact h htotal.symm

theorem read?_text (d : Duration) : read? d.text = some d.asNanos := by
  by_cases h : d.asNanos = 0
  · have hzero : read? (Part.texts [⟨0, (1, "ns")⟩]) = some (Part.total [⟨0, (1, "ns")⟩]) :=
      read?_texts (by simp) (by simp [standardUnits])
    rw [text_of_zero h, h]
    exact hzero
  · have hunits : ∀ p ∈ parts units d.asNanos, p.unit ∈ standardUnits :=
      (canonical_parts d.asNanos).known
    rw [text_of_ne_zero h, read?_texts (parts_units_ne_nil h) hunits, total_parts_units]

/-- `text` is `0ns` for no time at all and made of `Canonical` parts otherwise. It is read as
exactly the duration, so two durations have the same text if and only if they are equally long. -/
theorem text_canonical (d : Duration) :
    (d.asNanos = 0 ∧ d.text = "0ns" ∨
      d.asNanos ≠ 0 ∧ ∃ ps, ps ≠ [] ∧ Canonical ps ∧ d.text = Part.texts ps) ∧
    read? d.text = some d.asNanos ∧
    ∀ e : Duration, d.text = e.text ↔ d.asNanos = e.asNanos := by
  refine ⟨?_, read?_text d, fun e => ⟨fun htext => ?_, fun hnanos => ?_⟩⟩
  · by_cases h : d.asNanos = 0
    · exact .inl ⟨h, text_of_zero h⟩
    · exact .inr ⟨h, _, parts_units_ne_nil h, canonical_parts _, text_of_ne_zero h⟩
  · have hread := read?_text d
    rw [htext, read?_text e] at hread
    exact (Option.some.inj hread).symm
  · rw [text, text, hnanos]

/-- Nanoseconds that make up more than a second, and a year that is no whole number of weeks. -/
example : (⟨31968000, 1001000007⟩ : Duration).text = "1y5d1s1ms7ns" ∧
    (⟨31535999, 0⟩ : Duration).text = "52w23h59m59s" := by
  decide

end QueryTree.Duration
