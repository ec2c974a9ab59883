import QueryTree.Proofs.Digits
import QueryTree.Time.Instant

/-!
# Instants read back

Counting days and naming them are inverse to each other on the whole calendar, so the text of an
instant is read as that instant.
-/

namespace QueryTree

/-! ## Days and dates -/

namespace Calendar

/-- The day `d` of a cycle of 400 years that begin in March: its century `c`, its four years `q` in
the century, its year `a` in those four and its day `r` in that year. Only the last of four years
has a day 365, and at the end of a century only the last century. -/
structure CycleDay (d c q a r : Int) : Prop where
  century : 0 ≤ c ∧ c ≤ 3
  four : 0 ≤ q ∧ q ≤ 24
  year : 0 ≤ a ∧ a ≤ 3
  day : 0 ≤ r ∧ r ≤ 365
  leap : r = 365 → a = 3 ∧ (q = 24 → c = 3)
  sum : d = 36524 * c + 1461 * q + 365 * a + r

theorem exists_cycleDay {d : Int} (h0 : 0 ≤ d) (h1 : d < 146097) :
    ∃ c q a r, CycleDay d c q a r := by
  by_cases hend : d = 146096
  · exact ⟨3, 24, 3, 365, by omega, by omega, by omega, by omega, by omega, by omega⟩
  have hc : d / 36524 ≤ 3 := by omega
  have hq : d % 36524 / 1461 ≤ 24 := by omega
  by_cases hleap : d % 36524 % 1461 = 1460
  · exact ⟨d / 36524, d % 36524 / 1461, 3,
      365, by omega, by omega, by omega, by omega, by omega, by omega⟩
  · exact ⟨d / 36524, d % 36524 / 1461, d % 36524 % 1461 / 365, d % 36524 % 1461 % 365,
      by omega, by omega, by omega, by omega, by omega, by omega⟩

namespace CycleDay

variable {d c q a r : Int}

/-- The corrections for leap days leave 365 days for each year of the cycle. -/
theorem yearOfCycle_eq (h : CycleDay d c q a r) :
    (d - d / 1460 + d / 36524 - d / 146096) / 365 = 100 * c + 4 * q + a := by
  obtain ⟨hc, hq, ha, hr, hleap, hd⟩ := h
  have hcentury : d / 36524 - d / 146096 = c := by
    by_cases hend : d = 146096
    · omega
    · have hbelow : 1461 * q + 365 * a + r < 36524 := by omega
      omega
  have hfour : d / 1460 = 25 * c + q + (24 * c + q + 365 * a + r) / 1460 := by omega
  have hsum : d - d / 1460 + d / 36524 - d / 146096 =
      365 * (100 * c + 4 * q) + (365 * a + r - (24 * c + q + 365 * a + r) / 1460) := by omega
  rw [hsum]
  omega

theorem leapDays_eq (h : CycleDay d c q a r) :
    (100 * c + 4 * q + a) / 4 - (100 * c + 4 * q + a) / 100 = 24 * c + q := by
  obtain ⟨hc, hq, ha, -, -, -⟩ := h
  have hfour : (100 * c + 4 * q + a) / 4 = 25 * c + q := by omega
  have hcentury : (100 * c + 4 * q + a) / 100 = c := by omega
  omega

theorem dayOfYear_eq (h : CycleDay d c q a r) :
    d - (365 * (100 * c + 4 * q + a) + (100 * c + 4 * q + a) / 4 - (100 * c + 4 * q + a) / 100) =
      r := by
  have hleaps := h.leapDays_eq
  have hd := h.sum
  omega

end CycleDay

/-- `ofDays`, by year and month counted from March. -/
theorem ofDays_eq {days c q a r : Int} (h : CycleDay ((days + 719468) % 146097) c q a r) :
    ∃ year month : Int, year = 100 * c + 4 * q + a + (days + 719468) / 146097 * 400 ∧
      month = (5 * r + 2) / 153 ∧ Date.ofDays days = ⟨if month < 10 then year else year + 1,
        (if month < 10 then month + 3 else month - 9).toNat,
          (r - (153 * month + 2) / 5 + 1).toNat⟩ := by
  refine ⟨_, _, rfl, rfl, ?_⟩
  obtain ⟨hr0, hr⟩ := h.day
  unfold Date.ofDays
  simp only [h.yearOfCycle_eq, h.dayOfYear_eq]
  by_cases hmonth : (5 * r + 2) / 153 < 10
  · simp only [if_pos hmonth, if_neg (show ¬(5 * r + 2) / 153 + 3 ≤ 2 by omega)]
  · simp only [if_neg hmonth, if_pos (show (5 * r + 2) / 153 - 9 ≤ 2 by omega)]

theorem exists_ofDays (days : Int) : ∃ c q a r, CycleDay ((days + 719468) % 146097) c q a r :=
  exists_cycleDay (by omega) (by omega)

/-- `toDays` is a left inverse of `ofDays`. -/
theorem toDays_ofDays (days : Int) : (Date.ofDays days).toDays = days := by
  obtain ⟨c, q, a, r, h⟩ := exists_ofDays days
  obtain ⟨year, month, hyear, hmonth, hdate⟩ := ofDays_eq h
  have hleaps := h.leapDays_eq
  obtain ⟨hc, hq, ha, hr, -, hd⟩ := h
  have hcycle : year / 400 = (days + 719468) / 146097 := by omega
  have hrest : year % 400 = 100 * c + 4 * q + a := by omega
  have hday : (153 * month + 2) / 5 + ((r - (153 * month + 2) / 5 + 1).toNat : Int) - 1 = r := by
    omega
  rw [hdate]
  -- Months are counted from March. From the tenth on they belong to the next year.
  by_cases hlate : month < 10
  · have hfrom : ((month + 3).toNat : Int) - 3 = month := by omega
    simp only [Date.toDays, if_pos hlate, if_neg (show ¬(month + 3).toNat ≤ 2 by omega),
      if_pos (show 2 < (month + 3).toNat by omega), hfrom, hday, hcycle, hrest]
    omega
  · have hfrom : ((month - 9).toNat : Int) + 9 = month := by omega
    simp only [Date.toDays, if_neg hlate, if_pos (show (month - 9).toNat ≤ 2 by omega),
      if_neg (show ¬2 < (month - 9).toNat by omega), Int.add_sub_cancel, hfrom, hday, hcycle, hrest]
    omega

/-- A day of the calendar is in a year of the calendar, whose first and last years are cut. -/
theorem year_bounds {k c q a r : Int} (hc : 0 ≤ c ∧ c ≤ 3) (hq : 0 ≤ q ∧ q ≤ 24)
    (ha : 0 ≤ a ∧ a ≤ 3) (hr : 0 ≤ r ∧ r ≤ 365)
    (hlow : minDay + 719468 ≤ 146097 * k + (36524 * c + 1461 * q + 365 * a + r))
    (hhigh : 146097 * k + (36524 * c + 1461 * q + 365 * a + r) ≤ maxDay + 719468) :
    (minYear ≤ 400 * k + 100 * c + 4 * q + a ∨
        minYear ≤ 400 * k + 100 * c + 4 * q + a + 1 ∧ 306 ≤ r) ∧
      (400 * k + 100 * c + 4 * q + a + 1 ≤ maxYear ∨
        400 * k + 100 * c + 4 * q + a ≤ maxYear ∧ r < 306) := by
  rw [show minDay = -96465292 by decide] at hlow
  rw [show maxDay = 95026236 by decide] at hhigh
  unfold minYear maxYear
  have hcycle : -656 ≤ k ∧ k ≤ 655 := by omega
  have hcentury : c = 0 ∨ c = 1 ∨ c = 2 ∨ c = 3 := by omega
  by_cases hends : k = -656 ∨ k = 655
  · rcases hends with rfl | rfl <;> rcases hcentury with rfl | rfl | rfl | rfl <;> omega
  · omega

/-- The days of each month from March on. -/
theorem day_le_daysInMonth {year month r : Int} (hr : 0 ≤ r ∧ r ≤ 365)
    (hmonth : month = (5 * r + 2) / 153) (hleap : r = 365 → isLeap (year + 1) = true) :
    (r - (153 * month + 2) / 5 + 1).toNat ≤ daysInMonth (if month < 10 then year else year + 1)
      (if month < 10 then month + 3 else month - 9).toNat := by
  have hmonths : month = 0 ∨ month = 1 ∨ month = 2 ∨ month = 3 ∨ month = 4 ∨ month = 5 ∨
      month = 6 ∨ month = 7 ∨ month = 8 ∨ month = 9 ∨ month = 10 ∨ month = 11 := by omega
  rcases hmonths with rfl | rfl | rfl | rfl | rfl | rfl | rfl | rfl | rfl | rfl | rfl | rfl
  case inr.inr.inr.inr.inr.inr.inr.inr.inr.inr.inr =>
    change _ ≤ if isLeap (year + 1) then 29 else 28
    by_cases h : r = 365
    · rw [if_pos (hleap h)]
      omega
    · split <;> omega
  all_goals
    simp [daysInMonth]
    omega

theorem isValid_ofDays {days : Int} (h : inRange days = true) :
    (Date.ofDays days).isValid = true := by
  obtain ⟨c, q, a, r, hday⟩ := exists_ofDays days
  obtain ⟨year, month, hyear, hmonth, hdate⟩ := ofDays_eq hday
  obtain ⟨hc, hq, ha, hr, hleap, hd⟩ := hday
  have hrange : minDay ≤ days ∧ days ≤ maxDay := by simpa [inRange] using h
  have hyears := @year_bounds ((days + 719468) / 146097) c q a r hc hq ha hr (by omega) (by omega)
  have hfebruary : r = 365 → isLeap (year + 1) = true := by
    intro hr
    have hlast := hleap hr
    simp only [isLeap, Bool.and_eq_true, Bool.or_eq_true, beq_iff_eq, bne_iff_ne, ne_eq]
    omega
  have hdays := day_le_daysInMonth hr hmonth hfebruary
  rw [hdate]
  simp only [Date.isValid, Bool.and_eq_true, decide_eq_true_eq]
  refine ⟨⟨⟨⟨⟨?_, ?_⟩, ?_⟩, ?_⟩, by omega⟩, hdays⟩ <;> split <;> omega

end Calendar

/-! ## Texts -/

namespace Instant

open Text

@[simp] theorem ofParts?_parts (t : Instant) : ofParts? t.day t.second t.nano = some t :=
  dif_pos ⟨t.day_inRange, t.second_lt, t.nano_lt, t.leap⟩

theorem isBlank_of_isDigit {c : Char} (h : c.isDigit = true) : isBlank c = false := by
  have hrange : 48 ≤ c.toNat ∧ c.toNat ≤ 57 := by
    simpa [Char.isDigit, UInt32.le_iff_toNat_le] using h
  simp [isBlank]
  omega

/-- `readNumber` reads digits that another character ends. -/
theorem readNumber_digits {most : Nat} {ds rest : List Char} (hne : ds ≠ [])
    (h : ∀ c ∈ ds, c.isDigit = true) (hmost : ds.length ≤ most) (hrest : EndsDigits rest) :
    readNumber most (ds ++ rest) = some (Nat.ofDigitChars 10 ds 0, rest) := by
  have hends : EndsDigits (rest.take (most - ds.length)) := by
    intro c hc
    cases rest with
    | nil => simp at hc
    | cons d rest =>
      rw [List.head?_take] at hc
      split at hc
      · cases hc
      · exact hrest c hc
  have hdigits : ((ds ++ rest).take most).takeWhile Char.isDigit = ds := by
    rw [List.take_append, List.take_of_length_le hmost, takeWhile_digits h hends]
  simp [readNumber, hdigits, natural?_eq hne h]

theorem readNumber_padded {most width n : Nat} {rest : List Char}
    (hmost : (padded width n).toList.length ≤ most) (hrest : EndsDigits rest) :
    readNumber most ((padded width n).toList ++ rest) = some (n, rest) := by
  rw [readNumber_digits (padded_ne_nil width n) (fun _ => isDigit_of_mem_padded) hmost hrest,
    ofDigitChars_padded]

/-- A text that begins with digits begins with one of them. -/
theorem isDigit_of_head {ds rest : List Char} (hne : ds ≠ []) (h : ∀ c ∈ ds, c.isDigit = true) :
    ∀ c ∈ (ds ++ rest).head?, c.isDigit = true := by
  intro c hc
  cases ds with
  | nil => exact absurd rfl hne
  | cons d ds =>
    cases hc
    exact h _ List.mem_cons_self

theorem dropBlanks_padded (width n : Nat) (rest : List Char) :
    dropBlanks ((padded width n).toList ++ rest) = (padded width n).toList ++ rest := by
  have hhead := @isDigit_of_head _ rest (padded_ne_nil width n) fun _ => isDigit_of_mem_padded
  unfold dropBlanks
  generalize (padded width n).toList ++ rest = cs at hhead
  cases cs with
  | nil => rfl
  | cons c cs => simp [isBlank_of_isDigit (hhead c rfl)]

theorem readField_padded {low high n : Nat} {rest : List Char} (hlow : low ≤ n) (hhigh : n ≤ high)
    (hn : n < 100) (hrest : EndsDigits rest) :
    readField low high ((padded 2 n).toList ++ rest) = some (n, rest) := by
  have hmost : (padded 2 n).toList.length ≤ 2 := Nat.le_of_eq (length_padded (by decide) hn)
  simp [readField, dropBlanks_padded, readNumber_padded hmost hrest, hlow, hhigh]

theorem readMark_cons {c : Char} (hc : isBlank c = false) (cs : List Char) :
    readMark c (c :: cs) = some cs := by
  simp [readMark, dropBlanks, strip?, hc]

theorem endsDigits_cons {c : Char} (hc : c.isDigit = false) (cs : List Char) :
    EndsDigits (c :: cs) := by
  intro d hd
  cases hd
  exact hc

/-! ### Dates -/

theorem readYear_padded {n : Nat} (hn : n < 10 ^ 4) {rest : List Char} (hrest : EndsDigits rest) :
    readYear ((padded 4 n).toList ++ rest) = some ((n : Int), rest) := by
  have hhead := @isDigit_of_head _ rest (padded_ne_nil 4 n) fun _ => isDigit_of_mem_padded
  have hread : readNumber 4 ((padded 4 n).toList ++ rest) = some (n, rest) :=
    readNumber_padded (Nat.le_of_eq (length_padded (by decide) hn)) hrest
  unfold readYear
  rw [dropBlanks_padded]
  generalize (padded 4 n).toList ++ rest = cs at hhead hread
  split
  · cases hhead _ rfl
  · cases hhead _ rfl
  · rw [hread]
    rfl

theorem readYear_minus (cs : List Char) :
    readYear ('-' :: cs) = (readNumber cs.length cs).map fun (n, rest) => (-(n : Int), rest) := rfl

theorem readYear_plus (cs : List Char) :
    readYear ('+' :: cs) = (readNumber cs.length cs).map fun (n, rest) => ((n : Int), rest) := rfl

theorem readYear_yearText (year : Int) {rest : List Char} (hrest : EndsDigits rest) :
    readYear ((yearText year).toList ++ rest) = some (year, rest) := by
  have hread : ∀ n, readNumber ((padded 4 n).toList ++ rest).length
      ((padded 4 n).toList ++ rest) = some (n, rest) :=
    fun n => readNumber_padded (by simp) hrest
  unfold yearText
  by_cases hplain : 0 ≤ year ∧ year ≤ 9999
  · rw [if_pos (by simpa using hplain), readYear_padded (by omega) hrest,
      Int.toNat_of_nonneg hplain.1]
  · rw [if_neg (by simpa using hplain)]
    by_cases hneg : year < 0
    · have hsign : ("-" ++ padded 4 year.natAbs).toList ++
          rest = '-' :: ((padded 4 year.natAbs).toList ++ rest) := by
        simp
      rw [if_pos hneg, hsign, readYear_minus, hread, Option.map_some]
      simp only [Option.some.injEq, Prod.mk.injEq, and_true]
      omega
    · have hsign : ("+" ++ padded 4 year.natAbs).toList ++
          rest = '+' :: ((padded 4 year.natAbs).toList ++ rest) := by
        simp
      rw [if_neg hneg, hsign, readYear_plus, hread, Option.map_some]
      simp only [Option.some.injEq, Prod.mk.injEq, and_true]
      omega

theorem readDate_text (date : Calendar.Date) (hvalid : date.isValid = true) {rest : List Char}
    (hrest : EndsDigits rest) :
    readDate ((yearText date.year ++ "-" ++ padded 2 date.month ++ "-" ++
      padded 2 date.day).toList ++ rest) = some (date, rest) := by
  have hbounds : 1 ≤ date.month ∧ date.month ≤ 12 ∧ 1 ≤ date.day ∧ date.day ≤ 31 := by
    simp only [Calendar.Date.isValid, Bool.and_eq_true, decide_eq_true_eq] at hvalid
    have hdays : Calendar.daysInMonth date.year date.month ≤ 31 := by
      unfold Calendar.daysInMonth
      repeat' split
      all_goals decide
    omega
  have htext : (yearText date.year ++ "-" ++ padded 2 date.month ++ "-" ++
      padded 2 date.day).toList ++ rest =
        (yearText date.year).toList ++ '-' ::
          ((padded 2 date.month).toList ++ '-' :: ((padded 2 date.day).toList ++ rest)) := by
    simp
  have hhyphen : ∀ cs, EndsDigits ('-' :: cs) := endsDigits_cons rfl
  have hmark : ∀ cs, readMark '-' ('-' :: cs) = some cs := readMark_cons (by decide)
  have hmonth : ∀ cs, readField 1 12 ((padded 2 date.month).toList ++ '-' :: cs) = some
      (date.month, '-' :: cs) :=
    fun cs => readField_padded (by omega) (by omega) (by omega) (hhyphen cs)
  have hday : readField 1 31 ((padded 2 date.day).toList ++ rest) = some (date.day, rest) :=
    readField_padded (by omega) (by omega) (by omega) hrest
  rw [htext, readDate, readYear_yearText _ (hhyphen _)]
  simp [hmark, hmonth, hday]

/-! ### Times -/

/-- `readFraction` counts digits the more the fewer they are. -/
theorem readFraction_padded {width n : Nat} (hwidth : 0 < width) (hmost : width ≤ 9)
    (hn : n < 10 ^ width) (cs : List Char) :
    readFraction (("." ++ padded width n).toList ++ 'Z' :: cs) =
      some (n * 10 ^ (9 - width), 'Z' :: cs) := by
  have htext : ("." ++ padded width n).toList ++
      'Z' :: cs = '.' :: ((padded width n).toList ++ 'Z' :: cs) := by
    simp
  have hlength := length_padded hwidth hn
  have hread : readNumber 9 ((padded width n).toList ++ 'Z' :: cs) = some (n, 'Z' :: cs) :=
    readNumber_padded (by omega) (endsDigits_cons rfl cs)
  rw [htext, readFraction, hread]
  simp [hlength]

theorem readFraction_fractionText {nano : Nat} (h : nano < nanosPerSecond) (cs : List Char) :
    readFraction ((fractionText nano).toList ++ 'Z' :: cs) = some (nano, 'Z' :: cs) := by
  unfold nanosPerSecond at h
  unfold fractionText
  split
  case isTrue hzero =>
    obtain rfl : nano = 0 := by simpa using hzero
    rfl
  split
  case isTrue hmilli =>
    have hexact : nano / 1000000 * 10 ^ (9 - 3) = nano :=
      Nat.div_mul_cancel (Nat.dvd_of_mod_eq_zero (by simpa using hmilli))
    rw [readFraction_padded (by decide) (by decide) (by omega), hexact]
  split
  case isTrue hmicro =>
    have hexact : nano / 1000 * 10 ^ (9 - 6) = nano :=
      Nat.div_mul_cancel (Nat.dvd_of_mod_eq_zero (by simpa using hmicro))
    rw [readFraction_padded (by decide) (by decide) (by omega), hexact]
  · rw [readFraction_padded (by decide) (by decide) (by omega), Nat.sub_self, Nat.pow_zero,
      Nat.mul_one]

theorem endsDigits_fractionText (nano : Nat) (cs : List Char) :
    EndsDigits ((fractionText nano).toList ++ 'Z' :: cs) := by
  have hpoint : ∀ text : String, EndsDigits (("." ++ text).toList ++ 'Z' :: cs) := by
    intro text
    rw [String.toList_append]
    exact endsDigits_cons rfl _
  unfold fractionText
  repeat' split
  · exact endsDigits_cons rfl cs
  all_goals exact hpoint _

theorem readTime_parts {hour minute second nano : Nat} (hhour : hour ≤ 23) (hminute : minute ≤ 59)
    (hsecond : second ≤ 60) (hnano : nano < nanosPerSecond) (cs : List Char) :
    readTime ((padded 2 hour ++ ":" ++ padded 2 minute ++ ":" ++ padded 2 second ++
      fractionText nano).toList ++ 'Z' :: cs) =
      some (if second = 60 then ((hour * 3600 + minute * 60 + 59, nano + nanosPerSecond), 'Z' :: cs)
        else ((hour * 3600 + minute * 60 + second, nano), 'Z' :: cs)) := by
  have htext : (padded 2 hour ++ ":" ++ padded 2 minute ++ ":" ++ padded 2 second ++
      fractionText nano).toList ++
        'Z' :: cs = (padded 2 hour).toList ++
          ':' :: ((padded 2 minute).toList ++ ':' :: ((padded 2 second).toList ++
          ((fractionText nano).toList ++ 'Z' :: cs))) := by
    simp
  have hcolon : ∀ cs, EndsDigits (':' :: cs) := endsDigits_cons rfl
  have hmark : ∀ cs, readMark ':' (':' :: cs) = some cs := readMark_cons (by decide)
  have hhours : ∀ cs, readField 0 23 ((padded 2 hour).toList ++ ':' :: cs) = some
      (hour, ':' :: cs) :=
    fun cs => readField_padded (Nat.zero_le _) hhour (by omega) (hcolon cs)
  have hminutes : ∀ cs, readField 0 59 ((padded 2 minute).toList ++ ':' :: cs) = some
      (minute, ':' :: cs) :=
    fun cs => readField_padded (Nat.zero_le _) hminute (by omega) (hcolon cs)
  have hseconds := readField_padded (Nat.zero_le _) hsecond (by omega)
    (endsDigits_fractionText nano cs)
  rw [htext, readTime]
  simp only [hhours, hmark, hminutes, hseconds, readFraction_fractionText hnano,
    Option.bind_eq_bind, Option.bind_some, beq_iff_eq, Option.pure_def]
  split <;> rfl

/-- `readTime` reads a time of day back, a leap second as the last of its minute. -/
theorem readTime_text {second nano : Nat} (hsecond : second < secondsPerDay)
    (hnano : nano < 2 * nanosPerSecond) (hleap : nano < nanosPerSecond ∨ second % 60 = 59)
    (cs : List Char) :
    readTime ((padded 2 (second / 3600) ++ ":" ++ padded 2 (second / 60 % 60) ++ ":" ++
      padded 2 (second % 60 + if nanosPerSecond ≤ nano then 1 else 0) ++
      fractionText (if nanosPerSecond ≤ nano then nano - nanosPerSecond else nano)).toList ++
      'Z' :: cs) = some ((second, nano), 'Z' :: cs) := by
  unfold secondsPerDay at hsecond
  have hhour : second / 3600 ≤ 23 := by omega
  have hminute : second / 60 % 60 ≤ 59 := by omega
  have hsum : second / 3600 * 3600 + second / 60 % 60 * 60 + second % 60 = second := by omega
  by_cases h : nanosPerSecond ≤ nano
  · have hlast : second % 60 = 59 := by omega
    rw [if_pos h, if_pos h, readTime_parts hhour hminute (by omega) (by omega), if_pos (by omega)]
    rw [hlast] at hsum
    rw [hsum, Nat.sub_add_cancel h]
  · rw [if_neg h, if_neg h, readTime_parts hhour hminute (by omega) (by omega), if_neg (by omega),
      Nat.add_zero, hsum]

/-- `ofText?` reads the text of an instant as that instant. -/
theorem ofText?_text (t : Instant) : ofText? t.text = some t := by
  have hvalid := Calendar.isValid_ofDays t.day_inRange
  have htext : t.text.toList = (yearText (Calendar.Date.ofDays t.day).year ++ "-" ++
      padded 2 (Calendar.Date.ofDays t.day).month ++ "-" ++
        padded 2 (Calendar.Date.ofDays t.day).day).toList ++
      'T' :: ((padded 2 (t.second / 3600) ++ ":" ++ padded 2 (t.second / 60 % 60) ++ ":" ++
      padded 2 (t.second % 60 + if nanosPerSecond ≤ t.nano then 1 else 0) ++
      fractionText (if nanosPerSecond ≤ t.nano then t.nano - nanosPerSecond else t.nano)).toList ++
        ['Z']) := by
    simp [text]
  have hoffset : readOffset ['Z'] = some (0, []) := by decide
  -- The text is in universal time, and moving an instant by no offset leaves it as it is.
  have hback : fromOffset? t 0 = some t := by
    have hsecond := t.second_lt
    unfold secondsPerDay at hsecond
    have hdays : (t.day * (86400 : Nat) + (t.second : Int) - 0) / (86400 : Nat) = t.day := by omega
    have hseconds : ((t.day * (86400 : Nat) + (t.second : Int) - 0)
        % (86400 : Nat)).toNat = t.second := by omega
    simp only [fromOffset?, secondsPerDay, hdays, hseconds, ofParts?_parts]
  rw [ofText?, htext, readDate_text _ hvalid (endsDigits_cons rfl _)]
  simp only [Option.bind_eq_bind, Option.bind_some, readTime_text t.second_lt t.nano_lt t.leap,
    hoffset, hvalid, Calendar.toDays_ofDays, ofParts?_parts, hback]
  rfl

end Instant

end QueryTree
