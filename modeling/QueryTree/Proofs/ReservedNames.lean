import QueryTree.Proofs.Digits
import QueryTree.Proofs.Requests
import QueryTree.Proofs.Tokens

/-!
# Reserved names

Whether a name is reserved is asked once, about the word of a captured variable. The mark put before
a reserved word and the number put after a taken name come later, and nobody asks about the result.
`Options.keepsReserved` decides from the options alone whether a reserved name can be given out.
-/

namespace QueryTree

/-! ## Texts that differ in case -/

namespace Text

/-- The characters of `s`, letters in lower case. -/
def lower (s : String) : List Char := s.toList.map Char.toLower

theorem equalIgnoringCase_iff {a b : String} :
    equalIgnoringCase a b = true ↔ lower a = lower b := by
  simp [equalIgnoringCase, lower]

theorem lower_append (a b : String) : lower (a ++ b) = lower a ++ lower b := by
  simp [lower]

theorem toLower_of_isDigit {c : Char} (h : c.isDigit = true) : c.toLower = c := by
  have halpha := isAlpha_of_isDigit h
  simp only [Char.isAlpha, Bool.or_eq_false_iff] at halpha
  exact Char.toLower_eq_of_not_isUpper (by simp [halpha.1])

theorem lower_repr (n : Nat) : lower (Nat.repr n) = Nat.toDigits 10 n := by
  rw [lower, Nat.toList_repr]
  calc (Nat.toDigits 10 n).map Char.toLower
      = (Nat.toDigits 10 n).map id :=
        List.map_congr_left fun _ hc => toLower_of_isDigit (isDigit_of_mem_toDigits hc)
    _ = Nat.toDigits 10 n := List.map_id _

theorem isWordChar_toLower (c : Char) : isWordChar c.toLower = isWordChar c := by
  by_cases hupper : c.isUpper = true
  · have halpha : c.isAlpha = true := by simp [Char.isAlpha, hupper]
    simp [isWordChar, Char.isAlphanum, Char.isAlpha_toLower_eq_isAlpha, halpha]
  · rw [Char.toLower_eq_of_not_isUpper hupper]

/-- `isWord` does not depend on case. -/
theorem isWord_congr {a b : String} (h : lower a = lower b) : isWord a = isWord b := by
  have hlower : ∀ s : String, isWord s = (!(lower s).isEmpty && (lower s).all isWordChar) := by
    intro s
    simp [isWord, lower, Function.comp_def, isWordChar_toLower]
  rw [hlower, hlower, h]

end Text

namespace Options

open Text Params

variable {o : Options}

/-! ## Names that are tried -/

/-- What is put after a base to make the `candidate` with that number. -/
def numbering : Nat → List Char
  | 0 => []
  | n + 1 => Nat.toDigits 10 (n + 1)

theorem lower_candidate (base : String) (n : Nat) :
    lower (candidate base n) = lower base ++ numbering n := by
  cases n with
  | zero => exact (List.append_nil _).symm
  | succ n => rw [candidate, lower_append, lower_repr, numbering]

/-- Whether `cs` is empty or a number without zeros in front. -/
def isNumbering (cs : List Char) : Bool :=
  cs.all Char.isDigit && cs.head? != some '0'

theorem isNumbering_iff {cs : List Char} : isNumbering cs = true ↔ ∃ n, cs = numbering n := by
  rw [isNumbering, Bool.and_eq_true, List.all_eq_true, bne_iff_ne]
  constructor
  · rintro ⟨hdigits, hhead⟩
    by_cases hne : cs = []
    · exact ⟨0, hne⟩
    · have hback := toDigits_ofDigitChars hdigits hne hhead
      cases hn : Nat.ofDigitChars 10 cs 0 with
      | zero =>
        -- zero is written with a zero in front
        rw [hn] at hback
        exact absurd (congrArg List.head? hback.symm) hhead
      | succ n => exact ⟨n + 1, by rw [numbering, ← hn, hback]⟩
  · rintro ⟨n, rfl⟩
    cases n with
    | zero => exact ⟨by simp [numbering], by simp [numbering]⟩
    | succ n => exact ⟨fun _ => isDigit_of_mem_toDigits, head?_toDigits (Nat.succ_ne_zero n)⟩

/-- Whether `name` is among those that are tried for `base`, in whatever case. -/
def isTriedFor (base name : String) : Bool :=
  (strip? (lower base) (lower name)).any isNumbering

theorem isTriedFor_iff {base name : String} :
    isTriedFor base name = true ↔ ∃ n, lower name = lower (candidate base n) := by
  rw [isTriedFor, Option.any_eq_true]
  constructor
  · rintro ⟨cs, hcs, hnumbering⟩
    obtain ⟨n, rfl⟩ := isNumbering_iff.mp hnumbering
    exact ⟨n, by rw [strip?_eq_some_iff.mp hcs, lower_candidate]⟩
  · rintro ⟨n, hn⟩
    rw [lower_candidate] at hn
    exact ⟨numbering n, strip?_eq_some_iff.mpr hn, isNumbering_iff.mpr ⟨n, rfl⟩⟩

/-- The name that `word` would like to have: with a mark in front if it is reserved. -/
def base (o : Options) (word : String) : String :=
  if o.isReserved word then o.reservedMark ++ word else word

/-- Whether no reserved name is tried for any word. The words to look at are the reserved ones,
which get the mark, and the beginnings of the reserved names, which may get a number. -/
def keepsReserved (o : Options) : Bool :=
  o.reservedParameters.all fun name =>
    (o.reservedParameters ++ name.toList.inits.map String.ofList).all fun word =>
      !(isWord word && isTriedFor (o.base word) name)

theorem isReserved_iff {name : String} :
    o.isReserved name = true ↔ ∃ r ∈ o.reservedParameters, lower r = lower name := by
  simp only [isReserved, List.any_eq_true, equalIgnoringCase_iff]

theorem isReserved_congr {a b : String} (h : lower a = lower b) :
    o.isReserved a = o.isReserved b := by
  rw [Bool.eq_iff_iff, isReserved_iff, isReserved_iff, h]

theorem lower_base_congr {a b : String} (h : lower a = lower b) :
    lower (o.base a) = lower (o.base b) := by
  unfold base
  rw [isReserved_congr h]
  split
  · rw [lower_append, lower_append, h]
  · exact h

theorem isTriedFor_congr {a b : String} (h : lower a = lower b) (name : String) :
    isTriedFor a name = isTriedFor b name := by
  rw [isTriedFor, isTriedFor, h]

theorem keepsReserved_eq_true_iff : o.keepsReserved = true ↔ ∀ name ∈ o.reservedParameters,
    ∀ word ∈ o.reservedParameters ++ name.toList.inits.map String.ofList,
      isWord word = true → isTriedFor (o.base word) name = false := by
  simp only [keepsReserved, List.all_eq_true, Bool.not_eq_true', Bool.and_eq_false_imp]

/-- Whichever word a reserved name `isTriedFor`, one of those that are looked at differs from it in
case at most. -/
theorem exists_word_alike {name word : String} (htried : isTriedFor (o.base word) name = true) :
    ∃ w ∈ o.reservedParameters ++ name.toList.inits.map String.ofList, lower w = lower word := by
  by_cases hword : o.isReserved word = true
  · obtain ⟨r, hr, hlower⟩ := isReserved_iff.mp hword
    exact ⟨r, List.mem_append_left _ hr, hlower⟩
  · -- without a mark, the word is what the name begins with
    rw [base, if_neg hword] at htried
    obtain ⟨n, hn⟩ := isTriedFor_iff.mp htried
    rw [lower_candidate, lower] at hn
    obtain ⟨w, cs, hcut, hw, -⟩ := List.map_eq_append_iff.mp hn
    refine ⟨String.ofList w, List.mem_append_right _ ?_, ?_⟩
    · refine List.mem_map_of_mem ((List.mem_inits _ _).mpr ?_)
      exact ⟨cs, hcut.symm⟩
    · rw [lower, String.toList_ofList, hw]

/-- `keepsReserved` if and only if no name that is tried for a word is reserved. -/
theorem keepsReserved_iff : o.keepsReserved = true ↔
    ∀ word, isWord word = true → ∀ n, o.isReserved (candidate (o.base word) n) = false := by
  rw [keepsReserved_eq_true_iff]
  constructor
  · intro h word hword n
    by_contra hreserved
    obtain ⟨name, hname, hlower⟩ := isReserved_iff.mp (Bool.not_eq_false _ ▸ hreserved)
    have htried : isTriedFor (o.base word) name = true := isTriedFor_iff.mpr ⟨n, hlower⟩
    obtain ⟨w, hw, halike⟩ := exists_word_alike htried
    have hfree := h name hname w hw (isWord_congr halike ▸ hword)
    rw [isTriedFor_congr (lower_base_congr halike), htried] at hfree
    cases hfree
  · intro h name hname word _ hword
    by_contra htried
    obtain ⟨n, hn⟩ := isTriedFor_iff.mp (Bool.not_eq_false _ ▸ htried)
    have hfree := h word hword n
    rw [Bool.eq_false_iff, Ne, isReserved_iff] at hfree
    exact hfree ⟨name, hname, hn⟩

end Options

/-- `firstFrom` finds the first number that passes if it gets that far. -/
theorem firstFrom_eq {test : Nat → Bool} {fuel start k : Nat} (hk : k ≤ fuel)
    (hfailed : ∀ i < k, test (start + i) = false) (hpassed : test (start + k) = true) :
    firstFrom test fuel start = start + k := by
  induction k generalizing fuel start with
  | zero =>
    cases fuel with
    | zero => rfl
    | succ fuel => exact if_pos hpassed
  | succ k ih =>
    obtain ⟨fuel, rfl⟩ : ∃ f, fuel = f + 1 := ⟨fuel - 1, by omega⟩
    have hstart : test start = false := hfailed 0 (Nat.succ_pos k)
    rw [firstFrom, hstart, if_neg (by decide), ih (by omega), Nat.add_right_comm, Nat.add_assoc]
    · intro i hi
      rw [Nat.add_right_comm, Nat.add_assoc]
      exact hfailed (i + 1) (Nat.succ_lt_succ hi)
    · rwa [Nat.add_right_comm, Nat.add_assoc]

namespace Params

open Text

variable {o : Options} {p : Params} {word : String} {n : Nat}

/-! ## Words -/

theorem isWord_clean (requested : String) : isWord (clean requested) = true := by
  have hne : (clean requested).toList ≠ [] := by simpa using clean_ne requested
  exact isWord_iff.mpr ⟨hne, isWordChar_of_mem_clean requested⟩

theorem clean_of_isWord (h : isWord word = true) : clean word = word := by
  obtain ⟨hne, hchars⟩ := isWord_iff.mp h
  have hmap : word.toList.map (fun c => if isWordChar c then c else '_') = word.toList.map id :=
    List.map_congr_left fun c hc => if_pos (hchars c hc)
  rw [clean, if_neg (by simpa using hne), hmap, List.map_id, String.ofList_toList]

theorem keepsReserved_standard : Options.standard.keepsReserved = true := by
  rw [Options.keepsReserved_iff]
  intro word hword n
  have hbase : Fit (Options.standard.base (clean word)) := fit_baseName (p := empty .standard)
    rfl word
  rw [clean_of_isWord hword] at hbase
  exact (hbase.candidate n).free

/-! ## Runs of requests -/

theorem options_answer (p : Params) (r : Request) : (p.answer r).2.options = p.options := by
  cases r with
  | named requested v =>
    simp only [answer, named]
    split <;> rfl
  | recordId v => rfl

theorem options_afterAll (p : Params) (rs : List Request) :
    (p.afterAll rs).options = p.options := by
  induction rs generalizing p with
  | nil => rfl
  | cons r rs ih => exact (ih (p.answer r).2).trans (p.options_answer r)

theorem baseName_afterAll (o : Options) (rs : List Request) (requested : String) :
    ((empty o).afterAll rs).baseName requested = o.base (clean requested) := by
  show ((empty o).afterAll rs).options.base (clean requested) = o.base (clean requested)
  rw [options_afterAll]
  rfl

/-- Requests for `word` with one value after the other. -/
def asks (word : String) (n : Nat) : List Request :=
  (List.range n).map fun i => .named word (.string (Nat.repr i))

/-- The first `n` candidates of `base` stand for different values, and nothing else does. -/
structure Asked (p : Params) (base : String) (n : Nat) : Prop where
  names : p.names = (List.range n).map (candidate base)
  values : ∀ i < n, p.get? (candidate base i) = some (.string (Nat.repr i))

namespace Asked

variable {base : String}

theorem fresh (h : p.Asked base n) : candidate base n ∉ p.names := by
  rw [h.names]
  intro hmem
  obtain ⟨i, hi, heq⟩ := List.mem_map.mp hmem
  rw [candidate_injective base heq, List.mem_range] at hi
  exact Nat.lt_irrefl n hi

/-- One more value gets the next `candidate`. -/
theorem nameFor (h : p.Asked (p.baseName word) n) :
    p.nameFor word (.string (Nat.repr n)) = candidate (p.baseName word) n := by
  have hlength : p.entries.length = n := by
    rw [← p.length_names, h.names, List.length_map, List.length_range]
  have htaken : ∀ i < n, p.accepts (.string (Nat.repr n))
      (candidate (p.baseName word) i) = false := by
    intro i hi
    rw [accepts, h.values i hi]
    show (Nat.repr i == Nat.repr n) = false
    exact beq_false_of_ne fun heq => Nat.ne_of_lt hi (Nat.repr_inj.mp heq)
  have hfree : p.accepts (.string (Nat.repr n)) (candidate (p.baseName word) n) = true := by
    rw [accepts, get?_eq_none h.fresh]
  have hfound : firstFrom (fun i => p.accepts (.string (Nat.repr n))
      (candidate (p.baseName word) i)) n 0 = 0 + n :=
    firstFrom_eq (Nat.le_refl n) (by simpa using htaken) (by simpa using hfree)
  rw [Params.nameFor, hlength, hfound, Nat.zero_add]

theorem named (h : p.Asked (p.baseName word) n) :
    (p.named word (.string (Nat.repr n))).2.Asked (p.baseName word) (n + 1) := by
  have hnew : ¬ p.contains (candidate (p.baseName word) n) = true := mt contains_iff.mp h.fresh
  rw [Params.named, h.nameFor, if_neg hnew]
  constructor
  · rw [names_append, h.names, List.range_succ, List.map_append]
    rfl
  · intro i hi
    rcases Nat.lt_succ_iff_lt_or_eq.mp hi with hi | rfl
    · exact (p.extends_append _ _).get? (h.values i hi)
    · exact get?_append h.fresh

end Asked

theorem asked_afterAll (o : Options) (word : String) (n : Nat) :
    ((empty o).afterAll (asks word n)).Asked (o.base (clean word)) n := by
  induction n with
  | zero =>
    constructor
    · rfl
    · intro i hi
      cases hi
  | succ n ih =>
    have hstep : (empty o).afterAll (asks word (n + 1)) =
        (((empty o).afterAll (asks word n)).named word (.string (Nat.repr n))).2 := by
      rw [asks, List.range_succ, List.map_append, afterAll, List.foldl_append]
      rfl
    rw [← baseName_afterAll o (asks word n)] at ih ⊢
    rw [hstep]
    exact ih.named

/-- Every `candidate` of a word is given out at some time. -/
theorem named_after_asks (o : Options) (hword : isWord word = true) (n : Nat) :
    (((empty o).afterAll (asks word n)).named word (.string (Nat.repr n))).1 =
      candidate (o.base word) n := by
  have hbase := baseName_afterAll o (asks word n) word
  have hasked := asked_afterAll o word n
  rw [← hbase] at hasked
  rw [clean_of_isWord hword] at hbase
  rw [← hbase]
  exact hasked.nameFor

/-- Of all runs of requests with the options `o`, none gives a reserved name to a captured value if
and only if `keepsReserved`. -/
theorem named_unreserved_iff (o : Options) :
    (∀ (before : List Request) (requested : String) (v : Value),
      o.isReserved (((empty o).afterAll before).named requested v).1 = false) ↔
    o.keepsReserved = true := by
  rw [Options.keepsReserved_iff]
  constructor
  · -- whatever is tried can be reached, so it is enough that no run gets there
    intro h word hword n
    rw [← named_after_asks o hword n]
    exact h (asks word n) word (.string (Nat.repr n))
  · intro h before requested v
    show o.isReserved (candidate (((empty o).afterAll before).baseName requested) _) = false
    rw [baseName_afterAll]
    exact h (clean requested) (isWord_clean requested) _

/-- Options that reserve a name with a number at the end. -/
def numberReserved : Options := ⟨["x1"], "_", "_rid"⟩

/-- Options that reserve a name with and without the mark. -/
def markReserved : Options := ⟨["this", "_this"], "_", "_rid"⟩

/-- In `numberReserved` the number of a taken name leads to a reserved name, and in `markReserved`
the mark does. -/
theorem reserved_names_given :
    numberReserved.isReserved
        (((empty numberReserved).afterAll [.named "x" (.int 1)]).named "x" (.int 2)).1 = true ∧
      markReserved.isReserved ((empty markReserved).named "this" (.int 1)).1 = true := by
  decide

end Params

end QueryTree
