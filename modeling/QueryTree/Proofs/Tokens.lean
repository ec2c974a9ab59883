import Mathlib.Data.List.Forall2
import QueryTree.Surql.Token

/-!
# Reading names and quoted text back

Between quotes a backslash stands before a character that is meant as it is. Between double quotes
the backslash itself is written with one, and every text can be read back. Between back-ticks it is
not: a name is one token exactly if it has no backslash.
-/

namespace QueryTree.Surql.Token

/-! ## Quoted text -/

/-- Reads up to the closing `mark`: the text that is meant, and what follows the mark. -/
def readQuoted (mark : Char) : List Char → Option (List Char × List Char)
  | [] => none
  | c :: cs =>
    if c = mark then some ([], cs)
    else if c = '\\' then
      match cs with
      | [] => none
      | e :: cs => (readQuoted mark cs).map fun (s, rest) => (e :: s, rest)
    else (readQuoted mark cs).map fun (s, rest) => (c :: s, rest)

variable {mark : Char}

theorem readQuoted_mark (rest : List Char) : readQuoted mark (mark :: rest) = some ([], rest) := by
  rw [readQuoted.eq_def]
  exact if_pos rfl

theorem readQuoted_escape (hmark : mark ≠ '\\') (c : Char) (cs : List Char) :
    readQuoted mark ('\\' :: c :: cs) = (readQuoted mark cs).map fun (s, rest) =>
      (c :: s, rest) := by
  simp [readQuoted, hmark.symm]

theorem readQuoted_other {c : Char} (hc : c ≠ mark) (hback : c ≠ '\\') (cs : List Char) :
    readQuoted mark (c :: cs) = (readQuoted mark cs).map fun (s, rest) => (c :: s, rest) := by
  rw [readQuoted.eq_def]
  exact (if_neg hc).trans (if_neg hback)

/-- If every mark and every backslash of `s` gets a backslash in front, `s` is read back. -/
theorem readQuoted_flatMap (hmark : mark ≠ '\\') (special : Char → Bool) (s rest : List Char)
    (h : ∀ c ∈ s, c = mark ∨ c = '\\' → special c = true) :
    readQuoted mark (s.flatMap (fun c => if special c then ['\\', c] else [c]) ++ mark :: rest) =
      some (s, rest) := by
  induction s with
  | nil => exact readQuoted_mark rest
  | cons c s ih =>
    have hs := ih fun c hc => h c (List.mem_cons_of_mem _ hc)
    rw [List.flatMap_cons, List.append_assoc]
    by_cases hc : special c = true
    · rw [if_pos hc]
      simp [readQuoted_escape hmark, hs]
    · have hplain := mt (h c List.mem_cons_self) hc
      rw [if_neg hc]
      simp [readQuoted_other (mt Or.inl hplain) (mt Or.inr hplain), hs]

theorem quote_toList (s : String) :
    (quote s).toList = '"' :: (s.toList.flatMap escapeQuoted ++ ['"']) := by
  simp [quote]

theorem readQuoted_quote (s : String) (rest : List Char) :
    readQuoted '"' (s.toList.flatMap escapeQuoted ++ '"' :: rest) = some (s.toList, rest) := by
  refine readQuoted_flatMap (by decide) (fun c => c == '\\' || c == '"')
    s.toList rest fun c _ hc => ?_
  rcases hc with rfl | rfl <;> rfl

/-- Each mark and backslash that `readQuoted` gives took a backslash to write. -/
theorem length_of_readQuoted {cs s rest : List Char} (h : readQuoted mark cs = some (s, rest)) :
    s.countP (fun c => c = mark ∨ c = '\\') + s.length + 1 + rest.length ≤ cs.length := by
  fun_induction readQuoted mark cs generalizing s with
  | case1 => cases h
  | case2 cs =>
    cases h
    simp
    omega
  | case3 => cases h
  | case4 e cs _ ih =>
    -- Two characters are read for one that is meant, which pays for a mark or a backslash.
    obtain ⟨⟨t, r⟩, ht, heq⟩ := Option.map_eq_some_iff.mp h
    cases heq
    have := ih ht
    have hcount : (e :: t).countP (fun c => c = mark ∨ c = '\\') ≤ t.countP
        (fun c => c = mark ∨ c = '\\') + 1 := by
      rw [List.countP_cons]
      split <;> omega
    simp only [List.length_cons]
    omega
  | case5 c cs hc hback ih =>
    obtain ⟨⟨t, r⟩, ht, heq⟩ := Option.map_eq_some_iff.mp h
    cases heq
    have := ih ht
    have hcount : (c :: t).countP (fun c => c = mark ∨ c = '\\') = t.countP fun c =>
        c = mark ∨ c = '\\' :=
      List.countP_cons_of_neg (by simp [hc, hback])
    rw [hcount]
    simp only [List.length_cons]
    omega

/-! ## Names -/

/-- Whether `rest` does not begin with a character of a word. -/
def EndsWord (rest : List Char) : Prop :=
  ∀ c ∈ rest.head?, Text.isWordChar c = false

/-- Reads a name, which is a plain word or stands between two marks. -/
def readName (mark : Char) : List Char → Option (String × List Char)
  | [] => none
  | c :: cs =>
    if c = mark then (readQuoted mark cs).map fun (s, rest) => (String.ofList s, rest)
    else
      let name := String.ofList ((c :: cs).takeWhile Text.isWordChar)
      if isPlain name then some (name, (c :: cs).dropWhile Text.isWordChar) else none

theorem all_of_isPlain {name : String} (h : isPlain name = true) :
    ∀ c ∈ name.toList, Text.isWordChar c = true := by
  unfold isPlain at h
  split at h
  · cases h
  · rename_i c cs hname
    rw [hname]
    exact List.all_eq_true.mp (Bool.and_eq_true_iff.mp h).2

theorem EndsWord.takeWhile {rest : List Char} (h : EndsWord rest) :
    rest.takeWhile Text.isWordChar = [] := by
  cases rest with
  | nil => rfl
  | cons c cs => simp [h c rfl]

theorem EndsWord.dropWhile {rest : List Char} (h : EndsWord rest) :
    rest.dropWhile Text.isWordChar = rest := by
  cases rest with
  | nil => rfl
  | cons c cs => simp [h c rfl]

theorem readName_word (hmark : Text.isWordChar mark = false) {name : String}
    (h : isPlain name = true) {rest : List Char} (hrest : EndsWord rest) :
    readName mark (name.toList ++ rest) = some (name, rest) := by
  have hall := all_of_isPlain h
  cases hname : name.toList with
  | nil => simp [isPlain, hname] at h
  | cons c cs =>
    rw [hname] at hall
    have hc : c ≠ mark := by
      rintro rfl
      rw [hall c List.mem_cons_self] at hmark
      cases hmark
    have htake : (c :: (cs ++ rest)).takeWhile Text.isWordChar = c :: cs := by
      rw [← List.cons_append, List.takeWhile_append_of_pos hall, hrest.takeWhile, List.append_nil]
    have hdrop : (c :: (cs ++ rest)).dropWhile Text.isWordChar = rest := by
      rw [← List.cons_append, List.dropWhile_append_of_pos hall, hrest.dropWhile]
    have hword : String.ofList (c :: cs) = name := by rw [← hname, String.ofList_toList]
    rw [List.cons_append, readName, if_neg hc, htake, hdrop, hword]
    exact if_pos h

theorem readName_quoted (cs : List Char) :
    readName mark (mark :: cs) = (readQuoted mark cs).map fun (s, rest) =>
      (String.ofList s, rest) :=
  if_pos rfl

/-- `readName` reads `objectKey` back, as a word or between double quotes. -/
theorem readName_objectKey (key : String) {rest : List Char} (hrest : EndsWord rest) :
    readName '"' ((objectKey key).toList ++ rest) = some (key, rest) := by
  unfold objectKey
  split
  case isTrue h => exact readName_word rfl h hrest
  case isFalse =>
    rw [quote_toList, List.cons_append, List.append_assoc, readName_quoted]
    simp [readQuoted_quote]

/-! ## Names of tables and columns -/

theorem ident_of_not_plain {name : String} (h : isPlain name = false) :
    (ident name).toList = '\x60' :: (name.toList.flatMap escapeTicked ++ ['\x60']) := by
  simp [ident, h]

theorem readName_ticked {name : String} (h : isPlain name = false) (rest : List Char) :
    readName '\x60' ((ident name).toList ++ rest) =
      (readQuoted '\x60' (name.toList.flatMap escapeTicked ++ '\x60' :: rest)).map
        fun (s, rest) => (String.ofList s, rest) := by
  rw [ident_of_not_plain h, List.cons_append, readName_quoted, List.append_assoc]
  rfl

theorem length_flatMap_escapeTicked (s : List Char) :
    (s.flatMap escapeTicked).length = s.length + s.countP (· = '\x60') := by
  induction s with
  | nil => rfl
  | cons c s ih =>
    rw [List.flatMap_cons, List.length_append, ih, List.countP_cons]
    by_cases hc : c = '\x60'
    · simp [escapeTicked, hc]
      omega
    · simp [escapeTicked, hc]
      omega

theorem countP_mark_or_backslash (s : List Char) :
    s.countP (fun c => c = '\x60' ∨ c = '\\') = s.countP (· = '\x60') + s.count '\\' := by
  induction s with
  | nil => rfl
  | cons c s ih =>
    rw [List.countP_cons, List.countP_cons, List.count_cons, ih]
    by_cases hc : c = '\x60'
    · simp [hc]
      omega
    · by_cases hback : c = '\\'
      · simp [hback]
        omega
      · simp [hc, hback]

/-- Text after `escapeTicked`, which escapes no backslashes, is read back only if it has none. -/
theorem no_backslash_of_readQuoted {s rest : List Char}
    (h : readQuoted '\x60' (s.flatMap escapeTicked ++ '\x60' :: rest) = some (s, rest)) :
    '\\' ∉ s := by
  have hlength := length_of_readQuoted h
  rw [List.length_append, length_flatMap_escapeTicked, List.length_cons,
    countP_mark_or_backslash] at hlength
  rw [← List.count_eq_zero]
  omega

theorem readName_ticked_iff {name : String} (h : isPlain name = false) (rest : List Char) :
    readName '\x60' ((ident name).toList ++ rest) = some (name, rest) ↔ '\\' ∉ name.toList := by
  rw [readName_ticked h]
  constructor
  · intro hread
    obtain ⟨⟨s, r⟩, hs, heq⟩ := Option.map_eq_some_iff.mp hread
    cases heq
    rw [String.toList_ofList] at hs ⊢
    exact no_backslash_of_readQuoted hs
  · intro hname
    have hspecial : ∀ c ∈ name.toList, c = '\x60' ∨ c = '\\' → (c == '\x60') = true := by
      intro c hc hmark
      rcases hmark with rfl | rfl
      · rfl
      · exact absurd hc hname
    have hread := readQuoted_flatMap (by decide) (· == '\x60') name.toList rest hspecial
    rw [show name.toList.flatMap escapeTicked =
      name.toList.flatMap fun c => if c == '\x60' then ['\\', c] else [c] from rfl, hread]
    simp

/-- A name that `isPlain` stands as it is and is read up to its end. Any other begins and ends with
a back-tick, and whatever follows, reading ends at that last back-tick with the name exactly if the
name has no backslash. -/
theorem ident_one_token (name : String) :
    (isPlain name = true → ident name = name ∧
      ∀ rest, EndsWord rest → readName '\x60' ((ident name).toList ++ rest) = some (name, rest)) ∧
    (isPlain name = false → ∃ body, (ident name).toList = '\x60' :: (body ++ ['\x60']) ∧
      ∀ rest, readName '\x60' ((ident name).toList ++ rest) = some (name, rest) ↔
        '\\' ∉ name.toList) := by
  constructor
  · intro h
    have hident : ident name = name := if_pos h
    refine ⟨hident, fun rest hrest => ?_⟩
    rw [hident]
    exact readName_word rfl h hrest
  · intro h
    exact ⟨_, ident_of_not_plain h, readName_ticked_iff h⟩

/-- A backslash at the end of a name leaves the token open, and one before a back-tick closes it
early. -/
theorem ident_backslash_misread :
    readName '\x60' (ident "a\\").toList = none ∧
      readName '\x60' (ident "\\\x60 WHERE x").toList = some ("\\", " WHERE x\x60".toList) := by
  constructor
  · simp [readName, ident, isPlain, Text.isWordChar, escapeTicked, readQuoted]
  · simp [readName, ident, isPlain, Text.isWordChar, escapeTicked, readQuoted]

end QueryTree.Surql.Token

namespace QueryTree.Text

/-! ## Words -/

/-- Whether `s` is a word, which may begin with a digit. -/
def isWord (s : String) : Bool :=
  !s.toList.isEmpty && s.toList.all isWordChar

theorem isWord_iff {s : String} :
    isWord s = true ↔ s.toList ≠ [] ∧ ∀ c ∈ s.toList, isWordChar c = true := by
  simp [isWord]

/-! ## Lists -/

theorem strip?_append (start cs : List Char) : strip? start (start ++ cs) = some cs := by
  induction start with
  | nil => rfl
  | cons c start ih => simp [strip?, ih]

theorem strip?_eq_some_iff {start cs rest : List Char} :
    strip? start cs = some rest ↔ cs = start ++ rest := by
  constructor
  · intro h
    fun_induction strip? start cs with
    | case1 => exact Option.some.inj h
    | case2 => cases h
    | case3 s start c cs hsame ih => rw [ih h, eq_of_beq hsame, List.cons_append]
    | case4 => cases h
  · rintro rfl
    exact strip?_append start rest

theorem strip?_ne {s c : Char} (h : s ≠ c) (start cs : List Char) :
    strip? (s :: start) (c :: cs) = none := by
  simp [strip?, h]

variable {α : Type}

/-- Reads one item or more with commas between them, up to `close`. -/
def readItems (item : List Char → Option (α × List Char)) (close : List Char) :
    (most : Nat) → List Char → Option (List α × List Char)
  | 0, _ => none
  | most + 1, cs => do
    let (a, cs) ← item cs
    match strip? [',', ' '] cs with
    | some cs => do
      let (as, cs) ← readItems item close most cs
      return (a :: as, cs)
    | none => do
      let cs ← strip? close cs
      return ([a], cs)

/-- Whether `rest` begins with what may follow an item: a comma, or `close`. -/
def FollowsItem (close rest : List Char) : Prop :=
  ∃ cs, rest = ',' :: ' ' :: cs ∨ rest = close ++ cs

/-- If each `item` is read back whatever may follow it, `readItems` reads the list. -/
theorem readItems_joinWith {item : List Char → Option (α × List Char)} {mark : Char}
    {close : List Char} (hmark : mark ≠ ',') {texts : List String} {as : List α}
    (h : List.Forall₂ (fun text a => ∀ rest, FollowsItem (mark :: close) rest →
      item (text.toList ++ rest) = some (a, rest)) texts as) (hne : texts ≠ []) (rest : List Char)
    {most : Nat} (hmost : texts.length ≤ most) :
    readItems item (mark :: close) most ((joinWith ", " texts).toList ++ (mark :: close ++ rest)) =
      some (as, rest) := by
  induction h generalizing most with
  | nil => exact absurd rfl hne
  -- Only the last item is followed by what closes the list, so the list is split once more.
  | @cons text a texts as hfirst hothers ih =>
    obtain ⟨most, rfl⟩ : ∃ n, most = n + 1 := ⟨most - 1, by simp at hmost; omega⟩
    cases hothers with
    | nil =>
      have hitem := hfirst (mark :: close ++ rest) ⟨rest, .inr rfl⟩
      have hcomma : strip? [',', ' '] (mark :: close ++ rest) = none := strip?_ne hmark.symm _ _
      rw [joinWith, readItems, hitem]
      simp only [Option.bind_eq_bind, Option.bind_some, hcomma, strip?_append]
      rfl
    | @cons next _ texts _ hnext hothers =>
      have hjoin : (joinWith ", " (text :: next :: texts)).toList =
          text.toList ++ ',' :: ' ' :: (joinWith ", " (next :: texts)).toList := by
        simp [joinWith]
      have hitem := hfirst
        (',' :: ' ' :: ((joinWith ", " (next :: texts)).toList ++ (mark :: close ++ rest)))
        ⟨_, .inl rfl⟩
      have hlist : readItems item (mark :: close) most
          ((joinWith ", " (next :: texts)).toList ++ (mark :: close ++ rest)) = _ :=
        ih (by simp) (by simpa using hmost)
      rw [hjoin, List.append_assoc, readItems]
      simp only [List.cons_append] at hitem hlist ⊢
      rw [hitem]
      simp [strip?, hlist]

theorem length_joinWith (texts : List String) :
    texts.length ≤ (joinWith ", " texts).toList.length + 1 := by
  induction texts with
  | nil => simp
  | cons text texts ih =>
    cases texts with
    | nil => simp
    | cons next texts =>
      simp [joinWith] at ih ⊢
      omega

theorem length_le_joinWith {text : String} {texts : List String} (h : text ∈ texts) :
    text.toList.length ≤ (joinWith ", " texts).toList.length := by
  induction texts with
  | nil => cases h
  | cons first texts ih =>
    cases texts with
    | nil =>
      rw [List.mem_singleton.mp h]
      exact Nat.le_refl _
    | cons next texts =>
      simp only [joinWith, String.toList_append, List.length_append]
      rcases List.mem_cons.mp h with rfl | h
      · omega
      · exact Nat.le_trans (ih h) (by omega)

/-- Reads items with commas between them, or none, up to `close`. -/
def readList (item : List Char → Option (α × List Char)) (close cs : List Char) :
    Option (List α × List Char) :=
  (readItems item close cs.length cs).or ((strip? close cs).map fun cs => ([], cs))

theorem readList_joinWith {item : List Char → Option (α × List Char)} {mark : Char}
    {close : List Char} (hmark : mark ≠ ',') (hitem : ∀ rest, item (mark :: close ++ rest) = none)
    {texts : List String} {as : List α}
    (h : List.Forall₂ (fun text a => ∀ rest, FollowsItem (mark :: close) rest →
      item (text.toList ++ rest) = some (a, rest)) texts as) (rest : List Char) :
    readList item (mark :: close) ((joinWith ", " texts).toList ++ (mark :: close ++ rest)) =
      some (as, rest) := by
  unfold readList
  cases h with
  | nil =>
    have hnone : readItems item (mark :: close) (close.length + rest.length + 1)
        (mark :: close ++ rest) = none := by
      rw [readItems, hitem]
      rfl
    simp only [joinWith, String.toList_empty, List.nil_append, List.length_cons, List.length_append,
      List.cons_append] at hnone ⊢
    rw [hnone, ← List.cons_append, strip?_append]
    rfl
  | cons hfirst hothers =>
    rw [readItems_joinWith hmark (.cons hfirst hothers) (by simp) rest]
    · rfl
    · refine Nat.le_trans (length_joinWith _) ?_
      simp

end QueryTree.Text
