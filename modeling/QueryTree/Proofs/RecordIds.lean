import Mathlib.Data.List.Chain
import Mathlib.Data.List.TakeWhile
import QueryTree.Proofs.Literals
import QueryTree.Value.Json

/-!
# Reading record ids back

A record id is its table and its key with a colon between them. Whole numbers and words stand bare,
any other key between angle brackets. The reader cuts at the first colon and takes a bracketed key
up to the first closing bracket that is not escaped. Nothing is escaped when a key is written, so
the keys that are read back are the ones that are `RecordKey.Readable`.
-/

namespace QueryTree

namespace RecordKey

/-! ## Between angle brackets -/

/-- Reads up to the first closing bracket that is not escaped: the text that is meant, and what
follows the bracket. A backslash escapes the characters in `escapes`; before all others it is a
character like them. -/
def readBracketed (escapes : Char → Bool) : List Char → Option (List Char × List Char)
  | [] => none
  | c :: cs =>
    if c = '⟩' then some ([], cs)
    else if c = '\\' then
      match cs with
      | [] => none
      | e :: cs =>
        if escapes e then (readBracketed escapes cs).map fun (s, rest) => (e :: s, rest)
        else (readBracketed escapes (e :: cs)).map fun (s, rest) => ('\\' :: s, rest)
    else (readBracketed escapes cs).map fun (s, rest) => (c :: s, rest)

/-- `s` has no closing bracket, and no backslash that escapes the next character, which at the end
is the bracket that closes the text. -/
structure Closed (escapes : Char → Bool) (s : List Char) : Prop where
  bracket : '⟩' ∉ s
  backslash : (s ++ ['⟩']).IsChain fun c e => c = '\\' → escapes e = false

variable {escapes : Char → Bool}

theorem readBracketed_close (rest : List Char) :
    readBracketed escapes ('⟩' :: rest) = some ([], rest) := by
  rw [readBracketed.eq_def]
  exact if_pos rfl

theorem readBracketed_plain {c : Char} (hc : c ≠ '⟩') {cs : List Char} (hne : cs ≠ [])
    (hnext : ∀ e ∈ cs.head?, c = '\\' → escapes e = false) :
    readBracketed escapes (c :: cs) = (readBracketed escapes cs).map fun (s, rest) =>
      (c :: s, rest) := by
  rw [readBracketed.eq_def]
  by_cases hback : c = '\\'
  · cases cs with
    | nil => exact absurd rfl hne
    | cons e cs => simp [hback, hnext e rfl hback]
  · simp [hc, hback]

/-- The character after a part of the text is the same whatever follows the bracket. -/
theorem head?_bracketed (s rest : List Char) : (s ++ '⟩' :: rest).head? = (s ++ ['⟩']).head? := by
  cases s with
  | nil => rfl
  | cons c s => rfl

theorem Closed.nil : Closed escapes [] where
  bracket := List.not_mem_nil
  backslash := .singleton '⟩'

theorem closed_cons_iff {c : Char} {s : List Char} : Closed escapes (c :: s) ↔
    c ≠ '⟩' ∧ (∀ e ∈ (s ++ ['⟩']).head?, c = '\\' → escapes e = false) ∧ Closed escapes s := by
  constructor
  · rintro ⟨hbracket, hbackslash⟩
    rw [List.mem_cons, not_or] at hbracket
    rw [List.cons_append, List.isChain_cons] at hbackslash
    exact ⟨Ne.symm hbracket.1, hbackslash.1, hbracket.2, hbackslash.2⟩
  · rintro ⟨hc, hnext, hbracket, hbackslash⟩
    constructor
    · rw [List.mem_cons, not_or]
      exact ⟨hc.symm, hbracket⟩
    · rw [List.cons_append, List.isChain_cons]
      exact ⟨hnext, hbackslash⟩

theorem readBracketed_of_closed {s : List Char} (h : Closed escapes s) (rest : List Char) :
    readBracketed escapes (s ++ '⟩' :: rest) = some (s, rest) := by
  induction s with
  | nil => exact readBracketed_close rest
  | cons c s ih =>
    obtain ⟨hc, hnext, hs⟩ := closed_cons_iff.mp h
    rw [← head?_bracketed s rest] at hnext
    rw [List.cons_append, readBracketed_plain hc (by simp) hnext, ih hs]
    rfl

/-- `readBracketed` reads what stands there, up to a bracket that closes it, or an escape has made
it shorter. -/
theorem closed_or_shorter {cs s rest : List Char} (h : readBracketed escapes cs = some (s, rest)) :
    cs = s ++ '⟩' :: rest ∧ Closed escapes s ∨ s.length + 1 + rest.length < cs.length := by
  fun_induction readBracketed escapes cs generalizing s with
  | case1 => cases h
  | case2 cs =>
    cases h
    exact .inl ⟨rfl, .nil⟩
  | case3 => cases h
  | case4 e cs _ _ ih =>
    obtain ⟨⟨t, r⟩, ht, heq⟩ := Option.map_eq_some_iff.mp h
    cases heq
    -- two characters have been read for one
    right
    rcases ih ht with ⟨rfl, -⟩ | hshort
    · simp
      omega
    · simp only [List.length_cons]
      omega
  | case5 e cs he _ ih =>
    obtain ⟨⟨t, r⟩, ht, heq⟩ := Option.map_eq_some_iff.mp h
    cases heq
    rcases ih ht with ⟨hcs, hclosed⟩ | hshort
    · -- the character that is not escaped is the next one of the text, or the bracket
      refine .inl
        ⟨by rw [hcs, List.cons_append], closed_cons_iff.mpr ⟨by decide, fun d hd _ => ?_, hclosed⟩⟩
      rw [← head?_bracketed t rest, ← hcs] at hd
      cases hd
      exact Bool.eq_false_iff.mpr he
    · right
      simp only [List.length_cons] at hshort ⊢
      omega
  | case6 c cs hc hback ih =>
    obtain ⟨⟨t, r⟩, ht, heq⟩ := Option.map_eq_some_iff.mp h
    cases heq
    rcases ih ht with ⟨rfl, hclosed⟩ | hshort
    · exact .inl ⟨rfl, closed_cons_iff.mpr ⟨hc, fun _ _ heq => absurd heq hback, hclosed⟩⟩
    · right
      simp only [List.length_cons]
      omega

theorem readBracketed_iff {s : List Char} :
    readBracketed escapes (s ++ ['⟩']) = some (s, []) ↔ Closed escapes s := by
  refine ⟨fun h => ?_, fun h => readBracketed_of_closed h []⟩
  rcases closed_or_shorter h with ⟨-, hclosed⟩ | hshort
  · exact hclosed
  · simp at hshort

/-! ## Keys -/

/-- Reads a key without brackets: a number if it looks like one, else a word. -/
def readBare (cs : List Char) : Option RecordKey :=
  match Literal.readNumber cs with
  | some (.int n, []) => if (Int64.ofInt n).toInt = n then some (.number (Int64.ofInt n)) else none
  | _ => if Text.isWord (String.ofList cs) then some (.text (String.ofList cs)) else none

/-- Reads a key up to the end of the text. -/
def read? (escapes : Char → Bool) : List Char → Option RecordKey
  | [] => none
  | c :: cs =>
    if c = '⟨' then
      match readBracketed escapes cs with
      | some (s, []) => some (.text (String.ofList s))
      | _ => none
    else readBare (c :: cs)

/-- The characters of a key. -/
def chars : RecordKey → List Char
  | .number n => (toString n.toInt).toList
  | .text s => if isBare s then s.toList else '⟨' :: (s.toList ++ ['⟩'])

/-- Whether a key can be read back. -/
def Readable (escapes : Char → Bool) : RecordKey → Prop
  | .number _ => True
  | .text s => Closed escapes s.toList

theorem readBare_number (n : Int64) : readBare (toString n.toInt).toList = some (.number n) := by
  have hread : Literal.readNumber ((toString n.toInt).toList ++ []) = some (.int n.toInt, []) :=
    Literal.readNumber_toString n.toInt (by simp [Text.EndsDigits])
  rw [List.append_nil] at hread
  rw [readBare, hread]
  dsimp only
  rw [Int64.ofInt_toInt, if_pos rfl]

theorem isBare_iff {s : String} :
    isBare s = true ↔ Text.isWord s = true ∧ ∃ c ∈ s.toList, c.isDigit = false := by
  simp [isBare, Text.isWord]

/-- `readNumber` reads only digits after a sign. -/
theorem isDigit_of_readNumber {cs : List Char} {l : Literal}
    (h : Literal.readNumber cs = some (l, [])) : '-' ∈ cs ∨ ∀ c ∈ cs, c.isDigit = true := by
  unfold Literal.readNumber at h
  split at h
  case h_1 => exact .inl List.mem_cons_self
  case h_2 =>
    obtain ⟨n, -, heq⟩ := Option.bind_eq_some_iff.mp h
    simp only [Option.pure_def, Option.some.injEq, Prod.mk.injEq] at heq
    exact .inr (List.dropWhile_eq_nil_iff.mp heq.2)

/-- A word that `isBare` is not read as a number. -/
theorem readBare_word {s : String} (h : isBare s = true) : readBare s.toList = some (.text s) := by
  obtain ⟨hword, c, hc, hdigit⟩ := isBare_iff.mp h
  unfold readBare
  split
  case h_1 n hread =>
    rcases isDigit_of_readNumber hread with hminus | hdigits
    · exact absurd ((Text.isWord_iff.mp hword).2 '-' hminus) (by decide)
    · rw [hdigits c hc] at hdigit
      cases hdigit
  case h_2 => rw [String.ofList_toList, if_pos hword]

theorem closed_of_word {s : List Char} (h : ∀ c ∈ s, Text.isWordChar c = true) :
    Closed escapes s := by
  induction s with
  | nil => exact .nil
  | cons c s ih =>
    rw [List.forall_mem_cons] at h
    have hne : ∀ d, Text.isWordChar d = false → c ≠ d := by
      rintro d hd rfl
      rw [h.1] at hd
      cases hd
    exact closed_cons_iff.mpr ⟨hne '⟩' rfl, fun _ _ heq => absurd heq (hne '\\' rfl), ih h.2⟩

theorem read?_of_head_ne {c : Char} (hc : c ≠ '⟨') (cs : List Char) :
    read? escapes (c :: cs) = readBare (c :: cs) :=
  if_neg hc

theorem read?_number (n : Int64) : read? escapes (chars (.number n)) = some (.number n) := by
  have hread := readBare_number n
  obtain ⟨c, cs, htext, hc⟩ := Text.head_toString n.toInt
  rw [htext] at hread
  have hne : c ≠ '⟨' := by
    rintro rfl
    cases hc
  rw [chars, htext, read?_of_head_ne hne, hread]

theorem read?_word {s : String} (h : isBare s = true) :
    read? escapes s.toList = some (.text s) := by
  have hread := readBare_word h
  obtain ⟨hne, hchars⟩ := Text.isWord_iff.mp (isBare_iff.mp h).1
  cases htext : s.toList with
  | nil => exact absurd htext hne
  | cons c cs =>
    rw [htext] at hread hchars
    have hbracket : c ≠ '⟨' := by
      rintro rfl
      exact absurd (hchars '⟨' List.mem_cons_self) (by decide)
    rw [read?_of_head_ne hbracket, hread]

theorem read?_bracketed_iff {s : String} :
    read? escapes ('⟨' :: (s.toList ++ ['⟩'])) = some (.text s) ↔ Closed escapes s.toList := by
  rw [← readBracketed_iff, read?, if_pos rfl]
  split
  case h_1 t hread =>
    rw [hread]
    simp [← String.toList_inj]
  case h_2 hread => exact iff_of_false (by simp) (hread _)

/-- A key is read back from its characters if and only if it is `Readable`. -/
theorem read?_chars_iff (key : RecordKey) :
    read? escapes key.chars = some key ↔ key.Readable escapes := by
  cases key with
  | number n => exact iff_of_true (read?_number n) trivial
  | text s =>
    rw [chars, Readable]
    split
    case isTrue h =>
      exact iff_of_true (read?_word h) (closed_of_word (Text.isWord_iff.mp (isBare_iff.mp h).1).2)
    case isFalse => exact read?_bracketed_iff

end RecordKey

namespace RecordId

/-! ## Record ids -/

/-- Reads a record id, cut at the first colon. -/
def read? (escapes : Char → Bool) (text : String) : Option RecordId :=
  match text.toList.dropWhile (· != ':') with
  | [] => none
  | _ :: cs =>
    (RecordKey.read? escapes cs).map fun key =>
    ⟨String.ofList (text.toList.takeWhile (· != ':')), key⟩

theorem toList_text (r : RecordId) : r.text.toList = r.table.toList ++ ':' :: r.key.chars := by
  obtain ⟨table, key⟩ := r
  cases key with
  | number n => simp [text, RecordKey.chars]
  | text s =>
    by_cases h : RecordKey.isBare s = true
    · simp [text, RecordKey.chars, h]
    · simp [text, RecordKey.chars, h]

theorem read?_text {escapes : Char → Bool} {r : RecordId} (h : ':' ∉ r.table.toList) :
    read? escapes r.text = (RecordKey.read? escapes r.key.chars).map fun key => ⟨r.table, key⟩ := by
  have htable : ∀ c ∈ r.table.toList, (c != ':') = true := by
    intro c hc
    rw [bne_iff_ne]
    rintro rfl
    exact h hc
  rw [read?, r.toList_text, List.takeWhile_append_of_pos htable,
    List.dropWhile_append_of_pos htable]
  simp

/-- The `text` of a record id is what is handed over with a query. If its table is a word, it is
read back if and only if its key is a number or a text without closing brackets and without
backslashes that escape the next character. -/
theorem text_reads_back_iff (escapes : Char → Bool) (r : RecordId)
    (htable : Text.isWord r.table = true) :
    (Value.recordId r).toPlain = .string r.text ∧
      (read? escapes r.text = some r ↔ r.key.Readable escapes) := by
  have hcolon : ':' ∉ r.table.toList := by
    intro hmem
    exact absurd ((Text.isWord_iff.mp htable).2 ':' hmem) (by decide)
  refine ⟨rfl, ?_⟩
  rw [read?_text hcolon, ← RecordKey.read?_chars_iff, Option.map_eq_some_iff]
  constructor
  · rintro ⟨key, hread, hr⟩
    rw [hread, ← hr]
  · intro hread
    exact ⟨r.key, hread, rfl⟩

/-- A key with a colon, an opening bracket and a backslash before a letter. -/
def markedPost : RecordId := ⟨"post", .text "a:⟨b\\c"⟩

theorem text_reads_back_iff_markedPost :
    Text.isWord markedPost.table = true ∧ read? (· == '⟩') markedPost.text = some markedPost :=
  ⟨by decide, (text_reads_back_iff (· == '⟩') markedPost (by decide)).2.mpr ⟨by decide, by decide⟩⟩

/-- A closing bracket in a key ends it too early, and a `\` at its end leaves it open. -/
theorem unescaped_keys_misread :
    (text ⟨"post", .text "a⟩b"⟩ = "post:⟨a⟩b⟩" ∧
        read? (· == '⟩') (text ⟨"post", .text "a⟩b"⟩) = none) ∧
      (text ⟨"post", .text "a\\"⟩ = "post:⟨a\\⟩" ∧
        read? (· == '⟩') (text ⟨"post", .text "a\\"⟩) = none) := by
  decide +kernel

end RecordId

end QueryTree
