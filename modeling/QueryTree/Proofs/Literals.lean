import QueryTree.Lowering.Literal
import QueryTree.Proofs.Digits
import QueryTree.Proofs.Tokens
import QueryTree.Surql.Text

/-!
# Reading literals back

The reader here knows the literals of the query language and nothing of values: numbers, quoted
text, four words, arrays and objects. It stops where the literal ends. `Value.literal?` says what it
gives back of a value: all but what the text does not show, such as whether a text is a character.
-/

namespace QueryTree

/-- What a literal says. -/
inductive Literal where
  | null
  | absent
  | bool (b : Bool)
  | int (n : Int)
  | string (s : String)
  | array (items : List Literal)
  | object (members : List (String × Literal))

namespace Value

mutual

/-- The literal of a plain value: whole numbers of both types alike, and all kinds of text. -/
def literal? : Value → Option Literal
  | .null => some .null
  | .absent => some .absent
  | .bool b => some (.bool b)
  | .int n => some (.int n.toInt)
  | .uint n => some (.int n.toNat)
  | .string s | .enum s => some (.string s)
  | .char c => some (.string (String.singleton c))
  | .array items => (literals? items).map .array
  | .object members => (memberLiterals? members).map .object
  | _ => none
termination_by structural v => v

def literals? : List Value → Option (List Literal)
  | [] => some []
  | v :: vs => do return (← v.literal?) :: (← literals? vs)
termination_by structural vs => vs

def memberLiterals? : List (String × Value) → Option (List (String × Literal))
  | [] => some []
  | (key, v) :: vs => do return (key, ← v.literal?) :: (← memberLiterals? vs)
termination_by structural vs => vs

end

end Value

namespace Literal

open Text Surql.Token

/-! ## The reader -/

/-- Reads a whole number with an optional minus sign. -/
def readNumber : List Char → Option (Literal × List Char)
  | '-' :: cs =>
    do return (.int (-(← natural? (cs.takeWhile Char.isDigit) : Nat)), cs.dropWhile Char.isDigit)
  | cs => do return (.int (← natural? (cs.takeWhile Char.isDigit) : Nat), cs.dropWhile Char.isDigit)

/-- The literals that are words. -/
def words : List (String × Literal) :=
  [("null", .null), ("NONE", .absent), ("true", .bool true), ("false", .bool false)]

/-- Reads one of the words. -/
def readWord (cs : List Char) : Option (Literal × List Char) :=
  words.findSome? fun (word, l) => (strip? word.toList cs).map fun rest => (l, rest)

/-- Reads a key and, by `value`, a value. -/
def readMember (value : List Char → Option (Literal × List Char)) (cs : List Char) :
    Option ((String × Literal) × List Char) := do
  let (key, cs) ← readName '"' cs
  let (l, cs) ← value (← strip? [':', ' '] cs)
  return ((key, l), cs)

/-- Reads a literal in which arrays and objects are nested at most `depth` deep. -/
def readWithin : (depth : Nat) → List Char → Option (Literal × List Char)
  | 0, _ => none
  | _ + 1, [] => none
  | depth + 1, c :: cs =>
    if c.isDigit || c == '-' then readNumber (c :: cs)
    else if c == '"' || c == '\'' then
      (readQuoted c cs).map fun (s, rest) => (.string (String.ofList s), rest)
    else if c == '[' then (readList (readWithin depth) [']'] cs).map fun (items, rest) =>
      (.array items, rest)
    else if c == '\x7b' then
      match strip? ['\x7d'] cs with
      | some rest => some (.object [], rest)
      | none => do
        let cs ← strip? [' '] cs
        let (members, rest) ← readItems (readMember (readWithin depth)) [' ', '\x7d'] cs.length cs
        return (.object members, rest)
    else readWord (c :: cs)

/-- Reads a literal at the beginning of `cs`: what it says, and what follows it. -/
def read? (cs : List Char) : Option (Literal × List Char) :=
  readWithin cs.length cs

/-- Whether a text can follow a literal: it is empty, or begins with a comma or with what closes an
array, an object or a list of arguments. -/
def canFollow : List Char → Bool
  | [] | ',' :: _ | ']' :: _ | ')' :: _ | ' ' :: '\x7d' :: _ => true
  | _ => false

/-! ## What may follow -/

variable {rest : List Char}

theorem endsDigits_of_canFollow (h : canFollow rest = true) : EndsDigits rest := by
  unfold canFollow at h
  split at h
  · simp [EndsDigits]
  all_goals simp_all [EndsDigits]

theorem canFollow_of_followsItem_array (h : FollowsItem [']'] rest) : canFollow rest = true := by
  obtain ⟨cs, rfl | rfl⟩ := h <;> rfl

theorem canFollow_of_followsItem_object (h : FollowsItem [' ', '\x7d'] rest) :
    canFollow rest = true := by
  obtain ⟨cs, rfl | rfl⟩ := h <;> rfl

/-! ## Numbers and words -/

theorem readNumber_toDigits (n : Nat) (h : EndsDigits rest) :
    readNumber (Nat.toDigits 10 n ++ rest) = some (.int n, rest) := by
  have hdigits := fun c => isDigit_of_mem_toDigits (n := n) (c := c)
  unfold readNumber
  split
  · rename_i cs heq
    -- a digit is not a minus sign
    cases htext : Nat.toDigits 10 n with
    | nil => exact absurd htext Nat.toDigits_ne_nil
    | cons c cs' =>
      rw [htext] at heq hdigits
      cases heq
      exact absurd (hdigits _ List.mem_cons_self) (by decide)
  · rw [takeWhile_digits hdigits h, dropWhile_digits hdigits h, natural?_toDigits]
    rfl

theorem readNumber_minus (n : Nat) (h : EndsDigits rest) :
    readNumber ('-' :: (Nat.toDigits 10 n ++ rest)) = some (.int (-n), rest) := by
  have hdigits := fun c => isDigit_of_mem_toDigits (n := n) (c := c)
  rw [readNumber, takeWhile_digits hdigits h, dropWhile_digits hdigits h, natural?_toDigits]
  rfl

theorem readNumber_toString (n : Int) (h : EndsDigits rest) :
    readNumber ((toString n).toList ++ rest) = some (.int n, rest) := by
  cases n with
  | ofNat n =>
    rw [toString_ofNat_toList]
    exact readNumber_toDigits n h
  | negSucc n =>
    rw [toString_negSucc_toList]
    exact readNumber_minus (n + 1) h

/-! ## Terms -/

end Literal

namespace Surql.Term

open Literal Text Token

/-- Whether the text of `t` is read as `l`, whatever can follow it. -/
def ReadsAs (t : Term) (l : Literal) : Prop :=
  ∀ depth rest, t.text.toList.length ≤ depth → canFollow rest = true →
    readWithin depth (t.text.toList ++ rest) = some (l, rest)

theorem exists_succ_of_length {c : Char} {cs : List Char} {depth : Nat}
    (h : (c :: cs).length ≤ depth) : ∃ d, depth = d + 1 ∧ cs.length ≤ d :=
  ⟨depth - 1, by simp at h; omega, by simp at h; omega⟩

theorem readsAs_string (s : String) : (Term.string s).ReadsAs (.string s) := by
  intro depth rest hdepth _
  rw [Term.text, quote_toList] at *
  obtain ⟨d, rfl, -⟩ := exists_succ_of_length hdepth
  simp [readWithin, readQuoted_quote]

theorem readsAs_char (c : Char) : (Term.char c).ReadsAs (.string (String.singleton c)) := by
  by_cases hc : c = '"'
  · intro depth rest hdepth _
    have htext : (Term.char c).text.toList = ['\'', '"', '\''] := by
      simp [Term.text, Token.char, hc]
    rw [htext] at hdepth ⊢
    obtain ⟨d, rfl, -⟩ := exists_succ_of_length hdepth
    simp [readWithin, readQuoted, readQuoted_mark, hc]
  · have htext : (Term.char c).text = (Term.string (String.singleton c)).text := by
      simp [Term.text, Token.char, hc]
    have hstring := readsAs_string (String.singleton c)
    unfold ReadsAs at hstring ⊢
    rwa [htext]

/-- The first character of a whole number. -/
theorem readsAs_number {m : Numeral} {n : Int} (h : m.text = toString n) :
    (Term.number m).ReadsAs (.int n) := by
  intro depth rest hdepth hrest
  rw [Term.text, h] at *
  obtain ⟨c, cs, htext, hc⟩ := head_toString n
  have hread := readNumber_toString n (endsDigits_of_canFollow hrest)
  rw [htext] at hdepth hread ⊢
  obtain ⟨d, rfl, -⟩ := exists_succ_of_length hdepth
  rw [List.cons_append] at hread ⊢
  rw [readWithin, if_pos hc]
  exact hread

theorem readsAs_word {t : Term} {l : Literal} (h : (t.text, l) ∈ words) : t.ReadsAs l := by
  intro depth rest hdepth _
  simp only [words, List.mem_cons, Prod.mk.injEq, List.not_mem_nil, or_false] at h
  rcases h with ⟨htext, rfl⟩ | ⟨htext, rfl⟩ | ⟨htext, rfl⟩ | ⟨htext, rfl⟩
  all_goals
    rw [htext] at hdepth ⊢
    obtain ⟨d, rfl, -⟩ := exists_succ_of_length hdepth
    simp [readWithin, readWord, words, strip?]

/-! ## Arrays and objects -/

theorem readWithin_closed (depth : Nat) (rest : List Char) :
    readWithin depth (']' :: rest) = none := by
  cases depth with
  | zero => rfl
  | succ depth => simp [readWithin, readWord, words, strip?]

theorem toList_array (ts : List Term) :
    (Term.array ts).text.toList = '[' :: ((joinWith ", " (Term.texts ts)).toList ++ [']']) := by
  simp [Term.text, commas]

theorem forall₂_texts {ts : List Term} {ls : List Literal} (h : List.Forall₂ ReadsAs ts ls)
    {depth : Nat} (hdepth : ∀ text ∈ Term.texts ts, text.toList.length ≤ depth) :
    List.Forall₂ (fun text l => ∀ rest, FollowsItem [']'] rest →
      readWithin depth (text.toList ++ rest) = some (l, rest)) (Term.texts ts) ls := by
  induction h with
  | nil => exact .nil
  | cons hfirst _ ih =>
    rw [Term.texts, List.forall_mem_cons] at hdepth
    rw [Term.texts]
    exact .cons (fun rest hrest =>
      hfirst depth rest hdepth.1 (canFollow_of_followsItem_array hrest)) (ih hdepth.2)

theorem readsAs_array {ts : List Term} {ls : List Literal} (h : List.Forall₂ ReadsAs ts ls) :
    (Term.array ts).ReadsAs (.array ls) := by
  intro depth rest hdepth _
  rw [toList_array] at hdepth ⊢
  obtain ⟨d, rfl, hd⟩ := exists_succ_of_length hdepth
  have hlength : ∀ text ∈ Term.texts ts, text.toList.length ≤ d := by
    intro text htext
    have := length_le_joinWith htext
    rw [List.length_append] at hd
    omega
  have hread : readList (readWithin d) [']']
      ((joinWith ", " (Term.texts ts)).toList ++ ']' :: rest) =
        some (ls, rest) :=
    readList_joinWith (by decide) (readWithin_closed d) (forall₂_texts h hlength) rest
  simp [readWithin, hread]

/-! ## Objects -/

theorem toList_object (m : String × Term) (ms : List (String × Term)) :
    (Term.object (m :: ms)).text.toList =
      '\x7b' :: ' ' :: ((joinWith ", " (Term.memberTexts (m :: ms))).toList ++ [' ', '\x7d']) := by
  simp [Term.text, commas]

theorem readMember_text {key : String} {t : Term} {l : Literal} (h : t.ReadsAs l) {depth : Nat}
    {rest : List Char} (hdepth : t.text.toList.length ≤ depth) (hrest : canFollow rest = true) :
    readMember (readWithin depth) ((Token.objectKey key ++ ": " ++ t.text).toList ++ rest) =
      some ((key, l), rest) := by
  have hends : EndsWord (':' :: ' ' :: (t.text.toList ++ rest)) := by
    intro c hc
    cases hc
    rfl
  have hkey := readName_objectKey key hends
  have htext : (Token.objectKey key ++ ": " ++ t.text).toList ++ rest =
      (Token.objectKey key).toList ++ ':' :: ' ' :: (t.text.toList ++ rest) := by
    simp
  rw [htext, readMember, hkey]
  simp [strip?, h depth rest hdepth hrest]

theorem forall₂_memberTexts {ms : List (String × Term)} {ls : List (String × Literal)}
    (h : List.Forall₂ (fun m l => m.1 = l.1 ∧ m.2.ReadsAs l.2) ms ls) {depth : Nat}
    (hdepth : ∀ text ∈ Term.memberTexts ms, text.toList.length ≤ depth) :
    List.Forall₂ (fun text l => ∀ rest, FollowsItem [' ', '\x7d'] rest →
      readMember (readWithin depth) (text.toList ++ rest) =
        some (l, rest)) (Term.memberTexts ms) ls := by
  induction h with
  | nil => exact .nil
  | @cons m l ms ls hfirst _ ih =>
    obtain ⟨key, t⟩ := m
    obtain ⟨key', l⟩ := l
    obtain ⟨rfl, hfirst⟩ := hfirst
    rw [Term.memberTexts, List.forall_mem_cons] at hdepth
    rw [Term.memberTexts]
    refine .cons (fun rest hrest =>
      readMember_text hfirst ?_ (canFollow_of_followsItem_object hrest)) (ih hdepth.2)
    have hlength := hdepth.1
    simp only [String.toList_append, List.length_append] at hlength
    exact Nat.le_trans (Nat.le_add_left _ _) hlength

theorem readsAs_object {ms : List (String × Term)} {ls : List (String × Literal)}
    (h : List.Forall₂ (fun m l => m.1 = l.1 ∧ m.2.ReadsAs l.2) ms ls) :
    (Term.object ms).ReadsAs (.object ls) := by
  intro depth rest hdepth _
  cases h with
  | nil =>
    rw [show (Term.object []).text.toList = ['\x7b', '\x7d'] from rfl] at hdepth ⊢
    obtain ⟨d, rfl, -⟩ := exists_succ_of_length hdepth
    simp [readWithin, strip?]
  | @cons m l ms ls hfirst hothers =>
    rw [toList_object] at hdepth ⊢
    obtain ⟨d, rfl, hd⟩ := exists_succ_of_length hdepth
    have hlength : ∀ text ∈ Term.memberTexts (m :: ms), text.toList.length ≤ d := by
      intro text htext
      have := length_le_joinWith htext
      rw [List.length_cons, List.length_append] at hd
      omega
    have hitems := forall₂_memberTexts (.cons hfirst hothers) hlength
    -- The reader takes as many members as there are characters, which are more than enough.
    have hmost : (Term.memberTexts (m :: ms)).length ≤
        ((joinWith ", " (Term.memberTexts (m :: ms))).toList ++ ' ' :: '\x7d' :: rest).length := by
      have := length_joinWith (Term.memberTexts (m :: ms))
      rw [List.length_append, List.length_cons]
      omega
    have hread := readItems_joinWith (by decide) hitems (by simp [Term.memberTexts]) rest hmost
    simp only [List.cons_append, List.nil_append, List.append_assoc] at hread ⊢
    simp [readWithin, strip?, hread, -List.length_append]

end Surql.Term

/-! ## Values -/

namespace Value

open Surql (Term)

mutual

theorem exists_readsAs : ∀ (v : Value) {l : Literal}, v.literal? = some l →
    ∃ t, v.lower = pure t ∧ t.ReadsAs l
  | .null, l, h => by
    cases h
    exact ⟨.null, rfl, Term.readsAs_word (by simp [Term.text, Literal.words])⟩
  | .absent, l, h => by
    cases h
    exact ⟨.absent, rfl, Term.readsAs_word (by simp [Term.text, Literal.words])⟩
  | .bool b, l, h => by
    cases h
    exact ⟨.bool b, rfl, Term.readsAs_word (by cases b <;> simp [Term.text, Literal.words])⟩
  | .int n, l, h => by
    cases h
    exact ⟨.number (.int n), rfl, Term.readsAs_number rfl⟩
  | .uint n, l, h => by
    cases h
    exact ⟨.number (.uint n), rfl, Term.readsAs_number rfl⟩
  | .string s, l, h => by
    cases h
    exact ⟨.string s, rfl, Term.readsAs_string s⟩
  | .enum s, l, h => by
    cases h
    exact ⟨.string s, rfl, Term.readsAs_string s⟩
  | .char c, l, h => by
    cases h
    exact ⟨.char c, rfl, Term.readsAs_char c⟩
  | .array items, l, h => by
    rw [literal?] at h
    obtain ⟨ls, hls, rfl⟩ := Option.map_eq_some_iff.mp h
    obtain ⟨ts, hts, hread⟩ := exists_readsAs_items items hls
    exact ⟨.array ts, by rw [lower, hts]; rfl, Term.readsAs_array hread⟩
  | .object members, l, h => by
    rw [literal?] at h
    obtain ⟨ls, hls, rfl⟩ := Option.map_eq_some_iff.mp h
    obtain ⟨ts, hts, hread⟩ := exists_readsAs_members members hls
    exact ⟨.object ts, by rw [lower, hts]; rfl, Term.readsAs_object hread⟩
  | .dateTime _, _, h => by cases h

theorem exists_readsAs_items : ∀ (vs : List Value) {ls : List Literal}, literals? vs = some ls →
    ∃ ts, lowerItems vs = pure ts ∧ List.Forall₂ Term.ReadsAs ts ls
  | [], ls, h => by
    cases h
    exact ⟨[], rfl, .nil⟩
  | v :: vs, ls, h => by
    simp only [literals?, Option.bind_eq_bind, Option.bind_eq_some_iff, Option.pure_def,
      Option.some.injEq] at h
    obtain ⟨l, hl, ls, hls, rfl⟩ := h
    obtain ⟨t, ht, hread⟩ := exists_readsAs v hl
    obtain ⟨ts, hts, hreads⟩ := exists_readsAs_items vs hls
    exact ⟨t :: ts, by rw [lowerItems, ht, hts]; rfl, .cons hread hreads⟩

theorem exists_readsAs_members : ∀ (vs : List (String × Value)) {ls : List (String × Literal)},
    memberLiterals? vs = some ls →
    ∃ ts, lowerMembers vs = pure ts ∧ List.Forall₂ (fun m l => m.1 = l.1 ∧ m.2.ReadsAs l.2) ts ls
  | [], ls, h => by
    cases h
    exact ⟨[], rfl, .nil⟩
  | (key, v) :: vs, ls, h => by
    simp only [memberLiterals?, Option.bind_eq_bind, Option.bind_eq_some_iff, Option.pure_def,
      Option.some.injEq] at h
    obtain ⟨l, hl, ls, hls, rfl⟩ := h
    obtain ⟨t, ht, hread⟩ := exists_readsAs v hl
    obtain ⟨ts, hts, hreads⟩ := exists_readsAs_members vs hls
    exact ⟨(key, t) :: ts, by rw [lowerMembers, ht, hts]; rfl, .cons ⟨rfl, hread⟩ hreads⟩

end

/-- The text of a plain value is read as its `literal?`, whatever can follow it, and nothing of what
follows is taken. -/
theorem literal_reads_back (v : Value) (l : Literal) (h : v.literal? = some l) :
    ∃ t, v.lower = pure t ∧ ∀ rest, Literal.canFollow rest = true →
      Literal.read? (t.text.toList ++ rest) = some (l, rest) := by
  obtain ⟨t, ht, hread⟩ := v.exists_readsAs h
  refine ⟨t, ht, fun rest hrest => hread _ rest ?_ hrest⟩
  rw [List.length_append]
  omega

/-- A value in which quotes, backslashes and brackets stand inside text, keys and characters. -/
def bracketed : Value :=
  .object [("a, \x7d", .array [.char '"', .string "\\\"]", .int (-5)]), ("b", .enum "' \x7d"),
    ("", .object [])]

theorem literal_reads_back_bracketed :
    bracketed.literal? = some
      (.object [("a, \x7d", .array [.string "\"", .string "\\\"]", .int (-5)]),
      ("b", .string "' \x7d"), ("", .object [])]) ∧
    ∃ t, bracketed.lower = pure t ∧ ∀ rest, Literal.canFollow rest = true →
      Literal.read? (t.text.toList ++ rest) =
        some (.object [("a, \x7d", .array [.string "\"", .string "\\\"]", .int (-5)]),
          ("b", .string "' \x7d"), ("", .object [])], rest) :=
  ⟨rfl, literal_reads_back _ _ rfl⟩

end Value

end QueryTree
