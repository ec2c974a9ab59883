import QueryTree.Proofs.Tokens
import QueryTree.Surql.Text

/-!
# Operators read back

Operands stand in parentheses where one of five rules asks for them: between two operands, after a
minus, after another sign or a cast, at the ends of a range and at the start of a path. The reader
here has one function for each level of operands and no such rules. It gives back every term built
from operators over names (`Term.OverNames`).
-/

namespace QueryTree.Surql

open Text

/-! ## Terms over names -/

/-- Whether `name` is that of a function: plain words with double colons between them. -/
def IsFunctionName (name : String) : Prop :=
  ∃ words : List String, words ≠ [] ∧ (∀ word ∈ words, Token.isPlain word = true) ∧
    name = joinWith "::" words

/-- Terms that operators, casts, ranges, arrays and calls make of parameters and columns. -/
inductive Term.OverNames : Term → Prop
  | param {name : String} (h : Token.isPlain name = true) : OverNames (.param name)
  | path {name : String} {names : List String} (h : ∀ n ∈ name :: names, Token.isPlain n = true) :
    OverNames (.path ((name :: names).map .field))
  | call {function : String} {args : List Term} (hf : IsFunctionName function)
    (h : ∀ t ∈ args, OverNames t) : OverNames (.call function args)
  | array {items : List Term} (h : ∀ t ∈ items, OverNames t) : OverNames (.array items)
  | unary {op : UnaryOp} {operand : Term} (h : OverNames operand) : OverNames (.unary op operand)
  | binary {left : Term} {op : BinaryOp} {right : Term} (hl : OverNames left)
    (hr : OverNames right) : OverNames (.binary left op right)
  | cast {kind : CastKind} {operand : Term} (h : OverNames operand) : OverNames (.cast kind operand)
  | range {first last : Term} (hf : OverNames first) (hl : OverNames last) :
    OverNames (.range first last)

/-! ## The reader -/

/-- The characters in the name of a function. -/
def isNameChar (c : Char) : Bool := isWordChar c || c == ':'

/-- Reads at most `most` columns behind the first one of a path. -/
def readFields : (most : Nat) → List Char → List Part × List Char
  | most + 1, '.' :: cs =>
    if (cs.takeWhile isWordChar).isEmpty then ([], '.' :: cs)
    else
      let (fields, rest) := readFields most (cs.dropWhile isWordChar)
      (.field (String.ofList (cs.takeWhile isWordChar)) :: fields, rest)
  | _, cs => ([], cs)

/-- Reads what begins with a name: a call, or a path. -/
def readNamed (term : List Char → Option (Term × List Char)) (cs : List Char) :
    Option (Term × List Char) :=
  let name := cs.takeWhile isNameChar
  let rest := cs.dropWhile isNameChar
  if name.isEmpty then none
  else match rest with
    | '(' :: rest =>
      (readList term [')'] rest).map fun (args, rest) => (.call (String.ofList name) args, rest)
    | rest =>
      let (fields, rest) := readFields rest.length rest
      some (.path (.field (String.ofList name) :: fields), rest)

/-- Reads what can stand at the end of a range. -/
def readAtom (term : List Char → Option (Term × List Char)) : List Char → Option (Term × List Char)
  | [] => none
  | c :: cs =>
    if c == '$' then some (.param (String.ofList (cs.takeWhile isWordChar)),
      cs.dropWhile isWordChar)
    else if c == '[' then (readList term [']'] cs).map fun (items, rest) => (.array items, rest)
    else if c == '(' then do
      let (t, cs) ← term cs
      return (t, ← strip? [')'] cs)
    else readNamed term (c :: cs)

/-- Reads a range, or what can stand at its end. -/
def readRange (term : List Char → Option (Term × List Char)) (cs : List Char) :
    Option (Term × List Char) := do
  let (first, cs) ← readAtom term cs
  match strip? ['.', '.'] cs with
  | some cs =>
    let (last, cs) ← readAtom term cs
    return (.range first last, cs)
  | none => return (first, cs)

/-- All types to cast to. -/
def CastKind.all : List CastKind :=
  [.bool, .int, .float, .decimal, .string, .duration, .number, .uuid, .regex, .record, .set, .array]

/-- Reads the type of a cast, up to the operand. -/
def readKind (cs : List Char) : Option (CastKind × List Char) :=
  CastKind.all.findSome? fun kind => (strip? (kind.text ++ "> ").toList cs).map fun rest =>
    (kind, rest)

/-- Reads an operand behind at most `most` signs and casts. -/
def readOperand (term : List Char → Option (Term × List Char)) :
    (most : Nat) → List Char → Option (Term × List Char)
  | 0, _ | _, [] => none
  | most + 1, c :: cs =>
    if c == '!' then (readOperand term most cs).map fun (t, rest) => (.unary .not t, rest)
    else if c == '-' then (readOperand term most cs).map fun (t, rest) => (.unary .neg t, rest)
    else if c == '<' then do
      let (kind, cs) ← readKind cs
      let (t, rest) ← readOperand term most cs
      return (.cast kind t, rest)
    else readRange term (c :: cs)

/-- All operators with two operands. -/
def BinaryOp.all : List BinaryOp :=
  [.and, .or, .add, .sub, .mul, .div, .mod, .pow, .equal, .notEqual, .lessThan, .lessThanOrEqual,
    .moreThan, .moreThanOrEqual, .coalesce, .contains]

/-- Reads an operator between its blanks. -/
def readOperator (cs : List Char) : Option (BinaryOp × List Char) :=
  BinaryOp.all.findSome? fun op => (strip? (" " ++ op.text ++ " ").toList cs).map
    fun rest => (op, rest)

/-- Reads a term in which brackets are nested at most `depth` deep: an operand, or two with an
operator between. -/
def readTerm : (depth : Nat) → List Char → Option (Term × List Char)
  | 0, _ => none
  | depth + 1, cs => do
    let (left, cs) ← readOperand (readTerm depth) cs.length cs
    match readOperator cs with
    | some (op, cs) =>
      let (right, cs) ← readOperand (readTerm depth) cs.length cs
      return (.binary left op right, cs)
    | none => return (left, cs)

/-! ## What may follow -/

/-- Whether `rest` is empty or begins with one of `marks`. -/
def Follows (marks rest : List Char) : Prop :=
  ∀ c ∈ rest.head?, c ∈ marks

/-- What can follow a term. -/
abbrev termMarks : List Char := [',', ']', ')']

/-- What can follow an operand. -/
abbrev operandMarks : List Char := ' ' :: termMarks

/-- Whether `rest` can follow the end of a range: it follows an operand, or goes on with the range.
-/
def FollowsAtom (rest : List Char) : Prop :=
  Follows operandMarks rest ∨ ∃ cs, rest = '.' :: '.' :: cs

variable {rest : List Char} {term : List Char → Option (Term × List Char)}

theorem Follows.operand (h : Follows termMarks rest) : Follows operandMarks rest :=
  fun c hc => List.mem_cons_of_mem _ (h c hc)

theorem strip?_of_follows (h : Follows operandMarks rest) : strip? ['.', '.'] rest = none := by
  cases rest with
  | nil => rfl
  | cons c cs =>
    have hmarks : ∀ c ∈ operandMarks, '.' ≠ c := by simp [operandMarks]
    exact strip?_ne (hmarks c (h c rfl)) _ _

/-- `FollowsAtom` goes on with no name, path or call. -/
theorem FollowsAtom.head (h : FollowsAtom rest) :
    ∀ c ∈ rest.head?, isNameChar c = false ∧ c ≠ '(' := by
  intro c hc
  rcases h with h | ⟨cs, rfl⟩
  · have hmarks : ∀ c ∈ operandMarks, isNameChar c = false ∧ c ≠ '(' := by
      simp [operandMarks]; decide
    exact hmarks c (h c hc)
  · cases hc
    decide

theorem FollowsAtom.endsWord (h : FollowsAtom rest) : Token.EndsWord rest := by
  intro c hc
  exact (Bool.or_eq_false_iff.mp (h.head c hc).1).1

theorem FollowsAtom.readFields (h : FollowsAtom rest) (most : Nat) :
    readFields most rest = ([], rest) := by
  cases most with
  | zero => simp [Surql.readFields]
  | succ most =>
    rcases h with h | ⟨cs, rfl⟩
    · cases rest with
      | nil => simp [Surql.readFields]
      | cons c cs =>
        have hmarks : ∀ c ∈ operandMarks, c ≠ '.' := by simp [operandMarks]
        have hc := hmarks c (h c rfl)
        rw [Surql.readFields]
        simpa using hc
    · have hword : isWordChar '.' = false := rfl
      simp [Surql.readFields, hword]

/-! ## Names -/

theorem isNameChar_of_mem_word {word : String} (h : Token.isPlain word = true) {c : Char}
    (hc : c ∈ word.toList) : isNameChar c = true := by
  rw [isNameChar, Token.all_of_isPlain h c hc, Bool.true_or]

theorem toList_ne_nil_of_isPlain {word : String} (h : Token.isPlain word = true) :
    word.toList ≠ [] := by
  intro hnil
  simp [Token.isPlain, hnil] at h

theorem IsFunctionName.isNameChar {name : String} (h : IsFunctionName name) :
    ∀ c ∈ name.toList, isNameChar c = true := by
  obtain ⟨words, -, hwords, rfl⟩ := h
  induction words with
  | nil => simp [joinWith]
  | cons word words ih =>
    have hfirst : ∀ c ∈ word.toList, Surql.isNameChar c = true :=
      fun c => isNameChar_of_mem_word (hwords word List.mem_cons_self)
    cases words with
    | nil => exact hfirst
    | cons next words =>
      have hothers := ih fun w hw => hwords w (List.mem_cons_of_mem _ hw)
      intro c hc
      simp only [joinWith, String.toList_append, List.mem_append] at hc
      rcases hc with (hc | hc) | hc
      · exact hfirst c hc
      · simp at hc
        rw [hc]
        rfl
      · exact hothers c hc

theorem IsFunctionName.ne_nil {name : String} (h : IsFunctionName name) : name.toList ≠ [] := by
  obtain ⟨words, hne, hwords, rfl⟩ := h
  cases words with
  | nil => exact absurd rfl hne
  | cons word words =>
    have hword := toList_ne_nil_of_isPlain (hwords word List.mem_cons_self)
    cases words with
    | nil => exact hword
    | cons next words => simp [joinWith]

/-- `readAtom` reads what begins with a name as a call or a path. -/
theorem readAtom_name {name : String} (hne : name.toList ≠ [])
    (h : ∀ c ∈ name.toList, isNameChar c = true) (cs : List Char) :
    readAtom term (name.toList ++ cs) = readNamed term (name.toList ++ cs) := by
  cases hname : name.toList with
  | nil => exact absurd hname hne
  | cons c tail =>
    have hc : isNameChar c = true := h c (by simp [hname])
    have hdollar : c ≠ '$' := by rintro rfl; cases hc
    have hbracket : c ≠ '[' := by rintro rfl; cases hc
    have hparen : c ≠ '(' := by rintro rfl; cases hc
    simp [readAtom, hdollar, hbracket, hparen]

theorem span_name {name : String} (h : ∀ c ∈ name.toList, isNameChar c = true) {cs : List Char}
    (hcs : ∀ c ∈ cs.head?, isNameChar c = false) :
    (name.toList ++ cs).takeWhile isNameChar = name.toList ∧
      (name.toList ++ cs).dropWhile isNameChar = cs := by
  rw [List.takeWhile_append_of_pos h, List.dropWhile_append_of_pos h]
  cases cs with
  | nil => simp
  | cons c cs => simp [hcs c rfl]

theorem readNamed_call {name : String} (hne : name.toList ≠ [])
    (h : ∀ c ∈ name.toList, isNameChar c = true) (cs : List Char) :
    readNamed term (name.toList ++ '(' :: cs) =
      (readList term [')'] cs).map fun (args, rest) => (.call name args, rest) := by
  have hparen : ∀ c ∈ ('(' :: cs).head?, isNameChar c = false := by
    intro c hc
    cases hc
    rfl
  have hspan := span_name h hparen
  rw [readNamed, hspan.1, hspan.2]
  simp [hne]

theorem readNamed_path {name : String} (hne : name.toList ≠ [])
    (h : ∀ c ∈ name.toList, isNameChar c = true) {cs : List Char}
    (hcs : ∀ c ∈ cs.head?, isNameChar c = false ∧ c ≠ '(') :
    readNamed term (name.toList ++ cs) =
      some (.path (.field name :: (readFields cs.length cs).1), (readFields cs.length cs).2) := by
  have hspan := span_name h fun c hc => (hcs c hc).1
  rw [readNamed, hspan.1, hspan.2]
  cases cs with
  | nil => simp [hne]
  | cons c cs =>
    have hc := (hcs c rfl).2
    simp [hne, hc]

/-! ## Paths -/

theorem toList_fields (name : String) (names : List String) (h : Token.isPlain name = true) :
    (Part.texts false ((name :: names).map .field)).toList =
      '.' :: (name.toList ++ (Part.texts false (names.map .field)).toList) := by
  simp [Part.texts, Token.ident, h]

theorem length_fields {names : List String} (h : ∀ n ∈ names, Token.isPlain n = true) :
    names.length ≤ (Part.texts false (names.map .field)).toList.length := by
  induction names with
  | nil => simp
  | cons name names ih =>
    rw [List.forall_mem_cons] at h
    rw [toList_fields name names h.1]
    have := ih h.2
    simp only [List.length_cons, List.length_append]
    omega

theorem head_fields {names : List String} (h : ∀ n ∈ names, Token.isPlain n = true)
    (hrest : FollowsAtom rest) :
    ∀ c ∈ ((Part.texts false (names.map .field)).toList ++ rest).head?, isNameChar c = false ∧
      c ≠ '(' := by
  cases names with
  | nil => simpa [Part.texts] using hrest.head
  | cons name names =>
    intro c hc
    rw [toList_fields name names (h name List.mem_cons_self)] at hc
    cases hc
    decide

theorem readFields_texts {names : List String} (h : ∀ n ∈ names, Token.isPlain n = true)
    (hrest : FollowsAtom rest) {most : Nat} (hmost : names.length ≤ most) :
    readFields most ((Part.texts false (names.map .field)).toList ++ rest) =
      (names.map .field, rest) := by
  induction names generalizing most with
  | nil => simpa [Part.texts] using hrest.readFields most
  | cons name names ih =>
    obtain ⟨most, rfl⟩ : ∃ n, most = n + 1 := ⟨most - 1, by simp at hmost; omega⟩
    rw [List.forall_mem_cons] at h
    have hword := Token.all_of_isPlain h.1
    have hends : Token.EndsWord ((Part.texts false (names.map .field)).toList ++ rest) := fun c
      hc =>
      (Bool.or_eq_false_iff.mp (head_fields h.2 hrest c hc).1).1
    have hne := toList_ne_nil_of_isPlain h.1
    rw [toList_fields name names h.1, List.cons_append, List.append_assoc, readFields,
      List.takeWhile_append_of_pos hword, List.dropWhile_append_of_pos hword, hends.takeWhile,
        hends.dropWhile,
      ih h.2 (by simpa using hmost)]
    simp [hne]

/-! ## Ends of ranges -/

/-- Whether `text` is read as `t` wherever an end of a range can stand, and has no sign in front. -/
structure ReadsAtom (term : List Char → Option (Term × List Char)) (text : String) (t : Term) :
    Prop where
  read : ∀ rest, FollowsAtom rest → readAtom term (text.toList ++ rest) = some (t, rest)
  head : ∃ c cs, text.toList = c :: cs ∧ c ∉ ['!', '-', '<']

theorem head_of_isNameChar {name : String} (hne : name.toList ≠ [])
    (h : ∀ c ∈ name.toList, isNameChar c = true) (cs : List Char) :
    ∃ c tail, name.toList ++ cs = c :: tail ∧ c ∉ ['!', '-', '<'] := by
  cases hname : name.toList with
  | nil => exact absurd hname hne
  | cons c tail =>
    refine ⟨c, tail ++ cs, rfl, fun hc => ?_⟩
    have hsign : ∀ c ∈ ['!', '-', '<'], isNameChar c = false := by simp; decide
    have hname := h c (by simp [hname])
    rw [hsign c hc] at hname
    cases hname

theorem readsAtom_param {name : String} (h : Token.isPlain name = true) :
    ReadsAtom term (Term.param name).text (.param name) where
  read rest hrest := by
    have hword := Token.all_of_isPlain h
    have hends := hrest.endsWord
    rw [show (Term.param
      name).text.toList = '$' :: name.toList by simp [Term.text], List.cons_append, readAtom]
    simp [List.takeWhile_append_of_pos hword, List.dropWhile_append_of_pos hword, hends.takeWhile,
      hends.dropWhile]
  head := ⟨'$', name.toList, by simp [Term.text], by decide⟩

theorem readsAtom_path {name : String} {names : List String}
    (h : ∀ n ∈ name :: names, Token.isPlain n = true) :
    ReadsAtom term (Term.path ((name :: names).map .field)).text
      (.path ((name :: names).map .field)) := by
  rw [List.forall_mem_cons] at h
  have hname := fun c => isNameChar_of_mem_word h.1 (c := c)
  have hne := toList_ne_nil_of_isPlain h.1
  have htext : (Term.path ((name :: names).map .field)).text.toList =
      name.toList ++ (Part.texts false (names.map .field)).toList := by
    simp [Term.text, Part.texts, Token.ident, h.1]
  constructor
  · intro rest hrest
    have hmost : names.length ≤ ((Part.texts false (names.map .field)).toList ++ rest).length := by
      rw [List.length_append]
      exact Nat.le_trans (length_fields h.2) (Nat.le_add_right _ _)
    rw [htext, List.append_assoc, readAtom_name hne hname,
      readNamed_path hne hname (head_fields h.2 hrest), readFields_texts h.2 hrest hmost]
    rfl
  · rw [htext]
    exact head_of_isNameChar hne hname _

theorem readsAtom_parens {text : String} {t : Term}
    (h : ∀ rest, term (text.toList ++ ')' :: rest) = some (t, ')' :: rest)) :
    ReadsAtom term (parens text) t where
  read rest _ := by
    rw [show (parens text).toList = '(' :: (text.toList ++
      [')']) by simp [parens], List.cons_append, List.append_assoc, List.singleton_append, readAtom]
    simp [h, strip?]
  head := ⟨'(', text.toList ++ [')'], by simp [parens], by decide⟩

theorem ReadsAtom.range {first last : String} {t u : Term} (ht : ReadsAtom term first t)
    (hu : ReadsAtom term last u) (hrest : Follows operandMarks rest) :
    readRange term ((first ++ ".." ++ last).toList ++ rest) = some (.range t u, rest) := by
  have hfirst := ht.read ('.' :: '.' :: (last.toList ++ rest)) (.inr ⟨_, rfl⟩)
  have htext : (first ++ ".." ++ last).toList ++ rest = first.toList ++
      '.' :: '.' :: (last.toList ++ rest) := by
    simp
  rw [readRange, htext, hfirst]
  simp [strip?, hu.read rest (.inl hrest)]

theorem ReadsAtom.readRange {text : String} {t : Term} (h : ReadsAtom term text t)
    (hrest : Follows operandMarks rest) :
    readRange term (text.toList ++ rest) = some (t, rest) := by
  rw [Surql.readRange, h.read rest (.inl hrest)]
  simp [strip?_of_follows hrest]

/-! ## Signs and casts -/

/-- Without a sign in front, `readOperand` reads a range or an end of one. -/
theorem readOperand_unsigned {c : Char} (hc : c ∉ ['!', '-', '<']) (most : Nat) (cs : List Char) :
    readOperand term (most + 1) (c :: cs) = readRange term (c :: cs) := by
  simp only [List.mem_cons, List.not_mem_nil, or_false, not_or] at hc
  simp [readOperand, hc]

theorem ReadsAtom.readOperand {text : String} {t : Term} {most : Nat} (h : ReadsAtom term text t)
    (hmost : text.toList.length ≤ most) (hrest : Follows operandMarks rest) :
    readOperand term most (text.toList ++ rest) = some (t, rest) := by
  have hread := h.readRange hrest
  obtain ⟨c, cs, htext, hc⟩ := h.head
  rw [htext] at hmost hread ⊢
  obtain ⟨most, rfl⟩ : ∃ n, most = n + 1 := ⟨most - 1, by simp at hmost; omega⟩
  rw [List.cons_append] at hread ⊢
  rw [readOperand_unsigned hc, hread]

theorem readKind_text (kind : CastKind) (cs : List Char) :
    readKind ((kind.text ++ "> ").toList ++ cs) = some (kind, cs) := by
  cases kind <;> simp [readKind, CastKind.all, CastKind.text, strip?]

theorem readOperator_text (op : BinaryOp) (cs : List Char) :
    readOperator ((" " ++ op.text ++ " ").toList ++ cs) = some (op, cs) := by
  cases op <;> simp [readOperator, BinaryOp.all, BinaryOp.text, strip?]

theorem readOperator_of_follows (h : Follows termMarks rest) : readOperator rest = none := by
  cases rest with
  | nil => simp [readOperator, BinaryOp.all, strip?]
  | cons c cs =>
    have hmarks : ∀ c ∈ termMarks, ' ' ≠ c := by simp [termMarks]
    have hc := hmarks c (h c rfl)
    simp [readOperator, BinaryOp.all, strip?, hc]

/-! ## Terms -/

/-- Whether a term is an operator with two operands. -/
def Term.isBinary : Term → Bool
  | .binary _ _ _ => true
  | _ => false

/-- Whether the text of `t` is read back at each level at which it can stand without parentheses. -/
structure Term.ReadsBack (t : Term) : Prop where
  term : ∀ {depth : Nat} {rest : List Char}, t.text.toList.length ≤ depth → Follows termMarks rest →
    readTerm depth (t.text.toList ++ rest) = some (t, rest)
  operand : t.isBinary = false → ∀ {depth most : Nat} {rest : List Char},
    t.text.toList.length ≤ depth + 1 → t.text.toList.length ≤ most → Follows operandMarks rest →
    readOperand (readTerm depth) most (t.text.toList ++ rest) = some (t, rest)
  atom : t.looseInRange = false → ∀ {depth : Nat}, t.text.toList.length ≤ depth + 1 →
    ReadsAtom (readTerm depth) t.text t

namespace Term.ReadsBack

variable {t : Term} {depth most : Nat}

/-- In `parens` a term is read back everywhere. -/
theorem parens (h : t.ReadsBack) (hdepth : (parens t.text).toList.length ≤ depth + 1) :
    ReadsAtom (readTerm depth) (Surql.parens t.text) t := by
  refine readsAtom_parens fun rest => h.term ?_ fun c hc => ?_
  · simp [Surql.parens] at hdepth ⊢
    omega
  · cases hc
    decide

theorem bound (h : t.ReadsBack)
    (hdepth : (parensIf t.looseInRange t.text).toList.length ≤ depth + 1) :
    ReadsAtom (readTerm depth) (parensIf t.looseInRange t.text) t := by
  cases hloose : t.looseInRange with
  | true =>
    rw [hloose] at hdepth
    exact h.parens hdepth
  | false =>
    rw [hloose] at hdepth
    exact h.atom hloose hdepth

/-- An operand, which stands in parentheses at least if it `isBinary`. -/
theorem operandIf (h : t.ReadsBack) {loose : Bool} (hloose : loose = false → t.isBinary = false)
    (hdepth : (parensIf loose t.text).toList.length ≤ depth + 1)
    (hmost : (parensIf loose t.text).toList.length ≤ most) (hrest : Follows operandMarks rest) :
    readOperand (readTerm depth) most ((parensIf loose t.text).toList ++ rest) =
      some (t, rest) := by
  cases loose with
  | true => exact (h.parens hdepth).readOperand hmost hrest
  | false => exact h.operand (hloose rfl) hdepth hmost hrest

theorem of_operand (hne : t.text.toList ≠ [])
    (operand : ∀ {depth most : Nat} {rest : List Char}, t.text.toList.length ≤ depth + 1 →
      t.text.toList.length ≤ most → Follows operandMarks rest →
      readOperand (readTerm depth) most (t.text.toList ++ rest) = some (t, rest))
    (atom : t.looseInRange = false → ∀ {depth : Nat}, t.text.toList.length ≤ depth + 1 →
      ReadsAtom (readTerm depth) t.text t) : t.ReadsBack where
  term := by
    intro depth rest hdepth hrest
    obtain ⟨depth, rfl⟩ : ∃ d, depth = d + 1 :=
      ⟨depth - 1, by have := List.length_pos_iff.mpr hne; omega⟩
    rw [readTerm, operand hdepth (by simp) hrest.operand]
    simp [readOperator_of_follows hrest]
  operand _ := operand
  atom := atom

theorem of_atom
    (h : ∀ {depth : Nat}, t.text.toList.length ≤ depth + 1 → ReadsAtom (readTerm depth) t.text t) :
    t.ReadsBack := by
  refine of_operand ?_ (fun hdepth hmost hrest => (h hdepth).readOperand hmost hrest) fun _ => h
  obtain ⟨c, cs, htext, -⟩ := (h (Nat.le_succ _)).head
  simp [htext]

/-- A sign or a cast in front of an operand. -/
theorem signed (h : t.ReadsBack) (wrap : Term → Term) (sign : Char) (signs : List Char)
    {loose : Bool} (hloose : loose = false → t.isBinary = false)
    (hrange : (wrap t).looseInRange = true)
    (htext : (wrap t).text.toList = sign :: (signs ++ (parensIf loose t.text).toList))
    (hread : ∀ term most cs, readOperand term (most + 1)
      (sign :: (signs ++ cs)) = (readOperand term most cs).map fun (t, rest) => (wrap t, rest)) :
    (wrap t).ReadsBack := by
  refine of_operand (by simp [htext]) (fun {depth most rest} hdepth hmost hrest => ?_)
    fun hatom => ?_
  · rw [htext, List.length_cons, List.length_append] at hdepth hmost
    obtain ⟨most, rfl⟩ : ∃ n, most = n + 1 := ⟨most - 1, by omega⟩
    rw [htext, List.cons_append, List.append_assoc, hread,
      h.operandIf hloose (Nat.le_trans (by omega) hdepth) (by omega) hrest]
    rfl
  · rw [hrange] at hatom
    cases hatom

theorem binary {left right : Term} {op : BinaryOp} (hl : left.ReadsBack) (hr : right.ReadsBack) :
    (Term.binary left op right).ReadsBack where
  term := by
    intro depth rest hdepth hrest
    -- An operand that is written without parentheses is no binary term, so that reading it stops
    -- before the operator.
    have hloose : ∀ t : Term, t.looseInBinary = false → t.isBinary = false := by
      intro t ht
      cases t <;> first | rfl | cases ht
    have htext : (Term.binary left op right).text.toList = (parensIf left.looseInBinary
        left.text).toList ++
          ((" " ++ op.text ++ " ").toList ++ (parensIf right.looseInBinary right.text).toList) := by
      simp [Term.text]
    rw [htext] at hdepth ⊢
    simp only [List.length_append] at hdepth
    obtain ⟨depth, rfl⟩ : ∃ d, depth = d + 1 := ⟨depth - 1, by simp at hdepth; omega⟩
    have hleft : ∀ {most : Nat} {rest : List Char},
        (parensIf left.looseInBinary left.text).toList.length ≤ most →
          Follows operandMarks rest → readOperand (readTerm depth) most
            ((parensIf left.looseInBinary left.text).toList ++ rest) = some (left, rest) :=
      hl.operandIf (hloose left) (by omega)
    have hright : ∀ {most : Nat}, (parensIf right.looseInBinary right.text).toList.length ≤ most →
        readOperand (readTerm depth)
          most ((parensIf right.looseInBinary right.text).toList ++ rest) = some (right, rest) :=
      fun hmost => hr.operandIf (hloose right) (by omega) hmost hrest.operand
    simp only [List.append_assoc]
    rw [readTerm, hleft (by simp) (by simp [Follows])]
    simp only [Option.bind_eq_bind, Option.bind_some, readOperator_text]
    rw [hright (by simp)]
    rfl
  operand hb := by cases hb
  atom ha := by cases ha

theorem range {first last : Term} (hf : first.ReadsBack) (hl : last.ReadsBack) :
    (Term.range first last).ReadsBack := by
  have htext : (Term.range first last).text =
      parensIf first.looseInRange first.text ++ ".." ++ parensIf last.looseInRange last.text := by
    rw [Term.text]
  refine of_operand (by simp [htext]) (fun {depth most rest} hdepth hmost hrest => ?_)
    fun hatom => by cases hatom
  rw [htext] at hdepth hmost ⊢
  simp only [String.toList_append, List.length_append] at hdepth
  have hfirst : ReadsAtom (readTerm depth) (parensIf first.looseInRange first.text) first :=
    hf.bound (by omega)
  have hlast : ReadsAtom (readTerm depth) (parensIf last.looseInRange last.text) last :=
    hl.bound (by omega)
  have hread := hfirst.range hlast hrest
  obtain ⟨c, cs, hc, hsign⟩ := hfirst.head
  simp only [String.toList_append, hc, List.cons_append] at hread hmost ⊢
  obtain ⟨most, rfl⟩ : ∃ n, most = n + 1 := ⟨most - 1, by simp at hmost; omega⟩
  rw [readOperand_unsigned hsign, hread]

end Term.ReadsBack

/-! ## Lists of terms -/

theorem readTerm_closed {mark : Char} (h : mark ∈ [']', ')']) (depth : Nat) (rest : List Char) :
    readTerm depth (mark :: rest) = none := by
  cases depth with
  | zero => rfl
  | succ depth =>
    simp only [List.mem_cons, List.not_mem_nil, or_false] at h
    rcases h with rfl | rfl
    all_goals simp [readTerm, readOperand, readRange, readAtom, readNamed, isNameChar, isWordChar]

theorem forall₂_texts {ts : List Term} (h : ∀ t ∈ ts, t.ReadsBack) {mark : Char}
    (hmark : mark ∈ [']', ')']) {depth : Nat}
    (hdepth : ∀ text ∈ Term.texts ts, text.toList.length ≤ depth) :
    List.Forall₂ (fun text t => ∀ rest, FollowsItem [mark] rest →
      readTerm depth (text.toList ++ rest) = some (t, rest)) (Term.texts ts) ts := by
  induction ts with
  | nil => exact .nil
  | cons t ts ih =>
    rw [List.forall_mem_cons] at h
    rw [Term.texts, List.forall_mem_cons] at hdepth
    rw [Term.texts]
    refine .cons (fun rest hrest => h.1.term hdepth.1 fun c hc => ?_) (ih h.2 hdepth.2)
    obtain ⟨cs, rfl | rfl⟩ := hrest
    · cases hc
      decide
    · cases hc
      exact List.mem_cons_of_mem _ hmark

theorem readList_texts {ts : List Term} (h : ∀ t ∈ ts, t.ReadsBack) {mark : Char}
    (hmark : mark ∈ [']', ')']) {depth : Nat}
    (hdepth : (commas (Term.texts ts)).toList.length ≤ depth) (rest : List Char) :
    readList (readTerm depth) [mark] ((commas (Term.texts ts)).toList ++ mark :: rest) =
      some (ts, rest) := by
  have hcomma : ∀ c ∈ [']', ')'], c ≠ ',' := by simp
  exact readList_joinWith (hcomma mark hmark) (readTerm_closed hmark depth)
    (forall₂_texts h hmark fun text htext => Nat.le_trans (length_le_joinWith htext) hdepth) rest

theorem readsAtom_array {items : List Term} (h : ∀ t ∈ items, t.ReadsBack) {depth : Nat}
    (hdepth : (Term.array items).text.toList.length ≤ depth + 1) :
    ReadsAtom (readTerm depth) (Term.array items).text (.array items) := by
  have htext : (Term.array items).text.toList = '[' :: ((commas (Term.texts items)).toList ++
      [']']) := by
    simp [Term.text]
  rw [htext, List.length_cons, List.length_append] at hdepth
  constructor
  · intro rest _
    have hread : readList (readTerm depth) [']']
        ((commas (Term.texts items)).toList ++ ']' :: rest) = _ :=
      readList_texts h (by decide) (by omega) rest
    simp [htext, readAtom, hread]
  · exact ⟨'[', _, htext, by decide⟩

theorem readsAtom_call {function : String} {args : List Term} (hf : IsFunctionName function)
    (h : ∀ t ∈ args, t.ReadsBack) {depth : Nat}
    (hdepth : (Term.call function args).text.toList.length ≤ depth + 1) :
    ReadsAtom (readTerm depth) (Term.call function args).text (.call function args) := by
  have htext : (Term.call function args).text.toList =
      function.toList ++ '(' :: ((commas (Term.texts args)).toList ++ [')']) := by
    simp [Term.text, parens]
  rw [htext, List.length_append, List.length_cons, List.length_append] at hdepth
  constructor
  · intro rest _
    have hread : readList (readTerm depth) [')']
        ((commas (Term.texts args)).toList ++ ')' :: rest) = _ :=
      readList_texts h (by decide) (by omega) rest
    rw [htext, List.append_assoc, readAtom_name hf.ne_nil hf.isNameChar, List.cons_append,
      readNamed_call hf.ne_nil hf.isNameChar]
    simp [hread]
  · rw [htext]
    exact head_of_isNameChar hf.ne_nil hf.isNameChar _

/-! ## The text of a term determines it -/

theorem Term.isBinary_of_looseUnder {op : UnaryOp} {t : Term} (h : t.looseUnder op = false) :
    t.isBinary = false := by
  cases t with
  | binary => cases op <;> cases h
  | _ => rfl

theorem Term.isBinary_of_looseAfterSign {t : Term} (h : t.looseAfterSign = false) :
    t.isBinary = false := by
  cases t with
  | binary => cases h
  | _ => rfl

theorem Term.ReadsBack.unary {op : UnaryOp} {t : Term} (h : t.ReadsBack) :
    (Term.unary op t).ReadsBack := by
  cases op with
  | not =>
    have htext : (Term.unary .not t).text.toList = '!' :: (parensIf (t.looseUnder .not)
        t.text).toList := by
      simp [Term.text, UnaryOp.text]
    exact h.signed (.unary .not) '!' [] isBinary_of_looseUnder rfl htext fun _ _ _ => by
      simp [readOperand]
  | neg =>
    have htext : (Term.unary .neg t).text.toList = '-' :: (parensIf (t.looseUnder .neg)
        t.text).toList := by
      simp [Term.text, UnaryOp.text]
    exact h.signed (.unary .neg) '-' [] isBinary_of_looseUnder rfl htext fun _ _ _ => by
      simp [readOperand]

theorem Term.ReadsBack.cast {kind : CastKind} {t : Term} (h : t.ReadsBack) :
    (Term.cast kind t).ReadsBack := by
  have htext : (Term.cast kind t).text.toList =
      '<' :: ((kind.text ++ "> ").toList ++ (parensIf t.looseAfterSign t.text).toList) := by
    simp [Term.text]
  refine h.signed (.cast kind) '<' _ isBinary_of_looseAfterSign rfl htext fun term most cs => ?_
  rw [readOperand, if_neg (by decide), if_neg (by decide), if_pos (by decide), readKind_text]
  simp only [Option.bind_eq_bind, Option.bind_some]
  cases readOperand term most cs <;> rfl

theorem Term.OverNames.readsBack {t : Term} (h : t.OverNames) : t.ReadsBack := by
  induction h with
  | param h => exact .of_atom fun _ => readsAtom_param h
  | path h => exact .of_atom fun _ => readsAtom_path h
  | call hf _ ih => exact .of_atom fun hdepth => readsAtom_call hf ih hdepth
  | array _ ih => exact .of_atom fun hdepth => readsAtom_array ih hdepth
  | unary _ ih => exact ih.unary
  | binary _ _ hl hr => exact .binary hl hr
  | cast _ ih => exact ih.cast
  | range _ _ hf hl => exact .range hf hl

/-- Terms that are `OverNames` are equal if they have the same text. -/
theorem operator_text_injective (v w : Term) (hv : v.OverNames) (hw : w.OverNames)
    (h : v.text = w.text) : v = w := by
  have hend : Follows termMarks [] := by simp [Follows]
  have hreadv := hv.readsBack.term (Nat.le_refl _) hend
  have hreadw := hw.readsBack.term (Nat.le_refl _) hend
  rw [h, hreadw] at hreadv
  exact (congrArg Prod.fst (Option.some.inj hreadv)).symm

/-- The term `!(a.b..(-$c)) CONTAINS -(-<int> (math::sum([$c]) - $c))`, in which each of the rules
asks for parentheses once. -/
def crowded : Term :=
  .binary (.unary .not (.range (.path [.field "a", .field "b"]) (.unary .neg (.param "c"))))
    .contains (.unary .neg
    (.unary .neg (.cast .int (.binary (.call "math::sum" [.array [.param "c"]])
    .sub (.param "c")))))

theorem crowded_overNames : crowded.OverNames := by
  have hc : (Term.param "c").OverNames := .param (by decide)
  have hab : (Term.path [.field "a", .field "b"]).OverNames := @Term.OverNames.path "a" ["b"]
    (by decide)
  have hsum : IsFunctionName "math::sum" := ⟨["math", "sum"], by decide, by decide, by decide⟩
  have hlist : (Term.array [.param "c"]).OverNames := .array (by simpa using hc)
  exact .binary (.unary (.range hab (.unary hc)))
    (.unary (.unary (.cast (.binary (.call hsum (by simpa using hlist)) hc))))

theorem operator_text_injective_crowded :
    crowded.OverNames ∧ crowded.text = "!(a.b..(-$c)) CONTAINS -(-<int> (math::sum([$c]) - $c))" ∧
      crowded = crowded :=
  ⟨crowded_overNames, by rfl,
    operator_text_injective crowded crowded crowded_overNames crowded_overNames rfl⟩

end QueryTree.Surql
