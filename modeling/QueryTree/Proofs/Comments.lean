import Mathlib.Data.List.Chain
import QueryTree.Proofs.Digits
import QueryTree.Proofs.OperatorText
import QueryTree.Proofs.Pieces

/-!
# No comment is opened

Two signs next to each other, or a number sign, open a comment. Signs come from operators, negative
numbers and the star for all columns. A minus in front of an operand is the only sign without a
blank after it, and there an operand that begins with a minus is put into parentheses. Texts between
quotes are left out: there a sign is no sign.
-/

namespace QueryTree.Surql

open Text
open Piece (render)

/-! ## CommentFree texts -/

/-- The characters of `commentOpeners`. -/
def commentMarks : List Char := ['-', '/', '*', '#']

/-- What opens a comment. -/
def commentOpeners : List String := ["--", "//", "/*", "#"]

/-- Whether a comment begins with `a` and `b`. -/
def opensComment (a b : Char) : Bool :=
  a == '-' && b == '-' || a == '/' && (b == '/' || b == '*')

/-- A text in which no comment is opened. -/
structure CommentFree (s : String) : Prop where
  pairs : s.toList.IsChain fun a b => opensComment a b = false
  hash : '#' ∉ s.toList

/-- A text that begins with none of the `commentMarks`. -/
def StartsUnmarked (s : String) : Prop := ∀ c ∈ s.toList.head?, c ∉ commentMarks

/-- A text that ends with none of the `commentMarks`. -/
def EndsUnmarked (s : String) : Prop := ∀ c ∈ s.toList.getLast?, c ∉ commentMarks

/-- A text without `commentMarks`. -/
def Unmarked (s : String) : Prop := ∀ c ∈ s.toList, c ∉ commentMarks

instance (s : String) : Decidable (Unmarked s) :=
  decidable_of_iff (s.toList.all fun c => !commentMarks.contains c) (by simp [Unmarked])

/-- A `CommentFree` text that can stand next to any other one. -/
structure Sealed (s : String) : Prop where
  commentFree : CommentFree s
  starts : StartsUnmarked s
  ends : EndsUnmarked s

theorem opensComment_left {a : Char} (h : a ∉ commentMarks) (b : Char) :
    opensComment a b = false := by
  simp only [commentMarks, List.mem_cons, not_or] at h
  simp [opensComment, h]

theorem opensComment_right {b : Char} (h : b ∉ commentMarks) (a : Char) :
    opensComment a b = false := by
  simp only [commentMarks, List.mem_cons, not_or] at h
  simp [opensComment, h]

/-- None of the `commentOpeners` is in a `CommentFree` text. -/
theorem CommentFree.no_opener {s : String} (h : CommentFree s) :
    ∀ opener ∈ commentOpeners, ¬ opener.toList <:+: s.toList := by
  have hpair : ∀ {a b : Char}, opensComment a b = true → ¬ [a, b] <:+: s.toList := by
    intro a b hopens hoccurs
    have hchain := h.pairs.infix hoccurs
    rw [List.isChain_pair, hopens] at hchain
    cases hchain
  have hhash : ¬ ['#'] <:+: s.toList := fun hoccurs => h.hash (hoccurs.subset List.mem_cons_self)
  intro opener hopener
  simp only [commentOpeners, List.mem_cons, List.not_mem_nil, or_false] at hopener
  rcases hopener with rfl | rfl | rfl | rfl
  · exact hpair rfl
  · exact hpair rfl
  · exact hpair rfl
  · exact hhash

section
variable {s t : String}

theorem CommentFree.append (hs : CommentFree s) (ht : CommentFree t)
    (hedge : EndsUnmarked s ∨ StartsUnmarked t) : CommentFree (s ++ t) where
  pairs := by
    rw [String.toList_append, List.isChain_append]
    refine ⟨hs.pairs, ht.pairs, fun a ha b hb => ?_⟩
    rcases hedge with hends | hstarts
    · exact opensComment_left (hends a ha) b
    · exact opensComment_right (hstarts b hb) a
  hash := by
    rw [String.toList_append, List.mem_append, not_or]
    exact ⟨hs.hash, ht.hash⟩

theorem StartsUnmarked.append (hs : StartsUnmarked s) (ht : StartsUnmarked t) :
    StartsUnmarked (s ++ t) := by
  intro c hc
  rw [String.toList_append, List.head?_append, Option.mem_def, Option.or_eq_some_iff] at hc
  rcases hc with hc | ⟨-, hc⟩
  · exact hs c hc
  · exact ht c hc

theorem EndsUnmarked.append (hs : EndsUnmarked s) (ht : EndsUnmarked t) :
    EndsUnmarked (s ++ t) := by
  intro c hc
  rw [String.toList_append, List.getLast?_append, Option.mem_def, Option.or_eq_some_iff] at hc
  rcases hc with hc | ⟨-, hc⟩
  · exact ht c hc
  · exact hs c hc

/-- `StartsUnmarked` does not depend on what follows a text, unless it is empty. -/
theorem StartsUnmarked.append_of_ne (hs : StartsUnmarked s) (hne : s ≠ "") :
    StartsUnmarked (s ++ t) := by
  intro c hc
  rw [String.toList_append, List.head?_append_of_ne_nil _ (by simpa using hne)] at hc
  exact hs c hc

theorem EndsUnmarked.append_of_ne (ht : EndsUnmarked t) (hne : t ≠ "") : EndsUnmarked (s ++ t) := by
  intro c hc
  rw [String.toList_append, List.getLast?_append_of_ne_nil _ (by simpa using hne)] at hc
  exact ht c hc

theorem Unmarked.append (hs : Unmarked s) (ht : Unmarked t) : Unmarked (s ++ t) := by
  intro c hc
  rw [String.toList_append, List.mem_append] at hc
  exact hc.elim (hs c) (ht c)

/-- A text is `Unmarked` if its characters are of a class that has none of the marks. -/
theorem Unmarked.of_all {p : Char → Bool} (hp : commentMarks.any p = false)
    (h : ∀ c ∈ s.toList, p c = true) : Unmarked s := by
  intro c hc hmark
  exact List.any_eq_false.mp hp c hmark (h c hc)

theorem Unmarked.sealed (h : Unmarked s) : Sealed s where
  commentFree := by
    constructor
    · rw [List.isChain_iff_getElem]
      intro i hi
      exact opensComment_left (h _ (List.getElem_mem _)) _
    · intro hmem
      exact absurd (h '#' hmem) (by decide)
  starts c hc := h c (List.mem_of_mem_head? hc)
  ends c hc := h c (List.mem_of_getLast? hc)

theorem Sealed.append (hs : Sealed s) (ht : Sealed t) : Sealed (s ++ t) where
  commentFree := hs.commentFree.append ht.commentFree (.inl hs.ends)
  starts := hs.starts.append ht.starts
  ends := hs.ends.append ht.ends

/-- Two `CommentFree` texts with something `Unmarked` between them. -/
theorem CommentFree.separated {sep : String} (hs : CommentFree s) (hsep : Unmarked sep)
    (hne : sep ≠ "") (ht : CommentFree t) : CommentFree (s ++ (sep ++ t)) :=
  hs.append (hsep.sealed.commentFree.append ht (.inl hsep.sealed.ends))
    (.inr (hsep.sealed.starts.append_of_ne hne))

theorem CommentFree.followed (hs : CommentFree s) (ht : CommentFree t ∧ StartsUnmarked t) :
    CommentFree (s ++ t) :=
  hs.append ht.1 (.inr ht.2)

/-- Two texts without marks, which close in what stands between them. -/
abbrev Brackets (left right : String) : Prop :=
  (Unmarked left ∧ left ≠ "") ∧ Unmarked right ∧ right ≠ ""

theorem CommentFree.between {left right : String} (h : CommentFree s)
    (hbrackets : Brackets left right) : Sealed (left ++ s ++ right) := by
  obtain ⟨⟨hleft, hleft_ne⟩, hright, hright_ne⟩ := hbrackets
  constructor
  · exact (hleft.sealed.commentFree.append h (.inl hleft.sealed.ends)).append
      hright.sealed.commentFree (.inr hright.sealed.starts)
  · exact (hleft.sealed.starts.append_of_ne hleft_ne).append_of_ne (by simp [hleft_ne])
  · exact hright.sealed.ends.append_of_ne hright_ne

theorem CommentFree.parens (h : CommentFree s) : Sealed (parens s) := h.between (by decide)

theorem CommentFree.parensIf (h : CommentFree s) (needed : Bool) :
    CommentFree (parensIf needed s) := by
  cases needed with
  | true => exact h.parens.commentFree
  | false => exact h

theorem CommentFree.commas {texts : List String} (h : ∀ s ∈ texts, CommentFree s) :
    CommentFree (commas texts) := by
  unfold Surql.commas
  induction texts with
  | nil => exact (show Unmarked "" by decide).sealed.commentFree
  | cons s texts ih =>
    rw [List.forall_mem_cons] at h
    cases texts with
    | nil => exact h.1
    | cons t texts =>
      rw [joinWith, String.append_assoc]
      · exact h.1.separated (by decide) (by decide) (ih h.2)
      · simp

end

/-! ## Numbers -/

section
open Number

theorem unmarked_ofList {cs : List Char} (h : ∀ c ∈ cs, c.isDigit = true) :
    Unmarked (String.ofList cs) :=
  .of_all (p := Char.isDigit) (by decide) (by simpa using h)

theorem unmarked_repr (n : Nat) : Unmarked (Nat.repr n) := by
  refine .of_all (p := Char.isDigit) (by decide) fun c hc => ?_
  rw [Nat.toList_repr] at hc
  exact isDigit_of_mem_toDigits hc

theorem unmarked_zeros (n : Nat) : Unmarked (zeros n) :=
  unmarked_ofList fun c hc => by rw [List.eq_of_mem_replicate hc]; rfl

theorem unmarked_pointed {cs : List Char} (h : ∀ c ∈ cs, c.isDigit = true) (cut : Nat) :
    Unmarked (String.ofList (cs.take cut) ++ "." ++ String.ofList (cs.drop cut)) :=
  ((unmarked_ofList fun c hc => h c (List.mem_of_mem_take hc)).append (by decide)).append
    (unmarked_ofList fun c hc => h c (List.mem_of_mem_drop hc))

theorem unmarked_positional (d : Scientific) : Unmarked d.positional := by
  have hdigits : ∀ c ∈ (Nat.repr d.digits).toList, c.isDigit = true := by
    intro c hc
    rw [Nat.toList_repr] at hc
    exact isDigit_of_mem_toDigits hc
  unfold Scientific.positional
  split
  · exact (unmarked_repr _).append (unmarked_zeros _)
  · dsimp only
    split
    · exact unmarked_pointed hdigits _
    · exact ((show Unmarked "0." by decide).append (unmarked_zeros _)).append (unmarked_repr _)

/-- `signed` puts a minus in front, or nothing. -/
theorem commentFree_signed {magnitude : String} (h : Unmarked magnitude) (negative : Bool) :
    CommentFree (signed negative magnitude) := by
  cases negative with
  | false => exact h.sealed.commentFree
  | true =>
    have hminus : CommentFree "-" := ⟨by decide, by decide⟩
    exact hminus.append h.sealed.commentFree (.inr h.sealed.starts)

/-- `display` writes a minus exactly if the number `isNegative`. -/
theorem display_signed (x : FloatParts) :
    ∃ magnitude, Unmarked magnitude ∧ x.display = signed x.isNegative magnitude := by
  cases x with
  | nan => exact ⟨"NaN", by decide, rfl⟩
  | infinity negative => exact ⟨"inf", by decide, rfl⟩
  | zero negative => exact ⟨"0", by decide, rfl⟩
  | finite negative x => exact ⟨_, unmarked_positional _, rfl⟩

theorem commentFree_display (x : FloatParts) : CommentFree x.display := by
  obtain ⟨magnitude, hmagnitude, htext⟩ := display_signed x
  rw [htext]
  exact commentFree_signed hmagnitude _

theorem Constant.unmarked_text (c : Constant) : Unmarked c.text := by
  cases c <;> decide

/-- A number that is not finite has a name without a minus. -/
theorem floatText_signed (x : FloatParts) : ∃ negative magnitude, Unmarked magnitude ∧
    floatText x = signed negative magnitude ∧ (negative = true → x.isNegative = true) := by
  have hdisplay := display_signed x
  unfold floatText
  split
  · exact ⟨false, _, Constant.mathInf.unmarked_text, rfl, by simp⟩
  · exact ⟨false, _, Constant.mathNegInf.unmarked_text, rfl, by simp⟩
  · obtain ⟨magnitude, hmagnitude, htext⟩ := hdisplay
    exact ⟨_, magnitude, hmagnitude, htext, id⟩

theorem toString_signed (n : Int) :
    ∃ magnitude, Unmarked magnitude ∧ toString n = signed (n < 0) magnitude := by
  cases n with
  | ofNat n => exact ⟨_, unmarked_repr n, by simp [signed]; rfl⟩
  | negSucc n => exact ⟨_, unmarked_repr (n + 1), by simp [signed]; rfl⟩

theorem commentFree_toString (n : Int) : CommentFree (toString n) := by
  obtain ⟨magnitude, hmagnitude, htext⟩ := toString_signed n
  rw [htext]
  exact commentFree_signed hmagnitude _

theorem decimal_signed (d : Decimal) :
    ∃ magnitude, Unmarked magnitude ∧ d.text = signed d.negative magnitude := by
  have hdigits : ∀ c ∈ (padded (d.scale + 1) d.mantissa).toList, c.isDigit = true :=
    fun c hc => isDigit_of_mem_padded hc
  refine ⟨_, ?_, rfl⟩
  split
  · exact unmarked_ofList hdigits
  · exact unmarked_pointed hdigits _

/-- `Numeral.text` begins with a minus only if the number is negative. -/
theorem Numeral.text_signed (n : Numeral) : ∃ negative magnitude, Unmarked magnitude ∧
    n.text = signed negative magnitude ∧ (negative = true → n.isNegative = true) := by
  cases n with
  | int n =>
    obtain ⟨magnitude, hmagnitude, htext⟩ := toString_signed n.toInt
    refine ⟨_, magnitude, hmagnitude, htext, fun hneg => ?_⟩
    simpa [isNegative, Int64.lt_iff_toInt_lt] using hneg
  | uint n => exact ⟨false, _, unmarked_repr _, rfl, by simp⟩
  | float x => exact floatText_signed (parts x)
  | float32 x => exact floatText_signed (parts32 x)
  | decimal d =>
    obtain ⟨magnitude, hmagnitude, htext⟩ := decimal_signed d
    refine ⟨d.negative, magnitude ++ "dec", hmagnitude.append (by decide), ?_, id⟩
    rw [text, htext]
    cases d.negative <;> simp [signed, String.append_assoc]

theorem unmarked_writeUnits {units : List (Nat × String)} (h : ∀ u ∈ units, Unmarked u.2)
    (nanos : Nat) : Unmarked (Duration.writeUnits units nanos) := by
  induction units generalizing nanos with
  | nil => exact (show Unmarked "" by decide)
  | cons u units ih =>
    rw [List.forall_mem_cons] at h
    rw [Duration.writeUnits]
    split
    · exact ih h.2 _
    · exact ((unmarked_repr _).append h.1).append (ih h.2 _)

theorem unmarked_duration (d : Duration) : Unmarked d.text := by
  unfold Duration.text
  split
  · decide
  · exact unmarked_writeUnits (by decide) _

end

/-! ## Pieces -/

namespace Piece

variable {token : Quoted → String} {ps : List Piece}

/-- Whether the names among `ps` are `Unmarked`. -/
def NamesUnmarked (ps : List Piece) : Prop := ∀ name ∈ names ps, Unmarked name

@[simp] theorem namesUnmarked_nil : NamesUnmarked [] := by simp [NamesUnmarked, names]

@[simp] theorem namesUnmarked_bare (s : String) (ps : List Piece) :
    NamesUnmarked (.bare s :: ps) ↔ NamesUnmarked ps :=
  Iff.rfl

@[simp] theorem namesUnmarked_quoted (q : Quoted) (ps : List Piece) :
    NamesUnmarked (.quoted q :: ps) ↔ NamesUnmarked ps :=
  Iff.rfl

@[simp] theorem namesUnmarked_name (s : String) (ps : List Piece) :
    NamesUnmarked (.name s :: ps) ↔ Unmarked s ∧ NamesUnmarked ps := by
  simp [NamesUnmarked, names]

@[simp] theorem namesUnmarked_append (ps qs : List Piece) :
    NamesUnmarked (ps ++ qs) ↔ NamesUnmarked ps ∧ NamesUnmarked qs := by
  induction ps with
  | nil => simp
  | cons p ps ih => cases p <;> simp [ih, and_assoc]

@[simp] theorem namesUnmarked_between (left right : String) (ps : List Piece) :
    NamesUnmarked (between left right ps) ↔ NamesUnmarked ps := by
  simp [between]

@[simp] theorem namesUnmarked_withParensIf (needed : Bool) (ps : List Piece) :
    NamesUnmarked (withParensIf needed ps) ↔ NamesUnmarked ps := by
  cases needed <;> simp [withParensIf]

@[simp] theorem namesUnmarked_withCommas (pss : List (List Piece)) :
    NamesUnmarked (withCommas pss) ↔ ∀ ps ∈ pss, NamesUnmarked ps := by
  induction pss with
  | nil => simp [withCommas]
  | cons ps rest ih =>
    cases rest with
    | nil => simp [withCommas]
    | cons next rest => simp [withCommas, ih]

@[simp] theorem namesUnmarked_objectKey (key : String) (ps : List Piece) :
    NamesUnmarked (objectKey key :: ps) ↔ NamesUnmarked ps := by
  unfold objectKey
  split <;> rfl

theorem sealed_between {left right : String} (h : CommentFree (render token ps))
    (hbrackets : Brackets left right) : Sealed (render token (between left right ps)) := by
  rw [render_between]
  exact h.between hbrackets

theorem commentFree_withParensIf (h : CommentFree (render token ps)) (needed : Bool) :
    CommentFree (render token (withParensIf needed ps)) := by
  rw [render_withParensIf]
  exact h.parensIf needed

theorem commentFree_withCommas {pss : List (List Piece)}
    (h : ∀ ps ∈ pss, CommentFree (render token ps)) :
    CommentFree (render token (withCommas pss)) := by
  rw [render_withCommas]
  exact .commas (by simpa using h)

theorem sealed_call {name : String} (hname : Unmarked name) (h : CommentFree (render token ps)) :
    Sealed (render token (.name name :: between "(" ")" ps)) :=
  hname.sealed.append (sealed_between h (by decide))

theorem sealed_append {qs : List Piece} (hps : NamesUnmarked ps → Sealed (render token ps))
    (hqs : NamesUnmarked qs → Sealed (render token qs)) (h : NamesUnmarked (ps ++ qs)) :
    Sealed (render token (ps ++ qs)) := by
  rw [namesUnmarked_append] at h
  rw [render_append]
  exact (hps h.1).append (hqs h.2)

/-- What a clause comes to: a text that anything `CommentFree` can stand before. -/
def Trailing (token : Quoted → String) (ps : List Piece) : Prop :=
  CommentFree (render token ps) ∧ StartsUnmarked (render token ps)

theorem trailing_nil : Trailing token [] :=
  have hempty : Sealed "" := (show Unmarked "" by decide).sealed
  ⟨hempty.commentFree, hempty.starts⟩

theorem trailing_keyword {keyword : String} (hkeyword : Unmarked keyword) (hne : keyword ≠ "")
    (h : CommentFree (render token ps)) : Trailing token (.bare keyword :: ps) :=
  ⟨hkeyword.sealed.commentFree.append h (.inl hkeyword.sealed.ends),
    hkeyword.sealed.starts.append_of_ne hne⟩

theorem unmarked_of_isPlain {name : String} (h : Token.isPlain name = true) : Unmarked name :=
  .of_all (p := isWordChar) (by decide) (Token.all_of_isPlain h)

theorem unmarked_ident (htoken : ∀ q, Unmarked (token q)) (name : String) :
    Unmarked (render token [ident name]) := by
  unfold ident
  split
  · rename_i hplain
    simpa using unmarked_of_isPlain hplain
  · simpa using htoken _

theorem unmarked_objectKey (htoken : ∀ q, Unmarked (token q)) (key : String) :
    Unmarked (render token [objectKey key]) := by
  unfold objectKey
  split
  · rename_i hplain
    simpa using unmarked_of_isPlain hplain
  · simpa using htoken _

theorem unmarked_label (htoken : ∀ q, Unmarked (token q)) (c : Column) :
    Unmarked (render token (label c)) := by
  have hempty : Unmarked (render token []) := show Unmarked "" by decide
  obtain ⟨t, _ | name⟩ := c
  · exact hempty
  · simp only [label]
    split
    · exact hempty
    · exact (show Unmarked " AS " by decide).append (unmarked_ident htoken name)

theorem sealed_field (htoken : ∀ q, Unmarked (token q)) (first : Bool) (name : String) :
    Sealed (render token (if first then [ident name] else [.bare ".", ident name])) := by
  have hname := unmarked_ident htoken name
  cases first with
  | true => exact hname.sealed
  | false => exact ((show Unmarked "." by decide).append hname).sealed

theorem sealed_index (n : Int64) :
    Sealed (render token (between "[" "]" [.bare (toString n.toInt)])) := by
  have hindex : CommentFree (render token [.bare (toString n.toInt)]) := by
    simpa using commentFree_toString n.toInt
  exact sealed_between hindex (by decide)

end Piece

open Piece (NamesUnmarked between withCommas withParensIf sealed_append sealed_between sealed_call
    sealed_field sealed_index
  Trailing trailing_nil trailing_keyword commentFree_withParensIf commentFree_withCommas
    unmarked_ident unmarked_objectKey
  unmarked_label)

/-! ## Terms -/

/-- The text of `t` begins with no mark where a minus can stand before it, and ends with none where
a path can go on after it. -/
structure Term.CommentFreeText (token : Quoted → String) (t : Term) : Prop where
  commentFree : CommentFree (render token t.pieces)
  starts : t.looseUnder .neg = false → StartsUnmarked (render token t.pieces)
  ends : t.looseAtStart = false → EndsUnmarked (render token t.pieces)

namespace Term.CommentFreeText

variable {token : Quoted → String} {t u : Term}

theorem of_sealed (h : Sealed (render token t.pieces)) : t.CommentFreeText token :=
  ⟨h.commentFree, fun _ => h.starts, fun _ => h.ends⟩

theorem of_bare {s : String} (ht : t.pieces = [.bare s]) (h : Unmarked s) :
    t.CommentFreeText token := by
  apply of_sealed
  rw [ht]
  simpa using h.sealed

theorem of_quoted (htoken : ∀ q, Unmarked (token q)) {q : Quoted} (ht : t.pieces = [.quoted q]) :
    t.CommentFreeText token := by
  apply of_sealed
  rw [ht]
  simpa using (htoken q).sealed

/-- A number begins with a minus only if `looseUnder .neg` puts it into parentheses. -/
theorem number (n : Numeral) : (Term.number n).CommentFreeText token := by
  obtain ⟨negative, magnitude, hmagnitude, htext, hnegative⟩ := n.text_signed
  have hrender : render token (Term.number n).pieces = Number.signed negative magnitude := by
    simp [Term.pieces, htext]
  constructor
  · rw [hrender]
    exact commentFree_signed hmagnitude negative
  · intro hloose
    cases negative with
    | true => exact absurd (hnegative rfl) (by simpa [looseUnder] using hloose)
    | false =>
      rw [hrender]
      exact hmagnitude.sealed.starts
  · intro hloose
    cases hloose

theorem point (x y : Float) : (Term.point x y).CommentFreeText token := by
  apply of_sealed
  refine sealed_between ?_ (by decide)
  have hinside := (commentFree_display (Number.parts x)).separated (show Unmarked ", " by decide)
    (by decide) (commentFree_display (Number.parts y))
  simpa using hinside

/-- A minus and its operand, which is in parentheses or begins with no mark. -/
theorem negated (h : t.CommentFreeText token) :
    CommentFree ("-" ++ parensIf (t.looseUnder .neg) (render token t.pieces)) := by
  have hminus : CommentFree "-" := ⟨by decide, by decide⟩
  cases hloose : t.looseUnder .neg with
  | true => exact hminus.append h.commentFree.parens.commentFree (.inr h.commentFree.parens.starts)
  | false => exact hminus.append h.commentFree (.inr (h.starts hloose))

theorem unary (h : t.CommentFreeText token) (op : UnaryOp) :
    (Term.unary op t).CommentFreeText token where
  commentFree := by
    simp only [Term.pieces, Piece.render_bare, Piece.render_withParensIf]
    cases op with
    | not =>
      have hnot : Sealed "!" := (show Unmarked "!" by decide).sealed
      exact hnot.commentFree.append (h.commentFree.parensIf _) (.inl hnot.ends)
    | neg => exact h.negated
  starts hloose := by cases hloose
  ends hloose := by cases hloose

theorem binary (ht : t.CommentFreeText token) (hu : u.CommentFreeText token) (op : BinaryOp) :
    (Term.binary t op u).CommentFreeText token where
  commentFree := by
    have hop : CommentFree op.text := by cases op <;> exact ⟨by decide, by decide⟩
    have hright := hop.separated (show Unmarked " " by decide) (by decide)
      (commentFree_withParensIf hu.commentFree u.looseInBinary)
    have hboth := (commentFree_withParensIf ht.commentFree t.looseInBinary).separated
      (show Unmarked " " by decide) (by decide) hright
    simpa [Term.pieces] using hboth
  starts hloose := by cases hloose
  ends hloose := by cases hloose

theorem cast (h : t.CommentFreeText token) (kind : CastKind) :
    (Term.cast kind t).CommentFreeText token := by
  have hkind : Unmarked ("<" ++ kind.text ++ "> ") := by cases kind <;> decide
  have hrender : render token (Term.cast kind t).pieces =
      ("<" ++ kind.text ++ "> ") ++ render token (withParensIf t.looseAfterSign t.pieces) := by
    simp [Term.pieces]
  constructor
  · rw [hrender]
    exact hkind.sealed.commentFree.append (commentFree_withParensIf h.commentFree _)
      (.inl hkind.sealed.ends)
  · intro _
    rw [hrender]
    exact hkind.sealed.starts.append_of_ne (by simp)
  · intro hloose
    cases hloose

theorem range (ht : t.CommentFreeText token) (hu : u.CommentFreeText token) :
    (Term.range t u).CommentFreeText token where
  commentFree := by
    have hboth := (commentFree_withParensIf ht.commentFree t.looseInRange).separated
      (show Unmarked ".." by decide) (by decide)
      (commentFree_withParensIf hu.commentFree u.looseInRange)
    simpa [Term.pieces] using hboth
  starts hloose := by cases hloose
  ends hloose := by cases hloose

/-- Unless `looseAtStart` asks for parentheses, a path begins with no minus. -/
theorem start (h : t.CommentFreeText token) :
    Sealed (render token (withParensIf t.looseAtStart t.pieces)) := by
  rw [Piece.render_withParensIf]
  cases hloose : t.looseAtStart with
  | true => exact h.commentFree.parens
  | false =>
    -- Whatever would need parentheses after a minus needs them at the start of a path.
    have hminus : t.looseUnder .neg = false := by
      cases t <;> first | rfl | cases hloose
    exact ⟨h.commentFree, h.starts hminus, h.ends hloose⟩

end Term.CommentFreeText

/-! ## Statements -/

section
variable {token : Quoted → String}

mutual

/-- `CommentFreeText` of every term, by induction along the syntax. What a term prints is closed in
by brackets, or is `Sealed`, or is one of the operators above. -/
theorem Term.commentFreeText (htoken : ∀ q, Unmarked (token q)) : ∀ t : Term,
    NamesUnmarked t.pieces → t.CommentFreeText token
  | .absent, _ | .null, _ | .object [], _ => .of_bare rfl (by decide)
  | .bool b, _ => .of_bare rfl (by cases b <;> decide)
  | .number n, _ => .number n
  | .duration d, _ => .of_bare rfl (unmarked_duration d)
  | .constant c, _ => .of_bare rfl c.unmarked_text
  | .string _, _ | .char _, _ | .dateTime _, _ | .guid _, _ => .of_quoted htoken rfl
  | .point x y, _ => .point x y
  | .array items, h => by
    have hitems := Term.commentFree_listPieces htoken items (by simpa [Term.pieces] using h)
    exact .of_sealed (sealed_between (commentFree_withCommas hitems) (by decide))
  | .object (m :: members), h => by
    have hmembers := Term.commentFree_memberPieces htoken (m :: members)
      (by simpa [Term.pieces] using h)
    exact .of_sealed (sealed_between (commentFree_withCommas hmembers) (by decide))
  | .param name, h => by
    have hname : Unmarked name := by simpa [Term.pieces] using h
    apply Term.CommentFreeText.of_sealed
    simpa [Term.pieces] using ((show Unmarked "$" by decide).append hname).sealed
  | .path parts, h => .of_sealed (Part.sealed_pieces htoken true parts h)
  | .call function args, h => by
    simp only [Term.pieces, Piece.namesUnmarked_name, Piece.namesUnmarked_between,
      Piece.namesUnmarked_withCommas] at h
    exact .of_sealed (sealed_call h.1
      (commentFree_withCommas (Term.commentFree_listPieces htoken args h.2)))
  | .unary op operand, h =>
    (operand.commentFreeText htoken (by simpa [Term.pieces] using h)).unary op
  | .binary left op right, h => by
    have hboth : NamesUnmarked left.pieces ∧ NamesUnmarked right.pieces := by
      simpa [Term.pieces] using h
    exact (left.commentFreeText htoken hboth.1).binary (right.commentFreeText htoken hboth.2) op
  | .cast kind operand, h =>
    (operand.commentFreeText htoken (by simpa [Term.pieces] using h)).cast kind
  | .range first last, h => by
    have hboth : NamesUnmarked first.pieces ∧ NamesUnmarked last.pieces := by
      simpa [Term.pieces] using h
    exact (first.commentFreeText htoken hboth.1).range (last.commentFreeText htoken hboth.2)
  | .subquery s, h =>
    .of_sealed (sealed_between (s.commentFree_pieces htoken (by simpa [Term.pieces] using h))
      (by decide))
termination_by structural t => t

theorem Term.commentFree_listPieces (htoken : ∀ q, Unmarked (token q)) :
    ∀ ts : List Term, (∀ ps ∈ Term.listPieces ts, NamesUnmarked ps) → ∀ ps ∈ Term.listPieces ts,
      CommentFree (render token ps)
  | [], _ => by simp [Term.listPieces]
  | t :: ts, h => by
    rw [Term.listPieces, List.forall_mem_cons] at h ⊢
    exact ⟨(t.commentFreeText htoken h.1).commentFree, Term.commentFree_listPieces htoken ts h.2⟩
termination_by structural ts => ts

theorem Term.commentFree_memberPieces (htoken : ∀ q, Unmarked (token q)) :
    ∀ ms : List (String × Term), (∀ ps ∈ Term.memberPieces ms, NamesUnmarked ps) →
      ∀ ps ∈ Term.memberPieces ms, CommentFree (render token ps)
  | [], _ => by simp [Term.memberPieces]
  | (key, t) :: ms, h => by
    rw [Term.memberPieces, List.forall_mem_cons] at h ⊢
    refine ⟨?_, Term.commentFree_memberPieces htoken ms h.2⟩
    have hkey := unmarked_objectKey htoken key
    have ht := (t.commentFreeText htoken (by simpa using h.1)).commentFree
    have hboth := hkey.sealed.commentFree.separated (show Unmarked ": " by decide) (by decide) ht
    rw [← List.singleton_append, Piece.render_append, Piece.render_bare]
    exact hboth
termination_by structural ms => ms

/-- Each part of a path is `Sealed` by itself, so that any other one can follow it. -/
theorem Part.sealed_pieces (htoken : ∀ q, Unmarked (token q)) (first : Bool) :
    ∀ parts : List Part, NamesUnmarked (Part.pieces first parts) →
      Sealed (render token (Part.pieces first parts))
  | [], _ => (show Unmarked "" by decide).sealed
  | .start t :: parts, h =>
    sealed_append (fun h => (t.commentFreeText htoken (by simpa using h)).start)
      (Part.sealed_pieces htoken false parts) h
  | .field name :: parts, h =>
    sealed_append (fun _ => sealed_field htoken first name) (Part.sealed_pieces htoken false parts)
      h
  | .parent :: parts, h =>
    sealed_append (fun _ => (show Unmarked ".$parent" by decide).sealed)
      (Part.sealed_pieces htoken false parts) h
  | .index n :: parts, h =>
    sealed_append (fun _ => sealed_index n) (Part.sealed_pieces htoken false parts) h
  | .item t :: parts, h =>
    sealed_append (fun h => sealed_between (t.commentFreeText htoken (by simpa using h)).commentFree
      (by decide)) (Part.sealed_pieces htoken false parts) h
  | .method name args :: parts, h => by
    refine sealed_append (fun h => ?_) (Part.sealed_pieces htoken false parts) h
    simp only [Piece.namesUnmarked_bare, Piece.namesUnmarked_name, Piece.namesUnmarked_between,
      Piece.namesUnmarked_withCommas] at h
    exact (show Unmarked "." by decide).sealed.append
      (sealed_call h.1 (commentFree_withCommas (Term.commentFree_listPieces htoken args h.2)))
termination_by structural parts => parts

theorem Column.commentFree_listPieces (htoken : ∀ q, Unmarked (token q)) :
    ∀ columns : List Column, (∀ ps ∈ Column.listPieces columns, NamesUnmarked ps) →
      ∀ ps ∈ Column.listPieces columns, CommentFree (render token ps)
  | [], _ => by simp [Column.listPieces]
  | ⟨t, label⟩ :: columns, h => by
    rw [Column.listPieces, List.forall_mem_cons] at h ⊢
    refine ⟨?_, Column.commentFree_listPieces htoken columns h.2⟩
    have ht := (t.commentFreeText htoken ((Piece.namesUnmarked_append _ _).mp h.1).1).commentFree
    have hlabel := (unmarked_label htoken ⟨t, label⟩).sealed
    rw [Piece.render_append]
    exact ht.append hlabel.commentFree (.inr hlabel.starts)
termination_by structural columns => columns

theorem Columns.commentFree_pieces (htoken : ∀ q, Unmarked (token q)) :
    ∀ columns : Columns, NamesUnmarked columns.pieces → CommentFree (render token columns.pieces)
  | .all, _ | .list [], _ => show CommentFree "*" from ⟨by decide, by decide⟩
  | .value t, h => by
    have ht := (t.commentFreeText htoken (by simpa [Columns.pieces] using h)).commentFree
    have hvalue : Sealed "VALUE " := (show Unmarked "VALUE " by decide).sealed
    exact hvalue.commentFree.append ht (.inl hvalue.ends)
  | .list (c :: columns), h =>
    commentFree_withCommas (Column.commentFree_listPieces htoken (c :: columns)
      (by simpa [Columns.pieces] using h))
termination_by structural columns => columns

theorem Target.commentFree_pieces (htoken : ∀ q, Unmarked (token q)) :
    ∀ target : Target, NamesUnmarked target.pieces → CommentFree (render token target.pieces)
  | .table name, _ => (unmarked_ident htoken name).sealed.commentFree
  | .subquery s, h =>
    (sealed_between (s.commentFree_pieces htoken (by simpa [Target.pieces] using h))
      (by decide)).commentFree
termination_by structural target => target

theorem OrderBy.commentFree_listPieces (htoken : ∀ q, Unmarked (token q)) :
    ∀ order : List OrderBy, (∀ ps ∈ OrderBy.listPieces order, NamesUnmarked ps) →
      ∀ ps ∈ OrderBy.listPieces order, CommentFree (render token ps)
  | [], _ => by simp [OrderBy.listPieces]
  | ⟨t, descending⟩ :: order, h => by
    rw [OrderBy.listPieces, List.forall_mem_cons] at h ⊢
    refine ⟨?_, OrderBy.commentFree_listPieces htoken order h.2⟩
    have hdescending : Unmarked (if descending then " DESC" else "") := by
      cases descending <;> decide
    have ht := (t.commentFreeText htoken (by simpa using h.1)).commentFree
    have hboth := ht.append hdescending.sealed.commentFree (.inr hdescending.sealed.starts)
    simpa using hboth
termination_by structural order => order

theorem Term.trailing_clausePieces (htoken : ∀ q, Unmarked (token q)) {keyword : String}
    (hkeyword : Unmarked keyword) (hne : keyword ≠ "") :
    ∀ t : Option Term, NamesUnmarked (Term.clausePieces keyword t) →
      Trailing token (Term.clausePieces keyword t)
  | none, _ => trailing_nil
  | some t, h =>
    trailing_keyword hkeyword hne
    (t.commentFreeText htoken (by simpa [Term.clausePieces] using h)).commentFree
termination_by structural t => t

theorem GroupBy.trailing_clausePieces (htoken : ∀ q, Unmarked (token q)) :
    ∀ group : Option GroupBy, NamesUnmarked (GroupBy.clausePieces group) →
      Trailing token (GroupBy.clausePieces group)
  | none, _ | some (.keys []), _ => trailing_nil
  | some .all, _ => trailing_keyword (by decide) (by decide) trailing_nil.1
  | some (.keys (t :: terms)), h =>
    trailing_keyword (by decide) (by decide)
      (commentFree_withCommas (Term.commentFree_listPieces htoken (t :: terms)
        (by simpa [GroupBy.clausePieces] using h)))
termination_by structural group => group

theorem Statement.commentFree_pieces (htoken : ∀ q, Unmarked (token q)) :
    ∀ s : Statement, NamesUnmarked s.pieces → CommentFree (render token s.pieces)
  | ⟨columns, target, only, cond, group, order, limit, start⟩, h => by
    simp only [Statement.pieces, Piece.namesUnmarked_bare, Piece.namesUnmarked_append] at h
    obtain ⟨hcolumns, ⟨⟨⟨⟨htarget, hcond⟩, hgroup⟩, horder⟩, hlimit⟩, hstart⟩ := h
    have hselect : Sealed "SELECT " := (show Unmarked "SELECT " by decide).sealed
    have hfrom : Unmarked (if only then " FROM ONLY " else " FROM ") := by cases only <;> decide
    have hne : (if only then " FROM ONLY " else " FROM ") ≠ "" := by cases only <;> decide
    have horder : Trailing token (if order.isEmpty then [] else
        .bare " ORDER BY " :: withCommas (OrderBy.listPieces order)) := by
      split
      · exact trailing_nil
      · rename_i hempty
        have hlevels : ∀ ps ∈ OrderBy.listPieces order, NamesUnmarked ps := by
          simpa [hempty] using horder
        exact trailing_keyword (by decide) (by decide)
          (commentFree_withCommas (OrderBy.commentFree_listPieces htoken order hlevels))
    have hwhere := Term.trailing_clausePieces htoken (show Unmarked " WHERE " by decide)
      (by decide) cond hcond
    have hgroup := GroupBy.trailing_clausePieces htoken group hgroup
    have hlimit := Term.trailing_clausePieces htoken (show Unmarked " LIMIT " by decide) (by decide)
      limit hlimit
    have hstart := Term.trailing_clausePieces htoken (show Unmarked " START " by decide) (by decide)
      start hstart
    -- A clause begins with a blank, so it does not matter what the text before it ends with.
    have hbody := (target.commentFree_pieces htoken htarget).followed hwhere
      |>.followed hgroup |>.followed horder |>.followed hlimit |>.followed hstart
    simp only [Statement.pieces, Piece.render_bare, Piece.render_append]
    exact hselect.commentFree.append ((columns.commentFree_pieces htoken hcolumns).separated hfrom
      hne hbody) (.inl hselect.ends)
termination_by structural s => s

end

theorem Query.commentFree_pieces (htoken : ∀ q, Unmarked (token q)) (q : Query)
    (h : NamesUnmarked q.pieces) : CommentFree (render token q.pieces) := by
  cases q with
  | statement s => exact s.commentFree_pieces htoken h
  | term t => exact (t.commentFreeText htoken h).commentFree

end

/-- With its quoted tokens written in any `Unmarked` way, the text of `q` opens no comment, if the
names of its parameters, functions and methods have only the characters of names. -/
theorem query_opens_no_comment (q : Query) (token : Quoted → String)
    (htoken : ∀ quoted, Unmarked (token quoted))
    (hnames : ∀ name ∈ Piece.names q.pieces, ∀ c ∈ name.toList, isNameChar c = true) :
    render Quoted.text q.pieces = q.text ∧
      ∀ opener ∈ commentOpeners, ¬ opener.toList <:+: (render token q.pieces).toList := by
  refine ⟨q.render_pieces, ?_⟩
  have hnames : NamesUnmarked q.pieces := by
    intro name hname
    exact .of_all (p := isNameChar) (by decide) (hnames name hname)
  exact (q.commentFree_pieces htoken hnames).no_opener

/-- A difference whose operands are full of minus signs. -/
def dashes : Term :=
  .binary (.unary .neg (.unary .neg (.param "p"))) .sub
    (.path [.field "a-b", .index (-1), .method "m" [.string "--", .number (.int (-1))]])

theorem dashes_opens_no_comment :
    Piece.names (Query.term dashes).pieces = ["p", "m"] ∧
      (Query.term dashes).text = "-(-$p) - \x60a-b\x60[-1].m(\"--\", -1)" ∧
      ∀ opener ∈ commentOpeners, ¬ opener.toList <:+: "-(-$p) - _[-1].m(_, -1)".toList := by
  have hplaceholder : Unmarked "_" := by decide
  have hnames : Piece.names (Query.term dashes).pieces = ["p", "m"] := rfl
  have hchars : ["p", "m"].all (fun name => name.toList.all isNameChar) = true := by decide
  have h := query_opens_no_comment (.term dashes) (fun _ => "_") (fun _ => hplaceholder)
    (fun name hname =>
    List.all_eq_true.mp (List.all_eq_true.mp hchars name (hnames ▸ hname)))
  exact ⟨hnames, h.1.symm.trans rfl, h.2⟩

end QueryTree.Surql
