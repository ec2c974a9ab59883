import QueryTree.Json.Printer
import QueryTree.Json.Reader
import QueryTree.Proofs.Digits

/-!
# JSON text reads back

The compact text of a value that is `isExact` is read as that value. The lexer holds back a bare
word until another character ends it, so `Lexes` says which tokens are found once a piece of text is
ended.
-/

namespace QueryTree.Json

/-! ## Values that are written exactly -/

mutual

/-- Whether a value has no floats, and only whole numbers of at most 64 bits. -/
def isExact : Json → Bool
  | .float _ => false
  | .int n => -9223372036854775808 ≤ n && n ≤ 18446744073709551615
  | .array items => itemsExact items
  | .object members => membersExact members
  | _ => true
termination_by structural j => j

def itemsExact : List Json → Bool
  | [] => true
  | item :: items => item.isExact && itemsExact items
termination_by structural items => items

def membersExact : List (String × Json) → Bool
  | [] => true
  | (_, value) :: members => value.isExact && membersExact members
termination_by structural members => members

end

mutual

/-- How many arrays and objects are open at a time in a value. -/
def depth : Json → Nat
  | .array items => itemsDepth items + 1
  | .object members => membersDepth members + 1
  | _ => 0
termination_by structural j => j

def itemsDepth : List Json → Nat
  | [] => 0
  | item :: items => max item.depth (itemsDepth items)
termination_by structural items => items

def membersDepth : List (String × Json) → Nat
  | [] => 0
  | (_, value) :: members => max value.depth (membersDepth members)
termination_by structural members => members

end

/-! ## Whole numbers -/

/-- The values of the digits of `n`. -/
def digitValues (n : Nat) : List Nat := (Nat.toDigits 10 n).map fun c => c.toNat - '0'.toNat

theorem spanDigits_digits {ds : List Char} (h : ∀ c ∈ ds, c.isDigit = true) :
    spanDigits ds = (ds.map fun c => c.toNat - '0'.toNat, []) := by
  induction ds with
  | nil => rfl
  | cons c ds ih =>
    have hc := h c List.mem_cons_self
    have hrest := ih fun c hc => h c (List.mem_cons_of_mem _ hc)
    rw [spanDigits, Prod.mk.injEq] at hrest ⊢
    rw [List.takeWhile_cons_of_pos hc, List.dropWhile_cons_of_pos hc,
      List.filterMap_cons_some (Text.digit?_of_isDigit hc), hrest.1, List.map_cons]
    exact ⟨rfl, hrest.2⟩

theorem spanDigits_toDigits (n : Nat) : spanDigits (Nat.toDigits 10 n) = (digitValues n, []) :=
  spanDigits_digits fun _ => Text.isDigit_of_mem_toDigits

/-- `digitValues` does not begin with a zero, unless there are no other digits. -/
theorem no_leading_zero (n : Nat) :
    ((digitValues n).isEmpty || ((digitValues n).length != 1 && (digitValues n).head? == some 0)) =
      false := by
  by_cases hn : n = 0
  · subst hn
    rfl
  have hhead := Text.head?_toDigits hn
  unfold digitValues
  cases hds : Nat.toDigits 10 n with
  | nil => exact absurd hds Nat.toDigits_ne_nil
  | cons c ds =>
    have hdigit : c.isDigit = true := Text.isDigit_of_mem_toDigits (n := n) (by simp [hds])
    have hrange : '0'.toNat ≤ c.toNat ∧ c.toNat ≤ '9'.toNat := by
      simpa [Char.isDigit, UInt32.le_iff_toNat_le] using hdigit
    have hc : c ≠ '0' := by
      rintro rfl
      simp [hds] at hhead
    have hvalue : c.toNat ≠ '0'.toNat := fun h => hc (Char.toNat_inj.mp h)
    have hpos : c.toNat - '0'.toNat ≠ 0 := by omega
    simp [-Char.reduceToNat, hpos]

/-- As long as the number fits `maxSignificand`, no digit is dropped. -/
theorem foldl_significand {ds : List Char} {n : Nat}
    (h : Nat.ofDigitChars 10 ds n ≤ maxSignificand) :
    (ds.map fun c => c.toNat - '0'.toNat).foldl (fun (significand, dropped) d =>
      if dropped == 0 && significand * 10 + d ≤ maxSignificand then (significand * 10 + d, 0)
      else (significand, dropped + 1)) (n, 0) = (Nat.ofDigitChars 10 ds n, 0) := by
  induction ds generalizing n with
  | nil => rfl
  | cons c ds ih =>
    rw [Nat.ofDigitChars_cons, Nat.mul_comm 10 n] at h ⊢
    have hnext : n * 10 + (c.toNat - '0'.toNat) ≤ maxSignificand :=
      Nat.le_trans (Text.le_ofDigitChars ds _) h
    have hstep : (0 == 0 && decide (n * 10 + (c.toNat - '0'.toNat) ≤ maxSignificand)) = true := by
      simpa using hnext
    rw [List.map_cons, List.foldl_cons]
    simp only [if_pos hstep]
    exact ih h

theorem wholeSignificand_digitValues {n : Nat} (h : n ≤ maxSignificand) :
    wholeSignificand (digitValues n) = (n, 0) := by
  have hread : Nat.ofDigitChars 10 (Nat.toDigits 10 n) 0 = n := Nat.ofDigitChars_ten_toDigits
  have hfold := @foldl_significand (Nat.toDigits 10 n) 0 (by rwa [hread])
  rwa [hread] at hfold

theorem readNumberText_natural (n : Nat) :
    readNumberText (Nat.toDigits 10 n) = some ⟨false, digitValues n, none, none⟩ := by
  have hdigits : ∀ c ∈ Nat.toDigits 10 n, c.isDigit = true := fun _ => Text.isDigit_of_mem_toDigits
  have hspan := spanDigits_toDigits n
  generalize Nat.toDigits 10 n = ds at hdigits hspan
  unfold readNumberText
  split
  rename_i hmatch
  split at hmatch
  · cases hdigits _ List.mem_cons_self
  · cases hmatch
    simp only [hspan, no_leading_zero, Bool.false_eq_true, if_false, readExponent]
    rfl

theorem readNumberText_negative (n : Nat) :
    readNumberText ('-' :: Nat.toDigits 10 n) = some ⟨true, digitValues n, none, none⟩ := by
  simp only [readNumberText, spanDigits_toDigits, no_leading_zero, Bool.false_eq_true, if_false,
    readExponent]
  rfl

theorem number?_natural {n : Nat} (h : n ≤ maxSignificand) :
    number? (Nat.toDigits 10 n) = some (.int n) := by
  rw [number?, readNumberText_natural]
  simp [NumberText.value?, wholeSignificand_digitValues h]

theorem number?_negative {n : Nat} (hpos : n ≠ 0) (h : n ≤ 9223372036854775808) :
    number? ('-' :: Nat.toDigits 10 n) = some (.int (-(n : Int))) := by
  have hsmall : n ≤ maxSignificand := Nat.le_trans h (by decide)
  rw [number?, readNumberText_negative]
  simp [NumberText.value?, wholeSignificand_digitValues hsmall, hpos, h]

theorem number?_toString {n : Int} (hlow : -9223372036854775808 ≤ n)
    (hhigh : n ≤ 18446744073709551615) : number? (toString n).toList = some (.int n) := by
  cases n with
  | ofNat n =>
    rw [Text.toString_ofNat_toList]
    have hn : n ≤ 18446744073709551615 := Int.ofNat_le.mp hhigh
    exact number?_natural hn
  | negSucc n =>
    rw [Text.toString_negSucc_toList]
    exact number?_negative (by omega) (by omega)

/-! ## Tokens -/

/-- The tokens that `l` has found if the text ends here, latest first. -/
def Lexer.ended? (l : Lexer) : Option (List Token) :=
  match l.state with
  | .idle => some l.found
  | .word read => (atom? read.reverse).map fun value => .atom value :: l.found
  | _ => none

theorem tokens?_eq (s : String) :
    tokens? s = (s.toList.foldlM Lexer.step {}).bind fun l => l.ended?.map List.reverse := by
  unfold tokens?
  simp only [Option.bind_eq_bind]
  congr
  funext l
  obtain ⟨state, found⟩ := l
  cases state with
  | word read =>
    simp only [Lexer.ended?]
    cases atom? read.reverse <;> rfl
  | _ => rfl

/-- A character with `endsWord` ends the text before it. -/
theorem Lexer.step_of_ended {l : Lexer} {found : List Token} {c : Char} (h : l.ended? = some found)
    (hc : endsWord c = true) : l.step c = some (lexIdle found c) := by
  obtain ⟨state, earlier⟩ := l
  cases state with
  | idle =>
    cases h
    rfl
  | word read =>
    obtain ⟨value, hvalue, rfl⟩ := Option.map_eq_some_iff.mp h
    simp [step, hc, hvalue]
  | _ => cases h

theorem lexIdle_word {c : Char} (h : endsWord c = false) (found : List Token) :
    lexIdle found c = ⟨.word [c], found⟩ := by
  simp only [endsWord, Bool.or_eq_false_iff] at h
  unfold lexIdle
  rw [if_neg (by simp [h.1])]
  split
  case h_8 => rfl
  all_goals simp at h

/-- From between tokens on, `ts` are found in `cs`. -/
def Lexes (cs : List Char) (ts : List Token) : Prop :=
  ∀ found, ∃ l, cs.foldlM Lexer.step ⟨.idle, found⟩ = some l ∧ l.ended? = some (ts.reverse ++ found)

namespace Lexes

theorem nil : Lexes [] [] := fun found => ⟨⟨.idle, found⟩, rfl, rfl⟩

/-- `Lexes` of two texts with a character between them that stands by itself. -/
theorem mark {cs ds : List Char} {ts us : List Token} {c : Char} {t : Token} (hl : Lexes cs ts)
    (hr : Lexes ds us) (hends : endsWord c = true)
    (hidle : ∀ found, lexIdle found c = ⟨.idle, t :: found⟩) :
    Lexes (cs ++ c :: ds) (ts ++ t :: us) := by
  intro found
  obtain ⟨l, hstart, hended⟩ := hl found
  obtain ⟨m, hrest, hfound⟩ := hr (t :: (ts.reverse ++ found))
  refine ⟨m, ?_, by rw [hfound]; simp⟩
  rw [List.foldlM_append, hstart]
  simp only [Option.bind_eq_bind, Option.bind_some, List.foldlM_cons,
    Lexer.step_of_ended hended hends, hidle, hrest]

theorem word {cs : List Char} {j : Json} (hne : cs ≠ []) (h : ∀ c ∈ cs, endsWord c = false)
    (hatom : atom? cs = some j) : Lexes cs [.atom j] := by
  -- A word that was begun goes on; what is read of it is kept in reverse.
  have hrun : ∀ (ds read : List Char) (found : List Token), (∀ c ∈ ds, endsWord c = false) →
      ds.foldlM Lexer.step ⟨.word read, found⟩ = some ⟨.word (ds.reverse ++ read), found⟩ := by
    intro ds
    induction ds with
    | nil => intros; rfl
    | cons c ds ih =>
      intro read found hds
      have hc := hds c List.mem_cons_self
      simp only [List.foldlM_cons, Lexer.step, hc, Bool.false_eq_true, if_false,
        Option.bind_eq_bind, Option.bind_some]
      rw [ih _ _ fun c hc => hds c (List.mem_cons_of_mem _ hc)]
      simp
  intro found
  cases cs with
  | nil => exact absurd rfl hne
  | cons c cs =>
    have hfirst := lexIdle_word (h c List.mem_cons_self) found
    refine ⟨⟨.word (cs.reverse ++ [c]), found⟩, ?_, ?_⟩
    · rw [List.foldlM_cons, Lexer.step]
      simp only [hfirst, Option.bind_eq_bind, Option.bind_some]
      exact hrun cs [c] found fun c hc => h c (List.mem_cons_of_mem _ hc)
    · simp [Lexer.ended?, hatom]

/-- A control character is read from its four digits. -/
theorem escapeCode_run {c : Char} (h : c.toNat < 0x20) (read : List Char) (found : List Token) :
    ('\\' :: 'u' :: Text.hexDigits 4 c.toNat).foldlM Lexer.step ⟨.text read, found⟩ =
      some ⟨.text (c :: read), found⟩ := by
  have hdigit : ∀ n, Text.hexDigit? (Text.hexChar (n % 16)) = some (n % 16) := fun n =>
    Text.hexDigit?_hexChar (Nat.mod_lt n (by decide))
  have hescape : Lexer.step ⟨.text read, found⟩ '\\' = some ⟨.escape read, found⟩ := rfl
  have hcode : Lexer.step ⟨.escape read, found⟩ 'u' = some ⟨.code read none 0 0, found⟩ := rfl
  have hnext : ∀ count value n, count ≠ 3 → Lexer.step ⟨.code read none count value, found⟩
      (Text.hexChar (n % 16)) =
        some ⟨.code read none (count + 1) (value * 16 + n % 16), found⟩ := by
    intro count value n hcount
    simp [Lexer.step, hdigit, hcount]
  have hlast : ∀ value n, value * 16 + n % 16 = c.toNat →
      Lexer.step ⟨.code read none 3 value, found⟩ (Text.hexChar (n % 16)) = some
        ⟨.text (c :: read), found⟩ := by
    intro value n hvalue
    have hend : lexCode read none c.toNat = some (.text (c :: read)) := by
      rw [lexCode, if_neg (by simp; omega), if_neg (by simp; omega), Char.ofNat_toNat]
    simp [Lexer.step, hdigit, hvalue, hend]
  have hdigits : Text.hexDigits 4 c.toNat = [Text.hexChar (c.toNat / 16 / 16 / 16 % 16),
      Text.hexChar (c.toNat / 16 / 16 % 16), Text.hexChar (c.toNat / 16 % 16),
        Text.hexChar (c.toNat % 16)] := rfl
  simp only [hdigits, List.foldlM_cons, List.foldlM_nil, hescape, hcode, hnext 0 _ _ (by decide),
    hnext 1 _ _ (by decide),
    hnext 2 _ _ (by decide), Option.bind_eq_bind, Option.bind_some]
  rw [hlast _ _ (by omega)]
  rfl

/-- What `escapeChar` is read as. -/
theorem escapeChar_run (c : Char) (read : List Char) (found : List Token) :
    (escapeChar c).foldlM Lexer.step ⟨.text read, found⟩ = some ⟨.text (c :: read), found⟩ := by
  unfold escapeChar
  split
  case h_8 hquote hbackslash _ _ _ _ _ =>
    split
    case isTrue hcontrol => exact escapeCode_run hcontrol read found
    case isFalse hplain =>
      have hq : c ≠ '"' := hquote
      have hb : c ≠ '\\' := hbackslash
      simp [Lexer.step, hq, hb, hplain]
  all_goals rfl

theorem escapes_run (cs read : List Char) (found : List Token) :
    (cs.flatMap escapeChar).foldlM Lexer.step ⟨.text read, found⟩ =
      some ⟨.text (cs.reverse ++ read), found⟩ := by
  induction cs generalizing read with
  | nil => rfl
  | cons c cs ih =>
    rw [List.flatMap_cons, List.foldlM_append, escapeChar_run, Option.bind_eq_bind,
      Option.bind_some, ih, List.reverse_cons, List.append_assoc, List.singleton_append]

theorem quoted (s : String) : Lexes (Json.quoted s).toList [.text s] := by
  intro found
  have htext : (Json.quoted s).toList = '"' :: (s.toList.flatMap escapeChar ++ ['"']) := by
    simp [Json.quoted]
  have hopen : Lexer.step ⟨.idle, found⟩ '"' = some ⟨.text [], found⟩ := rfl
  have hclose : ∀ read, Lexer.step ⟨.text read, found⟩ '"' =
      some ⟨.idle, .text (String.ofList read.reverse) :: found⟩ := fun _ => rfl
  refine ⟨⟨.idle, .text s :: found⟩, ?_, rfl⟩
  rw [htext, List.foldlM_cons, hopen, Option.bind_eq_bind, Option.bind_some, List.foldlM_append,
    escapes_run, Option.bind_eq_bind, Option.bind_some, List.foldlM_cons, hclose]
  simp

end Lexes

/-! ## Values -/

/-- Where a value may stand. -/
def Expect.isValue : Expect → Bool
  | .value | .valueOrClose => true
  | _ => false

/-- Where the name of a member may stand. -/
def Expect.isKey : Expect → Bool
  | .key | .keyOrClose => true
  | _ => false

/-- `ts` put `j` together, wherever a value may stand. -/
def Assembles (ts : List Token) (j : Json) : Prop :=
  ∀ (limit : Option Nat) (a : Assembly), a.expect.isValue = true →
    (∀ most ∈ limit, a.stack.length + j.depth ≤ most) → ts.foldlM (Assembly.step limit)
      a = some (a.put j)

/-- `ts` put the `items` of an array together. -/
def AssemblesItems (ts : List Token) (items : List Json) : Prop :=
  ∀ (limit : Option Nat) (read : List Json) (stack : List Frame) (expect : Expect),
    expect.isValue = true → (∀ most ∈ limit, stack.length + 1 + itemsDepth items ≤ most) →
    ts.foldlM (Assembly.step limit) ⟨.array read :: stack, expect, none⟩ =
      some ⟨.array (items.reverse ++ read) :: stack, .commaOrClose, none⟩

/-- `ts` put the `members` of an object together. -/
def AssemblesMembers (ts : List Token) (members : List (String × Json)) : Prop :=
  ∀ (limit : Option Nat) (read : List (String × Json)) (key : String) (stack : List Frame)
    (expect : Expect), expect.isKey = true →
    (∀ most ∈ limit, stack.length + 1 + membersDepth members ≤ most) →
    ts.foldlM (Assembly.step limit) ⟨.object read key :: stack, expect, none⟩ =
      some ⟨.object (members.reverse ++ read) "" :: stack, .commaOrClose, none⟩

theorem assembles_atom (j : Json) : Assembles [.atom j] j := by
  intro limit a hexpect _
  obtain ⟨stack, expect, result⟩ := a
  cases expect <;> first | rfl | cases hexpect

theorem assembles_text (s : String) : Assembles [.text s] (.string s) := by
  intro limit a hexpect _
  obtain ⟨stack, expect, result⟩ := a
  cases expect <;> first | rfl | cases hexpect

theorem Assembly.push_eq {limit : Option Nat} {a : Assembly}
    (h : ∀ most ∈ limit, a.stack.length + 1 ≤ most) (frame : Frame) (expect : Expect) :
    a.push limit frame expect = some ⟨frame :: a.stack, expect, none⟩ := by
  rw [push, if_neg]
  cases limit with
  | none => simp
  | some most =>
    have := h most rfl
    simp
    omega

theorem Assembly.step_openArray {limit : Option Nat} {a : Assembly} (h : a.expect.isValue = true)
    (hroom : ∀ most ∈ limit, a.stack.length + 1 ≤ most) :
    a.step limit .openArray = some ⟨.array [] :: a.stack, .valueOrClose, none⟩ := by
  rw [← push_eq hroom]
  obtain ⟨stack, expect, result⟩ := a
  cases expect <;> first | rfl | cases h

theorem Assembly.step_openObject {limit : Option Nat} {a : Assembly} (h : a.expect.isValue = true)
    (hroom : ∀ most ∈ limit, a.stack.length + 1 ≤ most) :
    a.step limit .openObject = some ⟨.object [] "" :: a.stack, .keyOrClose, none⟩ := by
  rw [← push_eq hroom]
  obtain ⟨stack, expect, result⟩ := a
  cases expect <;> first | rfl | cases h

theorem assembles_nilArray : Assembles [.openArray, .closeArray] (.array []) := by
  intro limit a hexpect hroom
  rw [List.foldlM_cons, Assembly.step_openArray hexpect hroom]
  rfl

theorem assembles_nilObject : Assembles [.openObject, .closeObject] (.object []) := by
  intro limit a hexpect hroom
  rw [List.foldlM_cons, Assembly.step_openObject hexpect hroom]
  rfl

theorem assembles_array {ts : List Token} {items : List Json} (h : AssemblesItems ts items) :
    Assembles (.openArray :: (ts ++ [.closeArray])) (.array items) := by
  intro limit a hexpect hroom
  rw [depth] at hroom
  rw [List.foldlM_cons, Assembly.step_openArray hexpect fun most
    hmost => by
    have := hroom most hmost; omega, Option.bind_eq_bind, Option.bind_some, List.foldlM_append,
    h limit [] a.stack .valueOrClose rfl fun most hmost => by have := hroom most hmost; omega]
  simp [Assembly.step, Assembly.put]

theorem assembles_object {ts : List Token} {members : List (String × Json)}
    (h : AssemblesMembers ts members) :
    Assembles (.openObject :: (ts ++ [.closeObject])) (.object members) := by
  intro limit a hexpect hroom
  rw [depth] at hroom
  rw [List.foldlM_cons, Assembly.step_openObject hexpect fun most
    hmost => by
    have := hroom most hmost; omega, Option.bind_eq_bind, Option.bind_some, List.foldlM_append,
    h limit [] "" a.stack .keyOrClose rfl fun most hmost => by have := hroom most hmost; omega]
  simp [Assembly.step, Assembly.put]

theorem assemblesItems_one {ts : List Token} {j : Json} (h : Assembles ts j) :
    AssemblesItems ts [j] := by
  intro limit read stack expect hexpect hroom
  have hvalue := h limit ⟨.array read :: stack, expect, none⟩ hexpect fun most hmost => by
    have := hroom most hmost
    simp only [itemsDepth] at this
    rw [List.length_cons]
    omega
  rw [hvalue]
  rfl

theorem assemblesItems_cons {ts us : List Token} {j : Json} {items : List Json} (h : Assembles ts j)
    (hrest : AssemblesItems us items) : AssemblesItems (ts ++ .comma :: us) (j :: items) := by
  intro limit read stack expect hexpect hroom
  have hfirst : ts.foldlM (Assembly.step limit) ⟨.array read :: stack, expect, none⟩ =
      some ⟨.array (j :: read) :: stack, .commaOrClose, none⟩ :=
    assemblesItems_one h limit read stack expect hexpect fun most hmost => by
      have := hroom most hmost
      simp only [itemsDepth] at this ⊢
      omega
  have hcomma : Assembly.step limit ⟨.array (j :: read) :: stack, .commaOrClose, none⟩ .comma =
      some ⟨.array (j :: read) :: stack, .value, none⟩ := rfl
  have hitems := hrest limit (j :: read) stack .value rfl fun most hmost => by
    have := hroom most hmost
    simp only [itemsDepth] at this
    omega
  rw [List.foldlM_append, hfirst, Option.bind_eq_bind, Option.bind_some, List.foldlM_cons, hcomma,
    Option.bind_eq_bind, Option.bind_some, hitems, List.reverse_cons, List.append_assoc]
  rfl

theorem assemblesMembers_one {ts : List Token} {j : Json} (h : Assembles ts j) (name : String) :
    AssemblesMembers (.text name :: .colon :: ts) [(name, j)] := by
  intro limit read key stack expect hexpect hroom
  have hname : Assembly.step limit ⟨.object read key :: stack, expect, none⟩ (.text name) =
      some ⟨.object read name :: stack, .colon, none⟩ := by
    cases expect <;> first | rfl | cases hexpect
  have hcolon : Assembly.step limit ⟨.object read name :: stack, .colon, none⟩ .colon =
      some ⟨.object read name :: stack, .value, none⟩ := rfl
  have hvalue := h limit ⟨.object read name :: stack, .value, none⟩ rfl fun most hmost => by
    have := hroom most hmost
    simp only [membersDepth] at this
    rw [List.length_cons]
    omega
  simp only [List.foldlM_cons, hname, hcolon, Option.bind_eq_bind, Option.bind_some, hvalue]
  rfl

theorem assemblesMembers_cons {ts us : List Token} {m : String × Json}
    {members : List (String × Json)} (h : AssemblesMembers ts [m])
    (hrest : AssemblesMembers us members) :
    AssemblesMembers (ts ++ .comma :: us) (m :: members) := by
  intro limit read key stack expect hexpect hroom
  have hfirst : ts.foldlM (Assembly.step limit) ⟨.object read key :: stack, expect, none⟩ =
      some ⟨.object (m :: read) "" :: stack, .commaOrClose, none⟩ :=
    h limit read key stack expect hexpect fun most hmost => by
      have := hroom most hmost
      simp only [membersDepth] at this ⊢
      omega
  have hcomma : Assembly.step limit ⟨.object (m :: read) "" :: stack, .commaOrClose, none⟩ .comma =
      some ⟨.object (m :: read) "" :: stack, .key, none⟩ := rfl
  have hmembers := hrest limit (m :: read) "" stack .key rfl fun most hmost => by
    have := hroom most hmost
    simp only [membersDepth] at this
    omega
  rw [List.foldlM_append, hfirst, Option.bind_eq_bind, Option.bind_some, List.foldlM_cons, hcomma,
    Option.bind_eq_bind, Option.bind_some, hmembers, List.reverse_cons, List.append_assoc]
  rfl

/-! ## Whole texts -/

/-- Some tokens are found in `text` that put `j` together. -/
def ReadsAs (text : String) (j : Json) : Prop := ∃ ts, Lexes text.toList ts ∧ Assembles ts j

theorem readsAs_word {text : String} {j : Json} (hne : text.toList ≠ [])
    (h : ∀ c ∈ text.toList, endsWord c = false) (hatom : atom? text.toList = some j) :
    ReadsAs text j :=
  ⟨[.atom j], .word hne h hatom, assembles_atom j⟩

theorem endsWord_of_isDigit {c : Char} (h : c.isDigit = true) : endsWord c = false := by
  cases hends : endsWord c with
  | false => rfl
  | true =>
    simp only [endsWord, isSpace, Bool.or_eq_true, beq_iff_eq, List.contains_iff_mem, List.mem_cons,
      List.not_mem_nil, or_false] at hends
    rcases hends with (((rfl | rfl) | rfl) | rfl) | rfl | rfl | rfl | rfl | rfl | rfl |
      rfl <;> cases h

/-- `toString` writes digits, and a minus in front. -/
theorem endsWord_of_mem_toString {n : Int} {c : Char} (h : c ∈ (toString n).toList) :
    endsWord c = false := by
  cases n with
  | ofNat n =>
    rw [Text.toString_ofNat_toList] at h
    exact endsWord_of_isDigit (Text.isDigit_of_mem_toDigits h)
  | negSucc n =>
    rw [Text.toString_negSucc_toList, List.mem_cons] at h
    rcases h with rfl | h
    · decide
    · exact endsWord_of_isDigit (Text.isDigit_of_mem_toDigits h)

theorem readsAs_int {n : Int} (hlow : -9223372036854775808 ≤ n) (hhigh : n ≤ 18446744073709551615) :
    ReadsAs (toString n) (.int n) := by
  obtain ⟨c, cs, htext, hc⟩ := Text.head_toString n
  have hne : (toString n).toList ≠ [] := by
    rw [htext]
    exact List.cons_ne_nil c cs
  have hword : ∀ word : List Char, word.head?.any (fun d => d.isDigit || d == '-') = false →
      ¬((toString n).toList == word) = true := by
    intro word hhead h
    rw [htext, beq_iff_eq] at h
    subst h
    rw [List.head?_cons, Option.any_some, hc] at hhead
    cases hhead
  refine readsAs_word hne (fun _ => endsWord_of_mem_toString) ?_
  rw [atom?, if_neg (hword _ (by simp)), if_neg (hword _ (by simp)), if_neg (hword _ (by simp)),
    number?_toString hlow hhigh]

theorem lexes_brackets {cs : List Char} {ts : List Token} {left right : Char} {t u : Token}
    (h : Lexes cs ts) (hleft : endsWord left = true) (hright : endsWord right = true)
    (hl : ∀ found, lexIdle found left = ⟨.idle, t :: found⟩)
    (hr : ∀ found, lexIdle found right = ⟨.idle, u :: found⟩) :
    Lexes (left :: (cs ++ [right])) (t :: (ts ++ [u])) := by
  have hend : Lexes (cs ++ right :: []) (ts ++ u :: []) := h.mark .nil hright hr
  exact Lexes.nil.mark hend hleft hl

theorem lexes_member (name : String) {text : String} {ts : List Token} (h : Lexes text.toList ts) :
    Lexes (Json.quoted name ++ ":" ++ text).toList (.text name :: .colon :: ts) := by
  have htext : (Json.quoted name ++ ":" ++ text).toList = (Json.quoted name).toList ++
      ':' :: text.toList := by simp
  rw [htext]
  exact (Lexes.quoted name).mark h rfl fun _ => rfl

mutual

/-- `compact` text of a value that `isExact` is read as that value. -/
theorem readsAs_compact : ∀ j : Json, j.isExact = true → ReadsAs j.compact j
  | .null, _ =>
    readsAs_word (by simp [compact]) (by simp [compact]; decide) (by simp [compact, atom?])
  | .bool b, _ => by
    cases b
    · exact readsAs_word (by simp [compact]) (by simp [compact]; decide) (by simp [compact, atom?])
    · exact readsAs_word (by simp [compact]) (by simp [compact]; decide) (by simp [compact, atom?])
  | .int n, h => by
    simp only [isExact, Bool.and_eq_true, decide_eq_true_eq] at h
    rw [compact]
    exact readsAs_int h.1 h.2
  | .float _, h => by simp [isExact] at h
  | .string s, _ => by
    rw [compact]
    exact ⟨[.text s], .quoted s, assembles_text s⟩
  | .array items, h => by
    rw [isExact] at h
    have htext : (compact (.array items)).toList =
        '[' :: ((Text.joinWith "," (compactItems items)).toList ++ [']']) := by
      simp [compact]
    by_cases hempty : items = []
    · subst hempty
      refine ⟨[.openArray, .closeArray], ?_, assembles_nilArray⟩
      rw [htext]
      exact lexes_brackets .nil rfl rfl (fun _ => rfl) fun _ => rfl
    · obtain ⟨ts, hlexes, hitems⟩ := readsAs_items items hempty h
      refine ⟨.openArray :: (ts ++ [.closeArray]), ?_, assembles_array hitems⟩
      rw [htext]
      exact lexes_brackets hlexes rfl rfl (fun _ => rfl) fun _ => rfl
  | .object members, h => by
    rw [isExact] at h
    have htext : (compact (.object members)).toList =
        '\x7b' :: ((Text.joinWith "," (compactMembers members)).toList ++ ['\x7d']) := by
      simp [compact]
    by_cases hempty : members = []
    · subst hempty
      refine ⟨[.openObject, .closeObject], ?_, assembles_nilObject⟩
      rw [htext]
      exact lexes_brackets .nil rfl rfl (fun _ => rfl) fun _ => rfl
    · obtain ⟨ts, hlexes, hmembers⟩ := readsAs_members members hempty h
      refine ⟨.openObject :: (ts ++ [.closeObject]), ?_, assembles_object hmembers⟩
      rw [htext]
      exact lexes_brackets hlexes rfl rfl (fun _ => rfl) fun _ => rfl

theorem readsAs_items : ∀ items : List Json, items ≠ [] → itemsExact items = true →
    ∃ ts, Lexes (Text.joinWith "," (compactItems items)).toList ts ∧ AssemblesItems ts items
  | [], hne, _ => absurd rfl hne
  | [item], _, h => by
    simp only [itemsExact, Bool.and_true] at h
    obtain ⟨ts, hlexes, hvalue⟩ := readsAs_compact item h
    exact ⟨ts, hlexes, assemblesItems_one hvalue⟩
  | item :: next :: items, _, h => by
    rw [itemsExact, Bool.and_eq_true] at h
    obtain ⟨ts, hlexes, hvalue⟩ := readsAs_compact item h.1
    obtain ⟨us, hlexesRest, hrest⟩ := readsAs_items (next :: items) (List.cons_ne_nil _ _) h.2
    refine ⟨ts ++ .comma :: us, ?_, assemblesItems_cons hvalue hrest⟩
    have htext : (Text.joinWith "," (compactItems (item :: next :: items))).toList =
        item.compact.toList ++
          ',' :: (Text.joinWith "," (compactItems (next :: items))).toList := by
      simp [compactItems, Text.joinWith]
    rw [htext]
    exact hlexes.mark hlexesRest rfl fun _ => rfl

theorem readsAs_members : ∀ members : List (String × Json), members ≠ [] →
    membersExact members = true → ∃ ts, Lexes (Text.joinWith "," (compactMembers members)).toList
    ts ∧ AssemblesMembers ts members
  | [], hne, _ => absurd rfl hne
  | [(name, j)], _, h => by
    simp only [membersExact, Bool.and_true] at h
    obtain ⟨ts, hlexes, hvalue⟩ := readsAs_compact j h
    exact ⟨.text name :: .colon :: ts, lexes_member name hlexes, assemblesMembers_one hvalue name⟩
  | (name, j) :: next :: members, _, h => by
    rw [membersExact, Bool.and_eq_true] at h
    obtain ⟨ts, hlexes, hvalue⟩ := readsAs_compact j h.1
    obtain ⟨us, hlexesRest, hrest⟩ := readsAs_members (next :: members) (List.cons_ne_nil _ _) h.2
    refine ⟨.text name :: .colon :: ts ++ .comma :: us, ?_,
      assemblesMembers_cons (assemblesMembers_one hvalue name) hrest⟩
    have htext : (Text.joinWith "," (compactMembers ((name, j) :: next :: members))).toList =
        (Json.quoted name ++ ":" ++ j.compact).toList ++
          ',' :: (Text.joinWith "," (compactMembers (next :: members))).toList := by
      simp [compactMembers, Text.joinWith]
    rw [htext]
    exact (lexes_member name hlexes).mark hlexesRest rfl fun _ => rfl

end

/-- `compact` of an exact value is read as that value, with any limit that it does not exceed. -/
theorem read?_compact {j : Json} (h : j.isExact = true) {limit : Option Nat}
    (hlimit : ∀ most ∈ limit, j.depth ≤ most) : read? limit j.compact = some j := by
  obtain ⟨ts, hlexes, hvalue⟩ := readsAs_compact j h
  obtain ⟨l, hrun, hended⟩ := hlexes []
  have htokens : tokens? j.compact = some ts := by
    rw [tokens?_eq, hrun, Option.bind_some, hended]
    simp
  have hput := hvalue limit {} rfl fun most hmost => by simpa using hlimit most hmost
  simp [read?, htokens, hput, Assembly.put]

end QueryTree.Json
