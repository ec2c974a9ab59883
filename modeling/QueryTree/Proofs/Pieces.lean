import QueryTree.Proofs.Tokens
import QueryTree.Surql.Text

/-!
# The text of a query in pieces

A query is put together from text of three kinds: words, signs and numbers of the language, names
just as they are given, and tokens between quotes. A `Piece` tells them apart, so that tokens can be
written in another way and the rest stays where it is.
-/

namespace QueryTree.Surql

/-- A token between quotes. -/
inductive Quoted where
  /-- A text, or the key of an object that is no plain word. -/
  | string (s : String)
  | char (c : Char)
  | dateTime (t : Instant)
  | guid (g : Guid)
  /-- The name of a table, a column or a label that is no plain word. -/
  | ident (name : String)

/-- A token as it is written. -/
def Quoted.text : Quoted → String
  | .string s => Token.quote s
  | .char c => Token.char c
  | .dateTime t => "d\"" ++ t.text ++ "\""
  | .guid g => "u\"" ++ g.text ++ "\""
  | .ident name => "\x60" ++ String.ofList (name.toList.flatMap Token.escapeTicked) ++ "\x60"

/-- A piece of the text of a query. -/
inductive Piece where
  /-- Words, signs, numbers and plain names. -/
  | bare (s : String)
  /-- The name of a parameter, a function or a method, which is written as it is. -/
  | name (s : String)
  | quoted (q : Quoted)

namespace Piece

/-- The text of pieces, where `token` writes what is between quotes. -/
def render (token : Quoted → String) : List Piece → String
  | [] => ""
  | .bare s :: ps => s ++ render token ps
  | .name s :: ps => s ++ render token ps
  | .quoted q :: ps => token q ++ render token ps

/-- The names of parameters, functions and methods among pieces. -/
def names : List Piece → List String
  | [] => []
  | .name s :: ps => s :: names ps
  | _ :: ps => names ps

/-- `ps` between two bare texts. -/
def between (left right : String) (ps : List Piece) : List Piece :=
  .bare left :: (ps ++ [.bare right])

/-- `ps` in parentheses if `needed`. -/
def withParensIf (needed : Bool) (ps : List Piece) : List Piece :=
  if needed then between "(" ")" ps else ps

/-- Lists of pieces separated by commas. -/
def withCommas : List (List Piece) → List Piece
  | [] => []
  | [ps] => ps
  | ps :: rest => ps ++ .bare ", " :: withCommas rest

/-- The name of a table, a column or a label. -/
def ident (name : String) : Piece :=
  if Token.isPlain name then .bare name else .quoted (.ident name)

/-- The key of an object. -/
def objectKey (key : String) : Piece :=
  if Token.isPlain key then .bare key else .quoted (.string key)

/-- The label of a column, unless the column has that name anyway. -/
def label : Column → List Piece
  | ⟨_, none⟩ => []
  | ⟨t, some label⟩ => if t.isField label then [] else [.bare " AS ", ident label]

end Piece

open Piece (between withCommas withParensIf)

mutual

/-- The pieces of `Term.text`. -/
def Term.pieces : Term → List Piece
  | .absent => [.bare "NONE"]
  | .null => [.bare "null"]
  | .bool b => [.bare (if b then "true" else "false")]
  | .number n => [.bare n.text]
  | .string s => [.quoted (.string s)]
  | .char c => [.quoted (.char c)]
  | .duration d => [.bare d.text]
  | .dateTime t => [.quoted (.dateTime t)]
  | .guid g => [.quoted (.guid g)]
  | .point x y =>
    between "(" ")" [.bare (Number.parts x).display, .bare ", ", .bare (Number.parts y).display]
  | .array items => between "[" "]" (withCommas (Term.listPieces items))
  | .object [] => [.bare "\x7b\x7d"]
  | .object (m :: members) =>
    between "\x7b " " \x7d" (withCommas (Term.memberPieces (m :: members)))
  | .param name => [.bare "$", .name name]
  | .path parts => Part.pieces true parts
  | .constant c => [.bare c.text]
  | .call function args => .name function :: between "(" ")" (withCommas (Term.listPieces args))
  | .unary op operand => .bare op.text :: withParensIf (operand.looseUnder op) operand.pieces
  | .binary left op right =>
    withParensIf left.looseInBinary left.pieces ++ .bare " " :: .bare op.text :: .bare " " ::
      withParensIf right.looseInBinary right.pieces
  | .cast kind operand =>
    between "<" "> " [.bare kind.text] ++ withParensIf operand.looseAfterSign operand.pieces
  | .range first last =>
    withParensIf first.looseInRange first.pieces ++
      .bare ".." :: withParensIf last.looseInRange last.pieces
  | .subquery s => between "(" ")" s.pieces
termination_by structural t => t

def Term.listPieces : List Term → List (List Piece)
  | [] => []
  | t :: ts => t.pieces :: Term.listPieces ts
termination_by structural ts => ts

def Term.memberPieces : List (String × Term) → List (List Piece)
  | [] => []
  | (key, t) :: members =>
    (Piece.objectKey key :: .bare ": " :: t.pieces) :: Term.memberPieces members
termination_by structural ms => ms

def Part.pieces (first : Bool) : List Part → List Piece
  | [] => []
  | part :: parts =>
    (match part with
      | .start t => withParensIf t.looseAtStart t.pieces
      | .field name => if first then [Piece.ident name] else [.bare ".", Piece.ident name]
      | .parent => [.bare ".$parent"]
      | .index n => between "[" "]" [.bare (toString n.toInt)]
      | .item t => between "[" "]" t.pieces
      | .method name args =>
        .bare "." :: .name name :: between "(" ")" (withCommas (Term.listPieces args))) ++
      Part.pieces false parts
termination_by structural parts => parts

def Column.listPieces : List Column → List (List Piece)
  | [] => []
  | ⟨t, label⟩ :: columns => (t.pieces ++ Piece.label ⟨t, label⟩) :: Column.listPieces columns
termination_by structural columns => columns

def Columns.pieces : Columns → List Piece
  | .all => [.bare "*"]
  | .value t => .bare "VALUE " :: t.pieces
  | .list [] => [.bare "*"]
  | .list (c :: columns) => withCommas (Column.listPieces (c :: columns))
termination_by structural c => c

def Target.pieces : Target → List Piece
  | .table name => [Piece.ident name]
  | .subquery s => between "(" ")" s.pieces
termination_by structural t => t

def OrderBy.listPieces : List OrderBy → List (List Piece)
  | [] => []
  | ⟨t, descending⟩ :: order =>
    (t.pieces ++ [.bare (if descending then " DESC" else "")]) :: OrderBy.listPieces order
termination_by structural order => order

def Term.clausePieces (keyword : String) : Option Term → List Piece
  | none => []
  | some t => .bare keyword :: t.pieces
termination_by structural t => t

def GroupBy.clausePieces : Option GroupBy → List Piece
  | none => []
  | some .all => [.bare " GROUP ALL"]
  | some (.keys []) => []
  | some (.keys (t :: terms)) => .bare " GROUP BY " :: withCommas (Term.listPieces (t :: terms))
termination_by structural g => g

def Statement.pieces : Statement → List Piece
  | ⟨columns, target, only, cond, group, order, limit, start⟩ =>
    .bare "SELECT " :: (columns.pieces ++
      .bare (if only then " FROM ONLY " else " FROM ") :: (target.pieces ++
      Term.clausePieces " WHERE " cond ++ GroupBy.clausePieces group ++
      (if order.isEmpty then [] else .bare " ORDER BY " :: withCommas (OrderBy.listPieces order)) ++
      Term.clausePieces " LIMIT " limit ++ Term.clausePieces " START " start))
termination_by structural s => s

end

/-- The pieces of `Query.text`. -/
def Query.pieces : Query → List Piece
  | .statement s => s.pieces
  | .term t => t.pieces

/-! ## Putting pieces together -/

namespace Piece

variable {token : Quoted → String}

@[simp] theorem render_nil : render token [] = "" := rfl

@[simp] theorem render_bare (s : String) (ps : List Piece) :
    render token (.bare s :: ps) = s ++ render token ps := rfl

@[simp] theorem render_name (s : String) (ps : List Piece) :
    render token (.name s :: ps) = s ++ render token ps := rfl

@[simp] theorem render_quoted (q : Quoted) (ps : List Piece) :
    render token (.quoted q :: ps) = token q ++ render token ps := rfl

@[simp] theorem render_append (ps qs : List Piece) :
    render token (ps ++ qs) = render token ps ++ render token qs := by
  induction ps with
  | nil => simp
  | cons p ps ih => cases p <;> simp [ih, String.append_assoc]

@[simp] theorem render_between (left right : String) (ps : List Piece) :
    render token (between left right ps) = left ++ render token ps ++ right := by
  simp [between, String.append_assoc]

@[simp] theorem render_withParensIf (needed : Bool) (ps : List Piece) :
    render token (withParensIf needed ps) = Surql.parensIf needed (render token ps) := by
  cases needed <;> simp [withParensIf, Surql.parensIf, parens]

@[simp] theorem render_withCommas (pss : List (List Piece)) :
    render token (withCommas pss) = Surql.commas (pss.map (render token)) := by
  unfold Surql.commas
  induction pss with
  | nil => rfl
  | cons ps rest ih =>
    cases rest with
    | nil => rfl
    | cons next rest =>
      simp only [withCommas, render_append, render_bare, ih, List.map_cons, Text.joinWith]
      simp [String.append_assoc]

theorem render_ident_cons (name : String) (ps : List Piece) :
    render Quoted.text (ident name :: ps) = Token.ident name ++ render Quoted.text ps := by
  unfold ident Token.ident
  split <;> rfl

theorem render_objectKey_cons (key : String) (ps : List Piece) :
    render Quoted.text (objectKey key :: ps) = Token.objectKey key ++ render Quoted.text ps := by
  unfold objectKey Token.objectKey
  split <;> rfl

theorem render_label (c : Column) : render Quoted.text (label c) = c.labelText := by
  obtain ⟨t, _ | label⟩ := c
  · rfl
  · simp only [Piece.label, Column.labelText]
    split
    · rfl
    · simp [render_ident_cons]

end Piece

/-! ## Pieces as they are written -/

open Piece (render render_append render_bare render_ident_cons render_objectKey_cons render_label)

mutual

theorem Term.render_pieces : ∀ t : Term, render Quoted.text t.pieces = t.text
  | .absent | .null | .bool _ | .number _ | .string _ | .char _ | .duration _ | .dateTime _ | .guid
    _ | .constant _
  | .object [] => by simp [Term.pieces, Term.text, Quoted.text]
  | .point _ _ => by simp [Term.pieces, Term.text, parens, String.append_assoc]
  | .array items => by simp [Term.pieces, Term.text, Term.render_listPieces items]
  | .object (m :: members) =>
    by simp [Term.pieces, Term.text, Term.render_memberPieces (m :: members)]
  | .param _ => by simp [Term.pieces, Term.text]
  | .path parts => by simp [Term.pieces, Term.text, Part.render_pieces true parts]
  | .call _ args => by simp [Term.pieces, Term.text, Term.render_listPieces args, parens]
  | .unary _ operand => by simp [Term.pieces, Term.text, operand.render_pieces]
  | .binary left _ right => by
    simp [Term.pieces, Term.text, left.render_pieces, right.render_pieces, String.append_assoc]
  | .cast _ operand => by simp [Term.pieces, Term.text, operand.render_pieces]
  | .range first last => by
    simp [Term.pieces, Term.text, first.render_pieces, last.render_pieces, String.append_assoc]
  | .subquery s => by simp [Term.pieces, Term.text, s.render_pieces, parens]
termination_by structural t => t

theorem Term.render_listPieces : ∀ ts : List Term,
    (Term.listPieces ts).map (render Quoted.text) = Term.texts ts
  | [] => rfl
  | t :: ts => by simp [Term.listPieces, Term.texts, t.render_pieces, Term.render_listPieces ts]
termination_by structural ts => ts

theorem Term.render_memberPieces : ∀ ms : List (String × Term),
    (Term.memberPieces ms).map (render Quoted.text) = Term.memberTexts ms
  | [] => rfl
  | (key, t) :: ms => by
    simp [Term.memberPieces, Term.memberTexts, render_objectKey_cons, t.render_pieces,
      Term.render_memberPieces ms, String.append_assoc]
termination_by structural ms => ms

theorem Part.render_pieces (first : Bool) : ∀ parts : List Part,
    render Quoted.text (Part.pieces first parts) = Part.texts first parts
  | [] => rfl
  | .start t :: parts =>
    by simp [Part.pieces, Part.texts, t.render_pieces, Part.render_pieces false parts]
  | .field name :: parts => by
    cases first <;>
      simp [Part.pieces, Part.texts, render_ident_cons, Part.render_pieces false parts,
        String.append_assoc]
  | .parent :: parts => by simp [Part.pieces, Part.texts, Part.render_pieces false parts]
  | .index n :: parts => by simp [Part.pieces, Part.texts, Part.render_pieces false parts]
  | .item t :: parts =>
    by simp [Part.pieces, Part.texts, t.render_pieces, Part.render_pieces false parts]
  | .method name args :: parts => by
    simp [Part.pieces, Part.texts, Term.render_listPieces args, Part.render_pieces false parts,
      parens, String.append_assoc]
termination_by structural parts => parts

theorem Column.render_listPieces : ∀ columns : List Column,
    (Column.listPieces columns).map (render Quoted.text) = Column.texts columns
  | [] => rfl
  | ⟨t, label⟩ :: columns => by
    simp [Column.listPieces, Column.texts, t.render_pieces, render_label,
      Column.render_listPieces columns]
termination_by structural columns => columns

theorem Columns.render_pieces : ∀ columns : Columns,
    render Quoted.text columns.pieces = columns.text
  | .all | .list [] => by simp [Columns.pieces, Columns.text]
  | .value t => by simp [Columns.pieces, Columns.text, t.render_pieces]
  | .list (c :: columns) =>
    by simp [Columns.pieces, Columns.text, Column.render_listPieces (c :: columns)]
termination_by structural columns => columns

theorem Target.render_pieces : ∀ target : Target, render Quoted.text target.pieces = target.text
  | .table name => by simp [Target.pieces, Target.text, render_ident_cons]
  | .subquery s => by simp [Target.pieces, Target.text, s.render_pieces, parens]
termination_by structural target => target

theorem OrderBy.render_listPieces : ∀ order : List OrderBy,
    (OrderBy.listPieces order).map (render Quoted.text) = OrderBy.texts order
  | [] => rfl
  | ⟨t, descending⟩ :: order => by
    simp [OrderBy.listPieces, OrderBy.texts, t.render_pieces, OrderBy.render_listPieces order]
termination_by structural order => order

theorem Term.render_clausePieces (keyword : String) : ∀ t : Option Term,
    render Quoted.text (Term.clausePieces keyword t) = Term.clauseText keyword t
  | none => rfl
  | some t => by simp [Term.clausePieces, Term.clauseText, t.render_pieces]
termination_by structural t => t

theorem GroupBy.render_clausePieces : ∀ group : Option GroupBy,
    render Quoted.text (GroupBy.clausePieces group) = GroupBy.clauseText group
  | none | some .all | some (.keys []) => by simp [GroupBy.clausePieces, GroupBy.clauseText]
  | some (.keys (t :: terms)) => by
    simp [GroupBy.clausePieces, GroupBy.clauseText, Term.render_listPieces (t :: terms)]
termination_by structural group => group

theorem Statement.render_pieces : ∀ s : Statement, render Quoted.text s.pieces = s.text
  | ⟨columns, target, only, cond, group, order, limit, start⟩ => by
    have horder : render Quoted.text (if order.isEmpty then [] else
        .bare " ORDER BY " :: withCommas (OrderBy.listPieces order)) =
        if order.isEmpty then "" else " ORDER BY " ++ Surql.commas (OrderBy.texts order) := by
      split
      · rfl
      · simp [OrderBy.render_listPieces order]
    simp only [Statement.pieces, Statement.text, render_bare, render_append, columns.render_pieces,
      target.render_pieces, horder, Term.render_clausePieces " WHERE " cond,
        GroupBy.render_clausePieces group,
      Term.render_clausePieces " LIMIT " limit, Term.render_clausePieces " START " start,
        String.append_assoc]
termination_by structural s => s

end

theorem Query.render_pieces (q : Query) : render Quoted.text q.pieces = q.text := by
  cases q with
  | statement s => exact s.render_pieces
  | term t => exact t.render_pieces

end QueryTree.Surql
