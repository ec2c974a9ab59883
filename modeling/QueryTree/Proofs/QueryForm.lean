import QueryTree.Proofs.Comments
import QueryTree.Proofs.Grammar

/-!
# The form of a query

A syntax tree says what its text says if every path begins with a field or with a value that is no
path, its parents are one run after the parameter for the row around, and lists of columns and keys
are not empty. Then no path has a point in front, no statement loses its keys and no list of columns
is written as a star.
-/

namespace QueryTree.Surql

/-! ## Nodes -/

/-- A node of the syntax of a query that a form is asked of. -/
inductive Node where
  | path (parts : List Part)
  | call (function : String)
  | statement (s : Statement)

mutual

/-- The nodes of a term. -/
def Term.nodes : Term → List Node
  | .array items => Term.nodesList items
  | .object members => Term.nodesMembers members
  | .path parts => .path parts :: Part.nodesList parts
  | .call function args => .call function :: Term.nodesList args
  | .unary _ operand => operand.nodes
  | .binary left _ right => left.nodes ++ right.nodes
  | .cast _ operand => operand.nodes
  | .range first last => first.nodes ++ last.nodes
  | .subquery s => s.nodes
  | _ => []
termination_by structural t => t

def Term.nodesList : List Term → List Node
  | [] => []
  | t :: ts => t.nodes ++ Term.nodesList ts
termination_by structural ts => ts

def Term.nodesOption : Option Term → List Node
  | none => []
  | some t => t.nodes
termination_by structural t => t

def Term.nodesMembers : List (String × Term) → List Node
  | [] => []
  | (_, t) :: ts => t.nodes ++ Term.nodesMembers ts
termination_by structural ts => ts

def Part.nodes : Part → List Node
  | .start t => t.nodes
  | .item t => t.nodes
  | .method _ args => Term.nodesList args
  | _ => []
termination_by structural p => p

def Part.nodesList : List Part → List Node
  | [] => []
  | p :: ps => p.nodes ++ Part.nodesList ps
termination_by structural ps => ps

def Column.nodes : List Column → List Node
  | [] => []
  | ⟨t, _⟩ :: columns => t.nodes ++ Column.nodes columns
termination_by structural columns => columns

def Columns.nodes : Columns → List Node
  | .all => []
  | .value t => t.nodes
  | .list columns => Column.nodes columns
termination_by structural columns => columns

def Target.nodes : Target → List Node
  | .table _ => []
  | .subquery s => s.nodes
termination_by structural t => t

def GroupBy.nodes : Option GroupBy → List Node
  | some (.keys terms) => Term.nodesList terms
  | _ => []
termination_by structural g => g

def OrderBy.nodes : List OrderBy → List Node
  | [] => []
  | ⟨t, _⟩ :: order => t.nodes ++ OrderBy.nodes order
termination_by structural order => order

/-- The nodes of a statement, itself among them. -/
def Statement.nodes : Statement → List Node
  | ⟨columns, target, only, cond, group, order, limit, start⟩ =>
    .statement ⟨columns, target, only, cond, group, order, limit, start⟩ ::
      (columns.nodes ++ target.nodes ++ Term.nodesOption cond ++ GroupBy.nodes group ++
        OrderBy.nodes order ++ Term.nodesOption limit ++ Term.nodesOption start)
termination_by structural s => s

end

/-- The nodes of a query. -/
def Query.nodes : Query → List Node
  | .statement s => s.nodes
  | .term t => t.nodes

/-! ## Forms -/

/-- Whether a term is a path. -/
def Term.isPath : Term → Bool
  | .path _ => true
  | _ => false

/-- Whether a part is the value a path starts at. -/
def Part.isStart : Part → Bool
  | .start _ => true
  | _ => false

/-- Whether a part is a field. -/
def Part.isField : Part → Bool
  | .field _ => true
  | _ => false

/-- Whether a part goes on from what comes before it: it is neither a `start` nor a `parent`. -/
def Part.goesOn : Part → Bool
  | .start _ | .parent => false
  | _ => true

/-- The parts of a path. -/
structure Part.FormPath (parts : List Part) : Prop where
  /-- There is a first part, which is a start or a field. -/
  first : ∃ p rest, parts = p :: rest ∧ (p.isStart = true ∨ p.isField = true)
  /-- Only the first part is a start. -/
  single : ∀ p ∈ parts.tail, p.isStart = false
  /-- A path does not start at a path. -/
  flat : ∀ t, .start t ∈ parts → t.isPath = false
  /-- Parents are one run after the parameter for the row around. -/
  parents : .parent ∈ parts → ∃ n rest,
    parts = .start (.param "parent") :: (List.replicate n .parent ++ rest) ∧ .parent ∉ rest

/-- The text of a path has no point in front, and a bracket only if the path starts at an array,
whose bracket that is. -/
def Part.Opens (parts : List Part) : Prop :=
  ∃ c cs, (Term.path parts).text.toList = c :: cs ∧ c ≠ '.' ∧
    (c = '[' → ∃ items rest, parts = .start (.array items) :: rest)

/-- A statement whose lists are lists. -/
structure Statement.Listed (s : Statement) : Prop where
  /-- A list of columns has a column, and is written as its columns and not as a star. -/
  columns : ∀ columns, s.columns = .list columns →
    columns ≠ [] ∧ s.columns.text = commas (Column.texts columns) ∧ s.columns.text ≠ "*"
  /-- A list of keys has a key, and is written as a clause. -/
  keys : ∀ terms, s.group = some (.keys terms) →
    terms ≠ [] ∧ GroupBy.clauseText s.group = " GROUP BY " ++ commas (Term.texts terms)

/-- What is asked of a node. -/
def Node.Formed : Node → Prop
  | .path parts => Part.FormPath parts ∧ Part.Opens parts
  | .call function => begins Char.isAlpha function = true
  | .statement s => s.Listed

/-- All nodes of `t` are `Formed`. -/
def Term.Formed (t : Term) : Prop := ∀ n ∈ t.nodes, n.Formed

/-- All nodes of `p` are `Formed`. -/
def Part.Formed (p : Part) : Prop := ∀ n ∈ p.nodes, n.Formed

/-- All nodes of `s` are `Formed`. -/
def Statement.Formed (s : Statement) : Prop := ∀ n ∈ s.nodes, n.Formed

/-- All nodes of `q` are `Formed`. -/
def Query.WellFormed (q : Query) : Prop := ∀ n ∈ q.nodes, n.Formed

/-! ## One level at a time -/

theorem Term.formed_list {ts : List Term} : (∀ n ∈ nodesList ts, n.Formed) ↔ ∀ t ∈ ts, t.Formed :=
  forall_mem_collected (g := nodes) rfl (fun _ _ => rfl) ts

theorem Term.formed_members {ts : List (String × Term)} :
    (∀ n ∈ nodesMembers ts, n.Formed) ↔ ∀ t ∈ ts, t.2.Formed :=
  forall_mem_collected (g := fun t => t.2.nodes) rfl (fun _ _ => rfl) ts

theorem Term.formed_option {t : Option Term} :
    (∀ n ∈ nodesOption t, n.Formed) ↔ ∀ u ∈ t, u.Formed := by
  cases t with
  | none => exact iff_of_true (List.forall_mem_nil _) (by simp)
  | some t =>
    change t.Formed ↔ _
    simp

theorem Part.formed_list {ps : List Part} : (∀ n ∈ nodesList ps, n.Formed) ↔ ∀ p ∈ ps, p.Formed :=
  forall_mem_collected (g := nodes) rfl (fun _ _ => rfl) ps

theorem Column.formed_list {columns : List Column} :
    (∀ n ∈ nodes columns, n.Formed) ↔ ∀ c ∈ columns, c.term.Formed :=
  forall_mem_collected (g := fun c => c.term.nodes) rfl (fun c _ => by cases c; rfl) columns

theorem OrderBy.formed_list {order : List OrderBy} :
    (∀ n ∈ nodes order, n.Formed) ↔ ∀ k ∈ order, k.term.Formed :=
  forall_mem_collected (g := fun k => k.term.nodes) rfl (fun k _ => by cases k; rfl) order

namespace Term

theorem formed_of_nodes {t : Term} (h : t.nodes = []) : t.Formed := by
  simp [Formed, h]

@[simp] theorem formed_param {name : String} : (param name).Formed := formed_of_nodes rfl

@[simp] theorem formed_array {items : List Term} : (array items).Formed ↔ ∀ t ∈ items, t.Formed :=
  formed_list

@[simp] theorem formed_object {members : List (String × Term)} :
    (object members).Formed ↔ ∀ t ∈ members, t.2.Formed :=
  formed_members

@[simp] theorem formed_call {f : String} {args : List Term} :
    (call f args).Formed ↔ begins Char.isAlpha f = true ∧ ∀ t ∈ args, t.Formed :=
  List.forall_mem_cons.trans (and_congr_right' formed_list)

@[simp] theorem formed_unary {op : UnaryOp} {t : Term} : (unary op t).Formed ↔ t.Formed := Iff.rfl

@[simp] theorem formed_binary {op : BinaryOp} {a b : Term} :
    (binary a op b).Formed ↔ a.Formed ∧ b.Formed :=
  List.forall_mem_append

@[simp] theorem formed_cast {kind : CastKind} {t : Term} : (cast kind t).Formed ↔ t.Formed :=
  Iff.rfl

@[simp] theorem formed_range {a b : Term} : (range a b).Formed ↔ a.Formed ∧ b.Formed :=
  List.forall_mem_append

end Term

namespace Part

@[simp] theorem formed_start {t : Term} : (start t).Formed ↔ t.Formed := Iff.rfl

@[simp] theorem formed_item {t : Term} : (item t).Formed ↔ t.Formed := Iff.rfl

@[simp] theorem formed_method {name : String} {args : List Term} :
    (method name args).Formed ↔ ∀ t ∈ args, t.Formed :=
  Term.formed_list

@[simp] theorem formed_field {name : String} : (field name).Formed := by
  intro n hn
  cases hn

@[simp] theorem formed_parent : parent.Formed := by
  intro n hn
  cases hn

@[simp] theorem formed_index {k : Int64} : (index k).Formed := by
  intro n hn
  cases hn

end Part

/-! ## Texts -/

section
variable {ok : Char → Bool} {s : String}

theorem begins_append (h : begins ok s = true) (t : String) : begins ok (s ++ t) = true := by
  unfold begins at h ⊢
  rw [String.toList_append, List.head?_append]
  cases hs : s.toList.head? with
  | none => simp [hs] at h
  | some c => simpa [hs] using h

theorem exists_of_begins (h : begins ok s = true) : ∃ c cs, s.toList = c :: cs ∧ ok c = true := by
  unfold begins at h
  cases hs : s.toList with
  | nil => simp [hs] at h
  | cons c cs => exact ⟨c, cs, rfl, by simpa [hs] using h⟩

theorem begins_mono {wider : Char → Bool} (hwider : ∀ c, ok c = true → wider c = true)
    (h : begins ok s = true) : begins wider s = true := by
  obtain ⟨c, cs, hs, hc⟩ := exists_of_begins h
  simp [begins, hs, hwider c hc]

end

/-- The characters that a path begins with if it does not start at an array: those of a word, or
what opens a parameter, a quoted name, an object or parentheses. -/
def opensPath (c : Char) : Bool := Text.isWordChar c || ['$', '\x60', '\x7b', '('].contains c

theorem begins_ident (name : String) : begins opensPath (Token.ident name) = true := by
  unfold Token.ident
  split
  · rename_i hplain
    have hword := Token.all_of_isPlain hplain
    unfold begins
    cases hname : name.toList with
    | nil => simp [Token.isPlain, hname] at hplain
    | cons c cs => simp [opensPath, hword c (by simp [hname])]
  · exact begins_append (begins_append (by decide) _) _

/-- What a path starts at, if it is neither a path nor an array. -/
theorem Term.begins_start {t : Term} (ht : t.Formed) (hflat : t.isPath = false)
    (harray : ∀ items, t ≠ .array items) :
    begins opensPath (parensIf t.looseAtStart t.text) = true := by
  cases t with
  | param name => exact begins_append (by decide) _
  | call f args =>
    have hletter : ∀ c, Char.isAlpha c = true → opensPath c = true := by
      intro c hc
      simp [opensPath, Text.isWordChar, Char.isAlphanum, hc]
    exact begins_append (begins_mono hletter (formed_call.mp ht).1) _
  | array items => exact absurd rfl (harray items)
  | object members =>
    cases members with
    | nil => decide
    | cons m members => exact begins_append (begins_append (by decide) _) _
  | constant c => cases c <;> decide
  | path parts => cases hflat
  | _ => exact begins_append (begins_append (by decide) _) _

/-- A path begins with a character that `opensPath`, or with the bracket of the array it starts at.
-/
theorem Part.FormPath.begins_text {parts : List Part} (h : FormPath parts)
    (hparts : ∀ p ∈ parts, p.Formed) :
    begins opensPath (Term.path parts).text = true ∨
      ∃ items rest, parts = .start (.array items) :: rest := by
  obtain ⟨p, rest, rfl, hfirst⟩ := h.first
  cases p with
  | start t =>
    by_cases harray : ∃ items, t = .array items
    · obtain ⟨items, rfl⟩ := harray
      exact .inr ⟨items, rest, rfl⟩
    · have hstart := Term.begins_start (hparts _ List.mem_cons_self) (h.flat t List.mem_cons_self)
        (fun items heq => harray ⟨items, heq⟩)
      exact .inl (begins_append hstart _)
  | field name => exact .inl (begins_append (begins_ident name) _)
  | _ => simp [isStart, isField] at hfirst

theorem Term.begins_path_array (items : List Term) (rest : List Part) :
    begins (· == '[') (Term.path (.start (.array items) :: rest)).text = true :=
  begins_append (begins_append (begins_append (by decide) _) _) _

theorem Part.FormPath.opens {parts : List Part} (h : FormPath parts)
    (hparts : ∀ p ∈ parts, p.Formed) : Opens parts := by
  rcases h.begins_text hparts with hbegins | ⟨items, rest, rfl⟩
  · obtain ⟨c, cs, htext, hc⟩ := exists_of_begins hbegins
    refine ⟨c, cs, htext, ?_, ?_⟩
    · rintro rfl
      exact absurd hc (by decide)
    · rintro rfl
      exact absurd hc (by decide)
  · obtain ⟨c, cs, htext, hc⟩ := exists_of_begins (Term.begins_path_array items rest)
    obtain rfl : c = '[' := by simpa using hc
    exact ⟨'[', cs, htext, by decide, fun _ => ⟨items, rest, rfl⟩⟩

@[simp] theorem Term.formed_path {parts : List Part} :
    (path parts).Formed ↔ Part.FormPath parts ∧ ∀ p ∈ parts, p.Formed := by
  unfold Formed
  rw [nodes, List.forall_mem_cons, Part.formed_list]
  exact ⟨fun h => ⟨h.1.1, h.2⟩, fun h => ⟨⟨h.1, h.1.opens h.2⟩, h.2⟩⟩

/-! ## Making paths -/

namespace Part

theorem FormPath.append {parts : List Part} {p : Part} (h : FormPath parts) (hp : p.goesOn = true) :
    FormPath (parts ++ [p]) := by
  obtain ⟨first, rest, rfl, hfirst⟩ := h.first
  have hstart : p.isStart = false := by cases p <;> first | rfl | cases hp
  have hparent : p ≠ .parent := by
    rintro rfl
    cases hp
  constructor
  · exact ⟨first, rest ++ [p], rfl, hfirst⟩
  · intro q hq
    rcases List.mem_append.mp hq with hq | hq
    · exact h.single q hq
    · rw [List.mem_singleton.mp hq]
      exact hstart
  · intro t ht
    rcases List.mem_append.mp ht with ht | ht
    · exact h.flat t ht
    · rw [← List.mem_singleton.mp ht] at hstart
      cases hstart
  · intro hmem
    have hold : .parent ∈ first :: rest := by
      rcases List.mem_append.mp hmem with hmem | hmem
      · exact hmem
      · exact absurd (List.mem_singleton.mp hmem).symm hparent
    obtain ⟨n, steps, heq, hsteps⟩ := h.parents hold
    refine ⟨n, steps ++ [p], by rw [heq]; simp, ?_⟩
    simpa [hsteps] using hparent.symm

theorem formPath_field (name : String) : FormPath [.field name] where
  first := ⟨_, [], rfl, .inr rfl⟩
  single p hp := by cases hp
  flat t ht := by
    cases List.mem_singleton.mp ht
  parents h := by
    cases List.mem_singleton.mp h

theorem formPath_start {t : Term} (h : t.isPath = false) : FormPath [.start t] where
  first := ⟨_, [], rfl, .inl rfl⟩
  single p hp := by cases hp
  flat u hu := by
    cases List.mem_singleton.mp hu
    exact h
  parents hp := by
    cases List.mem_singleton.mp hp

/-- The way to a row further out is a `FormPath`. -/
theorem formPath_parents (n : Nat) :
    FormPath (.start (.param "parent") :: List.replicate n .parent) where
  first := ⟨_, _, rfl, .inl rfl⟩
  single p hp := by
    rw [List.eq_of_mem_replicate hp]
    rfl
  flat t ht := by
    rcases List.mem_cons.mp ht with heq | hmem
    · cases heq
      rfl
    · cases List.eq_of_mem_replicate hmem
  parents _ := ⟨n, [], by simp, List.not_mem_nil⟩

end Part

/-- `step` keeps the form of a term, whether it is a path or not. -/
theorem Term.Formed.step {t : Term} {p : Part} (ht : t.Formed) (hp : p.Formed)
    (hgoes : p.goesOn = true) : (t.step p).Formed := by
  unfold Term.step
  split
  · rename_i parts
    obtain ⟨hpath, hparts⟩ := formed_path.mp ht
    refine formed_path.mpr ⟨hpath.append hgoes, fun q hq => ?_⟩
    rcases List.mem_append.mp hq with hq | hq
    · exact hparts q hq
    · rw [List.mem_singleton.mp hq]
      exact hp
  · rename_i hother
    have hflat : t.isPath = false := by
      cases t with
      | path parts => exact absurd rfl (hother parts)
      | _ => rfl
    refine formed_path.mpr ⟨(Part.formPath_start hflat).append hgoes, ?_⟩
    simp [ht, hp]

/-! ## Lists of columns -/

theorem ne_star_of_begins {ok : Char → Bool} {s : String} (h : begins ok s = true)
    (hstar : ok '*' = false) : s ≠ "*" := by
  rintro rfl
  exact absurd h (by simp [begins, hstar])

theorem Unmarked.ne_star {s : String} (h : Unmarked s) : s ≠ "*" := by
  rintro rfl
  exact absurd h (by decide)

theorem append_ne_star {s t : String} {sep : String} {c : Char} (hc : c ∈ sep.toList)
    (hne : c ≠ '*') : s ++ sep ++ t ≠ "*" := by
  intro heq
  have hmem : c ∈ (s ++ sep ++ t).toList := by simp [hc]
  rw [heq] at hmem
  exact hne (List.mem_singleton.mp hmem)

theorem Numeral.text_ne_star (n : Numeral) : n.text ≠ "*" := by
  obtain ⟨negative, magnitude, hmagnitude, htext, -⟩ := n.text_signed
  rw [htext]
  cases negative with
  | false => exact hmagnitude.ne_star
  | true =>
    have hminus : begins (· == '-') ("-" ++ magnitude) = true := begins_append (by decide) _
    exact ne_star_of_begins hminus (by decide)

/-- No `Formed` term is written as a star. -/
theorem Term.Formed.text_ne_star {t : Term} (h : t.Formed) : t.text ≠ "*" := by
  have hopens {s : String} (hs : begins (fun c => c != '*') s = true) : s ≠ "*" :=
    ne_star_of_begins hs rfl
  cases t with
  | absent | null => decide
  | bool b => cases b <;> decide
  | number n => exact n.text_ne_star
  | duration d => exact (unmarked_duration d).ne_star
  | constant c => exact c.unmarked_text.ne_star
  | char c =>
    show Token.char c ≠ "*"
    unfold Token.char
    split
    · decide
    · exact hopens (begins_append (begins_append (by decide) _) _)
  | string s | dateTime t | guid g | point x y | array items | subquery s =>
    exact hopens (begins_append (begins_append (by decide) _) _)
  | object members =>
    cases members with
    | nil => decide
    | cons m members => exact hopens (begins_append (begins_append (by decide) _) _)
  | param name => exact hopens (begins_append (by decide) _)
  | path parts =>
    obtain ⟨hpath, hparts⟩ := formed_path.mp h
    rcases hpath.begins_text hparts with hbegins | ⟨items, rest, rfl⟩
    · exact ne_star_of_begins hbegins (by decide)
    · exact ne_star_of_begins (begins_path_array items rest) (by decide)
  | call f args => exact ne_star_of_begins (begins_append (formed_call.mp h).1 _) (by decide)
  | unary op operand => cases op <;> exact hopens (begins_append (by decide) _)
  | binary left op right =>
    rw [Term.text]
    exact append_ne_star (c := ' ') (by simp) (by decide)
  | cast kind operand =>
    exact hopens (begins_append (begins_append (begins_append (by decide) _) _) _)
  | range first last => exact append_ne_star (c := '.') (by simp) (by decide)

theorem Column.text_ne_star {t : Term} {label : Option String} (h : t.Formed) :
    t.text ++ Column.labelText ⟨t, label⟩ ≠ "*" := by
  cases label with
  | none => simpa [labelText] using h.text_ne_star
  | some label =>
    rw [labelText]
    split
    · simpa using h.text_ne_star
    · rw [← String.append_assoc]
      exact append_ne_star (c := ' ') (by simp) (by decide)

/-- A list with a column in it is written as its columns, and not as `*`. -/
theorem Columns.text_list {columns : List Column} (hne : columns ≠ [])
    (h : ∀ c ∈ columns, c.term.Formed) :
    (Columns.list columns).text = commas (Column.texts columns) ∧
      (Columns.list columns).text ≠ "*" := by
  cases columns with
  | nil => exact absurd rfl hne
  | cons c columns =>
    refine ⟨rfl, ?_⟩
    obtain ⟨t, label⟩ := c
    have hfirst : t.text ++ Column.labelText ⟨t, label⟩ ≠ "*" :=
      Column.text_ne_star (h _ List.mem_cons_self)
    rw [Columns.text, Column.texts, commas]
    cases columns with
    | nil => exact hfirst
    | cons d columns =>
      obtain ⟨u, next⟩ := d
      rw [Column.texts, Text.joinWith]
      · exact append_ne_star (c := ',') (by simp) (by decide)
      · simp

theorem GroupBy.clauseText_keys {terms : List Term} (hne : terms ≠ []) :
    GroupBy.clauseText (some (.keys terms)) = " GROUP BY " ++ commas (Term.texts terms) := by
  cases terms with
  | nil => exact absurd rfl hne
  | cons t terms => rfl

/-- A statement is `Formed` if its lists are not empty and all that is in it is `Formed`. -/
theorem Statement.formed_mk {columns : Columns} {target : Target} {only : Bool} {cond : Option Term}
    {group : Option GroupBy} {order : List OrderBy} {limit start : Option Term}
    (hlist : ∀ list, columns = .list list → list ≠ [])
    (hkeys : ∀ terms, group = some (.keys terms) → terms ≠ [])
    (hcolumns : ∀ n ∈ columns.nodes, n.Formed) (htarget : ∀ n ∈ target.nodes, n.Formed)
    (hcond : ∀ u ∈ cond, u.Formed) (hgroup : ∀ n ∈ GroupBy.nodes group, n.Formed)
    (horder : ∀ k ∈ order, k.term.Formed) (hlimit : ∀ u ∈ limit, u.Formed)
    (hstart : ∀ u ∈ start, u.Formed) :
    (Statement.mk columns target only cond group order limit start).Formed := by
  have hlisted : (Statement.mk columns target only cond group order limit start).Listed := by
    constructor
    · rintro list rfl
      exact ⟨hlist list rfl, Columns.text_list (hlist list rfl) (Column.formed_list.mp hcolumns)⟩
    · rintro terms rfl
      exact ⟨hkeys terms rfl, GroupBy.clauseText_keys (hkeys terms rfl)⟩
  simp only [Formed, nodes, List.mem_cons, List.mem_append, or_imp, forall_and, forall_eq,
    Term.formed_option, OrderBy.formed_list]
  exact ⟨hlisted, ⟨⟨⟨⟨⟨hcolumns, htarget⟩, hcond⟩, hgroup⟩, horder⟩, hlimit⟩, hstart⟩

end QueryTree.Surql
