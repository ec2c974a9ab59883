import QueryTree.Proofs.Mentions

/-!
# Properties that terms have by their parts

Lowering makes terms in a few ways only: literals, calls of functions, operators and casts, arrays
and objects, paths that grow step by step, and statements. What a `Grammar` keeps in all of these
ways, every term has that lowering makes.
-/

namespace QueryTree.Surql

/-- Whether `s` begins with a character that is `ok`. -/
def begins (ok : Char → Bool) (s : String) : Bool := s.toList.head?.any ok

/-- Whether a term has no terms in it and is no parameter. -/
def Term.isLiteral : Term → Bool
  | .absent | .null | .bool _ | .number _ | .string _ | .char _ | .duration _ | .dateTime _ | .guid
    _ | .point _ _
  | .constant _ => true
  | _ => false

/-- Whether a part goes on from what comes before it, and has no terms in it. -/
def Part.isStep : Part → Bool
  | .field _ | .index _ | .method _ [] => true
  | _ => false

/-- `P` holds of a term if it holds of the terms in it, in each way in which lowering makes terms.
-/
class Grammar (P : Term → Prop) : Prop where
  literal {t : Term} : t.isLiteral = true → P t
  array {ts : List Term} : P (.array ts) ↔ ∀ t ∈ ts, P t
  object {ms : List (String × Term)} : (∀ m ∈ ms, P m.2) → P (.object ms)
  call {f : String} {ts : List Term} : begins Char.isAlpha f = true → (∀ t ∈ ts, P t) →
    P (.call f ts)
  unary {op : UnaryOp} {t : Term} : P t → P (.unary op t)
  binary {op : BinaryOp} {t u : Term} : P t → P u → P (.binary t op u)
  cast {kind : CastKind} {t : Term} : P t → P (.cast kind t)
  range {t u : Term} : P t → P u → P (.range t u)
  field (name : String) : P (.path [.field name])
  step {t : Term} {p : Part} : P t → p.isStep = true → P (t.step p)
  item {t u : Term} : P t → P u → P (t.step (.item u))

/-- `P` holds of the terms for rows: for the row itself, and for those around it. -/
structure RowTerms (P : Term → Prop) : Prop where
  this : P (.param "this")
  parents (n : Nat) : P (.path (.start (.param "parent") :: List.replicate n .parent))

theorem Grammar.neg {P : Term → Prop} [Grammar P] {t : Term} (h : P t) : P t.neg := by
  unfold Term.neg
  split
  · split
    · exact literal rfl
    · exact unary h
  · exact unary h

/-! ## Statements -/

/-- The terms that a statement puts out. -/
def Columns.terms : Columns → List Term
  | .all => []
  | .value t => [t]
  | .list columns => columns.map (·.term)

/-- The terms that rows are grouped by. -/
def GroupBy.terms : Option GroupBy → List Term
  | some (.keys terms) => terms
  | _ => []

/-- The query as a term. -/
def Query.asTerm : Query → Term
  | .statement s => .subquery s
  | .term t => t

/-- `P` holds of the terms of `columns`. If `listed`, there is one wherever they are a list. -/
def Columns.Made (P : Term → Prop) (listed : Prop) (columns : Columns) : Prop :=
  (∀ t ∈ columns.terms, P t) ∧ (listed → columns ≠ .list [])

/-- `P` holds of the terms of `group`. If `listed`, there is a key wherever it has a list of them.
-/
def GroupBy.Made (P : Term → Prop) (listed : Prop) (group : Option GroupBy) : Prop :=
  (∀ t ∈ GroupBy.terms group, P t) ∧ (listed → group ≠ some (.keys []))

/-- `P` holds of the terms of `s`. -/
structure Statement.Made (P : Term → Prop) (listed : Prop) (s : Statement) : Prop where
  columns : s.columns.Made P listed
  target : ∀ u, s.target = .subquery u → P (.subquery u)
  cond : ∀ t ∈ s.cond, P t
  group : GroupBy.Made P listed s.group
  order : ∀ k ∈ s.order, P k.term
  limit : ∀ t ∈ s.limit, P t
  start : ∀ t ∈ s.start, P t

/-! ## Mentioning no parameters but some -/

instance : Grammar fun _ => True := by
  constructor <;> simp

section
variable {N : String → Prop}

instance : Grammar (Term.Over N) where
  literal {t} h := Term.over_of_mentions (by cases t <;> first | rfl | cases h)
  array := Term.over_array
  object := Term.over_object.mpr
  call _ := Term.over_call.mpr
  unary := Term.over_unary.mpr
  binary ht hu := Term.over_binary.mpr ⟨ht, hu⟩
  cast := Term.over_cast.mpr
  range ht hu := Term.over_range.mpr ⟨ht, hu⟩
  field _ := Term.over_path.mpr (by simp)
  step {t p} ht hp := by
    refine ht.step ?_
    cases p with
    | field | index => simp
    | method name args =>
      cases args with
      | nil => simp
      | cons t ts => cases hp
    | _ => cases hp
  item ht hu := ht.step (Part.over_item.mpr hu)

theorem RowTerms.over (hthis : N "this") (hparent : N "parent") : RowTerms (Term.Over N) where
  this := Term.over_param.mpr hthis
  parents n := Term.over_path.mpr fun p hp => by
    rcases List.mem_cons.mp hp with rfl | hp
    · simpa using hparent
    · rw [List.eq_of_mem_replicate hp]
      exact Part.over_parent

theorem Statement.Made.over {listed : Prop} {s : Statement} (h : s.Made (Term.Over N) listed) :
    s.Over N := by
  obtain ⟨columns, target, only, cond, group, order, limit, start⟩ := s
  refine over_mk.mpr ⟨?_, ?_, h.cond, ?_, h.order, h.limit, h.start⟩
  · cases columns with
    | all => exact List.forall_mem_nil _
    | value t => exact h.columns.1 t List.mem_cons_self
    | list columns =>
      exact Column.over_list.mpr fun c hc => h.columns.1 c.term (List.mem_map_of_mem hc)
  · cases target with
    | table name => exact List.forall_mem_nil _
    | subquery u => exact h.target u rfl
  · rcases group with _ | _ | terms
    · exact List.forall_mem_nil _
    · exact List.forall_mem_nil _
    · exact Term.over_list.mpr h.group.1

theorem Query.over_asTerm {q : Query} : q.asTerm.Over N ↔ ∀ n ∈ q.mentions, N n := by
  cases q <;> exact Iff.rfl

end

end QueryTree.Surql
