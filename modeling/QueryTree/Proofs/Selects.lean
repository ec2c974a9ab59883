import QueryTree.Proofs.Tree
import QueryTree.Relation.Basic

/-!
# The selects of a tree

Every select in a tree, however deep: as values, as sources and in clauses of other selects. A flag
says whether to look at what a select over groups remembers of the query it groups, which is not a
clause.
-/

namespace QueryTree

mutual

/-- The selects in an expression. With `memory`, also those that selects over groups remember. -/
def Expr.selects (memory : Bool) : Expr → List Select
  | .member base _ _ => base.selects memory
  | .call _ _ receiver args _ => Expr.selectsOption memory receiver ++ Expr.selectsList memory args
  | .unary _ operand _ => operand.selects memory
  | .binary _ left right _ => left.selects memory ++ right.selects memory
  | .lambda _ body => body.selects memory
  | .newObject _ members => Expr.selectsMembers memory members
  | .newArray _ items => Expr.selectsList memory items
  | .construct _ args => Expr.selectsList memory args
  | .custom inner _ => inner.selects memory
  | .groupAggregate _ selector _ => Expr.selectsOption memory selector
  | .select s => s.withNested memory
  | .subquery s => s.withNested memory
  | _ => []
termination_by structural e => e

def Expr.selectsOption (memory : Bool) : Option Expr → List Select
  | none => []
  | some e => e.selects memory
termination_by structural e => e

def Expr.selectsList (memory : Bool) : List Expr → List Select
  | [] => []
  | e :: es => e.selects memory ++ Expr.selectsList memory es
termination_by structural es => es

def Expr.selectsMembers (memory : Bool) : List (String × Expr) → List Select
  | [] => []
  | (_, e) :: es => e.selects memory ++ Expr.selectsMembers memory es
termination_by structural es => es

/-- A select and those inside it. -/
def Select.withNested (memory : Bool) : Select → List Select
  | ⟨scope, element, source, projection, filter, group, orderings, take, skip, single, groupKey⟩ =>
    ⟨scope, element, source, projection, filter, group, orderings, take, skip, single, groupKey⟩ ::
      ((projection.selects memory ++ Expr.selectsOption memory filter ++
        RowGroup.selects memory group ++ SortKey.selects memory orderings ++
        Expr.selectsOption memory take ++ Expr.selectsOption memory skip ++
        bif memory then GroupKey.selects memory groupKey else []) ++
        (source.selects memory ++ bif memory then GroupKey.sourceSelects memory groupKey else []))
termination_by structural s => s

def RowSource.selects (memory : Bool) : RowSource → List Select
  | .table _ => []
  | .subquery s => s.withNested memory
termination_by structural s => s

def Projection.selects (memory : Bool) : Projection → List Select
  | .all => []
  | .expr e => e.selects memory
  | .fields fields => OutputField.selects memory fields
  | .count predicate => Expr.selectsOption memory predicate
  | .aggregation _ selector _ => selector.selects memory
termination_by structural p => p

def OutputField.selects (memory : Bool) : List OutputField → List Select
  | [] => []
  | ⟨e, _⟩ :: fields => e.selects memory ++ OutputField.selects memory fields
termination_by structural fields => fields

def RowGroup.selects (memory : Bool) : Option RowGroup → List Select
  | some (.keys keys) => Expr.selectsList memory keys
  | _ => []
termination_by structural g => g

def SortKey.selects (memory : Bool) : List SortKey → List Select
  | [] => []
  | ⟨e, _⟩ :: keys => e.selects memory ++ SortKey.selects memory keys
termination_by structural keys => keys

def GroupKey.selects (memory : Bool) : Option GroupKey → List Select
  | none => []
  | some ⟨inner, outer, _, values⟩ =>
    inner.selects memory ++ outer.selects memory ++ values.selects memory
termination_by structural k => k

def GroupKey.sourceSelects (memory : Bool) : Option GroupKey → List Select
  | none => []
  | some ⟨_, _, source, _⟩ => source.withNested memory
termination_by structural k => k

end

/-! ## One level at a time -/

namespace Expr

/-- The select that an expression is, as a query or as an array of its rows. -/
def select? : Expr → Option Select
  | .select s => some s
  | .subquery s => some s
  | _ => none

theorem selectsOption_eq (memory : Bool) (e : Option Expr) :
    selectsOption memory e = e.toList.flatMap (selects memory) := by
  cases e <;> simp [selectsOption]

theorem selectsList_eq (memory : Bool) (es : List Expr) :
    selectsList memory es = es.flatMap (selects memory) := by
  induction es with
  | nil => rfl
  | cons e es ih => simp [selectsList, ih]

theorem selectsMembers_eq (memory : Bool) (es : List (String × Expr)) :
    selectsMembers memory es = (es.map (·.2)).flatMap (selects memory) := by
  induction es with
  | nil => rfl
  | cons e es ih => obtain ⟨name, e⟩ := e; simp [selectsMembers, ih]

theorem selects_eq (memory : Bool) (e : Expr) :
    e.selects memory = match e.select? with
      | some s => s.withNested memory
      | none => e.children.flatMap (selects memory) := by
  cases e <;>
    simp [selects, select?, children, selectsOption_eq, selectsList_eq, selectsMembers_eq]

theorem mem_selects_of_child {memory : Bool} {s : Select} {c e : Expr} (hc : c ∈ e.children)
    (hs : s ∈ c.selects memory) : s ∈ e.selects memory := by
  rw [selects_eq]
  cases e with
  | select u => simp [children] at hc
  | subquery u => simp [children] at hc
  | _ => exact List.mem_flatMap.mpr ⟨c, hc, hs⟩

theorem mem_selects_of_node {memory : Bool} {s : Select} {n e : Expr} (hn : n ∈ e.nodes)
    (hs : s ∈ n.selects memory) : s ∈ e.selects memory := by
  induction e using childrenInduction with
  | step e ih =>
    rcases mem_nodes_iff.mp hn with rfl | ⟨c, hc, hnc⟩
    · exact hs
    · exact mem_selects_of_child hc (ih c hc hnc)

end Expr

/-- The expressions of a projection. -/
def Projection.exprs : Projection → List Expr
  | .all => []
  | .expr e => [e]
  | .fields fs => fs.map (·.expr)
  | .count predicate => predicate.toList
  | .aggregation _ selector _ => [selector]

/-- The keys of a group. -/
def RowGroup.exprs : RowGroup → List Expr
  | .all => []
  | .keys ks => ks

/-- The select that is a source. -/
def RowSource.select? : RowSource → Option Select
  | .table _ => none
  | .subquery s => some s

/-- The expressions of a key. -/
def GroupKey.exprs (key : GroupKey) : List Expr := [key.inner, key.outer, key.values]

namespace Select

/-- The expressions in the clauses of `s`, and with `memory` those it remembers. -/
def clauses (memory : Bool) (s : Select) : List Expr :=
  s.projection.exprs ++ s.filter.toList ++ s.group.toList.flatMap RowGroup.exprs ++
    s.orderings.map (·.expr) ++ s.take.toList ++ s.skip.toList ++
    bif memory then s.groupKey.toList.flatMap GroupKey.exprs else []

/-- The selects that `s` reads, and with `memory` the one it remembers. -/
def inputs (memory : Bool) (s : Select) : List Select :=
  s.source.select?.toList ++ bif memory then s.groupKey.toList.map (·.source) else []

/-- The selects inside `s`, itself apart. -/
def nested (memory : Bool) (s : Select) : List Select := (s.withNested memory).tail

theorem withNested_eq (memory : Bool) (s : Select) :
    s.withNested memory = s :: s.nested memory := by
  obtain ⟨⟩ := s
  rfl

end Select

theorem Projection.selects_eq (memory : Bool) (p : Projection) :
    p.selects memory = p.exprs.flatMap (Expr.selects memory) := by
  have hfields : ∀ fields : List OutputField, OutputField.selects memory fields =
      (fields.map (·.expr)).flatMap (Expr.selects memory) := by
    intro fields
    induction fields with
    | nil => rfl
    | cons f fields ih => obtain ⟨e, label⟩ := f; simp [OutputField.selects, ih]
  cases p <;> simp [Projection.selects, exprs, Expr.selectsOption_eq, hfields]

theorem RowGroup.selects_eq (memory : Bool) (g : Option RowGroup) :
    RowGroup.selects memory g = (g.toList.flatMap exprs).flatMap (Expr.selects memory) := by
  rcases g with _ | _ | keys <;> simp [RowGroup.selects, exprs, Expr.selectsList_eq]

theorem SortKey.selects_eq (memory : Bool) (keys : List SortKey) :
    SortKey.selects memory keys = (keys.map (·.expr)).flatMap (Expr.selects memory) := by
  induction keys with
  | nil => rfl
  | cons k keys ih => obtain ⟨e, descending⟩ := k; simp [SortKey.selects, ih]

theorem RowSource.selects_eq (memory : Bool) (s : RowSource) :
    s.selects memory = s.select?.toList.flatMap (Select.withNested memory) := by
  cases s <;> simp [RowSource.selects, select?]

theorem GroupKey.selects_eq (memory : Bool) (k : Option GroupKey) :
    GroupKey.selects memory k = (k.toList.flatMap exprs).flatMap (Expr.selects memory) := by
  rcases k with _ | ⟨inner, outer, source, values⟩ <;> simp [GroupKey.selects, exprs]

theorem GroupKey.sourceSelects_eq (memory : Bool) (k : Option GroupKey) :
    GroupKey.sourceSelects memory k =
      (k.toList.map (·.source)).flatMap (Select.withNested memory) := by
  rcases k with _ | ⟨inner, outer, source, values⟩ <;> simp [GroupKey.sourceSelects]

namespace Select

/-- What is inside `s` is inside a clause of it or of a select it reads. -/
theorem nested_eq (memory : Bool) (s : Select) :
    s.nested memory = (s.clauses memory).flatMap (Expr.selects memory) ++
      (s.inputs memory).flatMap (withNested memory) := by
  obtain ⟨scope, element, source, projection, filter, group, orderings, take, skip,
    single, key⟩ := s
  simp only [nested, withNested, List.tail_cons, clauses, inputs, RowSource.selects_eq,
    Projection.selects_eq, RowGroup.selects_eq, SortKey.selects_eq, Expr.selectsOption_eq,
    GroupKey.selects_eq, GroupKey.sourceSelects_eq, List.flatMap_append]
  cases memory <;> rfl

theorem mem_nested {memory : Bool} {u s : Select} :
    u ∈ s.nested memory ↔
      (∃ c ∈ s.clauses memory, u ∈ c.selects memory) ∨
        ∃ v ∈ s.inputs memory, u ∈ v.withNested memory := by
  rw [nested_eq, List.mem_append, List.mem_flatMap, List.mem_flatMap]

theorem mem_withNested_self (memory : Bool) (s : Select) : s ∈ s.withNested memory := by
  rw [withNested_eq]
  exact List.mem_cons_self

end Select

/-! ## Induction through selects -/

theorem Expr.sizeOf_select?_lt {e : Expr} {s : Select} (h : e.select? = some s) :
    sizeOf s < sizeOf e := by
  cases e <;> simp only [select?, Option.some.injEq, reduceCtorEq] at h <;> subst h <;> simp +arith

theorem Projection.sizeOf_exprs_lt {p : Projection} {c : Expr} (h : c ∈ p.exprs) :
    sizeOf c < sizeOf p := by
  cases p with
  | all => simp [exprs] at h
  | expr e => simp only [exprs, List.mem_singleton] at h; subst h; simp +arith
  | fields fs =>
    obtain ⟨f, hf, rfl⟩ := List.mem_map.mp h
    have := List.sizeOf_lt_of_mem hf
    obtain ⟨e, label⟩ := f
    simp only [OutputField.mk.sizeOf_spec, Projection.fields.sizeOf_spec] at this ⊢
    omega
  | count q => simp only [exprs, Option.mem_toList] at h; subst h; simp +arith
  | aggregation k e l => simp only [exprs, List.mem_singleton] at h; subst h; simp +arith

theorem RowGroup.sizeOf_exprs_lt {g : Option RowGroup} {c : Expr}
    (h : c ∈ g.toList.flatMap exprs) : sizeOf c < sizeOf g := by
  rcases g with _ | _ | ks
  · simp at h
  · simp [exprs] at h
  · simp only [Option.toList_some, List.flatMap_cons, List.flatMap_nil, List.append_nil, exprs] at h
    have := List.sizeOf_lt_of_mem h
    simp only [Option.some.sizeOf_spec, RowGroup.keys.sizeOf_spec]
    omega

theorem GroupKey.sizeOf_exprs_lt {k : Option GroupKey} {c : Expr}
    (h : c ∈ k.toList.flatMap exprs) : sizeOf c < sizeOf k := by
  rcases k with _ | ⟨inner, outer, source, values⟩
  · simp at h
  · simp only [Option.toList_some, List.flatMap_cons, List.flatMap_nil, List.append_nil, exprs,
      List.mem_cons, List.not_mem_nil, or_false] at h
    rcases h with rfl | rfl | rfl <;> simp +arith

namespace Select

theorem sizeOf_clauses_lt {memory : Bool} {s : Select} {c : Expr} (h : c ∈ s.clauses memory) :
    sizeOf c < sizeOf s := by
  obtain ⟨scope, element, source, projection, filter, group, orderings, take, skip,
    single, key⟩ := s
  simp only [clauses, List.mem_append, Option.mem_toList] at h
  simp only [mk.sizeOf_spec]
  rcases h with (((((h | h) | h) | h) | h) | h) | h
  · have := Projection.sizeOf_exprs_lt h
    omega
  · subst h
    simp only [Option.some.sizeOf_spec]
    omega
  · have := RowGroup.sizeOf_exprs_lt h
    omega
  · obtain ⟨k, hk, rfl⟩ := List.mem_map.mp h
    have := List.sizeOf_lt_of_mem hk
    obtain ⟨e, descending⟩ := k
    simp only [SortKey.mk.sizeOf_spec] at this
    simp only
    omega
  · subst h
    simp only [Option.some.sizeOf_spec]
    omega
  · subst h
    simp only [Option.some.sizeOf_spec]
    omega
  · cases memory with
    | false => simp at h
    | true =>
      have := GroupKey.sizeOf_exprs_lt h
      omega

theorem sizeOf_inputs_lt {memory : Bool} {s v : Select} (h : v ∈ s.inputs memory) :
    sizeOf v < sizeOf s := by
  obtain ⟨scope, element, source, projection, filter, group, orderings, take, skip,
    single, key⟩ := s
  simp only [inputs, List.mem_append, Option.mem_toList] at h
  simp only [mk.sizeOf_spec]
  rcases h with h | h
  · cases source with
    | table name => simp [RowSource.select?] at h
    | subquery u =>
      simp only [RowSource.select?, Option.some.injEq] at h
      subst h
      simp only [RowSource.subquery.sizeOf_spec]
      omega
  · cases memory with
    | false => simp at h
    | true =>
      rcases key with _ | ⟨inner, outer, inside, values⟩
      · simp at h
      · simp only [cond_true, Option.toList_some, List.map_cons, List.map_nil,
          List.mem_singleton] at h
        subst h
        simp only [Option.some.sizeOf_spec, GroupKey.mk.sizeOf_spec]
        omega

end Select

/-- What `P` and `Q` say of a node follows from what they say of its children and of the select it
is, and of a select from its clauses and sources; then they hold of all. -/
theorem deepInduction {P : Expr → Prop} {Q : Select → Prop}
    (expr : ∀ e : Expr, (∀ c ∈ e.children, P c) → (∀ s, e.select? = some s → Q s) → P e)
    (select : ∀ s : Select, (∀ c ∈ s.clauses true, P c) → (∀ v ∈ s.inputs true, Q v) → Q s) :
    (∀ e, P e) ∧ ∀ s, Q s := by
  -- By size, since a clause of a select is no child of the expression that the select is.
  have hall : ∀ n : Nat, (∀ e : Expr, sizeOf e < n → P e) ∧ ∀ s : Select, sizeOf s < n → Q s := by
    intro n
    induction n with
    | zero =>
      exact ⟨fun e h => absurd h (Nat.not_lt_zero _), fun s h => absurd h (Nat.not_lt_zero _)⟩
    | succ n ih =>
      refine ⟨fun e h => expr e ?_ ?_, fun s h => select s ?_ ?_⟩
      · intro c hc
        have := Expr.sizeOf_lt_of_mem_children hc
        exact ih.1 c (by omega)
      · intro s hs
        have := Expr.sizeOf_select?_lt hs
        exact ih.2 s (by omega)
      · intro c hc
        have := Select.sizeOf_clauses_lt hc
        exact ih.1 c (by omega)
      · intro v hv
        have := Select.sizeOf_inputs_lt hv
        exact ih.2 v (by omega)
  exact ⟨fun e => (hall (sizeOf e + 1)).1 e (by omega), fun s =>
    (hall (sizeOf s + 1)).2 s (by omega)⟩

/-- `A` and `B` go down to all parts of expressions and selects. -/
structure Hereditary (A : Expr → Prop) (B : Select → Prop) : Prop where
  child : ∀ {e c : Expr}, A e → c ∈ e.children → A c
  select : ∀ {e : Expr} {s : Select}, A e → e.select? = some s → B s
  clause : ∀ {s : Select} {c : Expr}, B s → c ∈ s.clauses true → A c
  input : ∀ {s v : Select}, B s → v ∈ s.inputs true → B v

theorem Select.clauses_subset (s : Select) : s.clauses false ⊆ s.clauses true := by
  intro c hc
  simp only [clauses, cond_false, List.append_nil] at hc
  exact List.mem_append_left _ hc

theorem Select.inputs_subset (s : Select) : s.inputs false ⊆ s.inputs true := by
  intro v hv
  simp only [inputs, cond_false, List.append_nil] at hv
  exact List.mem_append_left _ hv

theorem selects_subset :
    (∀ e : Expr, e.selects false ⊆ e.selects true) ∧
      ∀ s : Select, s.withNested false ⊆ s.withNested true := by
  apply deepInduction
  · intro e hc hs u hu
    rw [Expr.selects_eq] at hu ⊢
    cases h : e.select? with
    | some s =>
      rw [h] at hu
      exact hs s h hu
    | none =>
      rw [h] at hu
      obtain ⟨c, hce, huc⟩ := List.mem_flatMap.mp hu
      exact List.mem_flatMap.mpr ⟨c, hce, hc c hce huc⟩
  · intro s hc hv u hu
    rw [Select.withNested_eq, List.mem_cons] at hu ⊢
    refine hu.imp id fun hu => ?_
    rw [Select.mem_nested] at hu ⊢
    refine hu.imp ?_ ?_
    · rintro ⟨c, hcs, huc⟩
      exact ⟨c, s.clauses_subset hcs, hc c (s.clauses_subset hcs) huc⟩
    · rintro ⟨v, hvs, huv⟩
      exact ⟨v, s.inputs_subset hvs, hv v (s.inputs_subset hvs) huv⟩

theorem Select.nested_subset (s : Select) : s.nested false ⊆ s.nested true := by
  intro u hu
  rw [mem_nested] at hu ⊢
  refine hu.imp ?_ ?_
  · rintro ⟨c, hc, hu⟩
    exact ⟨c, s.clauses_subset hc, selects_subset.1 c hu⟩
  · rintro ⟨v, hv, hu⟩
    exact ⟨v, s.inputs_subset hv, selects_subset.2 v hu⟩

/-- The selects `withNested` in a select of a tree are in the tree. -/
theorem selects_trans (memory : Bool) :
    (∀ e : Expr, ∀ v ∈ e.selects memory, v.withNested memory ⊆ e.selects memory) ∧
      ∀ s : Select, ∀ v ∈ s.withNested memory, v.withNested memory ⊆ s.withNested memory := by
  -- The induction always goes into what is remembered, so the parts that are seen are among those
  -- that it knows.
  have hclauses : ∀ s : Select, s.clauses memory ⊆ s.clauses true := by
    cases memory with
    | false => exact Select.clauses_subset
    | true => exact fun s => List.Subset.refl _
  have hinputs : ∀ s : Select, s.inputs memory ⊆ s.inputs true := by
    cases memory with
    | false => exact Select.inputs_subset
    | true => exact fun s => List.Subset.refl _
  apply deepInduction
  · intro e hc hs v hv u hu
    rw [Expr.selects_eq] at hv ⊢
    cases h : e.select? with
    | some s =>
      rw [h] at hv
      exact hs s h v hv hu
    | none =>
      rw [h] at hv
      obtain ⟨c, hce, hvc⟩ := List.mem_flatMap.mp hv
      exact List.mem_flatMap.mpr ⟨c, hce, hc c hce v hvc hu⟩
  · intro s hc hi v hv u hu
    rw [Select.withNested_eq, List.mem_cons] at hv
    rcases hv with rfl | hv
    · exact hu
    · rw [Select.withNested_eq, List.mem_cons]
      refine .inr (Select.mem_nested.mpr ?_)
      refine (Select.mem_nested.mp hv).imp ?_ ?_
      · rintro ⟨c, hcs, hvc⟩
        exact ⟨c, hcs, hc c (hclauses s hcs) v hvc hu⟩
      · rintro ⟨w, hw, hvw⟩
        exact ⟨w, hw, hi w (hinputs s hw) v hvw hu⟩

theorem Select.nested_trans {memory : Bool} {s u v : Select} (hu : u ∈ s.nested memory)
    (hv : v ∈ u.withNested memory) : v ∈ s.nested memory := by
  refine mem_nested.mpr ((mem_nested.mp hu).imp ?_ ?_)
  · rintro ⟨c, hc, huc⟩
    exact ⟨c, hc, (selects_trans memory).1 c u huc hv⟩
  · rintro ⟨w, hw, huw⟩
    exact ⟨w, hw, (selects_trans memory).2 w u huw hv⟩

end QueryTree
