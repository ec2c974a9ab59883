import Mathlib.Data.List.Dedup
import QueryTree.Proofs.Chain
import QueryTree.Proofs.Clauses

/-!
# The meaning of selects

A select means a list of rows: those of its source that pass the filter are taken together as the
groups say, put in order and cut, and for what is taken together something is put out. A select
inside an expression sees the rows around it.

Rows that are not grouped are taken together one by one. A group has the values of the keys in
common, read from what is put out: a field is stored under its label, or else under its path.
-/

namespace QueryTree

/-- What stands in the place of a child in the shape of a node. -/
abbrev Expr.hole : Expr := .constant .null .unknown

/-- What selects mean, beyond what nodes mean. -/
structure Semantics (V : Type) extends Interpretation V where
  /-- The rows of a table. -/
  tables : String → List V
  /-- Rows as an array. -/
  array : List V → V
  /-- The row of a query that yields one. -/
  only : List V → V
  /-- An object without members. -/
  empty : V
  /-- An object with another member. -/
  set : V → String → V → V
  /-- An aggregate of values. -/
  aggregate : AggregateKind → List V → V
  /-- The tuples without repetitions, in any order. -/
  distinct : List (List V) → List (List V)
  member_set : ∀ (t : Ty) (o : V) (name : String) (v : V), node (.member .hole name t)
    [set o name v] = v
  member_set_of_ne : ∀ (t : Ty) (o : V) (name other : String) (v : V), other ≠ name →
    node (.member .hole other t) [set o name v] = node (.member .hole other t) [o]
  node_object : ∀ (t : Ty) (members : List (String × Expr)) (vs : List V),
    vs.length = members.length → node (Expr.newObject t members).shape vs =
      ((members.map (·.1)).zip vs).foldl (fun o m => set o m.1 m.2) empty
  holds_equal : ∀ (t : Ty) (a b : V),
    holds (node (.binary .equal .hole .hole t) [a, b]) = true ↔ a = b
  holds_not : ∀ (t : Ty) (a : V), holds (node (.unary .not .hole t) [a]) = !holds a
  nodup_distinct : ∀ ks, (distinct ks).Nodup
  mem_distinct : ∀ ks k, k ∈ distinct ks ↔ k ∈ ks

/-- Where an expression is evaluated. -/
structure Scene (V : Type) extends Env V where
  /-- The innermost select. -/
  scope : ScopeId
  /-- The rows that it takes together there. -/
  group : List V

namespace Scene

variable {V : Type}

/-- Inside a lambda whose parameters are given. -/
def binding (σ : Scene V) (ps : List LambdaParam) (given : String → V) : Scene V :=
  { σ with toEnv := σ.toEnv.binding ps given }

/-- At the rows `group` that a select takes together. The first of them is the current one. -/
def enter (σ : Scene V) (scope : ScopeId) (group : List V) : Scene V where
  params := σ.params
  rows c := if c = scope then group.headD (σ.rows scope) else σ.rows c
  scope := scope
  group := group

theorem rows_enter_self (σ : Scene V) (scope : ScopeId) (row : V) (rest : List V) :
    (σ.enter scope (row :: rest)).rows scope = row := by
  simp [enter]

theorem rows_enter_of_ne (σ : Scene V) {scope c : ScopeId} (h : c ≠ scope) (group : List V) :
    (σ.enter scope group).rows c = σ.rows c := by
  simp [enter, h]

/-- At one `row` of those that are taken together. -/
def focus (σ : Scene V) (row : V) : Scene V := σ.enter σ.scope [row]

end Scene

/-- The members on the way to a value, and their types. -/
def Expr.memberPath : Expr → List (String × Ty)
  | .member base name t => base.memberPath ++ [(name, t)]
  | _ => []
termination_by structural e => e

/-- Where `f` is stored in a row. -/
def OutputField.path (f : OutputField) : List String :=
  match f.label, f.expr.memberPath with
  | some label, _ => [label]
  | none, [] => ["Value"]
  | none, path => path.map (·.1)

/-- Whether a node is no select and no aggregate, so that `node` says what it means. -/
def Expr.isPlainNode : Expr → Bool
  | .select _ | .subquery _ | .groupAggregate _ _ _ => false
  | _ => true

/-- `e` has no selects and aggregates. -/
def Expr.Plain (e : Expr) : Prop := ∀ n ∈ e.nodes, n.isPlainNode = true

instance (e : Expr) : Decidable e.Plain := inferInstanceAs (Decidable (∀ n ∈ e.nodes, _))

namespace Semantics

section
variable {V : Type} [DecidableEq V] (M : Semantics V)

/-- The member `name` of `o`. -/
def get (o : V) (name : String) : V := M.node (.member .hole name .unknown) [o]

/-- An object with a value stored at the end of a path. -/
def store : V → List String → V → V
  | _, [], v => v
  | o, name :: path, v => M.set o name (store (M.get o name) path v)

/-- The object with these members. -/
def record (members : List (String × V)) : V := members.foldl (fun o m => M.set o m.1 m.2) M.empty

/-- The `rows` that a select takes together. -/
def split (group : Option RowGroup) (key : V → List V) (rows : List V) : List (List V) :=
  match group with
  | none => rows.map ([·])
  | some .all => [rows]
  | some (.keys _) => (M.distinct (rows.map key)).map fun k => rows.filter fun row => key row = k

/-- What a query gives: its rows, or its only one. -/
def result (single : Bool) (rows : List V) : V := if single then M.only rows else M.array rows

mutual

/-- What an expression means. -/
def value : Scene V → Expr → V
  | σ, .parameter name _ => σ.params name
  | σ, .row scope _ => σ.rows scope
  | σ, .lambda ps body => M.lambda ps fun given => value (σ.binding ps given) body
  | σ, .select s => M.result s.single (rows σ s)
  | σ, .subquery s => M.result s.single (rows σ s)
  | σ, .groupAggregate kind selector _ => M.aggregate kind (σ.group.map fun row =>
    (valueOption (σ.focus row) selector).headD row)
  | σ, .member base name t => M.node (Expr.member base name t).shape [value σ base]
  | σ, .call surface method receiver args t =>
    M.node (Expr.call surface method receiver args t).shape (valueOption σ receiver ++
      valueList σ args)
  | σ, .unary op operand t => M.node (Expr.unary op operand t).shape [value σ operand]
  | σ, .binary op left right t =>
    M.node (Expr.binary op left right t).shape [value σ left, value σ right]
  | σ, .newObject t members => M.node (Expr.newObject t members).shape (valueMembers σ members)
  | σ, .newArray t items => M.node (Expr.newArray t items).shape (valueList σ items)
  | σ, .construct t args => M.node (Expr.construct t args).shape (valueList σ args)
  | σ, .custom inner t => M.node (Expr.custom inner t).shape [value σ inner]
  | _, e => M.node e.shape []
termination_by structural _ e => e

def valueOption : Scene V → Option Expr → List V
  | _, none => []
  | σ, some e => [value σ e]
termination_by structural _ e => e

def valueList : Scene V → List Expr → List V
  | _, [] => []
  | σ, e :: es => value σ e :: valueList σ es
termination_by structural _ es => es

def valueMembers : Scene V → List (String × Expr) → List V
  | _, [] => []
  | σ, (_, e) :: es => value σ e :: valueMembers σ es
termination_by structural _ es => es

/-- The rows that a select puts out. -/
def rows : Scene V → Select → List V
  | σ, ⟨scope, _, source, projection, filter, group, orderings, take, skip, _, _⟩ =>
    let input := (sourceRows σ source).filter fun row =>
      (valueOption (σ.enter scope [row]) filter).all M.holds
    let groups := M.split group (fun row =>
      keyValues (σ.enter scope [output (σ.enter scope [row]) projection]) group) input
    let levels := (orderLevels orderings).map fun level =>
      (level.1, fun group => level.2 (σ.enter scope group))
    (window ((valueOption σ skip).head?.map M.count) ((valueOption σ take).head?.map M.count)
      (M.sort levels groups)).map fun group => output (σ.enter scope group) projection
termination_by structural _ s => s

/-- The rows of a source. -/
def sourceRows : Scene V → RowSource → List V
  | _, .table name => M.tables name
  | σ, .subquery s => rows σ s
termination_by structural _ s => s

/-- What a projection puts out. -/
def output : Scene V → Projection → V
  | σ, .all => σ.rows σ.scope
  | σ, .expr e => value σ e
  | σ, .fields fields => (fieldValues σ fields).foldl (fun o f => M.store o f.1 f.2) M.empty
  | σ, .count predicate => M.record [(AggregateKind.count.label, M.aggregate .count
      (σ.group.filter fun row => (valueOption (σ.focus row) predicate).all M.holds))]
  | σ, .aggregation kind selector label =>
    M.record [(label, M.aggregate kind (σ.group.map fun row => value (σ.focus row) selector))]
termination_by structural _ p => p

/-- Where fields are stored, and what they mean. -/
def fieldValues : Scene V → List OutputField → List (List String × V)
  | _, [] => []
  | σ, ⟨e, label⟩ :: fields => (OutputField.path ⟨e, label⟩, value σ e) :: fieldValues σ fields
termination_by structural _ fields => fields

/-- The tuple of the keys of a group. -/
def keyValues : Scene V → Option RowGroup → List V
  | σ, some (.keys keys) => valueList σ keys
  | _, _ => []
termination_by structural _ group => group

/-- The levels of an order. -/
def orderLevels : List SortKey → List (Bool × (Scene V → V))
  | [] => []
  | ⟨e, descending⟩ :: keys => (descending, fun σ => value σ e) :: orderLevels keys
termination_by structural keys => keys

end

/-! ## One level at a time -/

theorem valueOption_eq (σ : Scene V) (e : Option Expr) :
    M.valueOption σ e = e.toList.map (M.value σ) := by
  cases e <;> simp [valueOption]

theorem valueList_eq (σ : Scene V) (es : List Expr) : M.valueList σ es = es.map (M.value σ) := by
  induction es with
  | nil => rfl
  | cons e es ih => simp [valueList, ih]

theorem valueMembers_eq (σ : Scene V) (es : List (String × Expr)) :
    M.valueMembers σ es = (es.map (·.2)).map (M.value σ) := by
  induction es with
  | nil => rfl
  | cons e es ih => simp [valueMembers, ih]

theorem fieldValues_eq (σ : Scene V) (fields : List OutputField) :
    M.fieldValues σ fields = fields.map fun f => (f.path, M.value σ f.expr) := by
  induction fields with
  | nil => rfl
  | cons f fields ih =>
    obtain ⟨e, label⟩ := f
    simp [fieldValues, ih]

theorem orderLevels_eq (keys : List SortKey) :
    M.orderLevels keys = keys.map fun k => (k.descending, fun σ => M.value σ k.expr) := by
  induction keys with
  | nil => rfl
  | cons k keys ih =>
    obtain ⟨e, descending⟩ := k
    simp [orderLevels, ih]

/-- A node with `isPlainNode` that is no variable means what its shape makes of the meanings of its
children. -/
theorem value_eq {σ : Scene V} {e : Expr} (h : e.isVariable = false) (hp : e.isPlainNode = true) :
    M.value σ e = M.node e.shape (e.children.map (M.value σ)) := by
  cases e with
  | parameter name t => cases h
  | row scope t => cases h
  | lambda ps body => cases h
  | select s => cases hp
  | subquery s => cases hp
  | groupAggregate kind selector t => cases hp
  | _ => simp [value, Expr.children, valueOption_eq, valueList_eq, valueMembers_eq]

/-- A `Plain` expression means what its nodes make of it. -/
theorem value_of_plain {σ : Scene V} {e : Expr} (h : e.Plain) :
    M.value σ e = M.toInterpretation.value σ.toEnv e := by
  induction e using Expr.childrenInduction generalizing σ with
  | step e ih =>
    have hself := h e (Expr.mem_nodes_self e)
    have hkids : ∀ c ∈ e.children, ∀ σ : Scene V, M.value σ c = M.toInterpretation.value
        σ.toEnv c :=
      fun c hc σ => ih c hc fun n hn => h n (Expr.mem_nodes_of_child hc hn)
    cases e with
    | parameter name t => rfl
    | row scope t => rfl
    | lambda ps body =>
      simp only [value, Interpretation.value]
      congr 1
      funext given
      exact hkids body (by simp [Expr.children]) (σ.binding ps given)
    | select s => cases hself
    | subquery s => cases hself
    | groupAggregate kind selector t => cases hself
    | _ =>
      rw [M.value_eq rfl rfl, M.toInterpretation.value_eq rfl,
        List.map_congr_left fun c hc => hkids c hc σ]

variable (σ : Scene V) (s : Select)

/-- Whether `row` passes the filter of `s`. -/
def passes (row : V) : Bool := s.filter.all fun c => M.holds (M.value (σ.enter s.scope [row]) c)

/-- The rows of the source of `s` that pass its filter. -/
def input : List V := (M.sourceRows σ s.source).filter (M.passes σ s)

/-- The tuple by which `row` is grouped. -/
def tuple (row : V) : List V :=
  M.keyValues (σ.enter s.scope [M.output (σ.enter s.scope [row]) s.projection]) s.group

/-- The order of `s`. -/
def levels : List (Bool × (List V → V)) :=
  s.orderings.map fun k => (k.descending, fun group => M.value (σ.enter s.scope group) k.expr)

/-- What the numbers of `s` leave of `xs`. -/
def cut {α : Type} (xs : List α) : List α :=
  window (s.skip.map fun e => M.count (M.value σ e)) (s.take.map fun e => M.count (M.value σ e)) xs

/-- The rows that `s` puts out, by its clauses. -/
theorem rows_eq : M.rows σ s =
    (M.cut σ s (M.sort (M.levels σ s) (M.split s.group (M.tuple σ s) (M.input σ s)))).map
      fun group => M.output (σ.enter s.scope group) s.projection := by
  obtain ⟨scope, element, source, projection, filter, group, orderings, take, skip,
    single, key⟩ := s
  have hnumber : ∀ e : Option Expr, (M.valueOption σ e).head?.map M.count =
      e.map fun e => M.count (M.value σ e) := by
    intro e
    cases e <;> rfl
  have hpasses : (fun row => (M.valueOption (σ.enter scope [row]) filter).all M.holds) =
      M.passes σ ⟨scope, element, source, projection, filter, group, orderings, take, skip,
        single, key⟩ := by
    funext row
    cases filter <;> simp [passes, valueOption]
  have hlevels : ((M.orderLevels orderings).map fun level =>
      (level.1, fun group => level.2 (σ.enter scope group))) =
      M.levels σ ⟨scope, element, source, projection, filter, group, orderings, take, skip,
        single, key⟩ := by
    rw [orderLevels_eq, List.map_map]
    rfl
  rw [rows, hnumber, hnumber, hpasses, hlevels]
  rfl

/-! ## Selects without groups -/

/-- The order of `s` for single rows. -/
def rowLevels : List (Bool × (V → V)) :=
  s.orderings.map fun k => (k.descending, fun row => M.value (σ.enter s.scope [row]) k.expr)

/-- The rows that pass the filter of `s`, in its order. -/
def candidates : List V := M.sort (M.rowLevels σ s) (M.input σ s)

theorem mem_candidates {row : V} : row ∈ M.candidates σ s ↔ row ∈ M.input σ s :=
  List.mem_mergeSort

/-- What `s` puts out for `row`. -/
def outputOf (row : V) : V := M.output (σ.enter s.scope [row]) s.projection

variable {s}

theorem cut_map {α β : Type} (f : α → β) (xs : List α) :
    M.cut σ s (xs.map f) = (M.cut σ s xs).map f :=
  window_map f _ _ xs

/-- Without groups `rows` has something for each row. -/
theorem rows_of_ungrouped (h : s.group = none) :
    M.rows σ s = (M.cut σ s (M.candidates σ s)).map (M.outputOf σ s) := by
  have hsort : M.sort (M.levels σ s) ((M.input σ s).map ([·])) = (M.candidates σ s).map ([·]) := by
    rw [M.map_sort, candidates]
    congr 2
    simp only [levels, rowLevels, List.map_map]
    rfl
  rw [rows_eq, h, split, hsort, cut_map, List.map_map]
  rfl

theorem passes_filterBy (c : Expr) (row : V) : M.passes σ (s.filterBy c) row =
    (M.passes σ s row && M.holds (M.value (σ.enter s.scope [row]) c)) := by
  cases hf : s.filter with
  | none => simp [passes, Select.filterBy, hf]
  | some existing =>
    simp only [passes, Select.filterBy, hf, Option.all_some]
    rw [Expr.and, Expr.combine, M.value_eq rfl rfl]
    exact M.holds_and _ _ _

/-- `filterBy` leaves out rows before they are counted. -/
theorem candidates_filterBy (c : Expr) : M.candidates σ (s.filterBy c) =
    (M.candidates σ s).filter fun row => M.holds (M.value (σ.enter s.scope [row]) c) := by
  unfold candidates
  rw [M.filter_sort]
  show M.sort (M.rowLevels σ s) _ = _
  congr 1
  unfold input
  rw [List.filter_filter]
  refine List.filter_congr fun row _ => ?_
  rw [passes_filterBy]
  exact Bool.and_comm _ _

theorem holds_value_not (τ : Scene V) (c : Expr) :
    M.holds (M.value τ c.not) = !M.holds (M.value τ c) := by
  rw [Expr.not, M.value_eq rfl rfl]
  exact M.holds_not _ _

theorem rows_filterBy (h : s.group = none) (c : Expr) : M.rows σ (s.filterBy c) =
    (M.cut σ s ((M.candidates σ s).filter fun row =>
      M.holds (M.value (σ.enter s.scope [row]) c))).map (M.outputOf σ s) := by
  rw [M.rows_of_ungrouped σ (s := s.filterBy c) h, candidates_filterBy]
  rfl

theorem rows_single (single : Bool) : M.rows σ { s with single := single } = M.rows σ s := by
  rw [rows_eq, rows_eq]
  rfl

end

end Semantics

/-! ## Functions of rows -/

/-- The body of `f` with what `s` puts out filled in. -/
def RowFn.filled {outer : List String} {scope : ScopeId} (f : RowFn outer scope) (s : Select) :
    Expr :=
  f.body.substitute f.param.name s.rowValue

/-- `s` puts out a `Plain` value for each row, in which the names are in `outer`. -/
structure Select.Rowwise (outer : List String) (s : Select) : Prop where
  groupKey : s.groupKey = none
  projection : s.projection = .all ∨ ∃ e, s.projection = .expr e
  scalar : s.rowValue.Scalar
  plain : s.rowValue.Plain
  free : ∀ y ∈ s.rowValue.freeNames, y ∈ outer

theorem Expr.isPlainNode_withChildren (e : Expr) (cs : List Expr) :
    (e.withChildren cs).isPlainNode = e.isPlainNode :=
  withChildren_congr (f := isPlainNode) (fun h => by cases h <;> rfl) e cs

theorem Expr.Plain.substitute {e v : Expr} (he : e.Plain) (hv : v.Plain) (x : String) :
    (e.substitute x v).Plain :=
  nodes_substitute isPlainNode_withChildren he hv x

namespace Select.Rowwise

variable {outer : List String} {s s' : Select}

theorem congr (h : s.Rowwise outer) (hscope : s'.scope = s.scope)
    (hproj : s'.projection = s.projection) (helement : s'.element = s.element)
    (hkey : s'.groupKey = s.groupKey) : s'.Rowwise outer := by
  have hrow : s'.rowValue = s.rowValue := rowValue_congr hscope hproj helement
  exact ⟨hkey.trans h.groupKey, hproj ▸ h.projection, hrow ▸ h.scalar, hrow ▸ h.plain,
    hrow ▸ h.free⟩

theorem ofSource (scope : ScopeId) (source : RowSource) (element : Ty) :
    (Select.ofSource scope source element).Rowwise outer where
  groupKey := rfl
  projection := .inl rfl
  scalar := Expr.scalar_iff.mpr ⟨rfl, nofun⟩
  plain m hm := by
    obtain rfl := List.mem_singleton.mp hm
    rfl
  free := nofun

theorem project (h : s.Rowwise outer) {scope : ScopeId} (f : RowFn outer scope)
    (hf : f.body.Plain) : (s.project (.expr (f.filled s))).Rowwise outer where
  groupKey := h.groupKey
  projection := .inr ⟨_, rfl⟩
  scalar := f.scalar.substitute h.scalar _
  plain := hf.substitute h.plain _
  free y hy := by
    rcases Expr.mem_freeNames_substitute hy with ⟨hy, hne⟩ | hy
    · exact (f.free y hy).resolve_left hne
    · exact h.free y hy

end Select.Rowwise

namespace Semantics

variable {V : Type} [DecidableEq V] (M : Semantics V) (σ : Scene V) {outer : List String}
  {s : Select}

theorem value_at_row {e : Expr} (h : e.Plain) (row : V) :
    M.value (σ.enter s.scope [row]) e = s.valueAt M.toInterpretation σ.toEnv e row :=
  M.value_of_plain h

/-- What `s` puts out is what a parameter for its rows stands for. -/
theorem outputOf_rowwise (h : s.Rowwise outer) (row : V) :
    M.outputOf σ s row = s.valueAt M.toInterpretation σ.toEnv s.rowValue row := by
  rw [← M.value_at_row σ h.plain]
  rcases h.projection with hp | ⟨e, hp⟩
  · rw [outputOf, hp, Select.rowValue, hp]
    rfl
  · rw [outputOf, hp, Select.rowValue, hp]
    rfl

/-- `filled` means what `f` makes of what is put out for the row. -/
theorem value_filled {scope : ScopeId} (f : RowFn outer scope) (hf : f.body.Plain)
    (hscope : s.scope = scope) (h : s.Rowwise outer) (row : V) :
    M.value (σ.enter s.scope [row]) (f.filled s) =
      f.apply M.toInterpretation σ.toEnv (M.outputOf σ s row) := by
  have hvisible : ∀ n ∈ f.body.nodes, ∀ y ∈ s.rowValue.freeNames, n.shadows y = false :=
    fun n hn y hy => f.visible n hn y (h.free y hy)
  rw [RowFn.filled, M.value_at_row σ (hf.substitute h.plain _), M.outputOf_rowwise σ h]
  unfold Select.valueAt RowFn.apply
  rw [Interpretation.value_substitute _ hvisible]
  -- The body mentions no row of the select, so the row only matters through its parameter.
  refine Interpretation.value_congr _ (fun _ _ => rfl) fun c t hc => ?_
  have hne := f.rows c t hc
  simp [Env.set, Env.withRow, hscope, hne]

end Semantics

/-! ## Plain data -/

namespace Datum

/-- Tables of data. -/
def semantics (tables : String → List Datum) : Semantics Datum where
  toInterpretation := interpretation
  tables := tables
  array := ofList
  only ds := ds.headD nil
  empty := nil
  set := set
  aggregate _ := ofList
  distinct := List.dedup
  member_set t o name v := by simp [interpretation, node, set, get]
  member_set_of_ne t o name other v h := by simp [interpretation, node, set, get, h.symm]
  node_object t members vs h := by
    simp only [Expr.shape, Expr.children, Expr.withChildren, interpretation, node]
    rw [List.map_fst_zip (by simp)]
  holds_equal t a b := by simp [interpretation, node, holds]
  holds_not t a := by simp [interpretation, node, holds]
  nodup_distinct := List.nodup_dedup
  mem_distinct _ _ := List.mem_dedup

/-- Nothing around a query. -/
def noScene : Scene Datum where
  params _ := nil
  rows _ := nil
  scope := ⟨0⟩
  group := []

end Datum

end QueryTree
