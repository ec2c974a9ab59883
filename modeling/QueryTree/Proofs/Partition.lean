import QueryTree.Proofs.KeyColumns
import QueryTree.Proofs.Naming

/-!
# Groups are a partition

Grouping a chain of filters, projections and orders gives a row for each key of its results. The
values in that row are the results with the key, in the order of the chain, so every result is in
one group only.
-/

namespace QueryTree

/-! ## Chains that are grouped -/

/-- Whether a node is neither a query nor an aggregate, nor a row of a select younger than `n`. -/
def Expr.isFlatNode (n : Nat) : Expr → Bool
  | .row c _ => c.index ≤ n
  | .select _ | .subquery _ | .groupAggregate _ _ _ => false
  | _ => true

/-- `isFlatNode` at all nodes of `e`. -/
def Expr.Flat (n : Nat) (e : Expr) : Prop := ∀ m ∈ e.nodes, m.isFlatNode n = true

/-- A function for the rows of the select `n` without queries and aggregates. The rows in its body
are of the selects around the query. -/
structure SourceFn (outer : List String) (n : Nat) extends RowFn outer ⟨n⟩ where
  plain : body.Plain
  older : ∀ c t, .row c t ∈ body.nodes → c.index < n

/-- An operator of a chain that can be grouped, and the type of its call. -/
inductive SourceStep (outer : List String) (n : Nat) where
  | filter (f : SourceFn outer n) (t : Ty)
  | project (f : SourceFn outer n) (t : Ty)
  | orderBy (key : SourceFn outer n) (descending : Bool) (t : Ty)
  | thenBy (key : SourceFn outer n) (descending : Bool) (t : Ty)

/-- A chain of filters, projections and orders on a table. -/
structure GroupSource (outer : List String) (n : Nat) where
  table : String
  element : Ty
  steps : List (SourceStep outer n)

section
variable {outer : List String} {n : Nat}

/-- The tree of `e` with one more operator. -/
def SourceStep.tree (e : Expr) : SourceStep outer n → Expr
  | .filter f t => e.followedBy "Where" f.arg t
  | .project f t => e.followedBy "Select" f.arg t
  | .orderBy key descending t => ChainKey.tree e ⟨key.toRowFn, descending, t⟩
  | .thenBy key descending t => ChainKey.thenTree e ⟨key.toRowFn, descending, t⟩

/-- The select `s` with one more operator. -/
def SourceStep.apply (s : Select) : SourceStep outer n → Select
  | .filter f _ => s.filterBy (f.filled s)
  | .project f _ => s.projectBy (f.filled s)
  | .orderBy key descending _ => s.orderBy (key.filled s) descending
  | .thenBy key descending _ => s.thenBy (key.filled s) descending

/-- The tree of a chain. -/
def GroupSource.tree (source : GroupSource outer n) : Expr :=
  source.steps.foldl SourceStep.tree (.table source.table source.element)

/-- The select that a chain is bound to. -/
def GroupSource.select (source : GroupSource outer n) : Select :=
  source.steps.foldl SourceStep.apply (.ofTable ⟨n⟩ source.table source.element)

/-! ## What the select of a chain is like -/

theorem Expr.isFlatNode_withChildren (e : Expr) (cs : List Expr) :
    (e.withChildren cs).isFlatNode n = e.isFlatNode n :=
  withChildren_congr (f := isFlatNode n) (fun h => by cases h <;> rfl) e cs

theorem Expr.Flat.substitute {e v : Expr} (he : e.Flat n) (hv : v.Flat n) (x : String) :
    (e.substitute x v).Flat n :=
  nodes_substitute isFlatNode_withChildren he hv x

theorem Expr.Flat.plain {e : Expr} (h : e.Flat n) : e.Plain := by
  intro m hm
  have hself := h m hm
  cases m <;> first | rfl | cases hself

theorem Expr.Flat.row_index {e : Expr} (h : e.Flat n) {c : ScopeId} {t : Ty}
    (hc : .row c t ∈ e.nodes) : c.index ≤ n :=
  of_decide_eq_true (h _ hc)

/-- A `Flat` expression has no row of a younger select. -/
theorem Expr.Flat.younger {e : Expr} (h : e.Flat n) {c : ScopeId} (hc : n < c.index) (t : Ty) :
    Expr.row c t ∉ e.nodes := by
  intro hrow
  have := h.row_index hrow
  omega

theorem SourceFn.flat (f : SourceFn outer n) : f.body.Flat n := by
  intro m hm
  have hplain := f.plain m hm
  cases m with
  | row c t => exact decide_eq_true (Nat.le_of_lt (f.older c t hm))
  | select s => cases hplain
  | subquery s => cases hplain
  | groupAggregate kind selector t => cases hplain
  | _ => rfl

/-- The select of a `GroupSource`: over a table, neither grouped nor cut, without queries in its
clauses. -/
structure Select.Flat (outer : List String) (n : Nat) (s : Select) :
    Prop extends s.Rowwise outer where
  scope_eq : s.scope = ⟨n⟩
  source : ∃ name, s.source = .table name
  group : s.group = none
  take : s.take = none
  skip : s.skip = none
  single : s.single = false
  clauses : ∀ c ∈ s.clauses true, c.Flat n

namespace Select.Flat

variable {s : Select} {c : Expr}

theorem rowValue_flat (h : s.Flat outer n) : s.rowValue.Flat n := by
  rcases h.projection with hp | ⟨e, hp⟩
  · intro m hm
    rw [rowValue, hp] at hm
    obtain rfl := List.mem_singleton.mp hm
    exact decide_eq_true (Nat.le_of_eq (congrArg ScopeId.index h.scope_eq))
  · rw [rowValue, hp]
    exact h.clauses e (mem_clauses_of_projection (by simp [hp, Projection.exprs]))

theorem filled (h : s.Flat outer n) (f : SourceFn outer n) : (f.filled s).Flat n :=
  f.flat.substitute h.rowValue_flat _

theorem table (name : String) (element : Ty) : (Select.ofTable ⟨n⟩ name element).Flat outer n where
  toRowwise := .ofSource ⟨n⟩ (.table name) element
  scope_eq := rfl
  source := ⟨name, rfl⟩
  group := rfl
  take := rfl
  skip := rfl
  single := rfl
  clauses c hc := by
    rw [clauses_ofTable] at hc
    cases hc

theorem update {s' : Select} (h : s.Flat outer n)
    (hrest : s' = { s with filter := s'.filter, orderings := s'.orderings })
    (hclauses : ∀ c ∈ s'.clauses true, c ∈ s.clauses true ∨ c.Flat n) : s'.Flat outer n := by
  refine ⟨h.toRowwise.congr ?_ ?_ ?_ ?_, ?_, ?_, ?_, ?_, ?_, ?_,
    fun c hc => (hclauses c hc).elim (h.clauses c) id⟩
  all_goals rw [hrest]
  exacts [h.scope_eq, h.source, h.group, h.take, h.skip, h.single]

theorem filterBy (h : s.Flat outer n) (hc : c.Flat n) : (s.filterBy c).Flat outer n := by
  refine h.update rfl fun d hd => (mem_clauses_filterBy hd).imp id fun hd => ?_
  rcases filter_filterBy hd with ⟨-, rfl⟩ | ⟨existing, hf, rfl⟩
  · exact hc
  · have hexisting := h.clauses existing (mem_clauses_of_filter hf)
    intro m hm
    rcases Expr.mem_nodes_iff.mp hm with rfl | ⟨e, he, hme⟩
    · rfl
    · simp only [Expr.and, Expr.combine, Expr.children, List.mem_cons, List.not_mem_nil,
        or_false] at he
      rcases he with rfl | rfl
      · exact hexisting m hme
      · exact hc m hme

theorem orderBy (h : s.Flat outer n) (hc : c.Flat n) (descending : Bool) :
    (s.orderBy c descending).Flat outer n := by
  refine h.update rfl fun d hd => (mem_clauses_orderBy hd).imp id fun hd => ?_
  rw [hd]
  exact hc

theorem thenBy (h : s.Flat outer n) (hc : c.Flat n) (descending : Bool) :
    (s.thenBy c descending).Flat outer n := by
  refine h.update rfl fun d hd => (mem_clauses_thenBy hd).imp id fun hd => ?_
  rw [hd]
  exact hc

theorem projectBy (h : s.Flat outer n) (f : SourceFn outer n) :
    (s.projectBy (f.filled s)).Flat outer n := by
  have hproject : (s.project (.expr (f.filled s))).Flat outer n := by
    refine { h with toRowwise := h.toRowwise.project f.toRowFn f.plain, clauses := fun d hd => ?_ }
    rcases mem_clauses_project hd with hd | hd
    · exact h.clauses d hd
    · obtain rfl := List.mem_singleton.mp hd
      exact h.filled f
  unfold Select.projectBy
  split
  · split
    · exact h
    · exact hproject
  · exact hproject

theorem step (h : s.Flat outer n) (step : SourceStep outer n) : (step.apply s).Flat outer n := by
  cases step with
  | filter f t => exact h.filterBy (h.filled f)
  | project f t => exact h.projectBy f
  | orderBy key descending t => exact h.orderBy (h.filled key) descending
  | thenBy key descending t => exact h.thenBy (h.filled key) descending

theorem fuses_step (h : s.Flat outer n) {e : Expr} {k m : Nat} (hb : Fuses e k s m)
    (step : SourceStep outer n) : Fuses (step.tree e) k (step.apply s) m := by
  cases step with
  | filter f t => exact hb.filterBy h.groupKey h.scalar f.toRowFn
  | project f t => exact hb.projectBy h.groupKey h.scalar f.toRowFn
  | orderBy key descending t => exact hb.orderBy h.groupKey h.scalar ⟨key.toRowFn, descending, t⟩
  | thenBy key descending t => exact hb.thenBy h.groupKey h.scalar ⟨key.toRowFn, descending, t⟩

theorem steps (h : s.Flat outer n) {e : Expr} {k m : Nat} (hb : Fuses e k s m)
    (steps : List (SourceStep outer n)) :
    (steps.foldl SourceStep.apply s).Flat outer n ∧
      Fuses (steps.foldl SourceStep.tree e) k (steps.foldl SourceStep.apply s) m := by
  induction steps generalizing e s with
  | nil => exact ⟨h, hb⟩
  | cons step steps ih => exact ih (h.step step) (h.fuses_step hb step)

end Select.Flat

theorem GroupSource.bound (source : GroupSource outer n) :
    source.select.Flat outer n ∧ Fuses source.tree n source.select (n + 1) :=
  Select.Flat.steps (.table source.table source.element) (.table source.table source.element n)
    source.steps

/-! ## What grouping a chain means -/

section
variable {V : Type} [DecidableEq V] (M : Semantics V) (σ : Scene V) {s : Select} {inner : Expr}

namespace Select.Flat

/-- `candidates` are the same inside a younger select. -/
theorem candidates_enter (h : s.Flat outer n) {c : ScopeId} (hc : n < c.index) (group : List V) :
    M.candidates (σ.enter c group) s = M.candidates σ s := by
  have hvalue : ∀ e ∈ s.clauses true, ∀ row, M.value ((σ.enter c group).enter s.scope [row]) e =
      M.value (σ.enter s.scope [row]) e :=
    fun e he row => M.value_enter_other σ (h.clauses e he).plain ((h.clauses e he).younger hc)
      group row
  obtain ⟨name, hname⟩ := h.source
  have hpasses : M.passes (σ.enter c group) s = M.passes σ s := by
    funext row
    cases hf : s.filter with
    | none => simp [Semantics.passes, hf]
    | some f =>
      simp only [Semantics.passes, hf, Option.all_some, hvalue f (mem_clauses_of_filter hf) row]
  have hlevels : M.rowLevels (σ.enter c group) s = M.rowLevels σ s := by
    refine List.map_congr_left fun k hk => Prod.ext rfl ?_
    funext row
    exact hvalue k.expr (mem_clauses_of_ordering hk) row
  rw [Semantics.candidates, Semantics.candidates, hlevels, Semantics.input, Semantics.input,
    hpasses, hname]
  rfl

theorem outputOf_enter (h : s.Flat outer n) {c : ScopeId} (hc : n < c.index) (group : List V) :
    M.outputOf (σ.enter c group) s = M.outputOf σ s := by
  funext row
  rw [M.outputOf_rowwise _ h.toRowwise, M.outputOf_rowwise _ h.toRowwise,
    ← M.value_at_row _ h.plain, ← M.value_at_row _ h.plain]
  exact M.value_enter_other σ h.plain (h.rowValue_flat.younger hc) group row

theorem cut_eq (h : s.Flat outer n) {α : Type} (xs : List α) : M.cut σ s xs = xs := by
  rw [Semantics.cut, h.take, h.skip]
  rfl

theorem rows_eq (h : s.Flat outer n) : M.rows σ s = (M.candidates σ s).map (M.outputOf σ s) := by
  rw [M.rows_of_ungrouped σ h.group, h.cut_eq]

/-- `groupRows` are the results with the key of the group. -/
theorem rows_groupRows (h : s.Flat outer n) {c : ScopeId} (hc : n < c.index)
    (hagree : M.KeysAgree σ inner s.scope c) (row : V) :
    M.rows (σ.enter c [M.keyRecord σ inner s.scope c row]) (s.groupRows inner c) =
      ((M.candidates σ s).filter fun row' =>
        M.keyOf σ inner s.scope row' = M.keyOf σ inner s.scope row).map (M.outputOf σ s) := by
  rw [Select.groupRows, M.rows_filterBy _ h.group, h.cut_eq, h.candidates_enter M σ hc,
    h.outputOf_enter M σ hc]
  congr 1
  refine List.filter_congr fun row' _ => ?_
  rw [Bool.eq_iff_iff, hagree.equality, decide_eq_true_eq]

end Select.Flat

/-- The `columns` of a key are parts of it. -/
theorem GroupKey.expr_mem_nodes_of_columns {a b : ScopeId} {f : OutputField}
    (hf : f ∈ (GroupKey.columns inner a b).1) : f.expr ∈ inner.nodes := by
  unfold GroupKey.columns at hf
  split at hf
  · rename_i t m members
    obtain ⟨m', hm', rfl⟩ := List.mem_map.mp hf
    have hchild : m'.2 ∈ (Expr.newObject t (m :: members)).children := List.mem_map_of_mem hm'
    exact Expr.mem_nodes_of_child hchild (Expr.mem_nodes_self _)
  · split at hf
    · obtain rfl := List.mem_singleton.mp hf
      exact Expr.mem_nodes_self _
    · obtain rfl := List.mem_singleton.mp hf
      exact Expr.mem_nodes_self _

/-- The grouped select puts out for a group what it puts out for its first row. -/
theorem Semantics.output_columns (hinner : inner.Plain) (a b : ScopeId) (row : V) (rest : List V) :
    M.output (σ.enter a (row :: rest)) (.fields (GroupKey.columns inner a b).1) =
      M.keyRecord σ inner a b row := by
  have hvalue : ∀ f ∈ (GroupKey.columns inner a b).1,
      M.value (σ.enter a (row :: rest)) f.expr = M.value (σ.enter a [row]) f.expr := by
    intro f hf
    have hplain : f.expr.Plain := fun m hm =>
      hinner m (Expr.mem_nodes_trans hm (GroupKey.expr_mem_nodes_of_columns hf))
    rw [M.value_of_plain hplain, M.value_of_plain hplain]
    rfl
  rw [Semantics.keyRecord, Semantics.output, Semantics.output, M.fieldValues_eq, M.fieldValues_eq]
  congr 1
  refine List.map_congr_left fun f hf => ?_
  rw [hvalue f hf]

/-- `groupedBy` puts out a row for each tuple that rows of the source have, that of a row with the
tuple. -/
theorem Select.Flat.rows_groupedBy (h : s.Flat outer n) (hinner : inner.Plain) (c : ScopeId) :
    ∃ record : List V → V,
      M.rows σ (s.groupedBy inner c) =
        (M.distinct ((M.input σ s).map (M.keyTuple σ inner s.scope c))).map record ∧
      ∀ k ∈ M.distinct ((M.input σ s).map (M.keyTuple σ inner s.scope c)),
        ∃ row ∈ M.input σ s, M.keyTuple σ inner s.scope c row = k ∧
          record k = M.keyRecord σ inner s.scope c row := by
  refine ⟨fun k => M.output (σ.enter s.scope ((M.input σ s).filter fun row =>
    M.keyTuple σ inner s.scope c row = k)) (.fields (GroupKey.columns inner s.scope c).1), ?_, ?_⟩
  · have hsort : ∀ xs : List (List V), M.sort (M.levels σ (s.groupedBy inner c))
        xs = xs := M.sort_nil
    have hcut : ∀ xs : List (List V), M.cut σ (s.groupedBy inner c) xs = xs := h.cut_eq M σ
    rw [M.rows_eq, hsort, hcut]
    show (List.map _ (M.distinct _)).map _ = _
    rw [List.map_map]
    rfl
  · intro k hk
    rw [M.mem_distinct, List.mem_map] at hk
    obtain ⟨first, hfirst, htuple⟩ := hk
    have hmem : first ∈ (M.input σ s).filter fun row => M.keyTuple σ inner s.scope c row = k :=
      List.mem_filter.mpr ⟨hfirst, decide_eq_true htuple⟩
    -- A tuple is that of some row, so its group has a first row, which all that is put out is read
    -- from.
    cases hrows : (M.input σ s).filter fun row => M.keyTuple σ inner s.scope c row = k with
    | nil =>
      rw [hrows] at hmem
      cases hmem
    | cons row rest =>
      have hrow : row ∈ (M.input σ s).filter fun row => M.keyTuple σ inner s.scope c row = k := by
        rw [hrows]
        exact List.mem_cons_self
      obtain ⟨hin, hk⟩ := List.mem_filter.mp hrow
      refine ⟨row, hin, of_decide_eq_true hk, ?_⟩
      simp only [hrows]
      exact M.output_columns σ hinner s.scope c row rest

/-- `groups` puts out a key and the rows of its group. -/
theorem Select.Flat.rows_groups (h : s.Flat outer n) (c : ScopeId) :
    M.rows σ (s.groups inner c) = (M.rows σ (s.groupedBy inner c)).map fun row =>
      M.record [("Key", M.value (σ.enter c [row]) (GroupKey.columns inner s.scope c).2),
        ("Values", M.array (M.rows (σ.enter c [row]) (s.groupRows inner c)))] := by
  have hgroups : (s.groups inner c).group = none := rfl
  have hcandidates : M.candidates σ (s.groups inner c) = M.rows σ (s.groupedBy inner c) := by
    have hinput : M.input σ (s.groups inner c) = M.rows σ (s.groupedBy inner c) :=
      List.filter_eq_self.mpr fun _ _ => rfl
    rw [Semantics.candidates, hinput]
    exact M.sort_nil _
  rw [M.rows_of_ungrouped σ hgroups, hcandidates]
  refine List.map_congr_left fun row _ => ?_
  have hvalues : M.value (σ.enter c [row]) (.subquery (s.groupRows inner c)) =
      M.array (M.rows (σ.enter c [row]) (s.groupRows inner c)) := by
    have hsingle : (s.groupRows inner c).single = false := h.single
    rw [Semantics.value, hsingle]
    rfl
  rw [← hvalues]
  rfl

/-- The groups have different keys, which are those of the rows, and each has the rows with its key
(`keyOf`). -/
theorem Select.Flat.exists_keys (h : s.Flat outer n) (hinner : inner.Plain) {c : ScopeId}
    (hc : n < c.index) (hagree : M.KeysAgree σ inner s.scope c) :
    ∃ keys : List V, keys.Nodup ∧
      (∀ k, k ∈ keys ↔ ∃ row ∈ M.candidates σ s, M.keyOf σ inner s.scope row = k) ∧
      M.rows σ (s.groups inner c) = keys.map fun k => M.record [("Key", k),
        ("Values", M.array (((M.candidates σ s).filter fun row =>
          M.keyOf σ inner s.scope row = k).map (M.outputOf σ s)))] := by
  obtain ⟨record, hgrouped, hrecord⟩ := h.rows_groupedBy M σ hinner c
  -- What is read back of a group is the key of each of its rows, since they have the same tuple.
  have hkey : ∀ tuple ∈ M.distinct ((M.input σ s).map (M.keyTuple σ inner s.scope c)),
      ∃ row ∈ M.input σ s, M.keyTuple σ inner s.scope c row = tuple ∧
        record tuple = M.keyRecord σ inner s.scope c row ∧
        M.value (σ.enter c [record tuple]) (GroupKey.columns inner s.scope c).2 =
          M.keyOf σ inner s.scope row := by
    intro tuple htuple
    obtain ⟨row, hrow, heq, hstored⟩ := hrecord tuple htuple
    refine ⟨row, hrow, heq, hstored, hagree.outer _ row ?_⟩
    rw [Scene.rows_enter_self, hstored]
  refine ⟨(M.distinct ((M.input σ s).map (M.keyTuple σ inner s.scope c))).map fun tuple =>
    M.value (σ.enter c [record tuple]) (GroupKey.columns inner s.scope c).2, ?_, ?_, ?_⟩
  · refine (M.nodup_distinct _).map_on fun tuple htuple tuple' htuple' heq => ?_
    obtain ⟨row, -, rfl, -, hrow⟩ := hkey tuple htuple
    obtain ⟨row', -, rfl, -, hrow'⟩ := hkey tuple' htuple'
    rw [hrow, hrow'] at heq
    exact (hagree.tuple row row').mpr heq
  · intro k
    simp only [List.mem_map, M.mem_candidates]
    constructor
    · rintro ⟨tuple, htuple, rfl⟩
      obtain ⟨row, hin, -, -, hrow⟩ := hkey tuple htuple
      exact ⟨row, hin, hrow.symm⟩
    · rintro ⟨row, hin, rfl⟩
      have htuple : M.keyTuple σ inner s.scope c row ∈
          M.distinct ((M.input σ s).map (M.keyTuple σ inner s.scope c)) :=
        (M.mem_distinct _ _).mpr (List.mem_map_of_mem hin)
      obtain ⟨row', -, heq, -, hrow'⟩ := hkey _ htuple
      exact ⟨_, htuple, hrow'.trans ((hagree.tuple row' row).mp heq)⟩
  · rw [h.rows_groups, hgrouped, List.map_map, List.map_map]
    refine List.map_congr_left fun tuple htuple => ?_
    obtain ⟨row, -, -, hstored, hrow⟩ := hkey tuple htuple
    simp only [Function.comp_apply, hrow]
    rw [hstored, h.rows_groupRows M σ hc hagree]

end

/-- `GroupBy` binds the key for the rows of the chain and takes a new scope for the groups. -/
theorem GroupSource.yields_groupBy (source : GroupSource outer n) (key : SourceFn outer n)
    (t : Ty) :
    Yields (source.tree.followedBy "GroupBy" key.arg t).bind n
      (.select (source.select.groups (key.filled source.select) ⟨n + 1⟩)) (n + 2) := by
  obtain ⟨hflat, hfuses⟩ := source.bound
  have hcount := Binding.operatorCount_followedBy source.tree "GroupBy" key.arg t
  obtain ⟨fuel, hfuel⟩ := Nat.exists_eq_add_one_of_ne_zero (Nat.ne_zero_of_lt hcount)
  show Yields (Binding.bindWith (Binding.operatorCount _ + 1) _) n _ _
  rw [hfuel]
  refine Binding.yields_followedBy (hfuses (fuel + 1) (by omega)) rfl ?_
  refine yields_bind.mpr ⟨source.select, n + 1, yields_pure.mpr ⟨rfl, rfl⟩, ?_⟩
  rw [Binding.bindGroupBy_eq, key.applyLambda hflat.groupKey hflat.scalar, pure_bind]
  exact yields_bind.mpr ⟨⟨n + 1⟩, n + 2, BindM.yields_freshScope.mpr ⟨rfl, rfl⟩,
    yields_pure.mpr ⟨rfl, rfl⟩⟩

/-- Elements taken together by what `f` makes of them are all the elements. -/
theorem flatMap_filter_perm {α β : Type} [DecidableEq β] (f : α → β) {keys : List β}
    (hkeys : keys.Nodup) {xs : List α} (hxs : ∀ x ∈ xs, f x ∈ keys) :
    (keys.flatMap fun k => xs.filter fun x => f x = k).Perm xs := by
  induction keys generalizing xs with
  | nil =>
    cases xs with
    | nil => exact .nil
    | cons x xs => exact absurd (hxs x (by simp)) (by simp)
  | cons k keys ih =>
    obtain ⟨hk, hkeys⟩ := List.nodup_cons.mp hkeys
    -- The elements with the other keys are those of the rest.
    have hrest : (keys.flatMap fun k' => xs.filter fun x => f x = k') =
        keys.flatMap fun k' => (xs.filter fun x => !decide (f x = k)).filter fun x => f x = k' := by
      refine List.flatMap_congr fun k' hk' => ?_
      rw [List.filter_filter]
      refine List.filter_congr fun x _ => ?_
      by_cases hx : f x = k'
      · have hne : f x ≠ k := by
          rintro rfl
          exact hk (hx ▸ hk')
        simp [hx, hx ▸ hne]
      · simp [hx]
    rw [List.flatMap_cons, hrest]
    refine List.Perm.trans (.append_left _ (ih hkeys fun x hx => ?_))
      (List.filter_append_perm (fun x => decide (f x = k)) xs)
    obtain ⟨hx, hne⟩ := List.mem_filter.mp hx
    have hmem := hxs x hx
    simp only [List.mem_cons] at hmem
    exact hmem.resolve_left (by simpa using hne)

/-- `GroupBy` on a chain of filters, projections and orders gives one row for each key that a result
of the chain has, with the results that have it, and the groups together have the results of the
chain. -/
theorem groupBy_partitions {V : Type} [DecidableEq V] (M : Semantics V) (σ : Scene V)
    (source : GroupSource outer n) (key : SourceFn outer n) (t : Ty)
    (hnames : ∀ t members, key.filled source.select = .newObject t members →
      (members.map (·.1)).Nodup) :
    let groups := source.select.groups (key.filled source.select) ⟨n + 1⟩
    let results := M.rows σ source.select
    let keyOf := key.apply M.toInterpretation σ.toEnv
    Yields source.tree.bind n (.select source.select) (n + 1) ∧
      Yields (source.tree.followedBy "GroupBy" key.arg t).bind n (.select groups) (n + 2) ∧
      ∃ keys : List V, keys.Nodup ∧ (∀ k, k ∈ keys ↔ ∃ v ∈ results, keyOf v = k) ∧
        (M.rows σ groups = keys.map fun k =>
          M.record [("Key", k), ("Values", M.array (results.filter fun v => keyOf v = k))]) ∧
        (keys.flatMap fun k => results.filter fun v => keyOf v = k).Perm results := by
  intro groups results keyOf
  obtain ⟨hflat, hfuses⟩ := source.bound
  have hinner := hflat.filled key
  refine ⟨hfuses _ (Nat.lt_succ_self _), source.yields_groupBy key t, ?_⟩
  have hne : source.select.scope ≠ ⟨n + 1⟩ := by simp [hflat.scope_eq]
  have hagree : M.KeysAgree σ (key.filled source.select) source.select.scope ⟨n + 1⟩ :=
    M.keysAgree σ hinner.plain (hinner.younger (Nat.lt_succ_self n)) hne hnames
  -- The key is computed for the rows that are read, and stated of the results.
  have hkey : ∀ row, M.keyOf σ (key.filled source.select) source.select.scope row =
      keyOf (M.outputOf σ source.select row) :=
    M.value_filled σ key.toRowFn key.plain hflat.scope_eq hflat.toRowwise
  have hresults : results = (M.candidates σ source.select).map (M.outputOf σ source.select) :=
    hflat.rows_eq M σ
  have hvalues : ∀ k, ((M.candidates σ source.select).filter fun row =>
      M.keyOf σ (key.filled source.select) source.select.scope row = k).map
        (M.outputOf σ source.select) = results.filter fun v => keyOf v = k := by
    intro k
    rw [hresults, List.filter_map]
    congr 1
    refine List.filter_congr fun row _ => ?_
    rw [hkey]
    rfl
  -- The rest is about the results, with the rows that pass the filter put in their place.
  obtain ⟨keys, hnodup, hmem, hrows⟩ :=
    hflat.exists_keys M σ hinner.plain (Nat.lt_succ_self n) hagree
  have hiff : ∀ k, k ∈ keys ↔ ∃ v ∈ results, keyOf v = k := by
    intro k
    simp only [hmem, hresults, hkey, List.mem_map, exists_exists_and_eq_and]
  refine ⟨keys, hnodup, hiff, ?_, flatMap_filter_perm keyOf hnodup fun v hv => ?_⟩
  · simp only [hvalues] at hrows
    exact hrows
  · exact (hiff _).mpr ⟨v, hv, rfl⟩

end

namespace Sample

/-- A function of a row in which only `x` is free and no rows or aggregates occur. -/
def sourceFn (n : Nat) (x : String) (body : Expr)
    (hnodes : ∀ n ∈ body.nodes, (n.isScalarNode && !n.isVariable || n.isParameter x) = true)
    (hfree : ∀ y ∈ body.freeNames, y = x) (hplain : body.Plain) : SourceFn [] n where
  toRowFn := rowFn ⟨n⟩ x body hnodes hfree
  plain := hplain
  older c t hc := by
    have h := hnodes _ hc
    simp [Expr.isVariable, Expr.isParameter] at h

/-- The posts with the number one, by their time. -/
def postsByTime : GroupSource [] 0 where
  table := "post"
  element := .unknown
  steps := [
    .filter (sourceFn 0 "p" ((col "p" "x").eq (.int32 1)) (by decide) (by decide)
      (by decide)) .unknown,
    .orderBy (sourceFn 0 "p" (col "p" "time") (by decide) (by decide)
      (by decide)) false .unknown]

/-- A post with a number, a place and a time, of one author. -/
def post (x : Int) (place : String) (time : Int) : Datum :=
  (((Datum.nil.set "x" (.number x)).set "place" (.text place)).set "time" (.number time)).set
    "author" (.text "author")

/-- The author of a post and its place. -/
def authorAndPlace : SourceFn [] 0 :=
  sourceFn 0 "p" (.newObject .unknown [("author", col "p" "author"), ("place", col "p" "place")])
    (by decide) (by decide) (by decide)

end Sample

section
open Sample

/-- Two posts of one author at one place, another one, and a post that is left out. -/
theorem groupBy_partitions_postsByTime :
    (∀ t members, authorAndPlace.filled postsByTime.select = .newObject t members →
      (members.map (·.1)).Nodup) ∧
      let M := Datum.semantics fun _ => [post 1 "a" 3, post 1 "b" 2, post 0 "a" 2, post 1 "a" 1]
      let results := M.rows Datum.noScene postsByTime.select
      let keyOf := authorAndPlace.apply M.toInterpretation Datum.noScene.toEnv
      ∃ (groups : Select) (keys : List Datum),
        Yields (postsByTime.tree.followedBy "GroupBy" authorAndPlace.arg .unknown).bind 0
          (.select groups) 2 ∧
        keys.Nodup ∧ (∀ k, k ∈ keys ↔ ∃ v ∈ results, keyOf v = k) ∧
        M.rows Datum.noScene groups = keys.map fun k =>
          M.record [("Key", k), ("Values", M.array (results.filter fun v => keyOf v = k))] := by
  have hnames : ∀ t members, authorAndPlace.filled postsByTime.select = .newObject t members →
      (members.map (·.1)).Nodup := by
    intro t members h
    rw [RowFn.filled, Expr.substitute_eq] at h
    cases h
    decide
  refine ⟨hnames, ?_⟩
  intro M results keyOf
  obtain ⟨-, hgroups, keys, hnodup, hmem, hrows, -⟩ :=
    groupBy_partitions M Datum.noScene postsByTime authorAndPlace .unknown hnames
  exact ⟨_, keys, hgroups, hnodup, hmem, hrows⟩

end

end QueryTree
