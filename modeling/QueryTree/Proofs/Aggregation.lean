import Mathlib.Algebra.BigOperators.Group.Multiset.Basic
import Mathlib.Data.Int.Order.Basic
import Mathlib.Data.Multiset.Lattice
import Mathlib.Order.WithBot
import QueryTree.Proofs.Partition
import QueryTree.Proofs.Restriction

/-!
# Aggregates see the rows of their source

Where the rows of a select are those that pass its filter (`Select.RowwiseUncut`), an aggregate is
taken in place. A select with a window is read as a whole by another one, in which a row stands for
what was put out. In both cases the aggregate is taken of what the source puts out, in any order.
-/

namespace QueryTree

open Binding

/-! ## Chains that can be cut -/

/-- An operator of a chain that can be cut, and the type of its call. -/
inductive WindowStep (outer : List String) (n : Nat) where
  | source (step : SourceStep outer n)
  | take (count : Expr) (t : Ty)
  | skip (count : Expr) (t : Ty)

/-- A chain of filters, projections, orders and cuts on a table. -/
structure WindowSource (outer : List String) (n : Nat) where
  table : String
  element : Ty
  steps : List (WindowStep outer n)

section
variable {outer : List String} {n : Nat}

/-- The tree of `e` with one more operator. -/
def WindowStep.tree (e : Expr) : WindowStep outer n → Expr
  | .source step => step.tree e
  | .take count t => e.followedBy "Take" count t
  | .skip count t => e.followedBy "Skip" count t

/-- The tree of a chain. -/
def WindowSource.tree (source : WindowSource outer n) : Expr :=
  source.steps.foldl WindowStep.tree (.table source.table source.element)

/-- The select of a `WindowSource`: it puts out something for each row, and takes none together. -/
structure Select.Listed (outer : List String) (n : Nat) (s : Select) :
    Prop extends s.Rowwise outer where
  scope_eq : s.scope = ⟨n⟩
  group : s.group = none
  single : s.single = false

/-- `Listed` does not depend on clauses other than the projection. -/
theorem Select.Listed.update {s s' : Select} (h : s.Listed outer n) (hrest : s' = { s with
      filter := s'.filter, orderings := s'.orderings, take := s'.take, skip := s'.skip }) :
    s'.Listed outer n := by
  refine ⟨h.toRowwise.congr ?_ ?_ ?_ ?_, ?_, ?_, ?_⟩
  all_goals rw [hrest]
  exacts [h.scope_eq, h.group, h.single]

section
variable {e : Expr}

theorem SourceFn.bindsListed (he : e.BindsSelect n (Select.Listed outer n)) (f : SourceFn outer n)
    (t : Ty) : (e.followedBy "Select" f.arg t).BindsSelect n (Select.Listed outer n) := by
  have hop : QueryOp.ofMethod? "Select" = some .select := rfl
  refine he.call hop fun fuel s args r k m hargs hs h => ?_
  cases h with
  | keep _ _ => exact ⟨s, rfl, hs⟩
  | project _ hc =>
    cases hargs
    obtain rfl := f.eq_filled_of_yields hs.toRowwise hc
    exact ⟨_, rfl, hs.toRowwise.project f.toRowFn f.plain, hs.scope_eq, hs.group, hs.single⟩
  | projectGroups hkey _ _ _ | mergeGroups hkey _ _ _ _ _ =>
    rw [hs.groupKey] at hkey
    cases hkey
  | aggregate hkind _ _ => cases hkind
  | answer hanswer _ => cases hanswer

theorem WindowStep.bindsListed (he : e.BindsSelect n (Select.Listed outer n))
    (step : WindowStep outer n) : (step.tree e).BindsSelect n (Select.Listed outer n) := by
  have hclause {method : String} {arg : Expr} {t : Ty} (op : QueryOp)
      (hop : QueryOp.ofMethod? method = some op) (hadds : op.addsClause = true) :
      (e.followedBy method arg t).BindsSelect n (Select.Listed outer n) :=
    he.clause hop hadds fun _ _ => Select.Listed.update
  cases step with
  | take count t => exact hclause .take rfl rfl
  | skip count t => exact hclause .skip rfl rfl
  | source step =>
    cases step with
    | filter f t => exact hclause .filter rfl rfl
    | project f t => exact f.bindsListed he t
    | orderBy key descending t =>
      refine hclause (.orderBy descending) ?_ rfl
      cases descending <;> rfl
    | thenBy key descending t =>
      refine hclause (.thenBy descending) ?_ rfl
      cases descending <;> rfl

theorem Expr.bindsListed_table (name : String) (element : Ty) :
    (Expr.table name element).BindsSelect n (Select.Listed outer n) := by
  intro fuel r k h
  cases fuel with
  | zero => exact absurd h BindM.yields_throw
  | succ fuel =>
    have hbound := Fuses.table name element n (fuel + 1) (Nat.succ_pos fuel)
    cases hbound.symm.trans h
    exact ⟨_, rfl, .ofSource ⟨n⟩ (.table name) element, rfl, rfl, rfl⟩

theorem WindowSource.bindsListed (source : WindowSource outer n) :
    source.tree.BindsSelect n (Select.Listed outer n) := by
  have hsteps : ∀ (steps : List (WindowStep outer n)) (e : Expr),
      e.BindsSelect n (Select.Listed outer n) →
        (steps.foldl WindowStep.tree e).BindsSelect n (Select.Listed outer n) := by
    intro steps
    induction steps with
    | nil => exact fun e he => he
    | cons step steps ih => exact fun e he => ih _ (step.bindsListed he)
  exact hsteps source.steps _ (Expr.bindsListed_table source.table source.element)

end

/-! ## What aggregates mean -/

/-- Whether an aggregate is of the values in any order. -/
def AggregateKind.ignoresOrder : AggregateKind → Bool
  | .sum | .min | .max | .average => true
  | _ => false

/-- What aggregates mean beyond `Semantics`: the number of values, or something made of them in any
order. Arrays have a first item, and a computed value means what it is computed to. -/
structure AggregateSemantics (V : Type) extends Semantics V where
  /-- A number of values. -/
  size : Nat → V
  /-- What an aggregate makes of values in any order. -/
  combined : AggregateKind → Multiset V → V
  aggregate_count : ∀ vs, aggregate .count vs = size vs.length
  aggregate_combined : ∀ kind vs, kind.ignoresOrder = true → aggregate kind vs = combined kind vs
  node_first : ∀ (t : Ty) (v : V) (vs : List V),
    node (.binary .arrayIndex .hole .hole t) [array (v :: vs), node (Expr.int32 0).shape []] = v
  node_custom : ∀ (t : Ty) (v : V), node (.custom .hole t) [v] = v

namespace Scene

variable {V : Type}

/-- Of the rows that one `scope` takes together, the last ones count. -/
theorem enter_enter (σ : Scene V) (scope : ScopeId) (group : List V) (row : V) (rest : List V) :
    (σ.enter scope group).enter scope (row :: rest) = σ.enter scope (row :: rest) := by
  unfold enter
  congr 2
  funext c
  by_cases hc : c = scope <;> simp [hc]

end Scene

/-- A `Rowwise` select that puts out all that passes its filter. -/
structure Select.RowwiseUncut (outer : List String) (s : Select) :
    Prop extends s.Rowwise outer where
  group : s.group = none
  single : s.single = false
  take : s.take = none
  skip : s.skip = none

section
variable {V : Type} [DecidableEq V] (M : AggregateSemantics V) (σ : Scene V) {s : Select}

namespace Select.RowwiseUncut

theorem cut_eq (h : s.RowwiseUncut outer) {α : Type} (xs : List α) : M.cut σ s xs = xs := by
  rw [Semantics.cut, h.take, h.skip]
  rfl

/-- `rows` are made of the rows of `input`, in some order. -/
theorem rows_perm (h : s.RowwiseUncut outer) :
    (M.rows σ s).Perm ((M.input σ s).map (M.outputOf σ s)) := by
  rw [M.rows_of_ungrouped σ h.group, h.cut_eq]
  exact (List.mergeSort_perm _ _).map _

/-- With `groupAll` there is one row, of all rows taken together. -/
theorem rows_groupAll (h : s.RowwiseUncut outer) (p : Projection) :
    M.rows σ (s.project p).groupAll = [M.output (σ.enter s.scope (M.input σ s)) p] := by
  have hcut : ∀ xs : List (List V), M.cut σ (s.project p).groupAll xs = xs := h.cut_eq M σ
  have hsort : M.sort (M.levels σ (s.project p).groupAll) [M.input σ s] = [M.input σ s] :=
    List.mergeSort_singleton _
  rw [M.rows_eq]
  show (M.cut σ _ (M.sort _ [M.input σ s])).map _ = _
  rw [hsort, hcut]
  rfl

/-- The value of an aggregate is the member `label` of that only row. -/
theorem value_aggregated (h : s.RowwiseUncut outer) (p : Projection) (label : String) (t : Ty) :
    M.value σ (aggregated s p label t) =
      M.node (.member .hole label t) [M.output (σ.enter s.scope (M.input σ s)) p] := by
  have hrow : M.value σ (.subquery (s.project p).groupAll) =
      M.array [M.output (σ.enter s.scope (M.input σ s)) p] := by
    have hsingle : (s.project p).groupAll.single = false := h.single
    rw [Semantics.value, hsingle, h.rows_groupAll]
    rfl
  have hzero : M.value σ (Expr.int32 0) = M.node (Expr.int32 0).shape [] := M.value_eq rfl rfl
  rw [aggregated, Expr.onlyRowMember, M.value_eq rfl rfl]
  show M.node (.custom .hole t) [M.value σ _] = _
  rw [M.node_custom, M.value_eq rfl rfl]
  show M.node (.member .hole label t) [M.value σ _] = _
  rw [M.value_eq rfl rfl]
  show M.node (.member .hole label t) [M.node (.binary .arrayIndex .hole .hole _)
    [M.value σ (.subquery (s.project p).groupAll), M.value σ (Expr.int32 0)]] = _
  rw [hrow, hzero, M.node_first]

/-- The number of results that pass `test`, if the condition tests them. -/
theorem value_count (h : s.RowwiseUncut outer) {c : Option Expr} {test : V → Bool}
    (hc : ∀ row, (M.valueOption (σ.enter s.scope [row]) c).all M.holds = test (M.outputOf σ s row))
    (t : Ty) :
    M.value σ (aggregated s (.count c) AggregateKind.count.label t) =
      M.size ((M.rows σ s).countP test) := by
  have hfocus : ∀ row, (σ.enter s.scope (M.input σ s)).focus row = σ.enter s.scope [row] :=
    fun row => σ.enter_enter s.scope _ row []
  rw [h.value_aggregated, Semantics.output, Semantics.record, List.foldl_cons, List.foldl_nil,
    M.member_set, M.aggregate_count, ← List.countP_eq_length_filter, (h.rows_perm M σ).countP_eq,
    List.countP_map]
  show M.size _ = M.size _
  congr 2
  funext row
  rw [hfocus, hc]
  rfl

/-- The aggregate of what `f` makes of the results, if the selector computes it. -/
theorem value_aggregation (h : s.RowwiseUncut outer) {c : Expr} {f : V → V}
    (hc : ∀ row, M.value (σ.enter s.scope [row]) c = f (M.outputOf σ s row)) {kind : AggregateKind}
    (hkind : kind.ignoresOrder = true) (label : String) (t : Ty) :
    M.value σ (aggregated s (.aggregation kind c label) label t) =
      M.combined kind ((M.rows σ s).map f) := by
  have hfocus : ∀ row, (σ.enter s.scope (M.input σ s)).focus row = σ.enter s.scope [row] :=
    fun row => σ.enter_enter s.scope _ row []
  have hvalues : ((M.input σ s).map fun row =>
      M.value ((σ.enter s.scope (M.input σ s)).focus row) c).Perm ((M.rows σ s).map f) := by
    refine List.Perm.trans (.of_eq ?_) ((h.rows_perm M σ).symm.map f)
    rw [List.map_map]
    refine List.map_congr_left fun row _ => ?_
    rw [hfocus, hc]
    rfl
  rw [h.value_aggregated, Semantics.output, Semantics.record, List.foldl_cons, List.foldl_nil,
    M.member_set, M.aggregate_combined kind _ hkind]
  exact congrArg _ (Multiset.coe_eq_coe.mpr hvalues)

/-- A select that reads `s` puts out the same rows. -/
theorem ofSelect (scope : ScopeId) (s : Select) : (Select.ofSelect scope s).RowwiseUncut outer where
  toRowwise := .ofSource scope (.subquery s) s.projectedType
  group := rfl
  single := rfl
  take := rfl
  skip := rfl

end Select.RowwiseUncut

theorem Semantics.rows_ofSelect (M : Semantics V) (scope : ScopeId) (s : Select) :
    M.rows σ (.ofSelect scope s) = M.rows σ s := by
  have hinput : M.input σ (.ofSelect scope s) = M.rows σ s := List.filter_eq_self.mpr fun _ _ => rfl
  have hcandidates : M.candidates σ (.ofSelect scope s) = M.rows σ s := by
    rw [Semantics.candidates, hinput]
    exact M.sort_nil _
  have hout : ∀ row, M.outputOf σ (.ofSelect scope s) row = row :=
    fun row => σ.rows_enter_self scope row []
  rw [M.rows_of_ungrouped σ rfl, hcandidates]
  show (M.rows σ s).map _ = _
  rw [List.map_congr_left fun row _ => hout row, List.map_id']

end

/-! ## Aggregates of chains -/

/-- `f` for the rows of a younger select. -/
def SourceFn.within (f : SourceFn outer n) (scope : ScopeId) (h : n ≤ scope.index) :
    RowFn outer scope :=
  { f with
    rows := by
      rintro c t hc rfl
      have := f.older _ t hc
      omega }

section
variable {e : Expr} {args : List Expr} {s : Select} {method : String} {t : Ty} {k : Nat}

/-- The `aggregateSource` of a chain has the rows of the chain. -/
theorem Select.Listed.yields_aggregateSource (h : s.Listed outer n) (hk : n ≤ k) :
    ∃ u m, Yields (aggregateSource s) k u m ∧ u.RowwiseUncut outer ∧ n ≤ u.scope.index ∧
      ∀ {V : Type} [DecidableEq V] (M : Semantics V) (σ : Scene V), M.rows σ u = M.rows σ s := by
  unfold aggregateSource
  by_cases hwindow : s.isWindowed = true
  · rw [if_pos hwindow]
    refine ⟨.ofSelect ⟨k⟩ s, k + 1, ?_, .ofSelect ⟨k⟩ s, hk, fun M σ => M.rows_ofSelect σ ⟨k⟩ s⟩
    exact yields_bind.mpr ⟨⟨k⟩, k + 1, BindM.yields_freshScope.mpr ⟨rfl, rfl⟩,
      yields_pure.mpr ⟨rfl, rfl⟩⟩
  · rw [if_neg hwindow]
    simp only [Select.isWindowed, Bool.or_eq_true, not_or, Bool.not_eq_true,
      Option.isSome_eq_false_iff, Option.isNone_iff_eq_none] at hwindow
    obtain ⟨⟨⟨htake, hskip⟩, -⟩, -⟩ := hwindow
    refine ⟨s, k, yields_pure.mpr ⟨rfl, rfl⟩, ⟨h.toRowwise, h.group, h.single, htake, hskip⟩, ?_,
      fun _ _ => rfl⟩
    rw [h.scope_eq]

/-- A call without operators in `args` has one more than its source. -/
theorem Binding.operatorCount_staticCall (hargs : ∀ a ∈ args, operatorCount a = 0) :
    operatorCount (.staticCall .queryable method (e :: args) t) = operatorCount e + 1 := by
  have hzero : (args.flatMap Expr.nodes).countP isOperator = 0 := by
    refine List.countP_eq_zero.mpr fun m hm => ?_
    obtain ⟨a, ha, hm⟩ := List.mem_flatMap.mp hm
    exact List.countP_eq_zero.mp (hargs a ha) m hm
  show (Expr.nodes _).countP isOperator = (Expr.nodes e).countP isOperator + 1
  rw [Expr.nodes_eq]
  simp only [Expr.staticCall, Expr.children, Option.toList_none, List.nil_append, List.flatMap_cons,
    List.countP_cons, List.countP_append, hzero, isOperator, if_true, Nat.add_zero]

theorem RowFn.operatorCount_arg {scope : ScopeId} (f : RowFn outer scope) :
    operatorCount f.arg = 0 := by
  rw [← operatorCount_unquote, f.unquote_arg]
  refine List.countP_eq_zero.mpr fun m hm => ?_
  rcases Expr.mem_nodes_iff.mp hm with rfl | ⟨c, hc, hm⟩
  · exact Bool.false_ne_true
  · obtain rfl := List.mem_singleton.mp hc
    have hscalar := f.scalar m hm
    intro hop
    unfold isOperator at hop
    split at hop
    · cases hscalar
    · cases hop

/-- `f`, if there is one, for the rows of the select `u` that an aggregate is put on. -/
theorem Select.RowwiseUncut.yields_applyOptional {u : Select} (hu : u.RowwiseUncut outer)
    (f : Option (SourceFn outer n)) (fuel : Nat) (method : String) (k : Nat) :
    Yields (applyOptional (bindWith (fuel + 1)) u method (f.map (·.arg))) k (f.map (·.filled u))
      k := by
  cases f with
  | none => exact yields_pure.mpr ⟨rfl, rfl⟩
  | some f =>
    refine yields_bind.mpr ⟨f.filled u, k, ?_, yields_pure.mpr ⟨rfl, rfl⟩⟩
    rw [f.applyLambda hu.groupKey hu.scalar]
    exact yields_pure.mpr ⟨rfl, rfl⟩

/-- An aggregate of a `WindowSource` is bound after it. -/
theorem WindowSource.yields_bind_call {source : WindowSource outer n} {op : QueryOp} {r : Expr}
    {m : Nat} (hs : Yields source.tree.bind n (.select s) k)
    (hop : QueryOp.ofMethod? method = some op) (f : Option (SourceFn outer n))
    (h : Yields (bindOperator (bindWith (operatorCount source.tree + 1)) op method (.select s)
      (f.map (·.arg)).toList t) k r m) :
    Yields (Expr.bind (.staticCall .queryable method (source.tree :: (f.map (·.arg)).toList) t))
      n r m := by
  have hargs : ∀ a ∈ (f.map (·.arg)).toList, operatorCount a = 0 := by
    cases f with
    | none => exact List.forall_mem_nil _
    | some f => exact List.forall_mem_singleton.mpr f.operatorCount_arg
  unfold Expr.bind
  rw [operatorCount_staticCall hargs]
  exact yields_staticCall hs hop h

theorem Binding.bindOperator_count (bind : Expr → BindM Expr) (source : Expr)
    (predicate : Option Expr) :
    bindOperator bind .count method source predicate.toList t =
      bindCount bind method source predicate t := by
  cases predicate <;> rfl

theorem Binding.bindOperator_aggregate (bind : Expr → BindM Expr) (kind : AggregateKind)
    (source : Expr) (selector : Option Expr) :
    bindOperator bind (.aggregate kind) method source selector.toList t =
      bindAggregate bind kind method source selector t := by
  cases selector <;> rfl

theorem QueryOp.ofMethod?_count (h : method ∈ ["Count", "LongCount"]) :
    ofMethod? method = some .count := by
  simp only [List.mem_cons, List.not_mem_nil, or_false] at h
  rcases h with rfl | rfl <;> rfl

/-- `Sum`, `Min`, `Max` and `Average` are of the values in any order. -/
theorem QueryOp.ofMethod?_aggregate {kind : AggregateKind}
    (h : (method, kind) ∈ [("Sum", .sum), ("Min", .min), ("Max", .max), ("Average", .average)]) :
    ofMethod? method = some (.aggregate kind) ∧ kind.ignoresOrder = true := by
  simp only [List.mem_cons, Prod.mk.injEq, List.not_mem_nil, or_false] at h
  rcases h with ⟨rfl, rfl⟩ | ⟨rfl, rfl⟩ | ⟨rfl, rfl⟩ | ⟨rfl, rfl⟩ <;> exact ⟨rfl, rfl⟩

end

/-- Aggregates see the results of their source. Whatever clauses the select of a chain of filters,
projections, orders and cuts has, `Count` and `LongCount` give the number of its results that
satisfy the predicate, if there is one, and `Sum`, `Min`, `Max` and `Average` are those of what the
selector makes of its results, in any order. -/
theorem aggregates_see_results {V : Type} [DecidableEq V] (M : AggregateSemantics V) (σ : Scene V)
    (source : WindowSource outer n) {s : Select} {k : Nat}
    (hs : Yields source.tree.bind n (.select s) k) (f : Option (SourceFn outer n)) (t : Ty) :
    let results := M.rows σ s
    let apply := fun f : SourceFn outer n => f.apply M.toInterpretation σ.toEnv
    let call := fun method =>
      Expr.staticCall .queryable method (source.tree :: (f.map (·.arg)).toList) t
    (∀ method ∈ ["Count", "LongCount"], ∃ r m, Yields (call method).bind n r m ∧
        M.value σ r = M.size (results.countP fun v => f.all fun f => M.holds (apply f v))) ∧
      ∀ p ∈ [("Sum", AggregateKind.sum), ("Min", .min), ("Max", .max), ("Average", .average)],
        ∃ r m, Yields (call p.1).bind n r m ∧
          M.value σ r = M.combined p.2 (results.map fun v => f.elim v fun f => apply f v) := by
  intro results apply call
  obtain ⟨_, heq, hlisted⟩ := source.bindsListed _ _ _ hs
  cases heq
  obtain ⟨u, m, hu, huncut, hscope, hrows⟩ :=
    hlisted.yields_aggregateSource (ascends_bindWith _ _ _ _ _ hs)
  have hoptional := fun method => huncut.yields_applyOptional f (operatorCount source.tree) method m
  -- What a function with the row filled in means at a row of the select the aggregate is put on.
  have hfilled : ∀ (f : SourceFn outer n) row, M.value (σ.enter u.scope [row]) (f.filled u) =
      apply f (M.outputOf σ u row) :=
    fun f => M.value_filled σ (f.within u.scope hscope) f.plain rfl huncut.toRowwise
  have hresults : M.rows σ u = results := hrows M.toSemantics σ
  refine ⟨fun method hmethod => ?_, fun ⟨method, kind⟩ hmethod => ?_⟩
  · have hop := QueryOp.ofMethod?_count hmethod
    refine ⟨aggregated u (.count (f.map (·.filled u))) AggregateKind.count.label t, m, ?_, ?_⟩
    · refine WindowSource.yields_bind_call hs hop f ?_
      rw [bindOperator_count]
      exact yields_bind.mpr ⟨u, m, hu,
        yields_bind.mpr ⟨_, m, hoptional method, yields_pure.mpr ⟨rfl, rfl⟩⟩⟩
    · rw [← hresults]
      refine huncut.value_count M σ (fun row => ?_) t
      cases f with
      | none => rfl
      | some f => simp [Semantics.valueOption, hfilled]
  · obtain ⟨hop, hany⟩ := QueryOp.ofMethod?_aggregate hmethod
    refine ⟨aggregated u (.aggregation kind ((f.map (·.filled u)).getD u.rowValue) kind.label)
      kind.label t, m, ?_, ?_⟩
    · refine WindowSource.yields_bind_call hs hop f ?_
      rw [bindOperator_aggregate]
      have hselect : Yields (expectSelect method (.select s)) k s k :=
        yields_expectSelect.mpr ⟨rfl, rfl⟩
      exact yields_bind.mpr ⟨s, k, hselect, yields_bind.mpr ⟨u, m, hu,
        yields_bind.mpr ⟨_, m, hoptional method, yields_pure.mpr ⟨rfl, rfl⟩⟩⟩⟩
    · rw [← hresults]
      refine huncut.value_aggregation M σ (fun row => ?_) hany kind.label t
      cases f with
      | none =>
        rw [M.outputOf_rowwise σ huncut.toRowwise]
        exact M.value_at_row σ huncut.plain row
      | some f => exact hfilled f row

end

namespace Datum

/-- An item of a list. -/
def item : Datum → Nat → Datum
  | pair first _, 0 => first
  | pair _ second, n + 1 => second.item n
  | _, _ => nil

/-- `node`, where items of lists and computed values mean what they say as well. -/
def computed : Expr → List Datum → Datum
  | .custom _ _, [d] => d
  | .binary .arrayIndex _ _ _, [ds, i] => ds.item i.toInt.toNat
  | e, ds => node e ds

/-- Numbers that are added up, compared or averaged. -/
def combine (kind : AggregateKind) (ds : Multiset Datum) : Datum :=
  match kind with
  | .sum => number (ds.map toInt).sum
  | .min => (ds.map fun d => (toInt d : WithTop Int)).inf.recTopCoe nil number
  | .max => (ds.map fun d => (toInt d : WithBot Int)).sup.recBotCoe nil number
  | .average => number ((ds.map toInt).sum / ds.card)
  | _ => nil

/-- `semantics` with aggregates. -/
def aggregateSemantics (tables : String → List Datum) : AggregateSemantics Datum :=
  { semantics tables with
    node := computed
    aggregate := fun kind ds => match kind with
      | .count => number ds.length
      | .flatten | .distinct => ofList ds
      | kind => combine kind ds
    size := fun n => number n
    combined := combine
    holds_and := fun t a b => by simp [computed, node, holds, semantics, interpretation]
    member_set := (semantics tables).member_set
    member_set_of_ne := (semantics tables).member_set_of_ne
    node_object := (semantics tables).node_object
    holds_equal := (semantics tables).holds_equal
    holds_not := (semantics tables).holds_not
    aggregate_count := fun vs => rfl
    aggregate_combined := fun kind vs h => by cases kind <;> first | rfl | cases h
    node_first := fun t v vs => rfl
    node_custom := fun t v => rfl }

end Datum

namespace Sample

/-- The first two posts, as a chain. -/
def twoPosts : WindowSource [] 0 where
  table := "post"
  element := .unknown
  steps := [.take (.int32 2) .unknown]

/-- The number of a post. -/
def numberOf : SourceFn [] 0 :=
  sourceFn 0 "p" (col "p" "x") (by decide) (by decide) (by decide)

/-- Whether a post has the number three. -/
def hasNumberThree : SourceFn [] 0 :=
  sourceFn 0 "p" ((col "p" "x").eq (.int32 3)) (by decide) (by decide)
    (by decide)

end Sample

section
open Sample

theorem yields_twoPosts : Yields twoPosts.tree.bind 0 (.select (firstPostsSelect 2)) 1 :=
  yields_firstPosts 0 2

theorem rows_twoPosts (posts : List Datum) :
    (Datum.aggregateSemantics fun _ => posts).rows Datum.noScene (firstPostsSelect 2) =
      posts.take 2 := by
  rw [Semantics.rows_of_ungrouped _ _ rfl, candidates_firstPosts]
  exact List.map_id _

/-- There is a third post, which is not among the first two. -/
theorem aggregates_see_results_twoPosts :
    Yields twoPosts.tree.bind 0 (.select (firstPostsSelect 2)) 1 ∧
      let M := Datum.aggregateSemantics fun _ => [numbered 3, numbered 1, numbered 1]
      (∃ r m, Yields (twoPosts.tree.followedBy "Sum" numberOf.arg .unknown).bind 0 r m ∧
        M.value Datum.noScene r = .number 4) ∧
      ∃ r m, Yields (twoPosts.tree.followedBy "LongCount" hasNumberThree.arg .unknown).bind 0 r m ∧
        M.value Datum.noScene r = .number 1 := by
  refine ⟨yields_twoPosts, ?_⟩
  intro M
  have hrows : M.rows Datum.noScene (firstPostsSelect 2) = [numbered 3, numbered 1] :=
    rows_twoPosts _
  obtain ⟨-, hsum⟩ :=
    aggregates_see_results M Datum.noScene twoPosts yields_twoPosts (some numberOf) .unknown
  obtain ⟨hcount, -⟩ :=
    aggregates_see_results M Datum.noScene twoPosts yields_twoPosts (some hasNumberThree) .unknown
  rw [hrows] at hsum hcount
  refine ⟨?_, ?_⟩
  · obtain ⟨r, m, hr, hvalue⟩ := hsum ("Sum", .sum) (by simp)
    refine ⟨r, m, hr, hvalue.trans ?_⟩
    decide
  · obtain ⟨r, m, hr, hvalue⟩ := hcount "LongCount" (by simp)
    refine ⟨r, m, hr, hvalue.trans ?_⟩
    decide

end

end QueryTree
