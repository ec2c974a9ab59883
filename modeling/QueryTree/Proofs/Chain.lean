import Mathlib.Data.List.Induction
import Mathlib.Data.List.Permutation
import QueryTree.Proofs.Runs
import QueryTree.Proofs.Scalar

/-!
# The meaning of a chain of operators

A `Chain` of filters, projections and an order, with rows skipped and taken at the end, means a
list: each operator is a function on lists. Binding fuses it into one select, which means a list by
itself. Both lists are the same under every `Interpretation` of the nodes.
-/

namespace QueryTree

/-! ## Scalar expressions -/

/-- Whether a node is neither a query nor a part of one. -/
def Expr.isScalarNode : Expr → Bool
  | .call .queryable _ none _ _ | .table _ _ | .source _ | .captured _ (.source _) _ | .select _
  | .subquery _ => false
  | _ => true

/-- An expression without queries. -/
def Expr.Scalar (e : Expr) : Prop := ∀ n ∈ e.nodes, n.isScalarNode = true

theorem Expr.Scalar.child {e c : Expr} (h : e.Scalar) (hc : c ∈ e.children) : c.Scalar :=
  fun n hn => h n (mem_nodes_of_child hc hn)

theorem Expr.scalar_iff {e : Expr} :
    e.Scalar ↔ e.isScalarNode = true ∧ ∀ c ∈ e.children, c.Scalar := by
  constructor
  · exact fun h => ⟨h e (mem_nodes_self e), fun c hc => h.child hc⟩
  · rintro ⟨he, hc⟩ n hn
    rcases mem_nodes_iff.mp hn with rfl | ⟨c, hce, hn⟩
    · exact he
    · exact hc c hce n hn

/-- Binding leaves a `Scalar` expression as it is. -/
theorem Binding.bindWith_scalar {e : Expr} (h : e.Scalar) (fuel : Nat) :
    Binding.bindWith (fuel + 1) e = pure e := by
  refine Expr.replaceM_eq_pure _ fun n hn => ?_
  have hself := h n hn
  unfold Binding.bindNode
  split
  · cases hself
  · cases hself
  · rfl

theorem Expr.isScalarNode_withChildren (e : Expr) (cs : List Expr) :
    (e.withChildren cs).isScalarNode = e.isScalarNode := by
  refine withChildren_congr (f := isScalarNode) (fun h => ?_) e cs
  cases h with
  | method surface => cases surface <;> rfl
  | function surface => cases surface <;> rfl
  | _ => rfl

/-- What `p` says of the nodes of `e`, whatever their children are, and of those of `v`, it says
after substituting. -/
theorem Expr.nodes_substitute {p : Expr → Bool} {e v : Expr}
    (hp : ∀ (e : Expr) (cs : List Expr), p (e.withChildren cs) = p e)
    (he : ∀ n ∈ e.nodes, p n = true) (hv : ∀ n ∈ v.nodes, p n = true) (x : String) :
    ∀ n ∈ (e.substitute x v).nodes, p n = true := by
  induction e using childrenInduction with
  | step e ih =>
    rw [substitute_eq]
    split
    · exact hv
    · split
      · exact he
      · intro n hn
        rcases mem_nodes_iff.mp hn with rfl | ⟨c', hc', hn⟩
        · rw [hp]
          exact he e (mem_nodes_self e)
        · rw [children_withChildren (by simp)] at hc'
          obtain ⟨c, hc, rfl⟩ := List.mem_map.mp hc'
          exact ih c hc (fun n hn => he n (mem_nodes_of_child hc hn)) n hn

theorem Expr.Scalar.substitute {e v : Expr} (he : e.Scalar) (hv : v.Scalar) (x : String) :
    (e.substitute x v).Scalar :=
  nodes_substitute isScalarNode_withChildren he hv x

/-- After substituting, `x` is only used where `v` uses it. -/
theorem Expr.mem_freeNames_substitute {e v : Expr} {x y : String}
    (h : y ∈ (e.substitute x v).freeNames) : y ∈ e.freeNames ∧ y ≠ x ∨ y ∈ v.freeNames := by
  induction e using childrenInduction with
  | step e ih =>
    rw [substitute_eq] at h
    split at h
    · exact .inr h
    · rename_i hp
      split at h
      · rename_i hs
        -- Nothing is substituted below a lambda that declares `x` again, and `x` is not free in it.
        refine .inl ⟨h, ?_⟩
        rintro rfl
        rcases mem_freeNames.mp h with hself | ⟨hn, -⟩
        · exact hp hself
        · rw [hs] at hn
          cases hn
      · rcases mem_freeNames.mp h with hself | ⟨hs, c', hc', h⟩
        · rw [isParameter_withChildren] at hself
          refine .inl ⟨mem_freeNames_of_isParameter hself, ?_⟩
          rintro rfl
          exact hp hself
        · rw [children_withChildren (by simp)] at hc'
          rw [shadows_withChildren] at hs
          obtain ⟨c, hc, rfl⟩ := List.mem_map.mp hc'
          exact (ih c hc h).imp (fun h => ⟨mem_freeNames_of_child hc hs h.1, h.2⟩) id

/-- Only a row, or the parameter `x`, becomes a row. -/
theorem Expr.eq_of_substitute_eq_row {e v : Expr} {x : String} {scope : ScopeId} {t : Ty}
    (h : e.substitute x v = .row scope t) : v = .row scope t ∨ e = .row scope t := by
  rw [substitute_eq] at h
  split at h
  · exact .inl h
  · split at h
    · exact .inr h
    · have hleaf : e.children = [] := by
        have hlen : (e.withChildren (e.children.map fun c => c.substitute x v)).children = [] := by
          rw [h]
          rfl
        rw [children_withChildren (by simp)] at hlen
        exact List.map_eq_nil_iff.mp hlen
      rw [hleaf, List.map_nil, ← hleaf, withChildren_children] at h
      exact .inr h

/-! ## Chains -/

/-- A lambda with one parameter, quoted or not, for the rows of the select with `scope`. Its body is
`Scalar`, the names free in it are its parameter or in `outer`, the names declared around the chain,
and its lambdas declare other names. -/
structure RowFn (outer : List String) (scope : ScopeId) where
  arg : Expr
  param : LambdaParam
  body : Expr
  unquote_arg : arg.unquote = .lambda [param] body
  scalar : body.Scalar
  rows : ∀ c t, .row c t ∈ body.nodes → c ≠ scope
  free : ∀ y ∈ body.freeNames, y = param.name ∨ y ∈ outer
  visible : ∀ n ∈ body.nodes, ∀ y ∈ outer, n.shadows y = false

/-- A number of rows. -/
structure RowCount where
  expr : Expr
  scalar : expr.Scalar

/-- An operator on each row, and the type of its call. -/
inductive ChainStep (outer : List String) (scope : ScopeId) where
  | filter (f : RowFn outer scope) (t : Ty)
  | project (f : RowFn outer scope) (t : Ty)

/-- One level of an order, and the type of its call. -/
structure ChainKey (outer : List String) (scope : ScopeId) where
  key : RowFn outer scope
  descending : Bool
  t : Ty

/-- Filters and projections on a table in any order, among them at most one order of one or more
levels, and then rows that are skipped and taken. -/
structure Chain (outer : List String) (scope : ScopeId) where
  table : String
  element : Ty
  before : List (ChainStep outer scope)
  order : Option (ChainKey outer scope × List (ChainKey outer scope))
  after : List (ChainStep outer scope)
  skip : Option (RowCount × Ty)
  take : Option (RowCount × Ty)

section
variable {outer : List String} {scope : ScopeId}

/-- `e` followed by a call of `method` with `arg`. -/
def Expr.followedBy (e : Expr) (method : String) (arg : Expr) (t : Ty) : Expr :=
  .staticCall .queryable method [e, arg] t

/-- The tree of `e` with one more step. -/
def ChainStep.tree (e : Expr) : ChainStep outer scope → Expr
  | .filter f t => e.followedBy "Where" f.arg t
  | .project f t => e.followedBy "Select" f.arg t

/-- The tree of `e` ordered by `k`. -/
def ChainKey.tree (e : Expr) (k : ChainKey outer scope) : Expr :=
  e.followedBy (if k.descending then "OrderByDescending" else "OrderBy") k.key.arg k.t

/-- The tree of the ordered query `e` with the further level `k`. -/
def ChainKey.thenTree (e : Expr) (k : ChainKey outer scope) : Expr :=
  e.followedBy (if k.descending then "ThenByDescending" else "ThenBy") k.key.arg k.t

/-- The tree of `e` with an order, if there is one. -/
def Chain.orderTree (e : Expr) : Option (ChainKey outer scope × List (ChainKey outer scope)) → Expr
  | none => e
  | some (k, ks) => ks.foldl ChainKey.thenTree (k.tree e)

/-- The tree of `e` with `method` and a number, if there is one. -/
def Chain.countTree (method : String) (e : Expr) : Option (RowCount × Ty) → Expr
  | none => e
  | some (n, t) => e.followedBy method n.expr t

/-- The tree of `c`. -/
def Chain.tree (c : Chain outer scope) : Expr :=
  let before := c.before.foldl ChainStep.tree (.table c.table c.element)
  let after := c.after.foldl ChainStep.tree (Chain.orderTree before c.order)
  Chain.countTree "Take" (Chain.countTree "Skip" after c.skip) c.take

/-! ## What chains mean -/

variable {V : Type} (I : Interpretation V) (ρ : Env V)

/-- What `f` makes of `v`. -/
def RowFn.apply (f : RowFn outer scope) (v : V) : V := I.value (ρ.set f.param.name v) f.body

/-- What a step makes of `xs`. -/
def ChainStep.run (xs : List V) : ChainStep outer scope → List V
  | .filter f _ => xs.filter fun v => I.holds (f.apply I ρ v)
  | .project f _ => xs.map (f.apply I ρ)

/-- The key of a level, and its direction. -/
def ChainKey.sortKey (k : ChainKey outer scope) : Bool × (V → V) := (k.descending, k.key.apply I ρ)

/-- An order as one stable sort by all its levels. -/
def Chain.sorted (xs : List V) : Option (ChainKey outer scope × List (ChainKey outer scope)) →
    List V
  | none => xs
  | some (k, ks) => I.sort ((k :: ks).map (ChainKey.sortKey I ρ)) xs

/-- The number of rows `n`, if there is one. -/
def Chain.count (n : Option (RowCount × Ty)) : Option Nat :=
  n.map fun n => I.count (I.value ρ n.1.expr)

/-- What is left of `xs` when rows are skipped and then others taken. -/
def window {α : Type} (skip take : Option Nat) (xs : List α) : List α :=
  let rest := match skip with
    | some n => xs.drop n
    | none => xs
  match take with
  | some n => rest.take n
  | none => rest

/-- The list that `c` means. -/
def Chain.meaning (tables : String → List V) (c : Chain outer scope) : List V :=
  let before := c.before.foldl (ChainStep.run I ρ) (tables c.table)
  let after := c.after.foldl (ChainStep.run I ρ) (Chain.sorted I ρ before c.order)
  window (Chain.count I ρ c.skip) (Chain.count I ρ c.take) after

end

/-! ## What selects mean -/

namespace Select

section
variable {V : Type} (I : Interpretation V) (ρ : Env V) (s : Select)

/-- The meaning of `e` for `row`. -/
def valueAt (e : Expr) (row : V) : V := I.value (ρ.withRow s.scope row) e

/-- Whether `row` passes the filter. -/
def passes (row : V) : Bool := s.filter.all fun c => I.holds (s.valueAt I ρ c row)

def sortKeys : List (Bool × (V → V)) :=
  s.orderings.map fun k => (k.descending, s.valueAt I ρ k.expr)

/-- The `rows` of a table in the order that the select puts them in. -/
def ordered (rows : List V) : List V := I.sort (s.sortKeys I ρ) (rows.filter (s.passes I ρ))

def countOf (e : Option Expr) : Option Nat := e.map fun e => I.count (I.value ρ e)

/-- What is put out for each row, if that is the row itself or an expression. -/
def output? : Option (V → V) :=
  match s.projection with
  | .all => some id
  | .expr e => some (s.valueAt I ρ e)
  | _ => none

/-- The list that a select over a table means: the rows that pass the filter, in order, cut and
projected. Groups, single rows and aggregates are `none`. -/
def read (tables : String → List V) : Option (List V) :=
  match s.source, s.output? I ρ with
  | .table name, some output =>
    if s.group.isSome || s.single || s.groupKey.isSome then none
    else
      let rows := s.ordered I ρ (tables name)
      some ((window (countOf I ρ s.skip) (countOf I ρ s.take) rows).map output)
  | _, _ => none

end

end Select

/-! ## One step -/

/-- Binding `e` gives `s`, with more fuel than `e` has operators. -/
def Fuses (e : Expr) (n : Nat) (s : Select) (m : Nat) : Prop :=
  ∀ fuel, Binding.operatorCount e < fuel → Yields (Binding.bindWith fuel e) n (.select s) m

/-- `s` is not cut and means the list `xs`. The names used in what it puts out are in `outer`. -/
structure Reads {V : Type} (I : Interpretation V) (ρ : Env V) (tables : String → List V)
    (outer : List String) (scope : ScopeId) (s : Select) (xs : List V) : Prop where
  scope_eq : s.scope = scope
  source : ∃ name, s.source = .table name ∧
    (s.ordered I ρ (tables name)).map (s.valueAt I ρ s.rowValue) = xs
  group : s.group = none
  single : s.single = false
  groupKey : s.groupKey = none
  skip : s.skip = none
  take : s.take = none
  rowwise : s.projection = .all ∨ ∃ e, s.projection = .expr e
  scalar : s.rowValue.Scalar
  free : ∀ y ∈ s.rowValue.freeNames, y ∈ outer

/-- `followedBy` adds one operator. -/
theorem Binding.operatorCount_followedBy (e : Expr) (method : String) (arg : Expr) (t : Ty) :
    Binding.operatorCount e < Binding.operatorCount (e.followedBy method arg t) := by
  show (Expr.nodes e).countP isOperator < (Expr.nodes (e.followedBy method arg t)).countP isOperator
  rw [Expr.nodes_eq (e.followedBy method arg t)]
  simp only [Expr.followedBy, Expr.staticCall, Expr.children, Option.toList_none, List.nil_append,
    List.flatMap_cons, List.flatMap_nil, List.countP_cons, List.countP_append, isOperator, if_true]
  omega

section
variable {outer : List String} {scope : ScopeId} {e arg : Expr} {n m : Nat} {s s' : Select}
  {method : String} {op : QueryOp} {t : Ty}

/-- `bindWith` binds an operator after its source. -/
theorem Binding.yields_staticCall {source r : Expr} {args : List Expr} {fuel k : Nat}
    (hsource : Yields (Binding.bindWith fuel e) n source k)
    (hop : QueryOp.ofMethod? method = some op)
    (h : Yields (Binding.bindOperator (Binding.bindWith fuel) op method source args t) k r m) :
    Yields (Binding.bindWith (fuel + 1) (.staticCall .queryable method (e :: args) t)) n r m := by
  show Yields (Expr.replaceM (Binding.bindNode (Binding.bindWith fuel)) _) n _ m
  rw [Expr.replaceM_eq]
  refine yields_bind.mpr ⟨some r, m, ?_, yields_pure.mpr ⟨rfl, rfl⟩⟩
  refine yields_bind.mpr ⟨r, m, ?_, yields_pure.mpr ⟨rfl, rfl⟩⟩
  refine yields_bind.mpr ⟨source, k, hsource, ?_⟩
  rw [hop]
  exact h

theorem Binding.yields_followedBy {source r : Expr} {fuel k : Nat}
    (hsource : Yields (Binding.bindWith fuel e) n source k)
    (hop : QueryOp.ofMethod? method = some op)
    (h : Yields (Binding.bindOperator (Binding.bindWith fuel) op method source [arg] t) k r m) :
    Yields (Binding.bindWith (fuel + 1) (e.followedBy method arg t)) n r m :=
  Binding.yields_staticCall hsource hop h

theorem Fuses.followedBy (h : Fuses e n s m) (hop : QueryOp.ofMethod? method = some op)
    (hstep : ∀ fuel, Yields (Binding.bindOperator (Binding.bindWith (fuel + 1))
      op method (.select s) [arg] t) m (.select s') m) :
    Fuses (e.followedBy method arg t) n s' m := by
  intro fuel hfuel
  have hcount := Binding.operatorCount_followedBy e method arg t
  obtain ⟨fuel, rfl⟩ : ∃ k, fuel = k + 2 := ⟨fuel - 2, by omega⟩
  exact Binding.yields_followedBy (h (fuel + 1) (by omega)) hop (hstep fuel)

/-- `f` becomes its body with the row of `s` filled in. -/
theorem RowFn.applyLambda (f : RowFn outer scope) (hkey : s.groupKey = none)
    (hs : s.rowValue.Scalar) (fuel : Nat) (method : String) :
    Binding.applyLambda (Binding.bindWith (fuel + 1)) s method f.arg =
      pure (f.body.substitute f.param.name s.rowValue) := by
  have hl : f.arg.asLambda method = .ok (f.param, f.body) := by
    unfold Expr.asLambda
    rw [f.unquote_arg]
  unfold Binding.applyLambda
  rw [hl, hkey]
  show Binding.bindWith (fuel + 1) (f.body.substitute f.param.name s.rowValue) = _
  exact Binding.bindWith_scalar (f.scalar.substitute hs _) fuel

theorem Fuses.applied (hb : Fuses e n s m) (hkey : s.groupKey = none) (hs : s.rowValue.Scalar)
    (f : RowFn outer scope) (hop : QueryOp.ofMethod? method = some op) (change : Expr → Select)
    (hstep : ∀ bind, Binding.bindOperator bind op method (.select s) [f.arg] t = Binding.applyLambda
      bind s method f.arg >>= fun c => pure (.select (change c))) :
    Fuses (e.followedBy method f.arg t) n (change (f.body.substitute f.param.name s.rowValue))
      m := by
  refine hb.followedBy hop fun fuel => ?_
  rw [hstep, f.applyLambda hkey hs, pure_bind]
  exact yields_pure.mpr ⟨rfl, rfl⟩

theorem Fuses.filterBy (hb : Fuses e n s m) (hkey : s.groupKey = none) (hs : s.rowValue.Scalar)
    (f : RowFn outer scope) :
    Fuses (e.followedBy "Where" f.arg t) n (s.filterBy (f.body.substitute f.param.name s.rowValue))
      m :=
  hb.applied hkey hs f rfl s.filterBy fun _ => rfl

theorem Fuses.projectBy (hb : Fuses e n s m) (hkey : s.groupKey = none) (hs : s.rowValue.Scalar)
    (f : RowFn outer scope) :
    Fuses (e.followedBy "Select" f.arg t)
      n (s.projectBy (f.body.substitute f.param.name s.rowValue)) m := by
  refine hb.applied hkey hs f rfl s.projectBy fun bind => ?_
  rw [← Binding.bindProjection_eq]
  simp only [Binding.bindOperator, Binding.expectSelect, pure_bind, hkey]

theorem Fuses.orderBy (hb : Fuses e n s m) (hkey : s.groupKey = none) (hs : s.rowValue.Scalar)
    (k : ChainKey outer scope) :
    Fuses (k.tree e) n (s.orderBy (k.key.body.substitute k.key.param.name s.rowValue) k.descending)
      m := by
  have hop : QueryOp.ofMethod? (if k.descending then "OrderByDescending" else "OrderBy") =
      some (.orderBy k.descending) := by cases k.descending <;> rfl
  exact hb.applied hkey hs k.key hop (s.orderBy · k.descending) fun _ => rfl

theorem Fuses.thenBy (hb : Fuses e n s m) (hkey : s.groupKey = none) (hs : s.rowValue.Scalar)
    (k : ChainKey outer scope) :
    Fuses (k.thenTree e) n (s.thenBy (k.key.body.substitute k.key.param.name s.rowValue)
      k.descending) m := by
  have hop : QueryOp.ofMethod? (if k.descending then "ThenByDescending" else "ThenBy") =
      some (.thenBy k.descending) := by cases k.descending <;> rfl
  exact hb.applied hkey hs k.key hop (s.thenBy · k.descending) fun _ => rfl

section
variable {V : Type} {I : Interpretation V} {ρ : Env V} {tables : String → List V} {xs : List V}

/-- The body of `f` with the row filled in means what `f` makes of the row's value. -/
theorem RowFn.valueAt_substitute (f : RowFn outer scope) (h : Reads I ρ tables outer scope s xs)
    (row : V) : s.valueAt I ρ (f.body.substitute f.param.name s.rowValue) row =
      f.apply I ρ (s.valueAt I ρ s.rowValue row) := by
  unfold Select.valueAt RowFn.apply
  rw [I.value_substitute fun n hn y hy => f.visible n hn y (h.free y hy)]
  refine I.value_congr (fun _ _ => rfl) fun c t hc => ?_
  have hne := f.rows c t hc
  simp [Env.set, Env.withRow, h.scope_eq, hne]

theorem RowFn.free_substitute (f : RowFn outer scope) (h : Reads I ρ tables outer scope s xs) :
    ∀ y ∈ (f.body.substitute f.param.name s.rowValue).freeNames, y ∈ outer := by
  intro y hy
  rcases Expr.mem_freeNames_substitute hy with ⟨hy, hne⟩ | hy
  · exact (f.free y hy).resolve_left hne
  · exact h.free y hy

theorem Select.valueAt_row (t : Ty) : s.valueAt I ρ (.row s.scope t) = id := by
  funext row
  simp [valueAt, Interpretation.value, Env.withRow]

theorem Select.rowValue_congr (hscope : s'.scope = s.scope) (hproj : s'.projection = s.projection)
    (helement : s'.element = s.element) : s'.rowValue = s.rowValue := by
  obtain ⟨⟩ := s
  obtain ⟨⟩ := s'
  simp only at hscope hproj helement
  subst hscope hproj helement
  rfl

/-- `filterBy c` adds one test for each row. -/
theorem Select.passes_filterBy (c : Expr) (row : V) :
    (s.filterBy c).passes I ρ row = (s.passes I ρ row && I.holds (s.valueAt I ρ c row)) := by
  cases hf : s.filter with
  | none => simp [passes, Select.filterBy, valueAt, hf]
  | some existing =>
    simp only [passes, Select.filterBy, hf, Option.all_some, valueAt]
    rw [Expr.and, Expr.combine, I.value_eq rfl]
    exact I.holds_and _ _ _

/-- `filterBy` leaves out the values that do not satisfy `f`. -/
theorem Reads.filterBy (h : Reads I ρ tables outer scope s xs) (f : RowFn outer scope) :
    Reads I ρ tables outer scope (s.filterBy (f.body.substitute f.param.name s.rowValue))
      (xs.filter fun v => I.holds (f.apply I ρ v)) := by
  obtain ⟨name, hname, hxs⟩ := h.source
  have hrow : (s.filterBy (f.body.substitute f.param.name s.rowValue)).rowValue = s.rowValue :=
    Select.rowValue_congr rfl rfl rfl
  refine { h with source := ⟨name, hname, ?_⟩, scalar := hrow ▸ h.scalar, free := hrow ▸ h.free }
  rw [hrow, ← hxs, List.filter_map]
  congr 1
  show I.sort (s.sortKeys I ρ) _ = (I.sort (s.sortKeys I ρ) _).filter _
  rw [I.filter_sort, List.filter_filter]
  congr 1
  refine List.filter_congr fun row _ => ?_
  rw [Select.passes_filterBy, f.valueAt_substitute h]
  exact Bool.and_comm _ _

/-- `projectBy` makes something of each value. -/
theorem Reads.project (h : Reads I ρ tables outer scope s xs) (f : RowFn outer scope) :
    Reads I ρ tables outer scope (s.project (.expr (f.body.substitute f.param.name s.rowValue)))
      (xs.map (f.apply I ρ)) := by
  obtain ⟨name, hname, hxs⟩ := h.source
  refine { h with source := ⟨name, hname, ?_⟩, rowwise := .inr ⟨_, rfl⟩, scalar := ?_, free := ?_ }
  · rw [← hxs, List.map_map]
    refine List.map_congr_left fun row _ => ?_
    exact f.valueAt_substitute h row
  · exact f.scalar.substitute h.scalar _
  · exact f.free_substitute h

/-- If `f` gives the row itself, it leaves values as they are. -/
theorem Reads.map_eq_self (h : Reads I ρ tables outer scope s xs) (f : RowFn outer scope)
    (hrow : f.body.substitute f.param.name s.rowValue = .row scope t) :
    xs.map (f.apply I ρ) = xs := by
  have hvalue : s.rowValue = .row scope t := by
    refine (Expr.eq_of_substitute_eq_row hrow).resolve_right fun hbody => ?_
    exact f.rows scope t (by rw [hbody]; exact Expr.mem_nodes_self _) rfl
  obtain ⟨name, -, hxs⟩ := h.source
  rw [← hxs, List.map_map]
  refine List.map_congr_left fun row _ => ?_
  rw [Function.comp_apply, ← f.valueAt_substitute h, hrow, hvalue]

/-- A `ChainStep` as a step of binding. -/
theorem Reads.step (h : Reads I ρ tables outer scope s xs) (hb : Fuses e n s m)
    (step : ChainStep outer scope) : ∃ s', Fuses (step.tree e) n s' m ∧ s'.orderings = s.orderings ∧
      Reads I ρ tables outer scope s' (step.run I ρ xs) := by
  cases step with
  | filter f t => exact ⟨_, hb.filterBy h.groupKey h.scalar f, rfl, h.filterBy f⟩
  | project f t =>
    refine ⟨_, hb.projectBy h.groupKey h.scalar f, ?_⟩
    -- The only choice is whether the select stays as it is.
    unfold Select.projectBy
    split
    · rename_i c t' hc
      split
      · rename_i hscope
        rw [eq_of_beq hscope, h.scope_eq] at hc
        rw [ChainStep.run, h.map_eq_self f hc]
        exact ⟨rfl, h⟩
      · exact ⟨rfl, h.project f⟩
    · exact ⟨rfl, h.project f⟩

theorem Reads.steps (h : Reads I ρ tables outer scope s xs) (hb : Fuses e n s m)
    (steps : List (ChainStep outer scope)) :
    ∃ s', Fuses (steps.foldl ChainStep.tree e) n s' m ∧ s'.orderings = s.orderings ∧
      Reads I ρ tables outer scope s' (steps.foldl (ChainStep.run I ρ) xs) := by
  induction steps generalizing e s xs with
  | nil => exact ⟨s, hb, rfl, h⟩
  | cons step steps ih =>
    obtain ⟨s₁, hb₁, horder₁, h₁⟩ := h.step hb step
    obtain ⟨s₂, hb₂, horder₂, h₂⟩ := ih h₁ hb₁
    exact ⟨s₂, hb₂, horder₂.trans horder₁, h₂⟩

/-- `ofTable` reads the rows of the table. -/
theorem Reads.table (name : String) (element : Ty) :
    Reads I ρ tables outer scope (Select.ofTable scope name element) (tables name) where
  scope_eq := rfl
  source := by
    refine ⟨name, rfl, ?_⟩
    have hall : (tables name).filter ((Select.ofTable scope name element).passes I ρ) = tables
        name :=
      List.filter_eq_self.mpr fun _ _ => rfl
    have hrow : (Select.ofTable scope name element).valueAt I ρ
        (Select.ofTable scope name element).rowValue = id :=
      Select.valueAt_row (s := Select.ofTable scope name element) element
    show ((I.sort [] _).map _) = _
    rw [I.sort_nil, hall, hrow, List.map_id]
  group := rfl
  single := rfl
  groupKey := rfl
  skip := rfl
  take := rfl
  rowwise := .inl rfl
  scalar := Expr.scalar_iff.mpr ⟨rfl, nofun⟩
  free := by
    intro y hy
    rcases Expr.mem_freeNames.mp hy with hself | ⟨-, c, hc, -⟩
    · cases hself
    · cases hc

theorem Fuses.table (name : String) (element : Ty) (n : Nat) :
    Fuses (.table name element) n (Select.ofTable ⟨n⟩ name element) (n + 1) := by
  intro fuel hfuel
  obtain ⟨fuel, rfl⟩ : ∃ k, fuel = k + 1 := ⟨fuel - 1, by omega⟩
  show Yields (Expr.replaceM (Binding.bindNode (Binding.bindWith fuel)) _) n _ (n + 1)
  rw [Expr.replaceM_eq]
  refine yields_bind.mpr ⟨some (.select (Select.ofTable ⟨n⟩ name element)), n + 1, ?_,
    yields_pure.mpr ⟨rfl, rfl⟩⟩
  exact yields_bind.mpr ⟨⟨n⟩, n + 1, BindM.yields_freshScope.mpr ⟨rfl, rfl⟩,
    yields_pure.mpr ⟨rfl, rfl⟩⟩

/-! ## Orders and numbers of rows -/

/-- The clause of `s` that the level `k` becomes. -/
def ChainKey.ordering (s : Select) (k : ChainKey outer scope) : SortKey :=
  ⟨k.key.body.substitute k.key.param.name s.rowValue, k.descending⟩

/-- `s` with the order `ks` instead of its own. -/
def Select.orderedBy (s : Select) (ks : List (ChainKey outer scope)) : Select :=
  { s with orderings := ks.map (·.ordering s) }

theorem Select.rowValue_orderedBy (ks : List (ChainKey outer scope)) :
    (s.orderedBy ks).rowValue = s.rowValue :=
  rowValue_congr rfl rfl rfl

theorem Select.thenBy_orderedBy (ks : List (ChainKey outer scope)) (k : ChainKey outer scope) :
    (s.orderedBy ks).thenBy (k.key.body.substitute k.key.param.name (s.orderedBy ks).rowValue)
      k.descending = s.orderedBy (ks ++ [k]) := by
  rw [rowValue_orderedBy]
  simp [orderedBy, Select.thenBy, ChainKey.ordering]

/-- Binding an order puts its keys into `orderings`. -/
theorem Reads.fuses_order (h : Reads I ρ tables outer scope s xs) (hb : Fuses e n s m)
    (k : ChainKey outer scope) (ks : List (ChainKey outer scope)) :
    Fuses (Chain.orderTree e (some (k, ks))) n (s.orderedBy (k :: ks)) m := by
  -- One level is put in at the end, so the list of levels is taken apart from there.
  induction ks using List.reverseRecOn with
  | nil => exact hb.orderBy h.groupKey h.scalar k
  | append_singleton ks k' ih =>
    simp only [Chain.orderTree, List.foldl_append, List.foldl_cons, List.foldl_nil] at ih ⊢
    rw [← List.cons_append, ← Select.thenBy_orderedBy]
    refine ih.thenBy h.groupKey ?_ k'
    rw [Select.rowValue_orderedBy]
    exact h.scalar

/-- A select without an order that is `orderedBy` keys means the sorted list. -/
theorem Reads.orderedBy (h : Reads I ρ tables outer scope s xs) (hnone : s.orderings = [])
    (ks : List (ChainKey outer scope)) :
    Reads I ρ tables outer scope (s.orderedBy ks) (I.sort (ks.map (ChainKey.sortKey I ρ)) xs) := by
  obtain ⟨name, hname, hxs⟩ := h.source
  have hrow := Select.rowValue_orderedBy (s := s) ks
  refine { h with source := ⟨name, hname, ?_⟩, scalar := hrow ▸ h.scalar, free := hrow ▸ h.free }
  have hplain : s.ordered I ρ (tables name) = (tables name).filter (s.passes I ρ) := by
    rw [Select.ordered, Select.sortKeys, hnone, List.map_nil, I.sort_nil]
  have hkeys : (s.orderedBy ks).sortKeys I ρ =
      (ks.map (ChainKey.sortKey I ρ)).map fun k => (k.1, k.2 ∘ s.valueAt I ρ s.rowValue) := by
    simp only [Select.sortKeys, Select.orderedBy, List.map_map]
    refine List.map_congr_left fun k _ => Prod.ext rfl ?_
    funext row
    exact k.key.valueAt_substitute h row
  rw [← hxs, hplain, I.map_sort, hrow, ← hkeys]
  rfl

theorem Reads.order (h : Reads I ρ tables outer scope s xs) (hb : Fuses e n s m)
    (hnone : s.orderings = [])
    (order : Option (ChainKey outer scope × List (ChainKey outer scope))) :
    ∃ s', Fuses (Chain.orderTree e order) n s' m ∧
      Reads I ρ tables outer scope s' (Chain.sorted I ρ xs order) := by
  cases order with
  | none => exact ⟨s, hb, h⟩
  | some k => exact ⟨_, h.fuses_order hb k.1 k.2, h.orderedBy hnone (k.1 :: k.2)⟩

/-- `method` puts its number, if there is one, into its clause of the select. -/
theorem Fuses.count (hb : Fuses e n s m) (method : String) (clause : Option Expr → Select)
    (hnone : clause none = s) (hop : QueryOp.ofMethod? method = some op)
    (hstep : ∀ bind c t, Binding.bindOperator bind op method (.select s) [c] t =
      bind c >>= fun c => pure (.select (clause (some c))))
    (count : Option (RowCount × Ty)) :
    Fuses (Chain.countTree method e count) n (clause (count.map (·.1.expr))) m := by
  cases count with
  | none => exact hnone.symm ▸ hb
  | some c =>
    refine hb.followedBy hop fun fuel => ?_
    rw [hstep, Binding.bindWith_scalar c.1.scalar]
    exact yields_pure.mpr ⟨rfl, rfl⟩

theorem window_map {α β : Type} (f : α → β) (skip take : Option Nat) (xs : List α) :
    window skip take (xs.map f) = (window skip take xs).map f := by
  cases skip <;> cases take <;> simp [window, List.map_drop, List.map_take]

/-- `s` with the numbers `skip` and `take` instead of its own. -/
def Select.cut (s : Select) (skip take : Option (RowCount × Ty)) : Select :=
  { s with skip := skip.map (·.1.expr), take := take.map (·.1.expr) }

/-- Binding the numbers at the end puts them into `skip` and `take`. -/
theorem Reads.fuses_cut (h : Reads I ρ tables outer scope s xs) (hb : Fuses e n s m)
    (skip take : Option (RowCount × Ty)) :
    Fuses (Chain.countTree "Take" (Chain.countTree "Skip" e skip) take) n (s.cut skip take) m := by
  obtain ⟨-, -, -, -, -, hskip, htake⟩ := h
  obtain ⟨c, t, source, projection, filter, group, orderings, _, _, single, key⟩ := s
  simp only at hskip htake
  subst hskip htake
  have hb₁ := hb.count "Skip"
    (fun k => ⟨c, t, source, projection, filter, group, orderings, none, k, single, key⟩)
    rfl rfl (fun _ _ _ => rfl) skip
  exact hb₁.count "Take"
    (fun k => ⟨c, t, source, projection, filter, group, orderings, k, skip.map (·.1.expr),
      single, key⟩)
    rfl rfl (fun _ _ _ => rfl) take

/-- What is put out for a row is `rowValue`. -/
theorem Reads.output?_eq (h : Reads I ρ tables outer scope s xs) :
    s.output? I ρ = some (s.valueAt I ρ s.rowValue) := by
  rcases h.rowwise with hp | ⟨e, hp⟩
  · rw [Select.output?, Select.rowValue, hp, Select.valueAt_row]
  · rw [Select.output?, Select.rowValue, hp]

/-- A select that is `cut` in the end means what is left of the list. -/
theorem Reads.read_cut (h : Reads I ρ tables outer scope s xs)
    (skip take : Option (RowCount × Ty)) :
    (s.cut skip take).read I ρ tables =
      some (window (Chain.count I ρ skip) (Chain.count I ρ take) xs) := by
  obtain ⟨name, hname, hxs⟩ := h.source
  have hcount : ∀ count : Option (RowCount × Ty),
      Select.countOf I ρ (count.map (·.1.expr)) = Chain.count I ρ count :=
    fun count => Option.map_map ..
  have houtput : (s.cut skip take).output? I ρ = some (s.valueAt I ρ s.rowValue) := h.output?_eq
  have hsource : (s.cut skip take).source = .table name := hname
  rw [Select.read, houtput, hsource, ← hxs, window_map]
  simp only [Select.cut, hcount, h.group, h.single, h.groupKey, Option.isSome_none, Bool.or_self,
    Bool.false_eq_true, if_false]
  rfl

end

end

/-! ## Plain data -/

/-- Data with values that can be compared. -/
inductive Datum where
  | nil
  | flag (b : Bool)
  | number (n : Int)
  | text (s : String)
  | pair (first second : Datum)
deriving DecidableEq

namespace Datum

/-- A list as one value. -/
def ofList : List Datum → Datum := List.foldr pair nil

/-- An object is a list of its members, the last one first. -/
def set (o : Datum) (name : String) (v : Datum) : Datum := pair (pair (text name) v) o

/-- The member of that name that was `set` last. -/
def get : Datum → String → Datum
  | pair (pair (text other) v) o, name => if other = name then v else o.get name
  | _, _ => nil

def holds (d : Datum) : Bool := d = flag true

/-- The number that a value is. -/
def toInt : Datum → Int
  | number n => n
  | _ => 0

/-- What a node makes of its children: constants, members, objects, equality and conditions mean
what they say. -/
def node : Expr → List Datum → Datum
  | .constant (.bool b) _, _ => flag b
  | .constant (.int n) _, _ => number n.toInt
  | .constant (.string s) _, _ => text s
  | .member _ name _, [o] => o.get name
  | .binary .equal _ _ _, [a, b] => flag (a = b)
  | .binary .andAlso _ _ _, [a, b] => flag (a.holds && b.holds)
  | .unary .not _ _, [a] => flag (!a.holds)
  | .newObject _ members, ds =>
    ((members.map (·.1)).zip ds).foldl (fun o m => o.set m.1 m.2) nil
  | _, ds => ofList ds

/-- Values are ordered by the numbers that they are. -/
def interpretation : Interpretation Datum where
  le a b := decide (a.toInt ≤ b.toInt)
  total a b := by
    simp only [Bool.or_eq_true, decide_eq_true_eq]
    omega
  trans a b c := by
    simp only [decide_eq_true_eq]
    omega
  node := node
  lambda _ _ := nil
  holds := holds
  count d := d.toInt.toNat
  holds_and t a b := by simp [node, holds]

end Datum

namespace Sample

/-- A function of a row in which only `x` is free and no rows occur. -/
def rowFn (scope : ScopeId) (x : String) (body : Expr)
    (hnodes : ∀ n ∈ body.nodes, (n.isScalarNode && !n.isVariable || n.isParameter x) = true)
    (hfree : ∀ y ∈ body.freeNames, y = x) : RowFn [] scope where
  arg := .lambda [⟨x, .unknown⟩] body
  param := ⟨x, .unknown⟩
  body := body
  unquote_arg := rfl
  scalar n hn := by
    rcases (Bool.or_eq_true _ _).mp (hnodes n hn) with h | h
    · exact ((Bool.and_eq_true _ _).mp h).1
    · cases n <;> first | rfl | cases h
  rows c t hc := by
    have h := hnodes _ hc
    simp [Expr.isVariable, Expr.isParameter] at h
  free y hy := .inl (hfree y hy)
  visible _ _ _ hy := nomatch hy

/-- The largest number but one of the posts that are not numbered two. -/
def secondLargest : Chain [] ⟨0⟩ where
  table := "post"
  element := .unknown
  before := [.filter (rowFn ⟨0⟩ "p"
    (.unary .not (.binary .equal (.member (.parameter "p" .unknown) "x" .int32) (.int32 2) .bool)
      .bool)
    (by decide) (by decide)) .unknown]
  order := some (⟨rowFn ⟨0⟩ "p" (.member (.parameter "p" .unknown) "x" .int32)
    (by decide) (by decide), true, .unknown⟩, [])
  after := [.project (rowFn ⟨0⟩ "q" (.member (.parameter "q" .unknown) "x" .int32)
    (by decide) (by decide)) .unknown]
  skip := some (⟨.int32 1, by unfold Expr.Scalar; decide⟩, .unknown)
  take := some (⟨.int32 1, by unfold Expr.Scalar; decide⟩, .unknown)

end Sample

/-- `Chain.tree` is bound to a select whose rows are the `Chain.meaning`. -/
theorem bind_chain_meaning {V : Type} (I : Interpretation V) (ρ : Env V) (tables : String → List V)
    {outer : List String} {n : Nat} (c : Chain outer ⟨n⟩) :
    ∃ s, Yields c.tree.bind n (.select s) (n + 1) ∧
      s.read I ρ tables = some (c.meaning I ρ tables) := by
  have hstart : Reads I ρ tables outer ⟨n⟩ (Select.ofTable ⟨n⟩ c.table c.element)
      (tables c.table) :=
    .table c.table c.element
  obtain ⟨s₁, hb₁, horder₁, h₁⟩ := hstart.steps (.table c.table c.element n) c.before
  obtain ⟨s₂, hb₂, h₂⟩ := h₁.order hb₁ horder₁ c.order
  obtain ⟨s₃, hb₃, -, h₃⟩ := h₂.steps hb₂ c.after
  exact ⟨_, h₃.fuses_cut hb₃ c.skip c.take _ (Nat.lt_succ_self _), h₃.read_cut c.skip c.take⟩

open Sample in
theorem bind_chain_meaning_secondLargest :
    let posts := [3, 2, 5, 1].map fun n => Datum.nil.set "x" (.number n)
    ∃ s, Yields secondLargest.tree.bind 0 (.select s) 1 ∧
      s.read Datum.interpretation ⟨fun _ => .nil, fun _ => .nil⟩ (fun _ => posts) =
        some [.number 3] := by
  intro posts
  obtain ⟨s, hbind, hread⟩ := bind_chain_meaning Datum.interpretation
    ⟨fun _ => .nil, fun _ => .nil⟩ (fun _ => posts) secondLargest
  refine ⟨s, hbind, hread.trans ?_⟩
  cbv

end QueryTree
