import QueryTree.Proofs.Chain
import QueryTree.Proofs.GroupUses
import QueryTree.Proofs.Hygiene

/-!
# What a group variable stands for

In a lambda over groups the variable is used for the key of the group or for its elements. Operators
that look at groups one by one put the key that is read from a group in the place of the first, and
the query of its elements in the place of the second (`GroupKey.eachView`). A merged selector has
the key and the aggregates of the grouped select (`GroupKey.mergedView`).

In two places the variable does not stand for its group. Aggregates over all groups read them as
rows of another select: the key is a column of the row, and everything else is the row itself
(`Select.rowView`). And the function of an aggregate in a merged selector is bound for the rows of
the group only: a group variable in it stays as it is (`Expr.FunctionsUse`).
-/

namespace QueryTree

open Binding

/-- What stands for a group variable at some place. -/
structure GroupView where
  /-- The key, as a value of that type. -/
  key : Ty → Expr
  /-- What may stand for another use of the variable. -/
  use : Expr → Expr → Prop

/-- A body in which every free use of `g` has been replaced by what stands for it in `view`. -/
inductive Expr.Regroups (g : String) (view : GroupView) : Expr → Expr → Prop
  | key {base : Expr} {t : Ty} : base.isParameter g = true →
    Expr.Regroups g view (.member base "Key" t) (view.key t)
  | use {e r : Expr} : view.use e r → Expr.Regroups g view e r
  /-- Lambdas that declare the name again stay as they are. -/
  | shadowed {e : Expr} : e.shadows g = true → Expr.Regroups g view e e
  | node {e : Expr} {cs : List Expr} : e.isParameter g = false → e.isKeyOf g = false →
    e.shadows g = false → List.Forall₂ (Expr.Regroups g view) e.children cs →
    Expr.Regroups g view e (e.withChildren cs)

/-- Groups one by one: the key as it is read from the group, and its elements. -/
def GroupKey.eachView (key : GroupKey) (g : String) : GroupView where
  key _ := key.outer
  use e r := e.isParameter g = true ∧ r = key.values

/-- Some aggregate over the group `g` in `e` has a function in which `g` is used again. -/
def Expr.FunctionsUse (e : Expr) (g : String) : Prop :=
  ∃ n ∈ e.walk fun n => !n.shadows g, ∃ kind method f rest t,
    n.aggregateOf? g = some (kind, method, f :: rest, t) ∧ g ∈ f.freeNames

/-- What an aggregate with the arguments `args` takes of each row of `source`: nothing for a number
of rows, the row, or what a function gives for it. Where the function uses `g`, that use is left as
it is; there is none unless `kept` holds. -/
inductive Binding.Summand (bind : Expr → BindM Expr) (source : Select) (g : String) (kept : Prop) :
    AggregateKind → List Expr → Option Expr → Prop
  | count : Summand bind source g kept .count [] none
  | row {kind : AggregateKind} : kind ≠ .count →
    Summand bind source g kept kind [] (some source.rowValue)
  | function {kind : AggregateKind} {f body c : Expr} {args : List Expr} {p : LambdaParam}
    {n m : Nat} : f.unquote = .lambda [p] body → Yields (bind (source.fillIn p.name body)) n c m →
      (g ∈ f.freeNames → kept ∧ g ∈ (source.fillIn p.name body).freeNames) →
        Summand bind source g kept kind (f :: args) (some c)

/-- Grouped rows: the key of the rows, and aggregates over the rows of the group. -/
def GroupKey.mergedView (bind : Expr → BindM Expr) (key : GroupKey) (g : String) (kept : Prop) :
    GroupView where
  key _ := key.inner
  use e r := ∃ kind method args t value, e.aggregateOf? g = some (kind, method, args, t) ∧
    r = .groupAggregate kind value t ∧ Summand bind key.source g kept kind args value

/-- Groups as rows of another select: a column of the row, and the row itself. -/
def Select.rowView (groups : Select) (scope : ScopeId) (g : String) : GroupView where
  key t := .member (.row scope groups.projectedType) "Key" t
  use e r := e.isParameter g = true ∧ r = .row scope groups.projectedType

/-- Whether an operator takes an aggregate over all rows of its source. -/
def QueryOp.aggregates : QueryOp → Bool
  | .selectMany | .count | .aggregate _ | .distinct => true
  | _ => false

/-- How an operator with the function `fun g => body` sees groups, and the scope of the select in
which it does. -/
inductive Binding.SeesGroups (bind : Expr → BindM Expr) (groups : Select) (key : GroupKey)
    (g : String) (body : Expr) : QueryOp → GroupView → ScopeId → Prop
  | each {op : QueryOp} : op.aggregates = false → (op = .select → body.isMerged g = false) →
    SeesGroups bind groups key g body op (key.eachView g) groups.scope
  | merged : body.isMerged g = true →
    SeesGroups bind groups key g body .select (key.mergedView bind g (body.FunctionsUse g))
      key.source.scope
  | rows {op : QueryOp} (scope : ScopeId) : op.aggregates = true →
    SeesGroups bind groups key g body op (groups.rowView scope g) scope

/-! ## Bodies -/

section
variable {g : String} {key : GroupKey} {bind : Expr → BindM Expr} {groups : Select}

theorem Expr.regroups_substituteGroup (e : Expr) :
    e.Regroups g (key.eachView g) (e.substituteGroup g key) := by
  induction e using Expr.childrenInduction with
  | step e ih =>
    rw [substituteGroup, replace_eq]
    by_cases hkey : e.isKeyOf g = true
    · obtain ⟨base, t, rfl, hbase⟩ := isKeyOf_eq_true hkey
      simp only [hkey, if_true]
      exact .key (t := t) hbase
    by_cases hparam : e.isParameter g = true
    · simp only [hkey, hparam, Bool.false_eq_true, if_true, if_false]
      exact .use ⟨hparam, rfl⟩
    by_cases hshadows : e.shadows g = true
    · simp only [hkey, hparam, hshadows, Bool.false_eq_true, if_true, if_false]
      exact .shadowed hshadows
    simp only [hkey, hparam, hshadows, Bool.false_eq_true, if_false]
    refine .node (by simpa using hparam) (by simpa using hkey) (by simpa using hshadows) ?_
    rw [List.forall₂_map_right_iff, List.forall₂_same]
    exact ih

theorem Expr.regroups_substitute (scope : ScopeId) (e : Expr) :
    e.Regroups g (groups.rowView scope g) (e.substitute g (.row scope groups.projectedType)) := by
  induction e using Expr.childrenInduction with
  | step e ih =>
    rw [substitute, replace_eq, substituteNode]
    by_cases hparam : e.isParameter g = true
    · simp only [hparam, if_true]
      exact .use ⟨hparam, rfl⟩
    by_cases hshadows : e.shadows g = true
    · simp only [hparam, hshadows, Bool.false_eq_true, if_true, if_false]
      exact .shadowed hshadows
    simp only [hparam, hshadows, Bool.false_eq_true, if_false]
    by_cases hkey : e.isKeyOf g = true
    · obtain ⟨base, t, rfl, hbase⟩ := isKeyOf_eq_true hkey
      -- The variable below the key is replaced on its own, and is a row then.
      have hrow : base.replace (substituteNode g (.row scope groups.projectedType)) =
          .row scope groups.projectedType := by
        rw [replace_eq, substituteNode, if_pos hbase]
      simp only [children, List.map_cons, List.map_nil, hrow]
      exact .key hbase
    · refine .node (by simpa using hparam) (by simpa using hkey) (by simpa using hshadows) ?_
      rw [List.forall₂_map_right_iff, List.forall₂_same]
      exact ih

section
variable {kept : Prop} {e c r f : Expr} {kind : AggregateKind} {method : String} {args : List Expr}
  {t : Ty} {n m : Nat}

theorem Expr.FunctionsUse.of_child (h : c.FunctionsUse g) (hshadows : e.shadows g = false)
    (hc : c ∈ e.children) : e.FunctionsUse g := by
  obtain ⟨n, hn, huse⟩ := h
  refine ⟨n, ?_, huse⟩
  rw [walk_eq, hshadows]
  exact List.mem_cons_of_mem _ (List.mem_flatMap.mpr ⟨c, hc, hn⟩)

theorem Expr.FunctionsUse.of_aggregate (h : e.aggregateOf? g = some (kind, method, f :: args, t))
    (hf : g ∈ f.freeNames) : e.FunctionsUse g := by
  refine ⟨e, ?_, kind, method, f, args, t, h, hf⟩
  rw [walk_eq]
  exact List.mem_cons_self

theorem Binding.summand_of_yields {value : Option Expr}
    (hkept : ∀ f ∈ args.head?, g ∈ f.freeNames → kept)
    (h : Yields (aggregatedValue bind key method kind args.head?) n value m) :
    Summand bind key.source g kept kind args value := by
  rcases yields_aggregatedValue h with ⟨hnone, rfl, -⟩ | ⟨f, c, hsome, rfl, hc⟩
  · obtain rfl := List.head?_eq_none_iff.mp hnone
    split
    · rename_i hcount
      rw [hcount]
      exact .count
    · rename_i hcount
      exact .row hcount
  · obtain ⟨rest, rfl⟩ := List.head?_eq_some_iff.mp hsome
    obtain ⟨p, body, hlambda, hbody⟩ := yields_applyLambda hc
    refine .function hlambda hbody fun hg => ⟨hkept f hsome hg, ?_⟩
    -- The function declares another variable, and only that one is filled in.
    obtain ⟨hfree, hdeclared⟩ := Expr.mem_freeNames_body hlambda hg
    refine Select.mem_freeNames_fillIn hfree ?_
    rintro rfl
    simp at hdeclared

/-- `mergeNode` uses the group for its key and in aggregates only. -/
theorem Expr.regroups_of_merged (hother : (GroupUses.of e g).other = false)
    (hkept : e.FunctionsUse g → kept) (h : Yields (e.replaceM (mergeNode bind g key)) n r m) :
    e.Regroups g (key.mergedView bind g kept) r := by
  refine yields_replaceM (T := fun e _ r _ => (GroupUses.of e g).other = false →
    (e.FunctionsUse g → kept) → e.Regroups g (key.mergedView bind g kept) r) ?_ ?_ h hother hkept
  · intro e n r m hr _ hkept
    rcases yields_mergeNode hr with ⟨hkey, heq, -⟩ |
      ⟨kind, method, args, t, value, hagg, hvalue, heq⟩ | ⟨heq, hshadows, -⟩ | ⟨heq, -⟩
    · obtain ⟨base, t, rfl, hbase⟩ := isKeyOf_eq_true hkey
      cases heq
      exact .key (t := t) hbase
    · cases heq
      refine .use ⟨kind, method, args, t, value, hagg, rfl, summand_of_yields (fun f hf hg => ?_)
        hvalue⟩
      obtain ⟨rest, rfl⟩ := List.head?_eq_some_iff.mp hf
      exact hkept (.of_aggregate hagg hg)
    · cases heq
      exact .shadowed hshadows
    · cases heq
  · intro e n k cs m hnone hcs hother hkept
    rcases yields_mergeNode hnone with ⟨-, heq, -⟩ | ⟨_, _, _, _, _, -, -, heq⟩ | ⟨heq, -, -⟩ |
      ⟨-, hkey, hagg, hshadows, -⟩
    · cases heq
    · cases heq
    · cases heq
    -- A node that stays is not the variable: that would be another use.
    refine .node (GroupUses.isParameter_of_other hother) hkey hshadows ?_
    have hkids := (hcs.imp fun c hc _ _ _ hr =>
      hr (GroupUses.other_child hother hshadows hkey hagg hc)
      fun huse => hkept (huse.of_child hshadows hc)).forall₂
    exact hkids

end

end

/-! ## Where bodies end up -/

/-- What is put into the clauses of a select for a body: an object is taken apart into its members.
-/
def Expr.parts : Expr → List Expr
  | .newObject _ members => members.map (·.2)
  | e => [e]

/-- The `parts` of `c` are in the clauses of a select of `r` with `scope`. -/
def Expr.EntersAt (c : Expr) (scope : ScopeId) (r : Expr) : Prop :=
  ∀ part ∈ c.parts, ∃ u ∈ r.selects false, u.scope = scope ∧ ∃ d ∈ u.clauses false, part ∈ d.nodes

section
variable {c d r : Expr} {s u : Select}

theorem Expr.mem_nodes_of_parts {part : Expr} (h : part ∈ c.parts) : part ∈ c.nodes := by
  unfold parts at h
  split at h
  · rename_i t members
    exact mem_nodes_of_child (e := .newObject t members) h (mem_nodes_self part)
  · obtain rfl := List.mem_singleton.mp h
    exact mem_nodes_self part

theorem Expr.enters_of_clause (hu : u ∈ r.selects false) (hd : d ∈ u.clauses false)
    (hc : c ∈ d.nodes) : c.EntersAt u.scope r := by
  intro part hpart
  exact ⟨u, hu, rfl, d, hd, mem_nodes_trans (mem_nodes_of_parts hpart) hc⟩

theorem Expr.mem_selects_select (s : Select) : s ∈ (Expr.select s).selects false := by
  rw [selects_eq]
  exact Select.mem_withNested_self false s

theorem Expr.mem_selects_of_subquery (h : .subquery s ∈ r.nodes) : s ∈ r.selects false := by
  refine mem_selects_of_node h ?_
  rw [selects_eq]
  exact Select.mem_withNested_self false s

theorem Expr.mem_selects_of_input (h : u ∈ s.inputs false) : u ∈ (Expr.select s).selects false := by
  rw [selects_eq]
  show u ∈ s.withNested false
  rw [Select.withNested_eq]
  exact List.mem_cons_of_mem _
    (Select.mem_nested.mpr (.inr ⟨u, h, Select.mem_withNested_self false u⟩))

theorem Select.exists_filterBy (s : Select) (c : Expr) :
    ∃ d ∈ (s.filterBy c).clauses false, c ∈ d.nodes := by
  refine ⟨_, mem_clauses_of_filter (s := s.filterBy c) rfl, ?_⟩
  cases s.filter with
  | none => exact Expr.mem_nodes_self c
  | some existing =>
    have hchild : c ∈ (existing.and c).children := by simp [Expr.and, Expr.combine, Expr.children]
    exact Expr.mem_nodes_of_child hchild (Expr.mem_nodes_self c)

/-- The columns of a key are its `parts`. -/
theorem GroupKey.exists_column {inner part : Expr} {a b : ScopeId} (h : part ∈ inner.parts) :
    ∃ f ∈ (GroupKey.columns inner a b).1, f.expr = part := by
  unfold Expr.parts at h
  split at h
  · rename_i t members
    obtain ⟨m, hm, rfl⟩ := List.mem_map.mp h
    cases members with
    | nil => cases hm
    | cons m' members => exact ⟨⟨m.2, some m.1⟩, List.mem_map.mpr ⟨m, hm, rfl⟩, rfl⟩
  · rename_i hobject
    obtain rfl := List.mem_singleton.mp h
    unfold GroupKey.columns
    split
    · exact absurd rfl (hobject _ _)
    · split <;> exact ⟨_, List.mem_singleton_self _, rfl⟩

theorem Binding.exists_readBack {value part : Expr} (scope : ScopeId) (h : part ∈ value.parts) :
    ∃ f ∈ (readBack scope value).1, f.expr = part := by
  unfold Expr.parts at h
  split at h
  · obtain ⟨m, hm, rfl⟩ := List.mem_map.mp h
    exact ⟨⟨m.2, some m.1⟩, List.mem_map.mpr ⟨m, hm, rfl⟩, rfl⟩
  · rename_i hobject
    obtain rfl := List.mem_singleton.mp h
    unfold readBack
    split
    · exact absurd rfl (hobject _ _)
    · exact ⟨_, List.mem_singleton_self _, rfl⟩

/-- A column is in the projection of its select. -/
theorem Expr.enters_of_fields {fields : List OutputField} (hu : u ∈ r.selects false)
    (hp : u.projection = .fields fields) (hc : ∀ part ∈ c.parts, ∃ f ∈ fields, f.expr = part) :
    c.EntersAt u.scope r := by
  intro part hpart
  obtain ⟨f, hf, rfl⟩ := hc part hpart
  refine ⟨u, hu, rfl, f.expr, Select.mem_clauses_of_projection ?_, mem_nodes_self _⟩
  rw [hp]
  exact List.mem_map_of_mem hf

end

/-! ## Operators over groups -/

/-- The `GroupKey` of the groups of `source`. -/
def Select.keyOfGroups (source : Select) (inner : Expr) (scope : ScopeId) : GroupKey where
  inner := inner
  outer := (GroupKey.columns inner source.scope scope).2
  source := source
  values := .subquery (source.groupRows inner scope)

/-- `s` ranges over the groups of `source`, and may be filtered, put in order and cut. Its rows have
a key and the elements of the group. -/
structure Select.OverGroups (s source : Select) (inner : Expr) : Prop where
  source_eq : s.source = .subquery (source.groupedBy inner s.scope)
  projection : s.projection = .fields [⟨(source.keyOfGroups inner s.scope).outer, some "Key"⟩,
    ⟨(source.keyOfGroups inner s.scope).values, some "Values"⟩]
  groupKey : s.groupKey = some (source.keyOfGroups inner s.scope)

section
variable {source s s' : Select} {inner : Expr}

theorem Select.OverGroups.update (h : s.OverGroups source inner) (hrest : s' = { s with
    filter := s'.filter, orderings := s'.orderings, take := s'.take, skip := s'.skip }) :
    s'.OverGroups source inner := by
  constructor <;> rw [hrest]
  · exact h.source_eq
  · exact h.projection
  · exact h.groupKey

section
variable {bind : Expr → BindM Expr} {method : String} {t : Ty} {op : QueryOp} {args : List Expr}
  {a r c : Expr} {u : Select} {n m : Nat}

/-- The lambda `a` of an operator over groups has one parameter, whose uses are replaced by what
stands for them as `SeesGroups` says. The body is bound after that, and enters a select with the
scope in which it can be read. -/
def Binding.FillsGroups (bind : Expr → BindM Expr) (groups : Select) (key : GroupKey) (op : QueryOp)
    (a r : Expr) : Prop :=
  ∃ (p : LambdaParam) (body : Expr) (view : GroupView) (scope : ScopeId) (filled c : Expr)
    (n m : Nat), a.unquote = .lambda [p] body ∧
      SeesGroups bind groups key p.name body op view scope ∧
      body.Regroups p.name view filled ∧ Yields (bind filled) n c m ∧ c.EntersAt scope r

theorem Select.OverGroups.each (h : s.OverGroups source inner) (hop : op.aggregates = false)
    (hselect : op = .select → ∀ p body, a.unquote = .lambda [p] body → body.isMerged p.name = false)
    (hc : Yields (applyLambda bind s method a) n c m) (henters : c.EntersAt s.scope r) :
    FillsGroups bind s (source.keyOfGroups inner s.scope) op a r := by
  obtain ⟨p, body, hlambda, hbody⟩ := yields_applyLambda hc
  rw [Select.fillIn, h.groupKey] at hbody
  exact ⟨p, body, _, _, _, c, n, m, hlambda, .each hop fun heq => hselect heq p body hlambda,
    body.regroups_substituteGroup, hbody, henters⟩

/-- Operators with `aggregates` read all groups as rows. -/
theorem Select.OverGroups.rows (h : s.OverGroups source inner) (hop : op.aggregates = true)
    {k : Nat} (hs' : Yields (aggregateSource s) n s' k)
    (hc : Yields (applyLambda bind s' method a) k c m) (henters : c.EntersAt s'.scope r) :
    FillsGroups bind s (source.keyOfGroups inner s.scope) op a r := by
  obtain ⟨p, body, hlambda, hbody⟩ := yields_applyLambda hc
  rcases yields_aggregateSource hs' with ⟨-, hwindow, -⟩ | ⟨rfl, -⟩
  · -- Groups are read as a whole, whether they are cut or not.
    simp [Select.isWindowed, h.groupKey] at hwindow
  · exact ⟨p, body, _, _, _, c, k, m, hlambda, .rows ⟨n⟩ hop, body.regroups_substitute ⟨n⟩,
      hbody, henters⟩

/-- The rows that `answer?` makes something of are a part of it. -/
theorem QueryOp.mem_nodes_answer {f : Expr → Expr} (h : op.answer? t = some f) (rows : Expr) :
    rows ∈ (f rows).nodes := by
  have hself := Expr.mem_nodes_self rows
  have hitem : rows ∈ (rows.index (.int32 0)).nodes := Expr.mem_nodes_of_child (.head _) hself
  have hlast : rows ∈ (Expr.staticCall .enumerable "Last" [rows] t).nodes :=
    Expr.mem_nodes_of_child (.head _) hself
  cases op with
  | any =>
    cases h
    unfold existsTest
    split
    · exact Expr.mem_nodes_of_child (.head _) (Expr.mem_nodes_of_child (.head _) hself)
    · exact Expr.mem_nodes_of_child (.head _) hself
  | first default =>
    cases h
    cases default with
    | false => exact hitem
    | true => exact Expr.mem_nodes_of_child (.head _) hitem
  | last default =>
    cases h
    cases default with
    | false => exact hlast
    | true => exact Expr.mem_nodes_of_child (.head _) hlast
  | _ => cases h

/-- A column of `aggregated` is in the projection of the only select. -/
theorem Expr.enters_aggregated {projection : Projection} {label : String}
    (hc : c ∈ projection.exprs) : c.EntersAt s.scope (aggregated s projection label t) := by
  have hnode : .subquery
      (s.project projection).groupAll ∈ (aggregated s projection label t).nodes :=
    mem_nodes_of_child (.head _) (mem_nodes_of_child (.head _)
      (mem_nodes_of_child (.head _) (mem_nodes_self _)))
  exact enters_of_clause (u := (s.project projection).groupAll) (mem_selects_of_subquery hnode)
    (Select.mem_clauses_of_projection hc) (mem_nodes_self c)

/-- A condition is in the filter of the select. -/
theorem Expr.enters_filterBy {d : Expr} (hu : s.filterBy d ∈ r.selects false) (hc : c ∈ d.nodes) :
    c.EntersAt s.scope r := by
  obtain ⟨e, he, hd⟩ := s.exists_filterBy d
  exact enters_of_clause (u := s.filterBy d) hu he (mem_nodes_trans hc hd)

/-- A key of an order is in the order of the select. -/
theorem Expr.enters_ordering {k : SortKey} (hk : k ∈ u.orderings) :
    k.expr.EntersAt u.scope (.select u) :=
  enters_of_clause (mem_selects_select u) (Select.mem_clauses_of_ordering hk) (mem_nodes_self _)

/-- Every operator with a function `FillsGroups`. -/
theorem Binding.Performs.fillsGroups (hs : s.OverGroups source inner)
    (hvalue : op.takesValue = false) (hargs : args = [a])
    (h : Performs bind method t op (.select s) args n r m) :
    FillsGroups bind s (source.keyOfGroups inner s.scope) op a r := by
  have hself : ∀ c : Expr, c ∈ c.nodes := Expr.mem_nodes_self
  cases h with
  | filter hc =>
    cases hargs
    exact hs.each rfl nofun hc (Expr.enters_filterBy (Expr.mem_selects_select _) (hself _))
  | orderBy hc =>
    cases hargs
    rename_i descending c
    exact hs.each rfl nofun hc (Expr.enters_ordering (u := s.orderBy c descending)
      (k := ⟨c, descending⟩) (List.mem_singleton_self _))
  | thenBy hc =>
    cases hargs
    rename_i descending c
    exact hs.each rfl nofun hc (Expr.enters_ordering (u := s.thenBy c descending)
      (k := ⟨c, descending⟩) (List.mem_append_right _ (List.mem_singleton_self _)))
  | take _ | skip _ | contains _ _ | elementAt _ _ => cases hvalue
  -- Without groups only.
  | keep hkey _ | project hkey _ =>
    rw [hs.groupKey] at hkey
    cases hkey
  | @projectGroups _ _ _ _ c _ _ _ _ hlambda hmerges hc =>
    cases hargs
    refine hs.each rfl (fun _ p' body' hlambda' => ?_) hc ?_
    · rw [hlambda] at hlambda'
      cases hlambda'
      exact hmerges
    · exact Expr.enters_of_clause (u := Select.project { s with groupKey := none } (.expr c))
        (Expr.mem_selects_select _) (Select.mem_clauses_of_projection (List.mem_singleton_self c))
          (hself c)
  | @mergeGroups _ _ _ _ body merged c p _ _ _ hkey hlambda hsource hmerges hmerged hc =>
    cases hargs
    rw [hs.groupKey] at hkey
    cases hkey
    rw [hs.source_eq] at hsource
    cases hsource
    refine ⟨p, body, _, _, merged, c, _, _, hlambda, .merged hmerges,
      Expr.regroups_of_merged (Expr.isMerged_iff.mp hmerges).2 id hmerged, hc, ?_⟩
    have hu := Expr.mem_selects_of_input (s := s.readingMerged (source.groupedBy inner s.scope) c)
      (.head _)
    refine Expr.enters_of_fields (u := (source.groupedBy inner s.scope).withMerged s.scope c) hu rfl
      fun part hpart => ?_
    obtain ⟨f, hf, hpart⟩ := exists_readBack s.scope hpart
    exact ⟨f, List.mem_append_right _ hf, hpart⟩
  | groupBy hc =>
    cases hargs
    rename_i c k
    have hu := Expr.mem_selects_of_input (s := s.groups c ⟨k⟩) (.head _)
    exact hs.each rfl nofun hc (Expr.enters_of_fields (u := s.groupedBy c ⟨k⟩) hu rfl
      fun part hpart => GroupKey.exists_column hpart)
  -- Aggregates read the groups as rows: the key is not filled in for them.
  | count hs' hc =>
    rcases yields_applyOptional hc with ⟨rfl, -, -⟩ | ⟨a', c', rfl, rfl, hbody⟩
    · cases hargs
    · cases hargs
      exact hs.rows rfl hs' hbody (Expr.enters_aggregated (List.mem_singleton_self c'))
  | countItems => cases hargs
  | aggregate hkind hs' hc =>
    rcases yields_applyOptional hc with ⟨rfl, -, -⟩ | ⟨a', c', rfl, rfl, hbody⟩
    · cases hargs
    · cases hargs
      have hop : op.aggregates = true := by cases op <;> first | rfl | cases hkind
      exact hs.rows hop hs' hbody (Expr.enters_aggregated (List.mem_singleton_self c'))
  | all hc =>
    cases hargs
    rename_i c
    refine hs.each rfl nofun hc (Expr.enters_filterBy (d := c.not) ?_ ?_)
    · exact Expr.mem_selects_of_subquery (Expr.mem_nodes_of_child (.head _)
        (Expr.mem_nodes_of_child (.head _) (Expr.mem_nodes_of_child (.head _) (hself _))))
    · exact Expr.mem_nodes_of_child (.head _) (hself c)
  | answer hanswer hrows =>
    cases hrows with
    | rows => cases hargs
    | items _ => cases hargs
    | passing hc =>
      cases hargs
      have hop : op.aggregates = false := by cases op <;> first | rfl | cases hanswer
      have hselect : op ≠ .select := by rintro rfl; cases hanswer
      refine hs.each hop (absurd · hselect) hc (Expr.enters_filterBy ?_ (hself _))
      exact Expr.mem_selects_of_subquery
        (Expr.mem_nodes_of_child (.head _) (QueryOp.mem_nodes_answer hanswer _))
  | single => cases hargs
  | singleOf hc =>
    cases hargs
    rename_i c
    refine hs.each rfl nofun hc ?_
    obtain ⟨d, hd, hcd⟩ := s.exists_filterBy c
    exact Expr.enters_of_clause (u := { s.filterBy c with single := true })
      (Expr.mem_selects_select _) hd hcd

end

end

/-! ## Chains over groups -/

/-- An operator that keeps groups: a filter, an order or a cut, with any argument. -/
structure GroupStep where
  method : String
  arg : Expr
  type : Ty
  op : QueryOp
  ofMethod : QueryOp.ofMethod? method = some op
  addsClause : op.addsClause = true

/-- The groups of any source, with operators that keep them. -/
structure GroupChain where
  start : Expr
  key : Expr
  type : Ty
  steps : List GroupStep

/-- The tree of a chain. -/
def GroupChain.tree (chain : GroupChain) : Expr :=
  chain.steps.foldl (fun e step => e.followedBy step.method step.arg step.type)
    (chain.start.followedBy "GroupBy" chain.key chain.type)

theorem Expr.bindsSelect_groupBy (e key : Expr) (t : Ty) (n : Nat) :
    (e.followedBy "GroupBy" key t).BindsSelect n fun s => ∃ source inner,
      s.OverGroups source inner := by
  intro fuel r m h
  obtain ⟨fuel', op, start, rest, source, k, heq, hop, -, hperforms⟩ := yields_bindWith_call h
  cases heq
  cases hop
  generalize hargs : [key] = args at hperforms
  cases hperforms with
  | groupBy hc => exact ⟨_, rfl, _, _, ⟨rfl, rfl, rfl⟩⟩
  | aggregate hkind _ _ => cases hkind
  | answer hanswer _ => cases hanswer

theorem GroupChain.bindsSelect (chain : GroupChain) (n : Nat) :
    chain.tree.BindsSelect n fun s => ∃ source inner, s.OverGroups source inner := by
  have hsteps : ∀ (steps : List GroupStep) (e : Expr),
      (e.BindsSelect n fun s => ∃ source inner, s.OverGroups source inner) →
      (steps.foldl (fun e step => e.followedBy step.method step.arg step.type) e).BindsSelect n
        fun s => ∃ source inner, s.OverGroups source inner := by
    intro steps
    induction steps with
    | nil => exact fun e he => he
    | cons step steps ih =>
      intro e he
      refine ih _ (he.clause step.ofMethod step.addsClause ?_)
      rintro s s' ⟨source, inner, hs⟩ hrest
      exact ⟨source, inner, hs.update hrest⟩
  exact hsteps chain.steps _ (Expr.bindsSelect_groupBy chain.start chain.key chain.type n)

/-- What the variable of a lambda stands for, over the groups of a source that may be filtered, put
in order and cut. `Binding.SeesGroups` has three cases. An operator that looks at the groups one by
one has the key for the key and the elements elsewhere. A merged selector has the key of the rows
and aggregates over them, but a function of such an aggregate that uses the variable keeps it
(`Expr.FunctionsUse`). For an aggregate over all groups the variable is the row of a select that
reads them. -/
theorem group_variable_stands_for (chain : GroupChain) {method : String} {op : QueryOp} {a r : Expr}
    {t : Ty} {fuel n m : Nat} (hop : QueryOp.ofMethod? method = some op)
    (hvalue : op.takesValue = false)
    (h : Yields (bindWith fuel (chain.tree.followedBy method a t)) n r m) :
    ∃ fuel' groups source inner k, Yields (bindWith fuel' chain.tree) n (.select groups) k ∧
      groups.OverGroups source inner ∧
      FillsGroups (bindWith fuel') groups (source.keyOfGroups inner groups.scope) op a r := by
  obtain ⟨fuel', op', start, rest, bound, k, heq, hop', hbound, hperforms⟩ := yields_bindWith_call h
  cases heq
  cases hop.symm.trans hop'
  obtain ⟨groups, rfl, source, inner, hgroups⟩ := chain.bindsSelect n fuel' bound k hbound
  exact ⟨fuel', groups, source, inner, k, hbound, hgroups, hperforms.fillsGroups hgroups hvalue rfl⟩

/-- Whether `s` takes an aggregate of the rows of a select over groups, each as a whole. -/
def Select.aggregatesGroups (s : Select) : Bool :=
  match s.source, s.projection with
  | .subquery groups, .aggregation _ (.row scope _) _ => groups.groupKey.isSome && scope == s.scope
  | _, _ => false

/-- Whether the variable `x` is left in a clause of `s`. -/
def Select.mentions (s : Select) (x : String) : Bool :=
  (s.clauses false).any fun c => c.nodes.any (·.isParameter x)

namespace Sample

/-- The first two groups of posts with the same number. -/
def postsByNumber : GroupChain where
  start := .table "post" .unknown
  key := fn "p" (col "p" "x")
  type := .unknown
  steps := [⟨"Take", .int32 2, .unknown, .take, rfl, rfl⟩]

/-- The number of a group and how many posts it has. -/
def numberAndCount : Expr :=
  fn "g" (.newObject .unknown [("x", col "g" "Key"),
    ("posts", .staticCall .enumerable "Count" [var "g"] .int32)])

/-- Posts with the same number. -/
def groupedPosts : Expr := on (rows "post") "GroupBy" [fn "p" (col "p" "x")]

/-- The posts of all groups. -/
def allGrouped : Expr := on groupedPosts "SelectMany" [fn "g" (var "g")]

/-- The number of a group, added up over its posts. -/
def summedKeys : Expr :=
  on groupedPosts "Select"
    [fn "g" (.staticCall .enumerable "Sum" [var "g", fn "q" (col "g" "Key")] .unknown)]

end Sample

section
open Sample

theorem group_variable_stands_for_postsByNumber :
    QueryOp.ofMethod? "Select" = some .select ∧ QueryOp.select.takesValue = false ∧ ∃ r m,
      Yields (bindWith 4 (postsByNumber.tree.followedBy "Select" numberAndCount .unknown)) 0 r m ∧
      ∃ fuel groups source inner k, Yields (bindWith fuel postsByNumber.tree) 0 (.select groups) k ∧
        groups.OverGroups source inner ∧
        FillsGroups (bindWith fuel) groups (source.keyOfGroups inner groups.scope) .select
          numberAndCount r := by
  have hrun :
      (((bindWith 4 (postsByNumber.tree.followedBy "Select" numberAndCount .unknown)).run.run 0).1
        |>.toOption.isSome) = true := by
    decide +kernel
  obtain ⟨r, m, hr⟩ := BindM.exists_yields hrun
  exact ⟨rfl, rfl, r, m, hr, group_variable_stands_for postsByNumber rfl rfl hr⟩

/-- In `allGrouped` the elements of all groups are asked for, and what is flattened are the groups
with their keys. In the other tree the key of a group is asked for in a function of its elements,
and the variable is left there. -/
theorem group_variable_misread :
    (allGrouped.Written ∧ ∃ tree params bound n,
      Yields allGrouped.nameCaptures (.empty .standard) tree params ∧ Yields tree.bind 0 bound n ∧
        ∃ s ∈ bound.selects false, s.aggregatesGroups = true) ∧
    summedKeys.Written ∧ ∃ tree params bound n,
      Yields summedKeys.nameCaptures (.empty .standard) tree params ∧ Yields tree.bind 0 bound n ∧
        ∃ s ∈ bound.selects false, s.mentions "g" = true := by
  have hrows : allGrouped.bindsTo .standard
      (fun b => (b.selects false).any Select.aggregatesGroups) = true := by
    decide +kernel
  have hkeys : summedKeys.bindsTo .standard
      (fun b => (b.selects false).any (·.mentions "g")) = true := by
    decide +kernel
  obtain ⟨tree, params, bound, n, hname, hbind, hany⟩ := Expr.exists_of_bindsTo hrows
  obtain ⟨tree', params', bound', n', hname', hbind', hany'⟩ := Expr.exists_of_bindsTo hkeys
  exact ⟨⟨by decide +kernel, tree, params, bound, n, hname, hbind, List.any_eq_true.mp hany⟩,
    by decide +kernel, tree', params', bound', n', hname', hbind', List.any_eq_true.mp hany'⟩

end

end QueryTree
