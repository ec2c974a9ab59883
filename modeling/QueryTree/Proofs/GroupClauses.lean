import QueryTree.Proofs.Hygiene
import QueryTree.Proofs.Outline
import QueryTree.Proofs.Preservation

/-!
# The clauses of grouped selects

Grouping drops the order of its source and an aggregate reads a cut select as a whole, but an order
stays on the select of an aggregate and a cut on a grouped select. If the `Outline` of each query
allows what is taken of it, no grouped select of the bound tree has an order or a cut
(`Expr.GroupsUnorderedUncut`).
-/

namespace QueryTree

open Binding

/-- Binding gives `ClausesAllowed` expressions, of which at least as much is known as before. -/
def BindsClausesAllowed (π : Allowance) (bind : Expr → BindM Expr) : Prop :=
  ∀ e n r m, e.OperatorsAllowed π → Yields (bind e) n r m → r.ClausesAllowed π ∧
    r.outline π.held ≤ e.outline π.held

section
variable {π : Allowance} {bind : Expr → BindM Expr} {op : QueryOp} {method : String} {t : Ty}
  {source r c a : Expr} {args : List Expr} {s s' : Select} {o : Outline} {n m k : Nat}

/-! ## Clauses -/

theorem Select.ClausesAllowedAt.of_ungrouped (hgroup : s.group = none)
    (hrows : ∀ e, s.projection = .expr e → e.outline π.held ≤ π.held)
    (hkey : ∀ k, s.groupKey = some k → ∀ e ∈ k.exprs, e.outline π.held ≤ π.held) :
    s.ClausesAllowedAt π where
  all h := by
    rw [hgroup] at h
    cases h
  keys ks h := by
    rw [hgroup] at h
    cases h
  rows := hrows
  key := hkey

theorem Select.ClausesAllowed.filterBy (h : s.ClausesAllowed π) (hc : c.ClausesAllowed π) :
    (s.filterBy c).ClausesAllowed π := by
  obtain ⟨hall, hkeys, hrows, hkey⟩ := h.self
  exact Expr.ClausesAllowed.pervasive.filterBy h hc ⟨hall, hkeys, hrows, hkey⟩

/-- An ungrouped select that is `ClausesAllowed` can be given any clauses. -/
theorem Select.ClausesAllowed.amendable (h : s.ClausesAllowed π) (hgroup : s.group = none) :
    s.Amendable true (·.ClausesAllowed π) (·.ClausesAllowed π) := fun _ _ _ _ _ hclauses =>
  Expr.ClausesAllowed.pervasive.update h (.of_ungrouped hgroup h.self.rows h.self.key)
    hclauses rfl (.inr rfl)

theorem Select.ClausesAllowed.projectExpr (h : s.ClausesAllowed π) (hgroup : s.group = none)
    (hc : c.ClausesAllowed π) (hout : c.outline π.held ≤ π.held) :
    (s.project (.expr c)).ClausesAllowed π := by
  refine Expr.ClausesAllowed.pervasive.project h (fun d hd => ?_)
    (.of_ungrouped hgroup (fun e he => ?_) h.self.key)
  · obtain rfl := List.mem_singleton.mp hd
    exact hc
  · cases he
    exact hout

theorem Select.ClausesAllowed.ungroup (h : s.ClausesAllowed π) (hgroup : s.group = none) :
    Select.ClausesAllowed π { s with groupKey := none } :=
  Expr.ClausesAllowed.pervasive.update h (.of_ungrouped hgroup h.self.rows nofun)
    (fun _ hd => .inl (Select.clauses_without_key hd)) rfl (.inl rfl)

/-! ## Lambdas -/

theorem Select.ClausesAllowed.outline_rowValue (h : s.ClausesAllowed π) :
    s.rowValue.outline π.held ≤ π.held := by
  unfold Select.rowValue
  split
  · rename_i e hp
    exact h.self.rows e hp
  · exact Outline.noQuery_le _
  · exact Outline.noQuery_le _

theorem Expr.bodyOutline_eq {v : Outline} {ps : List LambdaParam} {body : Expr}
    (h : a.unquote = .lambda ps body) : a.bodyOutline v = body.outline v := by
  unfold Expr.bodyOutline
  rw [h]

theorem BindsClausesAllowed.filled (hbind : BindsClausesAllowed π bind) {ps : List LambdaParam}
    {body x : Expr} (hbody : a.unquote = .lambda ps body) (ha : a.OperatorsAllowed π)
    (hx : Expr.Refines π body x) (h : Yields (bind x) n c m) :
    c.ClausesAllowed π ∧ c.outline π.held ≤ a.bodyOutline π.held := by
  have hoperators : body.OperatorsAllowed π := ha.of_node (Expr.body_mem_nodes hbody)
  obtain ⟨hbound, hle⟩ := hbind _ _ _ _ (hx.operatorsAllowed hoperators) h
  rw [Expr.bodyOutline_eq hbody]
  exact ⟨hbound, le_trans hle hx.outline⟩

theorem Select.ClausesAllowed.refines_group (hs : s.ClausesAllowed π) {key : GroupKey}
    (hk : s.groupKey = some key) (body : Expr) (x : String) :
    Expr.Refines π body (body.substituteGroup x key) :=
  .substituteGroup (fun _ hv => Expr.ClausesAllowed.pervasive.keyExpr hs hk hv) (hs.self.key key hk)

/-- A lambda for the rows of `s` gives what is known of its body. -/
theorem BindsClausesAllowed.applyLambda (hbind : BindsClausesAllowed π bind)
    (hs : s.ClausesAllowed π) (ha : a.OperatorsAllowed π)
    (h : Yields (applyLambda bind s method a) n c m) :
    c.ClausesAllowed π ∧ c.outline π.held ≤ a.bodyOutline π.held := by
  obtain ⟨p, body, hbody, hrest⟩ := yields_applyLambda h
  unfold Select.fillIn at hrest
  cases hk : s.groupKey with
  | none =>
    rw [hk] at hrest
    refine hbind.filled hbody ha (.substitute ?_ hs.outline_rowValue) hrest
    exact Expr.ClausesAllowed.pervasive.rowValue hs
  | some key =>
    rw [hk] at hrest
    exact hbind.filled hbody ha (hs.refines_group hk body p.name) hrest

/-! ## Aggregates -/

/-- The `aggregateSource` is not cut, and has no order unless `π` allows that. -/
theorem Select.ClausesAllowed.aggregateSource (hs : s.ClausesAllowed π) (hout : Outline.of s ≤ o)
    (hallowed : QueryOp.count.allowed π o = true) (h : Yields (aggregateSource s) n s' m) :
    s'.ClausesAllowed π ∧ s'.isCut = false ∧ (π.ordered = true ∨ s'.orderings = []) := by
  rcases yields_aggregateSource h with ⟨rfl, hwindow, rfl⟩ | ⟨rfl, -, rfl⟩
  · obtain ⟨hcut, hkey⟩ := Bool.or_eq_false_iff.mp hwindow
    refine ⟨hs, hcut, ?_⟩
    -- The select is neither cut nor over groups, so it is its order that is known.
    simp only [QueryOp.allowed, Bool.or_eq_true, Bool.not_eq_true'] at hallowed
    rcases hallowed with ((hordered | hordered) | hsurely) | hgroups
    · exact .inl hordered
    · right
      by_contra hne
      have hmay := hout.1 (by simpa [Outline.of] using hne)
      rw [hordered] at hmay
      cases hmay
    · have hyes : s'.isCut = true := hout.2.2.1 hsurely
      rw [show s'.isCut = false from hcut] at hyes
      cases hyes
    · have hyes : s'.groupKey.isSome = true := hout.2.2.2 hgroups
      rw [hkey] at hyes
      cases hyes
  · refine ⟨Expr.ClausesAllowed.pervasive.ofSelect hs ?_, rfl, .inr rfl⟩
    exact .of_ungrouped rfl nofun nofun

theorem Select.ClausesAllowed.aggregated {p : Projection} {label : String} (hs : s.ClausesAllowed π)
    (hcut : s.isCut = false) (horder : π.ordered = true ∨ s.orderings = [])
    (hp : ∀ c ∈ p.exprs, c.ClausesAllowed π) (hrow : ∀ e, p ≠ .expr e) :
    (aggregated s p label t).ClausesAllowed π := by
  have hat : (s.project p).groupAll.ClausesAllowedAt π :=
    { all := fun _ => ⟨hcut, horder⟩
      keys := nofun
      rows := fun e he => absurd he (hrow e)
      key := hs.self.key }
  have hgrouped : (s.project p).groupAll.ClausesAllowed π := by
    refine Expr.ClausesAllowed.pervasive.update hs hat (fun d hd => ?_) rfl (.inr rfl)
    exact (Select.mem_clauses_project (Select.mem_clauses_groupAll hd)).imp id (hp d)
  exact Expr.ClausesAllowed.pervasive.onlyRowMember hgrouped.subquery

/-! ## Groups -/

/-- `groups` keeps the cut of its source, if there is one, and drops the order. -/
theorem Select.ClausesAllowed.groups (hs : s.ClausesAllowed π) (hc : c.ClausesAllowed π)
    (hout : c.outline π.held ≤ π.held) (hcut : π.cut = true ∨ s.isCut = false) (scope : ScopeId) :
    (s.groups c scope).ClausesAllowed π := by
  have hgrouped : (s.groupedBy c scope).ClausesAllowedAt π :=
    { all := nofun
      keys := fun _ _ => ⟨rfl, hcut⟩
      rows := nofun
      key := hs.self.key }
  have hrows : (s.groupRows c scope).ClausesAllowedAt π := by
    obtain ⟨hall, hkeys, hrows, hkey⟩ := hs.self
    exact ⟨hall, hkeys, hrows, hkey⟩
  refine Expr.ClausesAllowed.pervasive.groups hs hc (.of_ungrouped rfl nofun ?_) hgrouped hrows
    ⟨rfl, rfl⟩
  intro key hkey e he
  cases hkey
  simp only [GroupKey.exprs, List.mem_cons, List.not_mem_nil, or_false] at he
  rcases he with rfl | rfl | rfl
  · exact hout
  · exact Expr.outline_composed.columns s.scope trivial c
  · exact Outline.noQuery_le _

/-- `readingMerged` keeps the grouped select as it was. -/
theorem Select.ClausesAllowed.readingMerged {grouped : Select} (hs : s.ClausesAllowed π)
    (hgroup : s.group = none) (hsource : s.source = .subquery grouped) (hc : c.ClausesAllowed π) :
    (s.readingMerged grouped c).ClausesAllowed π := by
  have hgrouped : grouped.ClausesAllowedAt π :=
    Select.Throughout.self (Select.Throughout.input hs (v := grouped)
      (by simp [Select.inputs, hsource, RowSource.select?]))
  refine Expr.ClausesAllowed.pervasive.readingMerged hs hsource hc
    (.of_ungrouped hgroup (fun e he => ?_) fun k hk => by cases hk)
    ⟨hgrouped.all, hgrouped.keys, (fun e he => by cases he), hgrouped.key⟩
  cases he
  exact Expr.outline_composed.readBack trivial c

theorem BindsClausesAllowed.aggregatedValue (hbind : BindsClausesAllowed π bind) {key : GroupKey}
    (hs : key.source.ClausesAllowed π) {kind : AggregateKind} {arg value : Option Expr}
    (ha : ∀ a ∈ arg.toList, a.OperatorsAllowed π)
    (h : Yields (aggregatedValue bind key method kind arg) n value m) :
    ∀ c ∈ value.toList, c.ClausesAllowed π := by
  refine forall_mem_aggregatedValue h (Expr.ClausesAllowed.pervasive.rowValue hs) ?_
  exact fun a hmem c hc => (hbind.applyLambda hs (ha a hmem) hc).1

/-- `mergeNode` fills in the key and the aggregates of a group. -/
theorem BindsClausesAllowed.merged (hbind : BindsClausesAllowed π bind) {key : GroupKey}
    (hs : s.ClausesAllowed π) (hk : s.groupKey = some key) {x : String} {body : Expr}
    (hbody : body.OperatorsAllowed π) (h : Yields (body.replaceM (mergeNode bind x key)) n r m) :
    Expr.Refines π body r := by
  refine yields_replaceM (T := fun e _ r _ => e.OperatorsAllowed π → Expr.Refines π e r)
    ?_ ?_ h hbody
  · intro e n r m hr he
    rcases yields_mergeNode hr with ⟨hkey, heq, -⟩ |
      ⟨kind, method, rest, t, value, hagg, hvalue, heq⟩ | ⟨heq, -⟩ | ⟨heq, -⟩
    · cases heq
      have hinner : key.inner ∈ key.exprs := by simp [GroupKey.exprs]
      exact .groupKey hkey (Expr.ClausesAllowed.pervasive.keyExpr hs hk hinner)
        (hs.self.key key hk _ hinner)
    · cases heq
      obtain ⟨group, rfl, -⟩ := Expr.aggregateOf?_eq_some hagg
      have hrest : ∀ a ∈ rest.head?.toList, a.OperatorsAllowed π := by
        intro a ha
        apply he.child
        rw [Option.mem_toList] at ha
        simp [Expr.children, List.mem_of_mem_head? ha]
      have hvalues := hbind.aggregatedValue (Expr.ClausesAllowed.pervasive.keySource hs hk)
        hrest hvalue
      exact .value (Expr.ClausesAllowed.pervasive.groupAggregate trivial hvalues)
        (Outline.noQuery_le _) (by rintro _ _ ⟨⟩)
    · cases heq
      exact .refl _
    · cases heq
  -- A node that stays is known as well as its children are.
  · intro e n k cs m _ hcs he
    have hkids := hcs.imp fun c hc _ c' _ hrefines =>
      show Expr.Refines π c c' from hrefines (he.child hc)
    exact .node hkids.forall₂

/-! ## Operators -/

/-- What `π` asks of the parts of an operator. -/
def Allowance.invariant (π : Allowance) : Invariant Unit where
  result _ e := e.ClausesAllowed π
  query _ s := s.ClausesAllowed π ∧ s.group = none
  base _ s := (s.ClausesAllowed π ∧ s.group = none) ∧ s.isCut = false ∧
    (π.ordered = true ∨ s.orderings = [])
  clause _ op c := c.ClausesAllowed π ∧ (op.hasValues = true → c.outline π.held ≤ π.held)
  argument _ op a := a.OperatorsAllowed π ∧ (op.hasValues = true → a.bodyOutline π.held ≤ π.held)
  allowed op source _ _ := op.allowed π (source.outline π.held) = true

theorem BindsClausesAllowed.preserved (hbind : BindsClausesAllowed π bind) :
    π.invariant.Preserved .blank bind where
  result_mono _ h := h
  query_mono _ h := h
  base_mono _ h := h
  argument_mono _ h := h
  assembled _ := Expr.ClausesAllowed.pervasive.toAssembled
  select {_ s} (h : (Expr.select s).ClausesAllowed π) := ⟨h.select rfl, h.group_eq_none⟩
  expr {_ s e} (h : s.ClausesAllowed π ∧ s.group = none) he := by
    cases e <;> cases he
    · exact h.1.select h.2
    · exact h.1.subquery
  apply _ _ hs ha h := by
    obtain ⟨hbound, hle⟩ := hbind.applyLambda hs.1 ha.1 h
    exact .blank ⟨hbound, fun hv => le_trans hle (ha.2 hv)⟩
  amount {_ op _ _ _ _} hadds _ _ ha h := by
    refine .blank ⟨(hbind _ _ _ _ ha.1 h).1, fun hv => ?_⟩
    cases op <;> cases hadds <;> cases hv
  value _ _ ha h := .blank (hbind _ _ _ _ ha.1 h).1
  amendable _ h _ _ _ _ _ hclauses :=
    ⟨h.1.amendable h.2 _ _ _ _ _ fun d hd => (hclauses d hd).imp id And.left, h.2⟩
  filterBy h hc := ⟨h.1.filterBy hc.1, h.2⟩
  not h := ⟨Expr.ClausesAllowed.pervasive.not h.1, nofun⟩
  project h hc := ⟨h.1.projectExpr h.2 hc.1 (hc.2 rfl), h.2⟩
  ungroup h := ⟨h.1.ungroup h.2, h.2⟩
  merge _ hs ha hkey hbody hgrouped _ hmerged hc _ := by
    have hmerged := hbind.merged hs.1 hkey (ha.1.of_node (Expr.body_mem_nodes hbody)) hmerged
    have hbound := (hbind.filled hbody ha.1 hmerged hc).1
    exact .blank ⟨hs.1.readingMerged hs.2 hgrouped hbound, hs.2⟩
  groups {_ s _ _ _} _ hs hc hop := by
    -- That the source is not cut is known of the tree, and so holds of the select.
    have hcut : π.cut = true ∨ s.isCut = false := by
      simpa [Allowance.invariant, QueryOp.allowed, Expr.outline, Outline.of] using hop
    exact .blank ⟨hs.1.groups hc.1 (hc.2 rfl) hcut _, rfl⟩
  aggregateSource {_ s _ op _ _ _ _} _ hs hop hallowed h := by
    have hcount : QueryOp.count.allowed π ((Expr.select s).outline π.held) = true := by
      rcases hop with ⟨rfl, -⟩ | hsome
      · exact hallowed
      · cases op <;> first | exact hallowed | cases hsome
    obtain ⟨hbound, hcut, horder⟩ := hs.1.aggregateSource (le_refl _) hcount h
    refine .blank ⟨⟨hbound, ?_⟩, hcut, horder⟩
    rcases yields_aggregateSource h with ⟨rfl, -⟩ | ⟨rfl, -⟩
    · exact hs.2
    · rfl
  query_of_base h := h.1
  rowValue {_ _ op} hsome h := by
    refine ⟨Expr.ClausesAllowed.pervasive.rowValue h.1.1, fun hv => ?_⟩
    cases op <;> cases hsome <;> cases hv
  aggregated h hp hc := by
    refine h.1.1.aggregated h.2.1 h.2.2 (fun c hmem => (hc c hmem).1) ?_
    rintro e rfl
    cases hp
  counted _ hs hallowed h := by
    obtain ⟨hbound, hcut, horder⟩ := hs.1.aggregateSource (le_refl _) hallowed h
    refine .blank (hbound.aggregated hcut horder (List.forall_mem_nil _) ?_)
    rintro e ⟨⟩

/-- `Outline.after` is what is known of what an operator gives. -/
theorem Binding.Performs.outline_le {v : Outline}
    (h : Performs bind method t op source args n r m) :
    r.outline v ≤ (source.outline v).after op := by
  cases h with
  | filter _ => exact le_refl _
  | orderBy _ | thenBy _ => exact ⟨fun _ => rfl, id, id, id⟩
  | take _ | skip _ | single | singleOf _ =>
    exact ⟨id, fun _ => rfl, fun _ => by simp [Expr.outline, Outline.of, Select.isCut], id⟩
  | keep _ _ | project _ _ | projectGroups _ _ _ _ | mergeGroups _ _ _ _ _ _ =>
    exact ⟨id, id, id, fun h => (Bool.false_ne_true h).elim⟩
  | groupBy _ => exact le_refl _
  | _ => exact Outline.noQuery_le _

/-! ## Trees -/

theorem BindsClausesAllowed.call (hbind : BindsClausesAllowed π bind)
    (he : (Expr.call .queryable method none args t).OperatorsAllowed π)
    (h : Yields (bindCall bind method args t) n r m) :
    r.ClausesAllowed π ∧ r.outline π.held ≤ (Expr.call .queryable method none args t).outline
      π.held := by
  obtain ⟨op, start, rest, source, k, rfl, hop, hsource, hperforms⟩ := yields_bindCall h
  obtain ⟨hbound, hle⟩ := hbind _ _ _ _ (he.child (by simp [Expr.children])) hsource
  have hself := (he _ (Expr.mem_nodes_self _)).1
  simp only [Expr.operatorAllowed, hop, Option.all_some, Bool.and_eq_true, Bool.or_eq_true,
    Bool.not_eq_true', List.all_eq_true, decide_eq_true_eq] at hself
  simp only [Expr.outline, hop]
  have hargs : ∀ a ∈ rest, π.invariant.argument () op a := by
    refine fun a ha => ⟨he.child (by simp [Expr.children, ha]), fun hv => ?_⟩
    rw [hv] at hself
    exact hself.2.resolve_left (by simp) a ha
  obtain ⟨_, -, -, hr⟩ :=
    hbind.preserved.performs trivial hbound hargs (QueryOp.allowed_of_le hle hself.1) hperforms
  exact ⟨hr, le_trans hperforms.outline_le (Outline.after_mono hle op)⟩

theorem BindsClausesAllowed.replaceM (hbind : BindsClausesAllowed π bind) :
    BindsClausesAllowed π fun e => e.replaceM (bindNode bind) := by
  intro e n r m he h
  refine yields_replaceM (T := fun e _ r _ => e.OperatorsAllowed π →
    r.ClausesAllowed π ∧ r.outline π.held ≤ e.outline π.held) ?_ ?_ h he
  · intro e n r m h he
    rcases yields_bindNode_some h with
      ⟨name, element, rfl, rfl, -⟩ | ⟨method, args, t, rfl, hcall⟩
    · refine ⟨Select.ClausesAllowed.select (Expr.ClausesAllowed.pervasive.ofTable ?_)
        rfl, le_refl _⟩
      exact .of_ungrouped rfl nofun nofun
    · exact hbind.call he hcall
  · intro e n k cs m hnone hcs he
    obtain ⟨-, hmark, -⟩ := yields_bindNode_none hnone
    have hkids := (hcs.imp fun c hc _ c' _ hbound =>
      show c'.ClausesAllowed π from (hbound (he.child hc)).1).forall₂
    have hself := he e (Expr.mem_nodes_self e)
    have hlen := hkids.length_eq.symm
    rw [Expr.outline_withChildren hmark hlen]
    refine ⟨.of_parts ⟨?_, ?_⟩ (fun c' hc' => ?_) fun s hs => ?_, le_refl _⟩
    · rw [Expr.operatorAllowed_withChildren hmark]
      exact hself.1
    · rw [Expr.of_withChildren, hmark]
    · rw [Expr.children_withChildren hlen] at hc'
      obtain ⟨c, -, hbound⟩ := List.exists_of_forall₂_right hkids hc'
      exact hbound
    · rw [Expr.select?_withChildren] at hs
      exact hself.2 s hs

theorem bindsClausesAllowed_bindWith (fuel : Nat) : BindsClausesAllowed π (bindWith fuel) := by
  induction fuel with
  | zero => exact fun e n r m _ h => absurd h BindM.yields_throw
  | succ fuel ih => exact ih.replaceM

/-! ## From the tree a caller makes -/

theorem Expr.ClausesAllowed.leaf (hmark : Mark.operator.of r = false) (hs : r.select? = none)
    (hc : r.children = []) : r.ClausesAllowed π := by
  refine .of_parts ⟨operatorAllowed_of_mark hmark hs, hmark⟩ (fun c h => ?_) fun s h => ?_
  · rw [hc] at h
    cases h
  · rw [hs] at h
    cases h

/-- `nameCaptures` makes a table of a source, of which the same is known; a captured value is no
query. -/
theorem refines_nameCaptures {tree : Expr} {params params' : Params}
    (h : Yields source.nameCaptures params tree params') : Expr.Refines π source tree := by
  refine yields_replaceM (T := fun e _ r _ => Expr.Refines π e r) ?_ ?_ h
  · intro e p r p' hr
    rcases nameNode_some hr with ⟨s, rfl, -, rfl | ⟨x, t, rfl⟩⟩ | ⟨x, v, t, name, rfl, rfl, -⟩
    all_goals exact .value (.leaf rfl rfl rfl) (le_refl _) (by rintro _ _ ⟨⟩)
  · intro e p u cs p' _ hcs
    exact .node hcs.forall₂

theorem Expr.Written.operatorsAllowed (hw : source.Written)
    (h : ∀ e ∈ source.nodes, e.operatorAllowed π = true) : source.OperatorsAllowed π := by
  intro e he
  refine ⟨h e he, fun s hs => ?_⟩
  rw [select?_eq_none_of_isWritten (hw e he)] at hs
  cases hs

theorem Expr.operatorAllowed_all (hw : r.isWritten = true) : r.operatorAllowed .all = true := by
  unfold operatorAllowed
  split
  · rw [Option.all_eq_true]
    intro op _
    rw [Bool.and_eq_true, Bool.or_eq_true, List.all_eq_true]
    refine ⟨?_, .inr fun a _ => decide_eq_true (Outline.le_unknown _)⟩
    cases op <;> rfl
  · cases hw
  · rfl

end

/-- Where variables stand for queries with the outline `held`, aggregates are taken of queries
without an order, or of ones that are read as a whole, and groups of queries that are not cut. -/
def Expr.GroupsUnorderedUncut (held : Outline) (e : Expr) : Prop :=
  ∀ n ∈ e.nodes, n.operatorAllowed (.strict held) = true

instance (held : Outline) (e : Expr) : Decidable (e.GroupsUnorderedUncut held) :=
  inferInstanceAs (Decidable (∀ n ∈ e.nodes, _))

/-- A select that groups all rows is never cut, and one that groups by keys has no order. If every
aggregate of `t` is taken of a query without an order, or of one that is cut, and every group of a
query that is not cut, then a grouped select has neither. -/
theorem grouped_selects_clauses {o : Options} {t tree bound : Expr} {params : Params} {n : Nat}
    (hw : t.Written) (hname : Yields t.nameCaptures (.empty o) tree params)
    (hbind : Yields tree.bind 0 bound n) :
    (∀ s ∈ bound.selects true,
      (s.group = some .all → s.take = none ∧ s.skip = none ∧ s.single = false) ∧
        ∀ keys, s.group = some (.keys keys) → s.orderings = []) ∧
      ∀ held, t.GroupsUnorderedUncut held → ∀ s ∈ bound.selects true, s.group.isSome = true →
        s.orderings = [] ∧ s.take = none ∧ s.skip = none ∧ s.single = false := by
  -- Both parts are one statement, for different allowances: everything, and what
  -- `GroupsUnorderedUncut` says.
  have hbound : ∀ π : Allowance, (∀ e ∈ t.nodes, e.operatorAllowed π = true) →
      ∀ s ∈ bound.selects true, s.ClausesAllowedAt π := by
    intro π hπ s hs
    have hoperators := (refines_nameCaptures hname).operatorsAllowed (hw.operatorsAllowed hπ)
    exact ((bindsClausesAllowed_bindWith _ tree 0 bound n hoperators hbind).1.selects s hs).1
  have hcut : ∀ s : Select, s.isCut = false → s.take = none ∧ s.skip = none ∧ s.single = false := by
    intro s h
    simpa [Select.isCut, and_assoc] using h
  constructor
  · intro s hs
    have hat := hbound .all (fun e he => Expr.operatorAllowed_all (hw e he)) s hs
    exact ⟨fun hall => hcut s (hat.all hall).1, fun keys hkeys => (hat.keys keys hkeys).1⟩
  · intro held hstrict s hs hgroup
    have hat := hbound (.strict held) hstrict s hs
    obtain ⟨group, hgroup⟩ := Option.isSome_iff_exists.mp hgroup
    cases group with
    | all =>
      obtain ⟨hwhole, horder⟩ := hat.all hgroup
      exact ⟨horder.resolve_left nofun, hcut s hwhole⟩
    | keys keys =>
      obtain ⟨horder, hwhole⟩ := hat.keys keys hgroup
      exact ⟨horder, hcut s (hwhole.resolve_left nofun)⟩

namespace Sample

/-- The users with the same age, of those whose five newest posts have a number. -/
def usersByAge : Expr :=
  on (on (rows "user")
    "Where" [fn "u" ((on (on (on (rows "post") "OrderByDescending" [fn "p" (col "p" "time")])
      "Take" [.int32 5]) "Count" []).eq (col "u" "posts"))])
    "GroupBy" [fn "u" (col "u" "age")]

/-- The number of posts, counted in an order. -/
def countInOrder : Expr := on (on (rows "post") "OrderBy" [fn "p" (col "p" "x")]) "Count" []

/-- The first five posts by a column. -/
def firstPostsBy : Expr :=
  on (on (rows "post") "Take" [.int32 5]) "GroupBy" [fn "p" (col "p" "x")]

end Sample

section
open Sample

theorem grouped_selects_clauses_usersByAge :
    usersByAge.Written ∧ usersByAge.GroupsUnorderedUncut .noQuery ∧ ∃ tree params bound n,
      Yields usersByAge.nameCaptures (.empty .standard) tree params ∧ Yields tree.bind 0 bound n ∧
        2 ≤ ((bound.selects true).filter (·.group.isSome)).length ∧
        ∀ s ∈ bound.selects true, s.group.isSome = true →
          s.orderings = [] ∧ s.take = none ∧ s.skip = none ∧ s.single = false := by
  have hw : usersByAge.Written := by decide +kernel
  have hstrict : usersByAge.GroupsUnorderedUncut .noQuery := by decide +kernel
  have hrun : usersByAge.bindsTo .standard (fun b =>
      decide (2 ≤ ((b.selects true).filter (·.group.isSome)).length)) = true := by
    decide +kernel
  obtain ⟨tree, params, bound, n, hname, hbind, hlen⟩ := Expr.exists_of_bindsTo hrun
  exact ⟨hw, hstrict, tree, params, bound, n, hname, hbind, by simpa using hlen,
    (grouped_selects_clauses hw hname hbind).2 .noQuery hstrict⟩

/-- An order stays on the select of an aggregate, and a cut on a select that groups by keys. -/
theorem grouped_selects_keep_clauses :
    (countInOrder.Written ∧ ∃ tree params bound n,
      Yields countInOrder.nameCaptures (.empty .standard) tree params ∧ Yields tree.bind 0 bound n ∧
        ∃ s ∈ bound.selects false, s.group.isSome = true ∧ s.orderings ≠ []) ∧
      firstPostsBy.Written ∧ ∃ tree params bound n,
        Yields firstPostsBy.nameCaptures (.empty .standard) tree params ∧
          Yields tree.bind 0 bound n ∧
          ∃ s ∈ bound.selects false, s.group.isSome = true ∧ s.take ≠ none := by
  have hordered : countInOrder.bindsTo .standard (fun b => (b.selects false).any fun s =>
      s.group.isSome && !s.orderings.isEmpty) = true := by
    decide +kernel
  have hcut : firstPostsBy.bindsTo .standard (fun b => (b.selects false).any fun s =>
      s.group.isSome && s.take.isSome) = true := by
    decide +kernel
  constructor
  · obtain ⟨tree, params, bound, n, hname, hbind, hany⟩ := Expr.exists_of_bindsTo hordered
    refine ⟨by decide +kernel, tree, params, bound, n, hname, hbind, ?_⟩
    simpa using hany
  · obtain ⟨tree, params, bound, n, hname, hbind, hany⟩ := Expr.exists_of_bindsTo hcut
    refine ⟨by decide +kernel, tree, params, bound, n, hname, hbind, ?_⟩
    simpa [Option.isSome_iff_ne_none] using hany

end

end QueryTree
