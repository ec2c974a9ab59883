import QueryTree.Proofs.Clauses
import QueryTree.Proofs.Composed
import QueryTree.Proofs.Filled

/-!
# Bound trees

Bound expressions in which nothing is left to bind and whose selects are `Select.Proper`, with
scopes from a known set. The clauses of a select can be changed as long as its scope is not inside
of what is put in.
-/

namespace QueryTree

/-- The scope of `s` is its own: no select inside it has the same, and all its clauses are bound. A
select over groups reads the grouped select, and the key over the grouped rows does not contain the
query that was grouped. -/
structure Select.Proper (s : Select) : Prop where
  inside : ∀ u ∈ s.nested true, u.scope ≠ s.scope
  bare : ∀ c ∈ s.clauses true, c.Bare
  grouped : ∀ key, s.groupKey = some key → ∃ g, s.source = .subquery g ∧
    g.scope = key.source.scope ∧ ∀ u ∈ key.inner.selects true, u.scope ≠ g.scope

/-- A bound expression whose selects have scopes in `K`. -/
structure Expr.Settled (K : ScopeId → Prop) (e : Expr) : Prop where
  bare : e.Bare
  selects : ∀ u ∈ e.selects true, u.Proper ∧ K u.scope

/-- A bound select; it and what is inside it have scopes in `K`. -/
def Select.Settled (K : ScopeId → Prop) (s : Select) : Prop :=
  ∀ u ∈ s.withNested true, u.Proper ∧ K u.scope

section
variable {K K' : ScopeId → Prop} {e : Expr} {s s' : Select}

theorem Expr.Settled.mono (h : e.Settled K) (hK : ∀ c, K c → K' c) : e.Settled K' :=
  ⟨h.bare, fun u hu => (h.selects u hu).imp id (hK _)⟩

theorem Select.Settled.mono (h : s.Settled K) (hK : ∀ c, K c → K' c) : s.Settled K' :=
  fun u hu => (h u hu).imp id (hK _)

theorem Select.Settled.proper (h : s.Settled K) : s.Proper := (h s (s.mem_withNested_self true)).1

theorem Select.Settled.scope (h : s.Settled K) : K s.scope := (h s (s.mem_withNested_self true)).2

theorem Expr.Settled.select (h : e.Settled K) (he : e.select? = some s) : s.Settled K := by
  intro u hu
  refine h.selects u ?_
  rw [Expr.selects_eq, he]
  exact hu

theorem Select.Settled.expr (h : s.Settled K) (he : e.select? = some s) : e.Settled K := by
  refine ⟨?_, fun u hu => ?_⟩
  · rw [Expr.bare_iff]
    cases e <;> simp only [Expr.select?, reduceCtorEq] at he <;>
      exact ⟨fun k => by cases k <;> rfl, fun c hc => by cases hc⟩
  · rw [Expr.selects_eq, he] at hu
    exact h u hu

/-- A node is `Settled` if its children are. -/
theorem Expr.Settled.node (hk : ∀ k : Mark, k.of e = false) (hq : e.select? = none)
    (h : ∀ c ∈ e.children, c.Settled K) : e.Settled K := by
  refine ⟨Expr.bare_iff.mpr ⟨hk, fun c hc => (h c hc).bare⟩, fun u hu => ?_⟩
  rw [Expr.selects_eq, hq] at hu
  obtain ⟨c, hc, hu⟩ := List.mem_flatMap.mp hu
  exact (h c hc).selects u hu

theorem Expr.Settled.of_node {n : Expr} (h : e.Settled K) (hn : n ∈ e.nodes) : n.Settled K :=
  ⟨h.bare.of_node hn, fun u hu => h.selects u (Expr.mem_selects_of_node hn hu)⟩

theorem Expr.Settled.child {c : Expr} (h : e.Settled K) (hc : c ∈ e.children) : c.Settled K :=
  h.of_node (Expr.mem_nodes_of_child hc (Expr.mem_nodes_self c))

theorem Expr.Settled.inherited : Expr.Inherited (Expr.Settled K) where
  toComposed := .of_node fun hk hq _ _ _ h => .node hk hq h
  member_of_object h _ hm := h.child (List.mem_map_of_mem hm)

/-- A clause of `s` does not have the scope of `s` inside. -/
theorem Select.Settled.clause {c : Expr} (h : s.Settled K) (hc : c ∈ s.clauses true) :
    c.Settled fun a => K a ∧ a ≠ s.scope := by
  refine ⟨h.proper.bare c hc, fun u hu => ?_⟩
  have hn : u ∈ s.nested true := Select.mem_nested.mpr (.inl ⟨c, hc, hu⟩)
  have hk := h u (by rw [Select.withNested_eq]; exact List.mem_cons_of_mem _ hn)
  exact ⟨hk.1, hk.2, h.proper.inside u hn⟩

/-- What `s` reads does not have the scope of `s`. -/
theorem Select.Settled.input {v : Select} (h : s.Settled K) (hv : v ∈ s.inputs true) :
    v.Settled fun a => K a ∧ a ≠ s.scope := by
  intro u hu
  have hn : u ∈ s.nested true := Select.mem_nested.mpr (.inr ⟨v, hv, hu⟩)
  have hk := h u (by rw [Select.withNested_eq]; exact List.mem_cons_of_mem _ hn)
  exact ⟨hk.1, hk.2, h.proper.inside u hn⟩

/-- A select is `Settled` if its parts are and have other scopes. -/
theorem Select.Settled.of_parts (hscope : K s.scope)
    (hclauses : ∀ c ∈ s.clauses true, c.Settled fun a => K a ∧ a ≠ s.scope)
    (hinputs : ∀ v ∈ s.inputs true, v.Settled fun a => K a ∧ a ≠ s.scope)
    (hgrouped : ∀ key, s.groupKey = some key → ∃ g, s.source = .subquery g ∧
      g.scope = key.source.scope ∧ ∀ u ∈ key.inner.selects true, u.scope ≠ g.scope) :
    s.Settled K := by
  have hnested : ∀ u ∈ s.nested true, u.Proper ∧ K u.scope ∧ u.scope ≠ s.scope := by
    intro u hu
    rcases Select.mem_nested.mp hu with ⟨c, hc, hu⟩ | ⟨v, hv, hu⟩
    · exact (hclauses c hc).selects u hu
    · exact hinputs v hv u hu
  intro u hu
  rw [Select.withNested_eq, List.mem_cons] at hu
  rcases hu with rfl | hu
  · exact ⟨⟨fun w hw => (hnested w hw).2.2, fun c hc => (hclauses c hc).bare, hgrouped⟩, hscope⟩
  · exact ⟨(hnested u hu).1, (hnested u hu).2.1⟩

/-- A `Settled` select can get new clauses that do not have its scope inside. -/
theorem Select.Settled.update (h : s.Settled K) (hscope : s'.scope = s.scope)
    (hclauses : ∀ c ∈ s'.clauses true, c ∈ s.clauses true ∨ c.Settled fun a => K a ∧ a ≠ s.scope)
    (hsource : s'.source = s.source) (hkey : s'.groupKey = none ∨ s'.groupKey = s.groupKey) :
    s'.Settled K := by
  refine .of_parts (hscope ▸ h.scope) (fun c hc => ?_) (fun v hv => ?_) fun key hk => ?_
  · rw [hscope]
    exact (hclauses c hc).elim h.clause id
  · rw [hscope]
    exact h.input (Select.mem_inputs_of_update hsource hkey hv)
  · rcases hkey with hkey | hkey
    · rw [hkey] at hk
      cases hk
    · rw [hsource]
      exact h.proper.grouped key (hkey ▸ hk)

/-! ## Clauses -/

section
variable {c : Expr}

theorem Select.Settled.amendable (h : s.Settled K) :
    s.Amendable true (·.Settled fun a => K a ∧ a ≠ s.scope) (·.Settled K) :=
  fun _ _ _ _ _ hclauses => h.update rfl hclauses rfl (.inr rfl)

theorem Select.Settled.filterBy (h : s.Settled K) (hc : c.Settled fun a => K a ∧ a ≠ s.scope) :
    (s.filterBy c).Settled K :=
  h.amendable.filterBy hc fun _ hd => Expr.Settled.inherited.binary (h.clause hd) hc

theorem Select.Settled.project {p : Projection} (h : s.Settled K)
    (hp : ∀ c ∈ p.exprs, c.Settled fun a => K a ∧ a ≠ s.scope) : (s.project p).Settled K :=
  h.update rfl (fun d hd => (Select.mem_clauses_project hd).imp id (hp d)) rfl (.inr rfl)

theorem Select.Settled.groupAll (h : s.Settled K) : s.groupAll.Settled K :=
  h.update rfl (fun _ hd => .inl (Select.mem_clauses_groupAll hd)) rfl (.inr rfl)

end

/-- A new select over a `Settled` one. -/
theorem Select.Settled.ofSelect {scope : ScopeId} (h : s.Settled K) (hK : K scope)
    (hnew : ∀ u ∈ s.withNested true, u.scope ≠ scope) : (Select.ofSelect scope s).Settled K := by
  refine .of_parts hK (fun c hc => ?_) (fun v hv => ?_) fun key hk => by cases hk
  · rw [Select.clauses_ofSelect] at hc
    cases hc
  · rw [Select.inputs_ofSelect, List.mem_singleton] at hv
    subst hv
    exact fun u hu => ⟨(h u hu).1, (h u hu).2, hnew u hu⟩

theorem Select.Settled.ofTable {scope : ScopeId} {name : String} {element : Ty} (hK : K scope) :
    (Select.ofTable scope name element).Settled K := by
  refine .of_parts hK (fun c hc => ?_) (fun v hv => ?_) fun key hk => by cases hk
  · rw [Select.clauses_ofTable] at hc
    cases hc
  · rw [Select.inputs_ofTable] at hv
    cases hv

/-! ## Rows -/

/-- What a variable over the rows of `s` is filled in with. -/
def Select.rowExprs (s : Select) : List Expr :=
  match s.groupKey with
  | some key => [key.outer, key.values]
  | none => [s.rowValue]

/-- What is in the rows of `s` is inside `s`. -/
theorem Select.mem_nested_of_rowExprs (s : Select) {v : Expr} {u : Select} (hv : v ∈ s.rowExprs)
    (hu : u ∈ v.selects true) : u ∈ s.nested true := by
  unfold rowExprs at hv
  split at hv
  · rename_i key hk
    refine mem_nested.mpr (.inl ⟨v, mem_clauses_of_groupKey hk ?_, hu⟩)
    simp only [List.mem_cons, List.not_mem_nil, or_false] at hv
    rcases hv with rfl | rfl <;> simp [GroupKey.exprs]
  · obtain rfl := List.mem_singleton.mp hv
    refine mem_nested.mpr (.inl ?_)
    rcases s.rowValue_cases with hc | ⟨members, hobject, hc⟩ | ⟨t, hrow⟩
    · exact ⟨_, mem_clauses_of_projection hc, hu⟩
    · rw [hobject, Expr.objectOf, Expr.selects_eq] at hu
      simp only [Expr.select?, Expr.children, List.mem_flatMap, List.mem_map] at hu
      obtain ⟨c, ⟨m, hm, rfl⟩, hu⟩ := hu
      exact ⟨m.2, mem_clauses_of_projection (hc m hm), hu⟩
    · rw [hrow] at hu
      cases hu

theorem Select.Settled.rowValue (h : s.Settled K) :
    s.rowValue.Settled fun a => K a ∧ a ≠ s.scope := by
  rcases s.rowValue_cases with hc | ⟨members, hobject, hc⟩ | ⟨t, hrow⟩
  · exact h.clause (Select.mem_clauses_of_projection hc)
  · rw [hobject]
    exact Expr.Settled.inherited.object fun m hm =>
      h.clause (Select.mem_clauses_of_projection (hc m hm))
  · rw [hrow]
    exact Expr.Settled.inherited.row trivial

theorem Select.Settled.rowExprs (h : s.Settled K) {v : Expr} (hv : v ∈ s.rowExprs) :
    v.Settled fun a => K a ∧ a ≠ s.scope := by
  unfold Select.rowExprs at hv
  split at hv
  · rename_i key hk
    refine h.clause (Select.mem_clauses_of_groupKey hk ?_)
    simp only [List.mem_cons, List.not_mem_nil, or_false] at hv
    rcases hv with rfl | rfl <;> simp [GroupKey.exprs]
  · obtain rfl := List.mem_singleton.mp hv
    exact h.rowValue

end

end QueryTree
