import QueryTree.Proofs.Throughout

/-!
# Rows inside their selects

`Expr.Grounded` says of what binding makes that nothing is left to bind and that every row is inside
of a select with its scope, given the scopes around. What a select over groups remembers is put
somewhere later: the key over the grouped rows inside the grouped select, all else inside the
select over the groups.
-/

namespace QueryTree

mutual

/-- A bound expression that can stand inside selects with the scopes `around`. -/
inductive Expr.Grounded : List ScopeId → Expr → Prop
  | mk {around : List ScopeId} {e : Expr} (bare : ∀ k : Mark, k.of e = false)
    (row : ∀ scope t, e = .row scope t → scope ∈ around)
    (child : ∀ c ∈ e.children, Expr.Grounded around c)
    (select : ∀ s, e.select? = some s → Select.Grounded around s) : Expr.Grounded around e

/-- A bound select that can stand inside selects with the scopes `around`. A select over groups
reads the grouped select, which has the scope of what was grouped. -/
inductive Select.Grounded : List ScopeId → Select → Prop
  | mk {around : List ScopeId} {s : Select}
    (clause : ∀ c ∈ s.clauses false, Expr.Grounded (s.scope :: around) c)
    (input : ∀ v ∈ s.inputs false, Select.Grounded (s.scope :: around) v)
    (linked : ∀ key, s.groupKey = some key →
      ∃ grouped, s.source = .subquery grouped ∧ grouped.scope = key.source.scope)
    (inner : ∀ key, s.groupKey = some key →
      Expr.Grounded (key.source.scope :: s.scope :: around) key.inner)
    (outer : ∀ key, s.groupKey = some key → Expr.Grounded (s.scope :: around) key.outer)
    (values : ∀ key, s.groupKey = some key → Expr.Grounded (s.scope :: around) key.values)
    (grouped : ∀ key, s.groupKey = some key → Select.Grounded (s.scope :: around) key.source) :
    Select.Grounded around s

end

section
variable {around inside : List ScopeId} {e c : Expr} {s s' v : Select} {key : GroupKey}

/-! ## One level at a time -/

namespace Expr.Grounded

theorem marks (h : e.Grounded around) (k : Mark) : k.of e = false := by
  obtain ⟨hk, -, -, -⟩ := h
  exact hk k

theorem row {scope : ScopeId} {t : Ty} (h : (Expr.row scope t).Grounded around) :
    scope ∈ around := by
  obtain ⟨-, hrow, -, -⟩ := h
  exact hrow scope t rfl

theorem child (h : e.Grounded around) (hc : c ∈ e.children) : c.Grounded around := by
  obtain ⟨-, -, hchild, -⟩ := h
  exact hchild c hc

theorem select (h : e.Grounded around) (hs : e.select? = some s) : s.Grounded around := by
  obtain ⟨-, -, -, hselect⟩ := h
  exact hselect s hs

/-- `Grounded` expressions are `Bare`. -/
theorem bare (h : e.Grounded around) : e.Bare := by
  induction e using Expr.childrenInduction with
  | step e ih => exact Expr.bare_iff.mpr ⟨h.marks, fun c hc => ih c hc (h.child hc)⟩

end Expr.Grounded

namespace Select.Grounded

theorem clause (h : s.Grounded around) (hc : c ∈ s.clauses false) :
    c.Grounded (s.scope :: around) := by
  obtain ⟨hclause, -, -, -, -, -, -⟩ := h
  exact hclause c hc

theorem input (h : s.Grounded around) (hv : v ∈ s.inputs false) :
    v.Grounded (s.scope :: around) := by
  obtain ⟨-, hinput, -, -, -, -, -⟩ := h
  exact hinput v hv

theorem linked (h : s.Grounded around) (hk : s.groupKey = some key) :
    ∃ grouped, s.source = .subquery grouped ∧ grouped.scope = key.source.scope := by
  obtain ⟨-, -, hlinked, -, -, -, -⟩ := h
  exact hlinked key hk

theorem inner (h : s.Grounded around) (hk : s.groupKey = some key) :
    key.inner.Grounded (key.source.scope :: s.scope :: around) := by
  obtain ⟨-, -, -, hinner, -, -, -⟩ := h
  exact hinner key hk

theorem outer (h : s.Grounded around) (hk : s.groupKey = some key) :
    key.outer.Grounded (s.scope :: around) := by
  obtain ⟨-, -, -, -, houter, -, -⟩ := h
  exact houter key hk

theorem values (h : s.Grounded around) (hk : s.groupKey = some key) :
    key.values.Grounded (s.scope :: around) := by
  obtain ⟨-, -, -, -, -, hvalues, -⟩ := h
  exact hvalues key hk

theorem grouped (h : s.Grounded around) (hk : s.groupKey = some key) :
    key.source.Grounded (s.scope :: around) := by
  obtain ⟨-, -, -, -, -, -, hgrouped⟩ := h
  exact hgrouped key hk

theorem of_parts (hkey : s.groupKey = none)
    (hc : ∀ c ∈ s.clauses false, c.Grounded (s.scope :: around))
    (hv : ∀ v ∈ s.inputs false, v.Grounded (s.scope :: around)) : s.Grounded around := by
  refine .mk hc hv ?_ ?_ ?_ ?_ ?_
  all_goals
    intro key hk
    rw [hkey] at hk
    cases hk

theorem expr (h : s.Grounded around) (he : e.select? = some s) : e.Grounded around := by
  cases e <;> simp only [Expr.select?, reduceCtorEq] at he
  all_goals
    refine .mk (fun k => by cases k <;> rfl) (by rintro _ _ ⟨⟩) (fun c hc => by cases hc)
      fun u hu => ?_
    cases hu
    cases he
    exact h

end Select.Grounded

/-! ## More selects around -/

/-- What is `Grounded` somewhere is so further in. -/
theorem grounded_mono :
    (∀ e : Expr, ∀ {around inside : List ScopeId}, around ⊆ inside → e.Grounded around →
      e.Grounded inside) ∧
      ∀ s : Select, ∀ {around inside : List ScopeId}, around ⊆ inside → s.Grounded around →
        s.Grounded inside := by
  apply deepInduction
  · intro e hc hs around inside hsub h
    refine .mk h.marks ?_ (fun c hce => hc c hce hsub (h.child hce)) fun s hes =>
      hs s hes hsub (h.select hes)
    rintro scope t rfl
    exact hsub h.row
  · intro s hc hi around inside hsub h
    have hsub' : s.scope :: around ⊆ s.scope :: inside := List.cons_subset_cons _ hsub
    have hkey : ∀ key, s.groupKey = some key → ∀ c ∈ key.exprs, c ∈ s.clauses true :=
      fun key hk c hce => Select.mem_clauses_of_groupKey hk hce
    refine .mk (fun c hcs => hc c (s.clauses_subset hcs) hsub' (h.clause hcs))
      (fun v hv => hi v (s.inputs_subset hv) hsub' (h.input hv)) (fun key hk => h.linked hk)
      (fun key hk => ?_) (fun key hk => ?_) (fun key hk => ?_) fun key hk => ?_
    -- The key over the grouped rows is under one select more than the rest.
    · exact hc _ (hkey key hk _ (by simp [GroupKey.exprs])) (List.cons_subset_cons _ hsub')
        (h.inner hk)
    · exact hc _ (hkey key hk _ (by simp [GroupKey.exprs])) hsub' (h.outer hk)
    · exact hc _ (hkey key hk _ (by simp [GroupKey.exprs])) hsub' (h.values hk)
    · exact hi _ (by simp [Select.inputs, hk]) hsub' (h.grouped hk)

theorem Expr.Grounded.mono (h : e.Grounded around) (hsub : around ⊆ inside) : e.Grounded inside :=
  grounded_mono.1 e hsub h

theorem Select.Grounded.mono (h : s.Grounded around) (hsub : around ⊆ inside) : s.Grounded inside :=
  grounded_mono.2 s hsub h

theorem Expr.Grounded.under (h : e.Grounded around) (scope : ScopeId) :
    e.Grounded (scope :: around) :=
  h.mono (List.subset_cons_self _ _)

theorem Select.Grounded.under (h : s.Grounded around) (scope : ScopeId) :
    s.Grounded (scope :: around) :=
  h.mono (List.subset_cons_self _ _)

theorem Expr.Grounded.inherited : Expr.Inherited (Expr.Grounded around) (· ∈ around) where
  toComposed := .of_node fun hk hq _ hrow _ hc => .mk hk hrow hc fun s hs => by
    rw [hq] at hs
    cases hs
  member_of_object h _ hm := h.child (List.mem_map_of_mem hm)

/-! ## Clauses -/

namespace Select.Grounded

theorem update (h : s.Grounded around) (hscope : s'.scope = s.scope)
    (hclauses : ∀ c ∈ s'.clauses false, c ∈ s.clauses false ∨ c.Grounded (s.scope :: around))
    (hsource : s'.source = s.source) (hkey : s'.groupKey = s.groupKey) : s'.Grounded around := by
  have hinputs : s'.inputs false = s.inputs false := by simp only [inputs, hsource, cond_false]
  refine .mk ?_ ?_ ?_ ?_ ?_ ?_ ?_
  · rw [hscope]
    exact fun c hc => (hclauses c hc).elim h.clause id
  · rw [hinputs, hscope]
    exact fun v hv => h.input hv
  -- What is remembered of the groups is the same; only the names of source and scope are rewritten.
  all_goals
    rw [hkey]
    intro key hk
  · rw [hsource]
    exact h.linked hk
  · rw [hscope]
    exact h.inner hk
  · rw [hscope]
    exact h.outer hk
  · rw [hscope]
    exact h.values hk
  · rw [hscope]
    exact h.grouped hk

theorem ungroup (h : s.Grounded around) : Select.Grounded around { s with groupKey := none } := by
  refine .of_parts rfl (fun c hc => h.clause ?_) fun v hv => h.input ?_
  · exact hc
  · exact hv

theorem amendable (h : s.Grounded around) :
    s.Amendable false (·.Grounded (s.scope :: around)) (·.Grounded around) :=
  fun _ _ _ _ _ hclauses => h.update rfl hclauses rfl rfl

theorem filterBy (h : s.Grounded around) (hc : c.Grounded (s.scope :: around)) :
    (s.filterBy c).Grounded around :=
  h.amendable.filterBy hc fun _ hd => Expr.Grounded.inherited.binary (h.clause hd) hc

theorem project {p : Projection} (h : s.Grounded around)
    (hp : ∀ c ∈ p.exprs, c.Grounded (s.scope :: around)) : (s.project p).Grounded around :=
  h.update rfl (fun d hd => (mem_clauses_project hd).imp id (hp d)) rfl rfl

theorem ofTable {scope : ScopeId} {name : String} {element : Ty} :
    (Select.ofTable scope name element).Grounded around := by
  refine .of_parts rfl (fun c hc => ?_) fun v hv => ?_
  · rw [clauses_ofTable] at hc
    cases hc
  · rw [inputs_ofTable] at hv
    cases hv

theorem ofSelect (h : s.Grounded around) (scope : ScopeId) :
    (Select.ofSelect scope s).Grounded around := by
  refine .of_parts rfl (fun c hc => ?_) fun v hv => ?_
  · rw [clauses_ofSelect] at hc
    cases hc
  · rw [inputs_ofSelect, List.mem_singleton] at hv
    subst hv
    exact h.under scope

/-- An `aggregated` select, and the value that is read from its only row. -/
theorem aggregated {p : Projection} {label : String} {t : Ty} (h : s.Grounded around)
    (hp : ∀ c ∈ p.exprs, c.Grounded (s.scope :: around)) :
    (Binding.aggregated s p label t).Grounded around := by
  have hgrouped : (s.project p).groupAll.Grounded around :=
    (h.project hp).update rfl (fun d hd => .inl (mem_clauses_groupAll hd)) rfl rfl
  exact Expr.Grounded.inherited.onlyRowMember (hgrouped.expr rfl)

theorem rowValue (h : s.Grounded around) : s.rowValue.Grounded (s.scope :: around) := by
  rcases s.rowValue_cases with hc | ⟨members, hobject, hc⟩ | ⟨t, hrow⟩
  · exact h.clause (mem_clauses_of_projection hc)
  · rw [hobject]
    exact Expr.Grounded.inherited.object fun m hm => h.clause (mem_clauses_of_projection (hc m hm))
  · rw [hrow]
    exact Expr.Grounded.inherited.row List.mem_cons_self

/-! ## Groups -/

theorem groupedBy {inner : Expr} {scope : ScopeId} (h : s.Grounded around)
    (hi : inner.Grounded (s.scope :: around)) : (s.groupedBy inner scope).Grounded around := by
  have hfields := Expr.Grounded.inherited.columns_fields s.scope scope hi
  refine h.update rfl (fun d hd => ?_) rfl rfl
  rcases mem_clauses_groupedBy hd with hd | ⟨f, hf, rfl⟩ | hd
  · exact .inl hd
  · exact .inr (hfields f hf)
  · exact .inr (Expr.Grounded.inherited.terms List.mem_cons_self hfields d hd)

/-- In `groups`, the key over the grouped rows is inside the grouped select, and the key of the
group inside the select over the groups. -/
theorem groups {inner : Expr} (h : s.Grounded around) (hi : inner.Grounded (s.scope :: around))
    (scope : ScopeId) : (s.groups inner scope).Grounded around := by
  have houter : (GroupKey.columns inner s.scope scope).2.Grounded (scope :: around) :=
    Expr.Grounded.inherited.columns s.scope List.mem_cons_self inner
  have hinner : inner.Grounded (s.scope :: scope :: around) :=
    hi.mono (List.cons_subset_cons _ (List.subset_cons_self _ _))
  -- The rows of a group are a query on the source inside the select over the groups, so that
  -- both keys can stand in its condition.
  have hvalues : (Expr.subquery (s.groupRows inner scope)).Grounded (scope :: around) :=
    ((h.under scope).filterBy (Expr.Grounded.inherited.equality hinner (houter.under _))).expr rfl
  refine .mk (fun d hd => ?_) (fun v hv => ?_) ?_ ?_ ?_ ?_ ?_
  · have hd' : d = (GroupKey.columns inner s.scope scope).2 ∨
        d = .subquery (s.groupRows inner scope) := by
      simpa [clauses, Select.groups, Select.project, Select.ofSelect, Select.ofSource,
        Projection.exprs] using hd
    rcases hd' with rfl | rfl
    · exact houter
    · exact hvalues
  · obtain rfl : v = s.groupedBy inner scope := by
      simpa [inputs, Select.groups, Select.project, Select.ofSelect, Select.ofSource,
        RowSource.select?] using hv
    exact (h.groupedBy hi).under scope
  all_goals
    intro key hk
    cases hk
  · exact ⟨_, rfl, rfl⟩
  · exact hinner
  · exact houter
  · exact hvalues
  · exact h.under scope

/-- `readingMerged` reads a merged selector back from the grouped select. -/
theorem readingMerged {grouped : Select} {value : Expr} (h : s.Grounded around)
    (hsource : s.source = .subquery grouped)
    (hv : value.Grounded (grouped.scope :: s.scope :: around)) :
    (s.readingMerged grouped value).Grounded around := by
  have hfields := Expr.Grounded.inherited.readBack_fields s.scope hv
  refine .of_parts rfl (fun d hd => ?_) fun v hv => ?_
  · rcases mem_clauses_readingMerged hd with hd | rfl
    · exact h.clause hd
    · exact Expr.Grounded.inherited.toComposed.readBack List.mem_cons_self value
  · rw [inputs_readingMerged, List.mem_singleton] at hv
    subst hv
    have hgrouped : grouped.Grounded (s.scope :: around) :=
      h.input (by simp [inputs, hsource, RowSource.select?])
    refine hgrouped.update rfl (fun d hd => ?_) rfl rfl
    rcases mem_clauses_withMerged hd with hd | ⟨f, hf, rfl⟩
    · exact .inl hd
    · exact .inr (hfields f hf)

end Select.Grounded

end

end QueryTree
