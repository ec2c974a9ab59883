import QueryTree.Proofs.Settled

/-!
# Properties at any depth

A property of nodes and one of selects can hold `Throughout` an expression: of all nodes and selects
in it, and of those in their clauses, however deep. To show it one level is enough.
-/

namespace QueryTree

/-- All nodes satisfy `A` and all selects `B`, also inside selects and of what they remember. -/
structure Expr.Throughout (A : Expr → Prop) (B : Select → Prop) (e : Expr) : Prop where
  nodes : ∀ n ∈ e.nodes, A n
  selects : ∀ u ∈ e.selects true, B u ∧ ∀ c ∈ u.clauses true, ∀ n ∈ c.nodes, A n

/-- All selects satisfy `B` and all nodes in their clauses `A`, also inside other selects. -/
def Select.Throughout (A : Expr → Prop) (B : Select → Prop) (s : Select) : Prop :=
  ∀ u ∈ s.withNested true, B u ∧ ∀ c ∈ u.clauses true, ∀ n ∈ c.nodes, A n

section
variable {A : Expr → Prop} {B : Select → Prop} {e c : Expr} {s s' v : Select}

/-! ## One level at a time -/

theorem Expr.Throughout.child (h : e.Throughout A B) (hc : c ∈ e.children) : c.Throughout A B where
  nodes n hn := h.nodes n (mem_nodes_of_child hc hn)
  selects u hu := h.selects u (mem_selects_of_child hc hu)

theorem Expr.Throughout.of_node {n : Expr} (h : e.Throughout A B) (hn : n ∈ e.nodes) :
    n.Throughout A B where
  nodes m hm := h.nodes m (mem_nodes_trans hm hn)
  selects u hu := h.selects u (mem_selects_of_node hn hu)

theorem Expr.Throughout.select (h : e.Throughout A B) (hs : e.select? = some s) :
    s.Throughout A B := by
  intro u hu
  apply h.selects
  rw [selects_eq, hs]
  exact hu

theorem Expr.Throughout.imp {A' : Expr → Prop} {B' : Select → Prop} (h : e.Throughout A B)
    (hA : ∀ n, A n → A' n) (hB : ∀ s, B s → B' s) : e.Throughout A' B' where
  nodes n hn := hA n (h.nodes n hn)
  selects u hu := ⟨hB u (h.selects u hu).1, fun c hc n hn => hA n ((h.selects u hu).2 c hc n hn)⟩

theorem Expr.Throughout.of_parts (he : A e) (hc : ∀ c ∈ e.children, c.Throughout A B)
    (hs : ∀ s, e.select? = some s → s.Throughout A B) : e.Throughout A B where
  nodes n hn := by
    rcases mem_nodes_iff.mp hn with rfl | ⟨c, hce, hn⟩
    · exact he
    · exact (hc c hce).nodes n hn
  selects u hu := by
    rw [selects_eq] at hu
    cases hq : e.select? with
    | some s =>
      rw [hq] at hu
      exact hs s hq u hu
    | none =>
      rw [hq] at hu
      obtain ⟨c, hce, hu⟩ := List.mem_flatMap.mp hu
      exact (hc c hce).selects u hu

namespace Select.Throughout

theorem imp {A' : Expr → Prop} {B' : Select → Prop} (h : s.Throughout A B) (hA : ∀ n, A n → A' n)
    (hB : ∀ s, B s → B' s) : s.Throughout A' B' :=
  fun u hu => ⟨hB u (h u hu).1, fun c hc n hn => hA n ((h u hu).2 c hc n hn)⟩

theorem self (h : s.Throughout A B) : B s := (h s (s.mem_withNested_self true)).1

theorem clause (h : s.Throughout A B) (hc : c ∈ s.clauses true) : c.Throughout A B where
  nodes := (h s (s.mem_withNested_self true)).2 c hc
  selects u hu := by
    apply h
    rw [withNested_eq]
    exact List.mem_cons_of_mem _ (mem_nested.mpr (.inl ⟨c, hc, hu⟩))

theorem input (h : s.Throughout A B) (hv : v ∈ s.inputs true) : v.Throughout A B := by
  intro u hu
  apply h
  rw [withNested_eq]
  exact List.mem_cons_of_mem _ (mem_nested.mpr (.inr ⟨v, hv, hu⟩))

theorem of_parts (hs : B s) (hc : ∀ c ∈ s.clauses true, c.Throughout A B)
    (hv : ∀ v ∈ s.inputs true, v.Throughout A B) : s.Throughout A B := by
  intro u hu
  rw [withNested_eq, List.mem_cons] at hu
  rcases hu with rfl | hu
  · exact ⟨hs, fun c hcu => (hc c hcu).nodes⟩
  · rcases mem_nested.mp hu with ⟨c, hcs, hu⟩ | ⟨v, hvs, hu⟩
    · exact (hc c hcs).selects u hu
    · exact hv v hvs u hu

theorem expr (h : s.Throughout A B) (he : e.select? = some s) (hA : A e) : e.Throughout A B := by
  refine .of_parts hA (fun c hc => ?_) fun u hu => ?_
  · cases e <;> simp [Expr.select?, Expr.children] at he hc
  · rw [he] at hu
    cases hu
    exact h

end Select.Throughout

end

/-! ## Properties of selects -/

/-- `P` is of expressions and `Q` of selects. A select has `Q` if it has `B` by itself and its
clauses and the selects that it reads have theirs. -/
structure Layered (P : Expr → Prop) (B Q : Select → Prop) : Prop where
  of_parts : ∀ {s : Select}, B s → (∀ c ∈ s.clauses true, P c) → (∀ v ∈ s.inputs true, Q v) → Q s
  clause : ∀ {s : Select} {c : Expr}, Q s → c ∈ s.clauses true → P c
  input : ∀ {s v : Select}, Q s → v ∈ s.inputs true → Q v

/-- Also, expressions inherit `P` from their parts; one that is a select has `P` if it has `A` by
itself. -/
structure Pervasive (A P : Expr → Prop) (B Q : Select → Prop) : Prop extends Expr.Inherited P,
    Layered P B Q where
  expr : ∀ {e : Expr} {s : Select}, Q s → e.select? = some s → A e → P e

/-- What holds of every node that is nothing special, and is not lost on the way down, is
`Pervasive`. -/
theorem Expr.Throughout.pervasive {A : Expr → Prop} {B : Select → Prop}
    (hA : ∀ e : Expr, (∀ k : Mark, k.of e = false) → e.select? = none →
      (∀ y, e.isParameter y = false) → A e) :
    Pervasive A (Expr.Throughout A B) B (Select.Throughout A B) where
  toComposed := .of_node fun {e} hk hq hp _ _ hc =>
    .of_parts (hA e hk hq hp) hc fun s hs => by rw [hq] at hs; cases hs
  member_of_object h _ hm := h.child (List.mem_map_of_mem hm)
  of_parts := .of_parts
  clause h := h.clause
  input h := h.input
  expr h := h.expr

namespace Layered

section
variable {P : Expr → Prop} {B Q : Select → Prop} {s s' : Select}

theorem update (hP : Layered P B Q) (h : Q s) (hself : B s')
    (hclauses : ∀ c ∈ s'.clauses true, c ∈ s.clauses true ∨ P c) (hsource : s'.source = s.source)
    (hkey : s'.groupKey = none ∨ s'.groupKey = s.groupKey) : Q s' := by
  refine hP.of_parts hself (fun c hc => (hclauses c hc).elim (hP.clause h) id) fun v hv => ?_
  exact hP.input h (Select.mem_inputs_of_update hsource hkey hv)

theorem ofTable (hP : Layered P B Q) {scope : ScopeId} {name : String} {element : Ty}
    (hself : B (Select.ofTable scope name element)) : Q (Select.ofTable scope name element) := by
  refine hP.of_parts hself (fun c hc => ?_) fun v hv => ?_
  · rw [Select.clauses_ofTable] at hc
    cases hc
  · rw [Select.inputs_ofTable] at hv
    cases hv

theorem ofSelect (hP : Layered P B Q) {scope : ScopeId} (h : Q s)
    (hself : B (Select.ofSelect scope s)) : Q (Select.ofSelect scope s) := by
  refine hP.of_parts hself (fun c hc => ?_) fun v hv => ?_
  · rw [Select.clauses_ofSelect] at hc
    cases hc
  · rw [Select.inputs_ofSelect, List.mem_singleton] at hv
    subst hv
    exact h

theorem keyExpr (hP : Layered P B Q) {key : GroupKey} (h : Q s) (hk : s.groupKey = some key)
    {v : Expr} (hv : v ∈ key.exprs) : P v :=
  hP.clause h (Select.mem_clauses_of_groupKey hk hv)

theorem keySource (hP : Layered P B Q) {key : GroupKey} (h : Q s) (hk : s.groupKey = some key) :
    Q key.source :=
  hP.input h (by simp [Select.inputs, hk])

end

end Layered

namespace Pervasive

section
variable {A P : Expr → Prop} {B Q : Select → Prop} {c : Expr} {s : Select}

/-! ## Clauses -/

theorem filterBy (hP : Pervasive A P B Q) (h : Q s) (hc : P c) (hself : B (s.filterBy c)) :
    Q (s.filterBy c) := by
  refine hP.update h hself (fun d hd => ?_) rfl (.inr rfl)
  refine (Select.mem_clauses_filterBy hd).imp id fun hd => ?_
  rcases Select.filter_filterBy hd with ⟨-, rfl⟩ | ⟨existing, hf, rfl⟩
  · exact hc
  · exact hP.binary (hP.clause h (Select.mem_clauses_of_filter hf)) hc

theorem project (hP : Pervasive A P B Q) {p : Projection} (h : Q s) (hp : ∀ c ∈ p.exprs, P c)
    (hself : B (s.project p)) : Q (s.project p) :=
  hP.update h hself (fun d hd => (Select.mem_clauses_project hd).imp id (hp d)) rfl (.inr rfl)

/-! ## Groups -/

theorem groupedBy (hP : Pervasive A P B Q) {inner : Expr} {scope : ScopeId} (h : Q s) (hi : P inner)
    (hself : B (s.groupedBy inner scope)) : Q (s.groupedBy inner scope) := by
  have hfields := hP.columns_fields s.scope scope hi
  refine hP.update h hself (fun d hd => ?_) rfl (.inr rfl)
  rcases Select.mem_clauses_groupedBy hd with hd | ⟨f, hf, rfl⟩ | hd
  · exact .inl hd
  · exact .inr (hfields f hf)
  · exact .inr (hP.terms trivial hfields d hd)

/-- The select over groups, if it, the grouped select and an array of rows have `B` or `A` on their
own. -/
theorem groups (hP : Pervasive A P B Q) {inner : Expr} {scope : ScopeId} (h : Q s) (hi : P inner)
    (hself : B (s.groups inner scope)) (hgrouped : B (s.groupedBy inner scope))
    (hrows : B (s.groupRows inner scope)) (hvalues : A (.subquery (s.groupRows inner scope))) :
    Q (s.groups inner scope) := by
  have houter : P (GroupKey.columns inner s.scope scope).2 := hP.columns s.scope trivial inner
  refine hP.of_parts hself (fun d hd => ?_) fun v hv => ?_
  · rcases Select.mem_clauses_groups hd with rfl | rfl | rfl
    · exact hi
    · exact houter
    · exact hP.expr (hP.filterBy h (hP.equality hi houter) hrows) rfl hvalues
  · rw [Select.inputs_groups] at hv
    rcases List.mem_cons.mp hv with rfl | hv
    · exact hP.groupedBy h hi hgrouped
    · obtain rfl := List.mem_singleton.mp hv
      exact h

/-- The select that reads a merged selector back. -/
theorem readingMerged (hP : Pervasive A P B Q) {grouped : Select} {value : Expr} (h : Q s)
    (hsource : s.source = .subquery grouped) (hv : P value)
    (hself : B (s.readingMerged grouped value)) (hmerged : B (grouped.withMerged s.scope value)) :
    Q (s.readingMerged grouped value) := by
  have hfields := hP.readBack_fields s.scope hv
  refine hP.of_parts hself (fun d hd => ?_) fun v hv => ?_
  · rcases Select.mem_clauses_readingMerged hd with hd | rfl
    · exact hP.clause h hd
    · exact hP.toComposed.readBack trivial value
  · rw [Select.inputs_readingMerged, List.mem_singleton] at hv
    subst hv
    have hgrouped : Q grouped := hP.input h (by simp [Select.inputs, hsource, RowSource.select?])
    refine hP.update hgrouped hmerged (fun d hd => ?_) rfl (.inr rfl)
    rcases Select.mem_clauses_withMerged hd with hd | ⟨f, hf, rfl⟩
    · exact .inl hd
    · exact .inr (hfields f hf)

/-! ## Rows -/

theorem rowValue (hP : Pervasive A P B Q) (h : Q s) : P s.rowValue := by
  rcases s.rowValue_cases with hc | ⟨members, hobject, hc⟩ | ⟨t, hrow⟩
  · exact hP.clause h (Select.mem_clauses_of_projection hc)
  · rw [hobject]
    exact hP.object fun m hm => hP.clause h (Select.mem_clauses_of_projection (hc m hm))
  · rw [hrow]
    exact hP.row trivial

end

end Pervasive

end QueryTree
