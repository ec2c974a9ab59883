import QueryTree.Proofs.Grouped
import QueryTree.Proofs.Selects

/-!
# Which clauses a select has

Operators make a select of another one and a few new expressions. The clauses and the sources of
each select that is made are those of the other one or the new expressions.
-/

namespace QueryTree.Select

variable {memory : Bool} {s : Select} {c d inner value : Expr} {scope : ScopeId}

theorem mem_clauses :
    c ∈ s.clauses memory ↔ c ∈ s.projection.exprs ∨ s.filter = some c ∨
      c ∈ s.group.toList.flatMap RowGroup.exprs ∨ c ∈ s.orderings.map (·.expr) ∨ s.take = some c ∨
      s.skip = some c ∨ memory = true ∧ ∃ key, s.groupKey = some key ∧ c ∈ key.exprs := by
  simp only [clauses, List.mem_append, Option.mem_toList, or_assoc]
  cases memory with
  | false => simp only [cond_false, List.not_mem_nil, or_false, Bool.false_eq_true, false_and]
  | true => simp only [cond_true, List.mem_flatMap, Option.mem_toList, true_and]

theorem mem_clauses_of_projection (h : c ∈ s.projection.exprs) : c ∈ s.clauses memory :=
  mem_clauses.mpr (.inl h)

theorem mem_clauses_of_filter (h : s.filter = some c) : c ∈ s.clauses memory :=
  mem_clauses.mpr (.inr (.inl h))

theorem mem_clauses_of_ordering {k : SortKey} (h : k ∈ s.orderings) : k.expr ∈ s.clauses memory :=
  mem_clauses.mpr (.inr (.inr (.inr (.inl (List.mem_map_of_mem h)))))

theorem mem_clauses_of_groupKey {key : GroupKey} (hk : s.groupKey = some key) (h : c ∈ key.exprs) :
    c ∈ s.clauses true :=
  mem_clauses.mpr (.inr (.inr (.inr (.inr (.inr (.inr ⟨rfl, key, hk, h⟩))))))

theorem mem_clauses_cases (hc : c ∈ s.clauses true) :
    c ∈ s.clauses false ∨ ∃ key, s.groupKey = some key ∧ c ∈ key.exprs := by
  simpa [mem_clauses, or_assoc] using hc

theorem clauses_without_key (hc : c ∈ clauses true { s with groupKey := none }) :
    c ∈ s.clauses true := by
  simp only [clauses, cond_true, Option.toList_none, List.flatMap_nil, List.append_nil] at hc
  exact List.mem_append_left _ hc

theorem filter_filterBy (h : (s.filterBy c).filter = some d) :
    s.filter = none ∧ d = c ∨ ∃ existing, s.filter = some existing ∧ d = existing.and c := by
  simp only [filterBy, Option.some.injEq] at h
  subst h
  cases hf : s.filter with
  | none => exact .inl ⟨rfl, rfl⟩
  | some existing => exact .inr ⟨existing, rfl, rfl⟩

theorem mem_clauses_filterBy (h : d ∈ (s.filterBy c).clauses memory) :
    d ∈ s.clauses memory ∨ (s.filterBy c).filter = some d := by
  rcases mem_clauses.mp h with h | h | h
  · exact .inl (mem_clauses_of_projection h)
  · exact .inr h
  · exact .inl (mem_clauses.mpr (.inr (.inr h)))

theorem mem_clauses_project {p : Projection} (h : d ∈ (s.project p).clauses memory) :
    d ∈ s.clauses memory ∨ d ∈ p.exprs := by
  rcases mem_clauses.mp h with h | h
  · exact .inr h
  · exact .inl (mem_clauses.mpr (.inr h))

theorem mem_clauses_groupAll (h : d ∈ s.groupAll.clauses memory) : d ∈ s.clauses memory := by
  rcases mem_clauses.mp h with h | h | h | h
  · exact mem_clauses_of_projection h
  · exact mem_clauses_of_filter h
  · simp [groupAll, RowGroup.exprs] at h
  · exact mem_clauses.mpr (.inr (.inr (.inr h)))

theorem mem_clauses_order {keys : List SortKey}
    (h : d ∈ clauses memory { s with orderings := keys }) :
    d ∈ s.clauses memory ∨ ∃ k ∈ keys, d = k.expr := by
  rcases mem_clauses.mp h with h | h | h | h | h
  · exact .inl (mem_clauses_of_projection h)
  · exact .inl (mem_clauses_of_filter h)
  · exact .inl (mem_clauses.mpr (.inr (.inr (.inl h))))
  · obtain ⟨k, hk, rfl⟩ := List.mem_map.mp h
    exact .inr ⟨k, hk, rfl⟩
  · exact .inl (mem_clauses.mpr (.inr (.inr (.inr (.inr h)))))

theorem mem_clauses_cut {take skip : Option Expr} {single : Bool}
    (h : d ∈ clauses memory { s with take := take, skip := skip, single := single }) :
    d ∈ s.clauses memory ∨ take = some d ∨ skip = some d := by
  rw [mem_clauses] at h ⊢
  grind

theorem mem_clauses_thenBy {descending : Bool} (h : d ∈ (s.thenBy c descending).clauses memory) :
    d ∈ s.clauses memory ∨ d = c := by
  rcases mem_clauses_order h with h | ⟨k, hk, rfl⟩
  · exact .inl h
  · rcases List.mem_append.mp hk with hk | hk
    · exact .inl (mem_clauses.mpr (.inr (.inr (.inr (.inl (List.mem_map_of_mem hk))))))
    · obtain rfl := List.mem_singleton.mp hk
      exact .inr rfl

theorem mem_clauses_orderBy {descending : Bool} (h : d ∈ (s.orderBy c descending).clauses memory) :
    d ∈ s.clauses memory ∨ d = c := by
  rcases mem_clauses_order h with h | ⟨k, hk, rfl⟩
  · exact .inl h
  · obtain rfl := List.mem_singleton.mp hk
    exact .inr rfl

/-- `s` keeps `Q` with another filter, another order and other bounds, as long as its clauses are
those it had or have `P`. -/
def Amendable (memory : Bool) (P : Expr → Prop) (Q : Select → Prop) (s : Select) : Prop :=
  ∀ (filter : Option Expr) (orderings : List SortKey) (take skip : Option Expr) (single : Bool),
    let s' : Select :=
      { s with
        filter := filter, orderings := orderings, take := take, skip := skip, single := single }
    (∀ d ∈ s'.clauses memory, d ∈ s.clauses memory ∨ P d) → Q s'

section
variable {P : Expr → Prop} {Q : Select → Prop}

theorem Amendable.filterBy (h : s.Amendable memory P Q) (hc : P c)
    (hand : ∀ d ∈ s.clauses memory, P (d.and c)) : Q (s.filterBy c) := by
  refine h _ _ _ _ _ fun d hd => (mem_clauses_filterBy hd).imp id fun hd => ?_
  rcases filter_filterBy hd with ⟨-, rfl⟩ | ⟨existing, hf, rfl⟩
  · exact hc
  · exact hand existing (mem_clauses_of_filter hf)

theorem Amendable.orderBy (h : s.Amendable memory P Q) (hc : P c) (descending : Bool) :
    Q (s.orderBy c descending) := by
  refine h _ _ _ _ _ fun d hd => (mem_clauses_orderBy hd).imp id ?_
  rintro rfl
  exact hc

theorem Amendable.thenBy (h : s.Amendable memory P Q) (hc : P c) (descending : Bool) :
    Q (s.thenBy c descending) := by
  refine h _ _ _ _ _ fun d hd => (mem_clauses_thenBy hd).imp id ?_
  rintro rfl
  exact hc

theorem Amendable.take (h : s.Amendable memory P Q) (hc : P c) : Q { s with take := some c } := by
  refine h _ _ _ _ _ fun d hd => ?_
  rcases mem_clauses_cut hd with hd | hd | hd
  · exact .inl hd
  · exact .inr (Option.some.inj hd ▸ hc)
  · exact .inl (mem_clauses.mpr (by simp [hd]))

theorem Amendable.skip (h : s.Amendable memory P Q) (hc : P c) : Q { s with skip := some c } := by
  refine h _ _ _ _ _ fun d hd => ?_
  rcases mem_clauses_cut hd with hd | hd | hd
  · exact .inl hd
  · exact .inl (mem_clauses.mpr (by simp [hd]))
  · exact .inr (Option.some.inj hd ▸ hc)

theorem Amendable.single (h : s.Amendable memory P Q) : Q { s with single := true } :=
  h _ _ _ _ _ fun _ hd => .inl hd

end

theorem clauses_ofTable {name : String} {element : Ty} :
    (ofTable scope name element).clauses memory = [] := by
  cases memory <;> rfl

theorem mem_inputs_of_update {s' v : Select} (hsource : s'.source = s.source)
    (hkey : s'.groupKey = none ∨ s'.groupKey = s.groupKey) (hv : v ∈ s'.inputs true) :
    v ∈ s.inputs true := by
  rcases hkey with hkey | hkey
  · simp only [inputs, hsource, hkey, cond_true, Option.toList_none, List.map_nil,
      List.append_nil] at hv
    exact List.mem_append_left _ hv
  · simpa only [inputs, hsource, hkey] using hv

theorem inputs_ofTable {name : String} {element : Ty} :
    (ofTable scope name element).inputs memory = [] := by
  cases memory <;> rfl

theorem clauses_ofSelect : (ofSelect scope s).clauses memory = [] := by
  cases memory <;> rfl

theorem inputs_ofSelect : (ofSelect scope s).inputs memory = [s] := by
  cases memory <;> rfl

/-! ## Groups -/

theorem mem_clauses_groupedBy (h : d ∈ (s.groupedBy inner scope).clauses memory) :
    d ∈ s.clauses memory ∨ (∃ f ∈ (GroupKey.columns inner s.scope scope).1, d = f.expr) ∨
      d ∈ GroupKey.terms (GroupKey.columns inner s.scope scope).1 s.scope := by
  rcases mem_clauses.mp h with h | h | h | h | h
  · obtain ⟨f, hf, rfl⟩ := List.mem_map.mp h
    exact .inr (.inl ⟨f, hf, rfl⟩)
  · exact .inl (mem_clauses_of_filter h)
  · exact .inr (.inr (by simpa [groupedBy, RowGroup.exprs] using h))
  · cases h
  · exact .inl (mem_clauses.mpr (.inr (.inr (.inr (.inr h)))))

theorem mem_clauses_groups (h : d ∈ (s.groups inner scope).clauses memory) :
    d = inner ∨ d = (GroupKey.columns inner s.scope scope).2 ∨
      d = .subquery (s.groupRows inner scope) := by
  rcases mem_clauses.mp h with h | h | h | h | h | h | ⟨-, key, hk, h⟩
  · simp only [groups, project, Projection.exprs, List.map_cons, List.map_nil,
      List.mem_cons, List.not_mem_nil, or_false] at h
    exact .inr h
  · cases h
  · simp [groups, project, ofSelect, ofSource] at h
  · simp [groups, project, ofSelect, ofSource] at h
  · cases h
  · cases h
  · cases hk
    simpa [GroupKey.exprs] using h

theorem inputs_groups : (s.groups inner scope).inputs true = [s.groupedBy inner scope, s] := rfl

theorem mem_clauses_withMerged (h : d ∈ (s.withMerged scope value).clauses memory) :
    d ∈ s.clauses memory ∨ ∃ f ∈ (Binding.readBack scope value).1, d = f.expr := by
  rcases mem_clauses_project h with h | h
  · exact .inl h
  · obtain ⟨f, hf, rfl⟩ := List.mem_map.mp h
    rcases List.mem_append.mp hf with hf | hf
    · split at hf
      · rename_i fs hp
        refine .inl (mem_clauses_of_projection ?_)
        rw [hp]
        exact List.mem_map_of_mem hf
      · cases hf
    · exact .inr ⟨f, hf, rfl⟩

theorem mem_clauses_readingMerged {grouped : Select}
    (h : d ∈ (s.readingMerged grouped value).clauses memory) :
    d ∈ s.clauses memory ∨ d = (Binding.readBack s.scope value).2 := by
  rcases mem_clauses.mp h with h | h | h | h | h | h | ⟨-, key, hk, -⟩
  · exact .inr (List.mem_singleton.mp h)
  · exact .inl (mem_clauses_of_filter h)
  · exact .inl (mem_clauses.mpr (.inr (.inr (.inl h))))
  · exact .inl (mem_clauses.mpr (.inr (.inr (.inr (.inl h)))))
  · exact .inl (mem_clauses.mpr (.inr (.inr (.inr (.inr (.inl h))))))
  · exact .inl (mem_clauses.mpr (.inr (.inr (.inr (.inr (.inr (.inl h)))))))
  · cases hk

theorem inputs_readingMerged {grouped : Select} :
    (s.readingMerged grouped value).inputs memory = [grouped.withMerged s.scope value] := by
  cases memory <;> rfl

/-! ## Rows -/

/-- What a variable over the rows of `s` stands for is a clause of it, or is made of clauses or of
the row. -/
theorem rowValue_cases (s : Select) :
    s.rowValue ∈ s.projection.exprs ∨
      (∃ members, s.rowValue = .objectOf members ∧ ∀ m ∈ members, m.2 ∈ s.projection.exprs) ∨
      ∃ t, s.rowValue = .row s.scope t := by
  unfold rowValue
  split
  · rename_i e hp
    exact .inl (by simp [hp, Projection.exprs])
  · rename_i fs hp
    refine .inr (.inl ⟨_, rfl, fun m hm => ?_⟩)
    obtain ⟨f, hf, rfl⟩ := List.mem_map.mp hm
    rw [hp]
    exact List.mem_map_of_mem hf
  · exact .inr (.inr ⟨_, rfl⟩)

end QueryTree.Select
