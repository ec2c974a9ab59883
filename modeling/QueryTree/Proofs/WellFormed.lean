import QueryTree.Proofs.Closure
import QueryTree.Proofs.Discipline
import QueryTree.Proofs.LoweredForm

/-!
# Compiled queries are well formed

Lists of fields and keys are made by grouping, from the columns of the key, of which there is at
least one, and by merging, which adds fields. So no list is empty in a bound tree, and what it is
lowered to is well formed.
-/

namespace QueryTree

open Binding

/-! ## Binding without a check -/

/-- A test that every operator passes. -/
def anyOperator (_ : QueryOp) (_ : Expr) (_ : List Expr) (_ : Expr) : Bool := true

theorem Binding.bindNodeChecked_any (bind : Expr → BindM Expr) :
    bindNodeChecked anyOperator bind = bindNode bind := by
  funext e
  unfold bindNodeChecked
  split
  · rename_i method args t
    rw [bindNode, bindCallChecked.eq_def, bindCall.eq_def]
    cases args with
    | nil => rfl
    | cons start rest => cases QueryOp.ofMethod? method <;> simp [anyOperator]
  · rfl

theorem Binding.bindChecked_any (fuel : Nat) : bindChecked anyOperator fuel = bindWith fuel := by
  induction fuel with
  | zero => rfl
  | succ fuel ih =>
    funext e
    rw [bindChecked, bindWith, ih, bindNodeChecked_any]

/-! ## Lists of fields and keys -/

/-- `Lists`; and if `s` ranges over groups, what it reads has fields for their key. -/
structure Select.Filled (s : Select) : Prop extends Select.Lists s where
  grouped : s.groupKey.isSome = true → ∀ grouped, s.source = .subquery grouped →
    ∃ fields, grouped.projection = .fields fields

/-- All selects are `Filled`. This needs no notes. -/
def filledLists : Discipline Unit where
  row _ _ _ := True
  node _ _ := True
  select _ s := s.Filled

theorem GroupKey.columns_ne_nil (inner : Expr) (source outer : ScopeId) :
    (GroupKey.columns inner source outer).1 ≠ [] := by
  unfold GroupKey.columns
  split
  · simp
  · split <;> simp

theorem GroupKey.terms_ne_nil {fields : List OutputField} (h : fields ≠ []) (source : ScopeId) :
    GroupKey.terms fields source ≠ [] := by
  simpa [GroupKey.terms] using h

namespace Select.Filled

theorem of_plain {s : Select} (hkey : s.groupKey = none)
    (hfields : ∀ fields, s.projection ≠ .fields fields)
    (hgroup : s.group = none ∨ s.group = some .all) : s.Filled where
  fields fields hp := absurd hp (hfields fields)
  keys keys hk := by
    rcases hgroup with hgroup | hgroup <;> rw [hgroup] at hk <;> cases hk
  grouped h := by
    rw [hkey] at h
    cases h

theorem update {s s' : Select} (h : s.Filled) (hsource : s'.source = s.source)
    (hkey : s'.groupKey = none ∨ s'.groupKey = s.groupKey)
    (hgroup : s'.group = s.group ∨ s'.group = some .all)
    (hfields : ∀ fields, s'.projection = .fields fields → s.projection = .fields fields) :
    s'.Filled where
  fields fields hp := h.fields fields (hfields fields hp)
  keys keys hk := by
    rcases hgroup with hgroup | hgroup
    · exact h.keys keys (hgroup ▸ hk)
    · rw [hgroup] at hk
      cases hk
  grouped hsome grouped hread := by
    rcases hkey with hkey | hkey
    · rw [hkey] at hsome
      cases hsome
    · exact h.grouped (hkey ▸ hsome) grouped (hsource ▸ hread)

theorem groupedBy {s : Select} (h : s.Filled) (inner : Expr) (scope : ScopeId) :
    (s.groupedBy inner scope).Filled where
  fields := by
    rintro _ ⟨⟩
    exact GroupKey.columns_ne_nil inner s.scope scope
  keys := by
    rintro _ ⟨⟩
    exact GroupKey.terms_ne_nil (GroupKey.columns_ne_nil inner s.scope scope) s.scope
  grouped := h.grouped

theorem groups (s : Select) (inner : Expr) (scope : ScopeId) : (s.groups inner scope).Filled where
  fields := by
    rintro _ ⟨⟩
    simp
  keys := by rintro _ ⟨⟩
  grouped := by
    rintro - grouped ⟨⟩
    exact ⟨_, rfl⟩

theorem readingMerged {s : Select} (h : s.Filled) (grouped : Select) (value : Expr) :
    (s.readingMerged grouped value).Filled where
  fields := by rintro _ ⟨⟩
  keys := h.keys
  grouped := by rintro ⟨⟩

/-- `withMerged` adds fields after those of the key, so that there is one even if it has none. -/
theorem withMerged {grouped : Select} (h : grouped.Filled) {fields : List OutputField}
    (hfields : grouped.projection = .fields fields) (scope : ScopeId) (value : Expr) :
    (grouped.withMerged scope value).Filled where
  fields := by
    rintro _ ⟨⟩
    rw [hfields]
    exact List.append_ne_nil_of_left_ne_nil (h.fields fields hfields) _
  keys := h.keys
  grouped := h.grouped

end Select.Filled

/-- No operator makes an empty list: `filledLists` is kept. -/
theorem filledLists_kept : filledLists.Kept anyOperator where
  row_mono h := h
  node_mono h := h
  select_mono h := h
  child _ _ := .inl fun _ _ _ => trivial
  rebuild _ _ := trivial
  assemble _ := trivial
  label _ := trivial
  wholeRow _ _ _ := trivial
  update h _ _ hsource hkey hgroup _ hfields := Select.Filled.update h hsource hkey hgroup hfields
  ofTable _ _ _ := ⟨(), .of_plain rfl (by rintro _ ⟨⟩) (.inl rfl)⟩
  ofSelect _ _ _ _ := ⟨(), .of_plain rfl (by rintro _ ⟨⟩) (.inl rfl)⟩
  counted _ _ _ := ⟨(), .of_plain rfl (by rintro _ ⟨⟩) (.inr rfl)⟩
  groups {w s inner args} hs _ _ :=
    ⟨(), .groups s inner _, hs.self.groupedBy inner _, fun _ _ => trivial⟩
  merged {w s grouped key selector body merged c p fuel n k m} hs hk _ hsource _ _ _ _ _ := by
    have hself : s.Filled := hs.self
    have hgrouped : grouped.Filled := (hs.source hsource).self
    obtain ⟨fields, hfields⟩ := hself.grouped (by rw [hk]; rfl) grouped hsource
    exact ⟨hself.readingMerged grouped c, hgrouped.withMerged hfields s.scope c⟩

theorem Expr.Throughout.hereditary (A : Expr → Prop) (B : Select → Prop) :
    Hereditary (Expr.Throughout A B) (Select.Throughout A B) where
  child h hc := h.child hc
  select h hs := h.select hs
  clause h hc := h.clause hc
  input h hv := h.input hv

/-! ## Queries -/

/-- A tree that compiles is lowered to a `WellFormed` query: its paths have parts, start at a field
or at a value that is no path, and have their parents in one run after the parameter for the row
around; its lists of columns and of keys are not empty; and its text shows all of that. -/
theorem compiled_query_well_formed {o : Options} {t : Expr} {q : CompiledQuery} (hw : t.Written)
    (h : t.compile o = .ok q) :
    ∃ tree params bound n query final, Yields t.nameCaptures (.empty o) tree params ∧
      Yields tree.bind 0 bound n ∧
      bound.toQuery params = .ok (query, final) ∧ q = ⟨query.text, final.entries⟩ ∧
        query.WellFormed := by
  obtain ⟨tree, params, bound, n, query, final, hname, hbind, hquery, rfl⟩ := Expr.compile_ok h
  refine ⟨tree, params, bound, n, query, final, hname, hbind, hquery, rfl, ?_⟩
  have hpasses : tree.Passes anyOperator := ⟨bound, n, by rw [bindChecked_any]; exact hbind⟩
  obtain ⟨w, hbound⟩ := filledLists_kept.of_passes hw hname hbind hpasses
  have hforms := Expr.lowerRoot_form (Expr.Throughout.hereditary _ _)
    (fun s hs => (Select.Throughout.self hs).1.toLists) hbound.throughout
  obtain ⟨state, hlower, rfl⟩ := Expr.toQuery_ok hquery
  exact hforms _ query state hlower

section
open Sample

theorem compiled_query_well_formed_mostPostsByAge :
    mostPostsByAge.Written ∧ ∃ (q : CompiledQuery) (query : Surql.Query),
      mostPostsByAge.compile .standard = .ok q ∧
      q.text = "SELECT age, most FROM (SELECT age, age, array::max((SELECT count(author " ++
        "== $parent.id) FROM post GROUP ALL)[0].count) AS most FROM user GROUP BY age)" ∧
      query.text = q.text ∧ query.WellFormed := by
  have hw : mostPostsByAge.Written := by decide +kernel
  have htext : (mostPostsByAge.compile .standard).toOption.map (·.text) = some
      ("SELECT age, most FROM (SELECT age, age, array::max((SELECT count(author " ++
        "== $parent.id) FROM post GROUP ALL)[0].count) AS most FROM user GROUP BY age)") := by
    decide +kernel
  cases h : mostPostsByAge.compile .standard with
  | error err =>
    rw [h] at htext
    cases htext
  | ok q =>
    rw [h] at htext
    obtain ⟨tree, params, bound, n, query, final, -, -, -, heq, hformed⟩ :=
      compiled_query_well_formed hw h
    exact ⟨hw, q, query, rfl, Option.some.inj htext, by rw [heq], hformed⟩

end

/-- Whether `t` compiles to a query that passes `test`. -/
def Expr.lowersTo (o : Options) (test : Surql.Query → Bool) (t : Expr) : Bool :=
  match t.nameCaptures.run (.empty o) with
  | .ok (tree, params) =>
    match (tree.bind.run.run 0).1 with
    | .ok bound => (bound.toQuery params).toOption.any fun result => test result.1
    | .error _ => false
  | .error _ => false

theorem Expr.exists_of_lowersTo {o : Options} {test : Surql.Query → Bool} {t : Expr}
    (h : t.lowersTo o test = true) : ∃ tree params bound n query final,
      Yields t.nameCaptures (.empty o) tree params ∧ Yields tree.bind 0 bound n ∧
        bound.toQuery params = .ok (query, final) ∧ test query = true := by
  unfold lowersTo at h
  split at h
  · rename_i tree params hname
    cases hrun : (tree.bind.run.run 0 : Except Error Expr × Nat) with
    | mk result n =>
      rw [hrun] at h
      cases result with
      | error e => cases h
      | ok bound =>
        cases hquery : bound.toQuery params with
        | error e => simp [hquery, Except.toOption] at h
        | ok result =>
          have htest : test result.1 = true := by simpa [hquery, Except.toOption] using h
          exact ⟨tree, params, bound, n, result.1, result.2, hname, hrun, hquery, htest⟩
  · cases h

/-- Whether a query is a path whose text begins with a bracket. -/
def Surql.Query.opensWithBracket : Surql.Query → Bool
  | .term (.path parts) => (Surql.Term.path parts).text.toList.head? == some '['
  | _ => false

namespace Sample

/-- The second of three numbers. -/
def secondNumber : Expr :=
  .staticCall .enumerable "ElementAt" [.newArray .unknown [.int32 1, .int32 10, .int32 20],
    .int32 1] .unknown

end Sample

section
open Sample

/-- `secondNumber` has a path that starts at an array, which is written with a bracket in front. -/
theorem secondNumber_opens_with_bracket :
    secondNumber.Written ∧ ∃ tree params bound n query final,
      Yields secondNumber.nameCaptures (.empty .standard) tree params ∧ Yields tree.bind 0 bound n ∧
        bound.toQuery params = .ok (query, final) ∧ query.text = "[1, 10, 20][1]" ∧
        ∃ parts, .path parts ∈ query.nodes ∧
          (Surql.Term.path parts).text.toList.head? = some '[' := by
  have hrun : secondNumber.lowersTo .standard (fun query =>
      query.opensWithBracket && query.text == "[1, 10, 20][1]") = true := by
    decide +kernel
  obtain ⟨tree, params, bound, n, query, final, hname, hbind, hquery, htest⟩ :=
    Expr.exists_of_lowersTo hrun
  obtain ⟨hopens, htext⟩ := Bool.and_eq_true_iff.mp htest
  refine ⟨by decide +kernel, tree, params, bound, n, query, final, hname, hbind, hquery,
    beq_iff_eq.mp htext, ?_⟩
  unfold Surql.Query.opensWithBracket at hopens
  split at hopens
  · rename_i parts
    exact ⟨parts, List.mem_cons_self, beq_iff_eq.mp hopens⟩
  · cases hopens

end

end QueryTree
