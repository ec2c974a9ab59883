import QueryTree.Proofs.Hygiene
import QueryTree.Proofs.Placed
import QueryTree.Proofs.Tracked

/-!
# Rows are in scope

In the tree that binding makes of operators, nested queries and groups, every row is reached inside
of a select with its scope. So lowering finds the select of every row.
-/

namespace QueryTree

/-! ## What is visited -/

mutual

/-- An expression that is visited from `root`, with the scopes of the selects around it, the
innermost first. -/
inductive Expr.Visits (root : Expr) : List ScopeId → Expr → Prop
  | root : Expr.Visits root [] root
  | child {around : List ScopeId} {e c : Expr} :
    Expr.Visits root around e → c ∈ e.children → Expr.Visits root around c
  | clause {around : List ScopeId} {s : Select} {c : Expr} :
    Expr.VisitsSelect root around s → c ∈ s.clauses false → Expr.Visits root (s.scope :: around) c

/-- A select that is visited from `root`, with the scopes of the selects around it. -/
inductive Expr.VisitsSelect (root : Expr) : List ScopeId → Select → Prop
  | select {around : List ScopeId} {e : Expr} {s : Select} :
    Expr.Visits root around e → e.select? = some s → Expr.VisitsSelect root around s
  | input {around : List ScopeId} {s v : Select} :
    Expr.VisitsSelect root around s → v ∈ s.inputs false →
      Expr.VisitsSelect root (s.scope :: around) v

end

theorem descending_visits (root : Expr) : Descending root.Visits root.VisitsSelect :=
  ⟨fun _ he hc => .child he hc, .select, .clause, .input⟩

section
variable {root : Expr}

mutual

/-- What a `Grounded` root `Visits` can stand where it is. -/
theorem Expr.Visits.grounded (h : root.Grounded []) {around : List ScopeId} {e : Expr} :
    root.Visits around e → e.Grounded around
  | .root => h
  | .child he hc => (he.grounded h).child hc
  | .clause hs hc => (hs.grounded h).clause hc

theorem Expr.VisitsSelect.grounded (h : root.Grounded []) {around : List ScopeId} {s : Select} :
    root.VisitsSelect around s → s.Grounded around
  | .select he hs => (he.grounded h).select hs
  | .input hs hv => (hs.grounded h).input hv

end

/-- `lowerRoot` refuses an invalid tree for a row that is visited outside its select, or for a node
that is visited and has no term. -/
theorem Expr.lowerRoot_refuses {E : Error → Prop} {p : Params} {err : Error}
    (hrow : ∀ around scope t, root.Visits around (.row scope t) → scope ∉ around → E .rowOutOfScope)
    (hfault : ∀ around e err, root.Visits around e → e.fault? = some err → E err)
    (h : (root.lowerRoot.run.run ⟨p, .empty⟩).1 = .error err) (hkind : err.kind = .invalidTree) :
    E err :=
  (Expr.lowerRoot_within (descending_visits root) .empty hrow hfault .root).fails
    ⟨p, .empty⟩ ⟨p, .empty⟩ err ⟨rfl, rfl, rfl⟩ h hkind

end

/-! ## From the tree a caller makes -/

/-- A tree that `nameCaptures` gives is `Placed` anywhere. -/
theorem Expr.Written.placed {t tree : Expr} {params params' : Params} (hw : t.Written)
    (h : Yields t.nameCaptures params tree params') : tree.Placed [] := by
  refine yields_replaceM (T := fun e _ r _ => e.Written → r.Placed []) ?_ ?_ h hw
  · intro e p r p' hr _
    rcases nameNode_some hr with ⟨s, rfl, -, -⟩ | ⟨x, v, t, name, -, rfl, -⟩
    all_goals exact .of_parts rfl (by rintro _ _ ⟨⟩) (by rintro _ ⟨⟩) (List.forall_mem_nil _)
  · intro e p u cs p' hnone hcs hw
    have hcs : List.Forall₂ (fun c r => c.Written → r.Placed []) e.children cs := hcs.forall₂
    -- Callers write no rows and no selects, so a node that stays is neither.
    have he := hw e (mem_nodes_self e)
    refine .of_parts ?_ (fun scope t heq => ?_) (fun s hs => ?_) fun c' hc' => ?_
    · rw [of_withChildren]
      exact (nameNode_none hnone).2
    · rw [eq_row_of_withChildren heq] at he
      cases he
    · rw [select?_withChildren, select?_eq_none_of_isWritten he] at hs
      cases hs
    · rw [children_withChildren hcs.length_eq.symm] at hc'
      obtain ⟨c, hc, hr⟩ := List.exists_of_forall₂_right hcs hc'
      exact hr (hw.child hc)

/-- A named tree never wants fuel: `bindWith` gives the same as `bind`, or fails with the same. -/
theorem Expr.Written.bindWith_eq_bind {t tree : Expr} {params params' : Params} (hw : t.Written)
    (h : Yields t.nameCaptures params tree params') {fuel : Nat}
    (hfuel : Binding.operatorCount tree < fuel) :
    Binding.bindWith fuel tree = tree.bind ∧ ∀ n : Nat,
      (tree.bind.run.run n).1 ≠ .error .operatorsTooDeep :=
  ⟨(hw.placed h).bindWith_eq_bind hfuel, fun n hn =>
    Bool.false_ne_true ((hw.placed h).bind.fails n _ hn)⟩

/-- In a bound tree every row that is visited is inside a select with its scope, however the tree is
made of operators, nested queries and groups. So `lower` never meets a row outside its query. -/
theorem rows_in_scope {o : Options} {t tree bound : Expr} {params : Params} {n : Nat}
    (hw : t.Written) (hname : Yields t.nameCaptures (.empty o) tree params)
    (hbind : Yields tree.bind 0 bound n) :
    (∀ around scope u, bound.Visits around (.row scope u) → scope ∈ around) ∧
      ∀ p : Params, (bound.lowerRoot.run.run ⟨p, .empty⟩).1 ≠ .error .rowOutOfScope := by
  have hbound : bound.Grounded [] := (hw.placed hname).bind.gives 0 bound n hbind
  have hrows : ∀ around scope u, bound.Visits around (.row scope u) → scope ∈ around :=
    fun around scope u h => (h.grounded hbound).row
  refine ⟨hrows, fun p hp => ?_⟩
  refine Expr.lowerRoot_refuses (E := (· ≠ .rowOutOfScope)) ?_ (fun around e err _ herr => ?_)
    hp rfl rfl
  · exact fun around scope u h hout => absurd (hrows around scope u h) hout
  · rintro rfl
    cases e <;> cases herr

namespace Sample

/-- The most posts that a user has, by age. The posts are counted in an aggregate over the group. -/
def mostPostsByAge : Expr :=
  on (on (rows "user") "GroupBy" [fn "u" (col "u" "age")]) "Select"
    [fn "g" (.newObject .unknown [("age", .member (var "g") "Key" .unknown),
      ("most", .staticCall .enumerable "Max" [var "g", fn "u" (on (rows "post") "Count"
        [fn "p" ((col "p" "author").eq (col "u" "id"))])] .unknown)])]

end Sample

section
open Sample

theorem rows_in_scope_mostPostsByAge :
    mostPostsByAge.Written ∧ ∃ tree params bound n,
      Yields mostPostsByAge.nameCaptures (.empty .standard) tree params ∧
        Yields tree.bind 0 bound n ∧ (bound.selects false).map (·.scope) = [⟨1⟩, ⟨0⟩, ⟨2⟩] ∧
        (∀ around scope u, bound.Visits around (.row scope u) → scope ∈ around) ∧
        (bound.lowerRoot.run.run ⟨params, .empty⟩).1 ≠ .error .rowOutOfScope := by
  have hw : mostPostsByAge.Written := by decide +kernel
  have hrun : mostPostsByAge.bindsTo .standard (fun b =>
      decide ((b.selects false).map (·.scope) = [⟨1⟩, ⟨0⟩, ⟨2⟩])) = true := by
    decide +kernel
  obtain ⟨tree, params, bound, n, hname, hbind, hscopes⟩ := Expr.exists_of_bindsTo hrun
  obtain ⟨hrows, hlower⟩ := rows_in_scope hw hname hbind
  exact ⟨hw, tree, params, bound, n, hname, hbind, of_decide_eq_true hscopes, hrows, hlower params⟩

end

end QueryTree
