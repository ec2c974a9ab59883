import QueryTree.Proofs.InScope

/-!
# Bound trees are in normal form

A bound tree has no source, captured variable, table or query operator: not in itself, in the bodies
of its lambdas or in the clauses of its selects, however deep. Binding does not look into selects
again, so whatever is put into one has to be bound already.
-/

namespace QueryTree

section
variable {e : Expr} {s v : Select} {c : Expr} {around : List ScopeId}

/-! ## At any depth -/

/-- Clauses of a `Grounded` select are grounded somewhere. -/
theorem Select.Grounded.somewhere (h : s.Grounded around) (hc : c ∈ s.clauses true) :
    ∃ inside, c.Grounded inside := by
  rcases mem_clauses_cases hc with hc | ⟨key, hk, hc⟩
  · exact ⟨_, h.clause hc⟩
  · simp only [GroupKey.exprs, List.mem_cons, List.not_mem_nil, or_false] at hc
    rcases hc with rfl | rfl | rfl
    · exact ⟨_, h.inner hk⟩
    · exact ⟨_, h.outer hk⟩
    · exact ⟨_, h.values hk⟩

theorem Select.Grounded.input_somewhere (h : s.Grounded around) (hv : v ∈ s.inputs true) :
    ∃ inside, v.Grounded inside := by
  simp only [inputs, cond_true, List.mem_append, List.mem_map, Option.mem_toList] at hv
  rcases hv with hv | ⟨key, hk, rfl⟩
  · exact ⟨_, h.input (by simpa [inputs] using hv)⟩
  · exact ⟨_, h.grouped hk⟩

/-- The selects in a `Grounded` expression are grounded, and so are those that are remembered. -/
theorem grounded_selects :
    (∀ e : Expr, ∀ around, e.Grounded around → ∀ u ∈ e.selects true, ∃ inside, u.Grounded inside) ∧
      ∀ s : Select, ∀ around, s.Grounded around →
        ∀ u ∈ s.withNested true, ∃ inside, u.Grounded inside := by
  apply deepInduction
  · intro e hc hs around h u hu
    rw [Expr.selects_eq] at hu
    cases hes : e.select? with
    | some s =>
      rw [hes] at hu
      exact hs s hes around (h.select hes) u hu
    | none =>
      rw [hes] at hu
      obtain ⟨c, hce, hu⟩ := List.mem_flatMap.mp hu
      exact hc c hce around (h.child hce) u hu
  · intro s hc hi around h u hu
    rw [Select.withNested_eq, List.mem_cons] at hu
    rcases hu with rfl | hu
    · exact ⟨around, h⟩
    · rcases Select.mem_nested.mp hu with ⟨c, hcs, hu⟩ | ⟨v, hv, hu⟩
      · obtain ⟨inside, hinside⟩ := h.somewhere hcs
        exact hc c hcs inside hinside u hu
      · obtain ⟨inside, hinside⟩ := h.input_somewhere hv
        exact hi v hv inside hinside u hu

/-! ## Binding again -/

theorem Binding.bindNode_of_marks {bind : Expr → BindM Expr} (h : ∀ k : Mark, k.of e = false) :
    Binding.bindNode bind e = pure none := by
  unfold Binding.bindNode
  split
  · cases h .table
  · cases h .operator
  · rfl

/-- Binding finds nothing in a `Bare` expression. -/
theorem Expr.Bare.bind_eq (h : e.Bare) : e.bind = pure e :=
  Expr.replaceM_eq_pure _ fun _ hn => Binding.bindNode_of_marks (Expr.bare_iff.mp (h.of_node hn)).1

/-! ## Lowering -/

/-- A node with a `fault?` that binding leaves is a variable. -/
theorem Expr.fault?_of_marks {err : Error} (h : ∀ k : Mark, k.of e = false)
    (herr : e.fault? = some err) (kind : String) : err ≠ .unexpectedNode kind := by
  cases e with
  | source s => cases h .raw
  | captured x capture t => cases h .raw
  | table name element => cases h .table
  | parameter x t =>
    cases herr
    rintro ⟨⟩
  | _ => cases herr

end

/-- What binding gives is in normal form: nothing is left to name or to bind in it or in the clauses
of its selects, at any depth. So `bind` changes nothing in it and takes no scope, `lower` meets no
node that it does not expect, and binding never finds groups without a grouped source. -/
theorem bound_normal_form {o : Options} {t tree : Expr} {params : Params} (hw : t.Written)
    (hname : Yields t.nameCaptures (.empty o) tree params) :
    (∀ n : Nat, (tree.bind.run.run n).1 ≠ .error .ungroupedSource) ∧
      ∀ bound n, Yields tree.bind 0 bound n →
        (bound.Bare ∧ ∀ s ∈ bound.selects true, ∀ c ∈ s.clauses true, c.Bare) ∧
        (∀ m : Nat, Yields bound.bind m bound m) ∧
        ∀ (p : Params) (kind : String),
          (bound.lowerRoot.run.run ⟨p, .empty⟩).1 ≠ .error (.unexpectedNode kind) := by
  have hbinds := (hw.placed hname).bind
  refine ⟨fun n hn => Bool.false_ne_true (hbinds.fails n _ hn), fun bound n hbind => ?_⟩
  have hbound : bound.Grounded [] := hbinds.gives 0 bound n hbind
  refine ⟨⟨hbound.bare, fun s hs c hc => ?_⟩, fun m => ?_, fun p kind hp => ?_⟩
  -- Where a clause stands does not matter any more, only that it can stand somewhere.
  · obtain ⟨around, hs⟩ := grounded_selects.1 bound [] hbound s hs
    obtain ⟨inside, hc⟩ := hs.somewhere hc
    exact hc.bare
  · rw [hbound.bare.bind_eq]
    exact yields_pure.mpr ⟨rfl, rfl⟩
  · refine Expr.lowerRoot_refuses (E := fun err => ∀ kind, err ≠ .unexpectedNode kind)
      ?_ ?_ hp rfl kind rfl
    · exact fun around scope t h hout => absurd (h.grounded hbound).row hout
    · exact fun around e err h herr => Expr.fault?_of_marks (h.grounded hbound).marks herr

section
open Sample

theorem bound_normal_form_mostPostsByAge :
    mostPostsByAge.Written ∧ ∃ tree params bound n,
      Yields mostPostsByAge.nameCaptures (.empty .standard) tree params ∧
        Yields tree.bind 0 bound n ∧
        (bound.selects true).length = 3 ∧ (tree.bind.run.run n).1 ≠ .error .ungroupedSource ∧
        (bound.Bare ∧ ∀ s ∈ bound.selects true, ∀ c ∈ s.clauses true, c.Bare) ∧
        Yields bound.bind n bound n ∧
        (bound.lowerRoot.run.run ⟨params, .empty⟩).1 ≠ .error (.unexpectedNode "Table") := by
  have hw : mostPostsByAge.Written := by decide +kernel
  have hrun : mostPostsByAge.bindsTo .standard (fun b => (b.selects true).length == 3) = true := by
    decide +kernel
  obtain ⟨tree, params, bound, n, hname, hbind, hlen⟩ := Expr.exists_of_bindsTo hrun
  obtain ⟨hsource, hbound⟩ := bound_normal_form hw hname
  obtain ⟨hbare, hagain, hlower⟩ := hbound bound n hbind
  exact ⟨hw, tree, params, bound, n, hname, hbind, by simpa using hlen, hsource n, hbare, hagain n,
    hlower params "Table"⟩

end

end QueryTree
