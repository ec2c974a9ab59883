import QueryTree.Proofs.Lowered
import QueryTree.Proofs.QueryForm

/-!
# Lowering keeps to the form of queries

The form of a query is kept in all ways in which lowering makes terms. So a bound tree lowers to
terms with their form, if the selects in it list a column and a key wherever they list any.
-/

namespace QueryTree

namespace Surql

theorem Part.goesOn_of_isStep {p : Part} (h : p.isStep = true) : p.goesOn = true := by
  cases p <;> first | rfl | cases h

theorem Part.formed_of_isStep {p : Part} (h : p.isStep = true) : p.Formed := by
  cases p with
  | field | index => simp
  | method name args =>
    cases args with
    | nil => simp
    | cons t ts => cases h
  | _ => cases h

instance : Grammar Term.Formed where
  literal {t} h := Term.formed_of_nodes (by cases t <;> first | rfl | cases h)
  array := Term.formed_array
  object := Term.formed_object.mpr
  call hf hts := Term.formed_call.mpr ⟨hf, hts⟩
  unary := Term.formed_unary.mpr
  binary ht hu := Term.formed_binary.mpr ⟨ht, hu⟩
  cast := Term.formed_cast.mpr
  range ht hu := Term.formed_range.mpr ⟨ht, hu⟩
  field name := Term.formed_path.mpr ⟨Part.formPath_field name, by simp⟩
  step ht hp := ht.step (Part.formed_of_isStep hp) (Part.goesOn_of_isStep hp)
  item ht hu := ht.step (Part.formed_item.mpr hu) rfl

/-- The way to a row is a path of its own, or the beginning of one. -/
theorem RowTerms.formed : RowTerms Term.Formed where
  this := Term.formed_param
  parents n := by
    refine Term.formed_path.mpr ⟨Part.formPath_parents n, fun p hp => ?_⟩
    rcases List.mem_cons.mp hp with rfl | hp
    · exact Part.formed_start.mpr Term.formed_param
    · rw [List.eq_of_mem_replicate hp]
      exact Part.formed_parent

theorem Statement.Made.formed {listed : Prop} {s : Statement} (h : s.Made Term.Formed listed)
    (hl : listed) : s.Formed := by
  obtain ⟨columns, target, only, cond, group, order, limit, start⟩ := s
  obtain ⟨⟨hcolumns, hlist⟩, htarget, hcond, ⟨hgroup, hkeys⟩, horder, hlimit, hstart⟩ := h
  refine formed_mk ?_ ?_ ?_ ?_ hcond ?_ horder hlimit hstart
  · rintro list rfl rfl
    exact hlist hl rfl
  · rintro terms rfl rfl
    exact hkeys hl rfl
  · cases columns with
    | all => exact List.forall_mem_nil _
    | value t => exact hcolumns t List.mem_cons_self
    | list columns =>
      exact Column.formed_list.mpr fun c hc => hcolumns c.term (List.mem_map_of_mem hc)
  · cases target with
    | table name => exact List.forall_mem_nil _
    | subquery u => exact htarget u rfl
  · rcases group with _ | _ | terms
    · exact List.forall_mem_nil _
    · exact List.forall_mem_nil _
    · exact Term.formed_list.mpr hgroup

end Surql

/-- A tree whose selects are `Lists` lowers to a well-formed query. -/
theorem Expr.lowerRoot_form {A : Expr → Prop} {B : Select → Prop} (hAB : Hereditary A B)
    (hlists : ∀ s, B s → s.Lists) {e : Expr} (he : A e) :
    ∀ s query t, Yields e.lowerRoot s query t → query.WellFormed := by
  intro s query t h
  obtain ⟨hexpr, hselect⟩ := lowers_alike_of (N := fun _ => True) (E := fun _ => True)
    (P := Surql.Term.Formed) hAB .formed (fun _ _ => Surql.Term.formed_param)
    (fun s _ hs hu => hu.formed (hlists s hs)) (fun _ _ _ => trivial) trivial fun _ _ _ _ => trivial
  have hroot := Expr.lowerRoot_agree_of_hidden (hexpr e he) fun s hs => hselect s (hAB.select he hs)
  have hformed := hroot.gives s query t h fun _ _ => trivial
  cases query <;> exact hformed

end QueryTree
