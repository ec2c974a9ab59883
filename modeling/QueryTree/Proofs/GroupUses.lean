import Mathlib.Algebra.GroupWithZero.Nat
import Mathlib.Algebra.Order.BigOperators.Group.List
import Mathlib.Algebra.Order.Group.Nat
import QueryTree.Proofs.Operator

/-!
# Counting the uses of a group

A selector over groups is merged if its variable is used as many times as there are keys and
aggregates in it. Each of these is a use of its own, so the counts agree only if no use is left
over, in the whole body and in each part.
-/

namespace QueryTree

namespace GroupUses

variable {g : String} {e c : Expr}

/-- Nothing inside a lambda that `shadows` the name is a use. -/
theorem of_shadows (h : e.shadows g = true) : of e g = ⟨0, 0, 0⟩ := by
  have hparam : e.isParameter g = false := by cases e <;> first | rfl | cases h
  have hkey : e.isKeyOf g = false := by cases e <;> first | rfl | cases h
  have hagg : e.aggregateOf? g = none := by cases e <;> first | rfl | cases h
  simp [of, Expr.walk_eq, h, hparam, hkey, hagg]

/-- The uses in `e` are its own and those in its children. -/
theorem of_eq (h : e.shadows g = false) : of e g =
    ⟨(e.children.map fun c => (of c g).total).sum + if e.isParameter g then 1 else 0,
      (e.children.map fun c => (of c g).key).sum + if e.isKeyOf g then 1 else 0,
      (e.children.map fun c => (of c g).aggregates).sum + if (e.aggregateOf? g).isSome then 1
        else 0⟩ := by
  unfold of
  rw [Expr.walk_eq]
  simp only [h, Bool.not_false, if_true, List.countP_cons, List.countP_flatMap, Function.comp_def]

theorem of_isParameter (h : e.isParameter g = true) : of e g = ⟨1, 0, 0⟩ := by
  have hshadows : e.shadows g = false := by cases e <;> first | rfl | cases h
  have hchildren : e.children = [] := by cases e <;> first | rfl | cases h
  have hkey : e.isKeyOf g = false := by cases e <;> first | rfl | cases h
  have hagg : e.aggregateOf? g = none := by cases e <;> first | rfl | cases h
  simp [of_eq hshadows, hchildren, h, hkey, hagg]

/-- A node that `isKeyOf` a group is one use of it. -/
theorem of_isKeyOf (h : e.isKeyOf g = true) : of e g = ⟨1, 1, 0⟩ := by
  unfold Expr.isKeyOf at h
  split at h
  · rename_i base t
    have hparam : (Expr.member base "Key" t).isParameter g = false := rfl
    rw [of_eq rfl]
    simp [Expr.children, of_isParameter h, hparam, Expr.isKeyOf, Expr.aggregateOf?, h]
  · cases h

/-- An aggregate is one use of `g`, besides those in its function. -/
theorem of_aggregateOf? {kind : AggregateKind} {method : String} {rest : List Expr} {t : Ty}
    (h : e.aggregateOf? g = some (kind, method, rest, t)) : of e g =
    ⟨(rest.map fun c => (of c g).total).sum + 1, (rest.map fun c => (of c g).key).sum,
      (rest.map fun c => (of c g).aggregates).sum + 1⟩ := by
  obtain ⟨group, rfl, hgroup⟩ := Expr.aggregateOf?_eq_some h
  rw [of_eq rfl, h]
  simp [Expr.children, of_isParameter hgroup, Expr.isParameter, Expr.isKeyOf]
  omega

/-- Every `key` and every aggregate is a use of its own. -/
theorem key_add_aggregates_le (e : Expr) : (of e g).key + (of e g).aggregates ≤ (of e g).total := by
  induction e using Expr.childrenInduction with
  | step e ih =>
    -- For some of the children, since the variable of an aggregate is counted with the aggregate.
    have hsum : ∀ cs : List Expr, cs ⊆ e.children →
        (cs.map fun c => (of c g).key).sum + (cs.map fun c => (of c g).aggregates).sum ≤
          (cs.map fun c => (of c g).total).sum := by
      intro cs hcs
      rw [← List.sum_map_add]
      exact List.sum_le_sum fun c hc => ih c (hcs hc)
    by_cases hshadows : e.shadows g = true
    · simp [of_shadows hshadows]
    by_cases hkey : e.isKeyOf g = true
    · simp [of_isKeyOf hkey]
    cases hagg : e.aggregateOf? g with
    | some aggregate =>
      obtain ⟨kind, method, rest, t⟩ := aggregate
      obtain ⟨group, rfl, hgroup⟩ := Expr.aggregateOf?_eq_some hagg
      have hrest := hsum rest (List.subset_cons_self group rest)
      rw [of_aggregateOf? hagg]
      simp only
      omega
    | none =>
      have hkids := hsum e.children (List.Subset.refl _)
      rw [of_eq (by simpa using hshadows)]
      simp only [hkey, hagg, Option.isSome_none, Bool.false_eq_true, if_false]
      omega

theorem other_eq_false :
    (of e g).other = false ↔ (of e g).total ≤ (of e g).key + (of e g).aggregates := by
  simp [other]

/-- If a sum of uses has no `other` uses, then each has none. -/
theorem other_of_sum {cs : List Expr} (h : (cs.map fun c => (of c g).total).sum ≤
      (cs.map fun c => (of c g).key).sum + (cs.map fun c => (of c g).aggregates).sum)
    (hc : c ∈ cs) : (of c g).other = false := by
  rw [other_eq_false]
  by_contra hlt
  have hlt' := List.sum_lt_sum (fun c => (of c g).key + (of c g).aggregates)
    (fun c => (of c g).total) (fun c _ => key_add_aggregates_le c) ⟨c, hc, Nat.lt_of_not_le hlt⟩
  rw [List.sum_map_add] at hlt'
  omega

/-- A group without `other` uses is not used by itself. -/
theorem isParameter_of_other (h : (of e g).other = false) : e.isParameter g = false := by
  by_contra hparam
  rw [of_isParameter (by simpa using hparam)] at h
  cases h

theorem other_child (h : (of e g).other = false) (hshadows : e.shadows g = false)
    (hkey : e.isKeyOf g = false) (hagg : e.aggregateOf? g = none) (hc : c ∈ e.children) :
    (of c g).other = false := by
  refine other_of_sum ?_ hc
  have hparam := isParameter_of_other h
  rw [other_eq_false, of_eq hshadows] at h
  simpa [hparam, hkey, hagg] using h

end GroupUses

end QueryTree
