import QueryTree.Proofs.Chain
import QueryTree.Proofs.Lockstep
import QueryTree.Proofs.Naming
import QueryTree.Proofs.Operator

/-!
# Substituting for a parameter

Variables of lambdas are filled in by substituting terms without parameters. The parameter is gone
and nothing else is: other parameters stay, trees without it stay as they are, and the order of two
substitutions makes no difference.
-/

namespace QueryTree

namespace Expr

variable {e r s : Expr} {x y : String}

/-- Nothing is filled in where `x` is not free. -/
theorem substitute_of_not_mem (h : x ∉ e.freeNames) : e.substitute x r = e := by
  induction e using childrenInduction with
  | step e ih =>
    have hparam : e.isParameter x ≠ true := fun hparam => h (mem_freeNames_of_isParameter hparam)
    rw [substitute_eq, if_neg hparam]
    split
    · rfl
    · rename_i hshadows
      have hkids : ∀ c ∈ e.children, c.substitute x r = c := by
        intro c hc
        refine ih c hc fun hx => h ?_
        exact mem_freeNames_of_child hc (by simpa using hshadows) hx
      rw [List.map_congr_left hkids, List.map_id', withChildren_children]

theorem mem_freeNames_substitute_of_ne (hy : y ∈ e.freeNames) (hne : y ≠ x) :
    y ∈ (e.substitute x r).freeNames :=
  (filling_freeNames y).substitute (fun _ hx hy => absurd (eq_of_isParameter hx hy) hne) hy

theorem shadows_eq_false (hx : x ∈ e.freeNames) : e.shadows x = false := by
  rcases mem_freeNames.mp hx with hparam | ⟨hshadows, -⟩
  · obtain ⟨t, rfl⟩ := eq_parameter_of_isParameter hparam
    rfl
  · exact hshadows

/-- `substitute` of two parameters, one of which is not free, can be exchanged. -/
theorem substitute_comm_of_not_mem (hx : x ∉ e.freeNames) (hs : s.freeNames = []) :
    (e.substitute x r).substitute y s = (e.substitute y s).substitute x r := by
  have hx' : x ∉ (e.substitute y s).freeNames := by
    intro h
    rcases mem_freeNames_substitute h with ⟨h, -⟩ | h
    · exact hx h
    · simp [hs] at h
  rw [substitute_of_not_mem hx, substitute_of_not_mem hx']

theorem substitute_comm (hr : r.freeNames = []) (hs : s.freeNames = []) (hne : y ≠ x) (e : Expr) :
    (e.substitute x r).substitute y s = (e.substitute y s).substitute x r := by
  induction e using childrenInduction with
  | step e ih =>
    -- A node in which both are free is none of the two and declares neither, so both substitutions
    -- enter it.
    by_cases hx : x ∈ e.freeNames
    · by_cases hy : y ∈ e.freeNames
      · have hpx : e.isParameter x = false := by
          rw [Bool.eq_false_iff]
          exact fun h => hne (eq_of_isParameter h hy)
        have hpy : e.isParameter y = false := by
          rw [Bool.eq_false_iff]
          exact fun h => hne (eq_of_isParameter h hx).symm
        have hsx := shadows_eq_false hx
        have hsy := shadows_eq_false hy
        have hkids : e.children.map (fun c => (c.substitute x r).substitute y s) =
            e.children.map fun c => (c.substitute y s).substitute x r := List.map_congr_left ih
        simp [substitute_eq e, substitute_eq (e.withChildren _), isParameter_withChildren,
          shadows_withChildren, children_withChildren, withChildren_withChildren, Function.comp_def,
          *]
      · exact (substitute_comm_of_not_mem hy hr).symm
    · exact substitute_comm_of_not_mem hx hs

/-- Substituting what has no parameters never fails. It takes `x` away and no other parameter,
leaves a tree as it is in which `x` is not free, and goes with any other such substitution in either
order. -/
theorem substituting_removes_parameter (hr : r.freeNames = []) (e : Expr) (x : String) :
    e.replaceM (fun node => Except.ok (substituteNode x r node)) =
    (.ok (e.substitute x r) : Except Error Expr) ∧
    (∀ y, y ∈ (e.substitute x r).freeNames ↔ y ∈ e.freeNames ∧ y ≠ x) ∧
    (x ∉ e.freeNames → e.substitute x r = e) ∧
    ∀ y s, y ≠ x → s.freeNames = [] →
      (e.substitute x r).substitute y s = (e.substitute y s).substitute x r := by
  refine ⟨replaceM_pure _ e, fun y =>
    ⟨fun hy => ?_, fun h => mem_freeNames_substitute_of_ne h.1 h.2⟩,
    substitute_of_not_mem, fun y s hne hs => substitute_comm hr hs hne e⟩
  rcases mem_freeNames_substitute hy with h | h
  · exact h
  · simp [hr] at h

end Expr

namespace Sample

/-- Whether `u` is `v` and has a post, where the variable for posts is called `u` too. -/
def authorOfPost : Expr :=
  ((col "u" "id").eq (col "v" "id")).and
    (on (rows "post") "Any" [fn "u" ((col "u" "author").eq (col "v" "id"))])

end Sample

section
open Sample

theorem substituting_removes_parameter_authorOfPost :
    let u : Expr := .row ⟨0⟩ .unknown
    let v : Expr := .row ⟨1⟩ .unknown
    u.freeNames = [] ∧ v.freeNames = [] ∧ authorOfPost.freeNames = ["u", "v", "v"] ∧
      (∀ y, y ∈ (authorOfPost.substitute "u" u).freeNames ↔ y ∈ ["u", "v", "v"] ∧ y ≠ "u") ∧
      authorOfPost.substitute "w" u = authorOfPost ∧
      (authorOfPost.substitute "u" u).substitute "v" v =
        (authorOfPost.substitute "v" v).substitute "u" u := by
  intro u v
  have hu := Expr.substituting_removes_parameter (r := u) rfl authorOfPost "u"
  have hw := Expr.substituting_removes_parameter (r := u) rfl authorOfPost "w"
  exact ⟨rfl, rfl, rfl, hu.2.1, hw.2.2.1 (by decide), hu.2.2.2 "v" v (by decide) rfl⟩

end

end QueryTree
