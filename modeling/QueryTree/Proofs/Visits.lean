import QueryTree.Proofs.Tree

/-!
# Replacing visits what walking visits

What is counted by walking a tree is filled in by replacing nodes. Both come to the same nodes in
the same order, so what has been counted is what gets replaced.
-/

namespace QueryTree.Expr

section
variable {m : Type → Type} [Monad m]

/-- Looks at a node, and lets it take its own place if `skip` says so. -/
def visit (look : Expr → m Unit) (skip : Expr → Bool) (node : Expr) : m (Option Expr) := do
  look node
  return if skip node then some node else none

variable [LawfulMonad m]

/-- `replaceM` that only looks at nodes looks at those of a `walk`, whatever looking at a node does.
-/
theorem replaceM_visit (look : Expr → m Unit) (skip : Expr → Bool) (e : Expr) :
    e.replaceM (visit look skip) = (fun _ => e) <$> forM (e.walk fun node => !skip node) look := by
  induction e using childrenInduction with
  | step e ih =>
    -- The children are rebuilt one after the other, and each is walked to its end before the next
    -- is looked at.
    have hkids : ∀ cs ⊆ e.children, cs.mapM (replaceM (visit look skip)) =
        (fun _ => cs) <$> forM (cs.flatMap (walk fun node => !skip node)) look := by
      intro cs hcs
      induction cs with
      | nil => simp
      | cons c cs ihcs =>
        obtain ⟨hc, hcs⟩ := List.cons_subset.mp hcs
        simp [ih c hc, ihcs hcs]
    rw [replaceM_eq, walk_eq, visit, List.forM_cons, bind_assoc, map_bind]
    refine bind_congr fun _ => ?_
    cases hskip : skip e with
    | true => simp
    | false => simp [hkids e.children (List.Subset.refl _)]

end

/-- Writes down `node`, and gives `node` itself if `skip` says so. -/
def record (skip : Expr → Bool) (node : Expr) :
    StateT (List Expr) (Except Error) (Option Expr) := do
  modify (· ++ [node])
  return if skip node then some node else none

theorem run_forM_modify (nodes seen : List Expr) :
    (forM nodes fun node => modify (· ++ [node]) : StateT (List Expr) (Except Error) Unit).run
      seen = .ok ((), seen ++ nodes) := by
  induction nodes generalizing seen with
  | nil =>
    rw [List.append_nil]
    rfl
  | cons node nodes ih => simp [ih]

/-- `replaceM` that puts every skipped node in its own place gives the tree back, and asks about the
nodes that `walk` visits when it skips the children of the same nodes, in the same order. -/
theorem replacing_visits_walk (skip : Expr → Bool) (e : Expr) (seen : List Expr) :
    (e.replaceM (record skip)).run seen = .ok (e, seen ++ e.walk fun node => !skip node) := by
  have hrecord : record skip = visit (fun node => modify (· ++ [node])) skip := rfl
  rw [hrecord, replaceM_visit, StateT.run_map, run_forM_modify]
  rfl

end QueryTree.Expr
