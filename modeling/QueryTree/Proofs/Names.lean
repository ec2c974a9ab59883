import QueryTree.Proofs.Tree

/-!
# Free parameters

The names of the parameters that a tree uses without declaring them. Selects are leaves here as they
are for every traversal.
-/

namespace QueryTree.Expr

mutual

/-- The parameters used in an expression outside a lambda that declares them. -/
def freeNames : Expr → List String
  | .parameter name _ => [name]
  | .member base _ _ => base.freeNames
  | .call _ _ receiver args _ => freeNamesOption receiver ++ freeNamesList args
  | .unary _ operand _ => operand.freeNames
  | .binary _ left right _ => left.freeNames ++ right.freeNames
  | .lambda params body => body.freeNames.filter fun name => !params.any (·.name == name)
  | .newObject _ members => freeNamesMembers members
  | .newArray _ items => freeNamesList items
  | .construct _ args => freeNamesList args
  | .custom inner _ => inner.freeNames
  | .groupAggregate _ selector _ => freeNamesOption selector
  | _ => []
termination_by structural e => e

def freeNamesOption : Option Expr → List String
  | none => []
  | some e => e.freeNames
termination_by structural e => e

def freeNamesList : List Expr → List String
  | [] => []
  | e :: es => e.freeNames ++ freeNamesList es
termination_by structural es => es

def freeNamesMembers : List (String × Expr) → List String
  | [] => []
  | (_, e) :: es => e.freeNames ++ freeNamesMembers es
termination_by structural es => es

end

theorem mem_freeNamesOption {name : String} {e : Option Expr} :
    name ∈ freeNamesOption e ↔ ∃ c ∈ e.toList, name ∈ c.freeNames := by
  cases e <;> simp [freeNamesOption]

theorem mem_freeNamesList {name : String} {es : List Expr} :
    name ∈ freeNamesList es ↔ ∃ c ∈ es, name ∈ c.freeNames := by
  induction es with
  | nil => simp [freeNamesList]
  | cons e es ih => simp [freeNamesList, ih]

theorem mem_freeNamesMembers {name : String} {es : List (String × Expr)} :
    name ∈ freeNamesMembers es ↔ ∃ c ∈ es.map (·.2), name ∈ c.freeNames := by
  induction es with
  | nil => simp [freeNamesMembers]
  | cons e es ih => obtain ⟨n, e⟩ := e; simp [freeNamesMembers, ih]

/-- A name is in `freeNames` of a parameter of that name, and of a node that does not declare it if
it is free in a child. -/
theorem mem_freeNames {name : String} {e : Expr} :
    name ∈ e.freeNames ↔
      e.isParameter name = true ∨
        e.shadows name = false ∧ ∃ c ∈ e.children, name ∈ c.freeNames := by
  cases e with
  | parameter n t =>
    simp only [freeNames, isParameter, children, List.mem_singleton, List.not_mem_nil, false_and,
      exists_const, and_false, or_false, beq_iff_eq]
    exact eq_comm
  -- Only a lambda declares names.
  | lambda params body =>
    simp only [freeNames, List.mem_filter, isParameter, shadows, children, List.mem_singleton,
      exists_eq_left, Bool.false_eq_true, false_or, Bool.not_eq_true', and_comm]
  | call surface method receiver args t =>
    simp [freeNames, isParameter, shadows, children, mem_freeNamesOption, mem_freeNamesList,
      or_and_right, exists_or]
  | newObject t members =>
    simp only [freeNames, isParameter, shadows, children, mem_freeNamesMembers,
      Bool.false_eq_true, false_or, true_and]
  | newArray t items => simp [freeNames, isParameter, shadows, children, mem_freeNamesList]
  | construct t args => simp [freeNames, isParameter, shadows, children, mem_freeNamesList]
  | groupAggregate kind selector t =>
    simp [freeNames, isParameter, shadows, children, mem_freeNamesOption]
  | _ => simp [freeNames, isParameter, shadows, children]

theorem mem_freeNames_of_child {name : String} {c e : Expr} (hc : c ∈ e.children)
    (hs : e.shadows name = false) (h : name ∈ c.freeNames) : name ∈ e.freeNames :=
  mem_freeNames.mpr (.inr ⟨hs, c, hc, h⟩)

theorem mem_freeNames_of_isParameter {name : String} {e : Expr} (h : e.isParameter name = true) :
    name ∈ e.freeNames :=
  mem_freeNames.mpr (.inl h)

theorem eq_parameter_of_isParameter {name : String} {e : Expr} (h : e.isParameter name = true) :
    ∃ t, e = .parameter name t := by
  cases e with
  | parameter other t =>
    obtain rfl : other = name := by simpa [isParameter] using h
    exact ⟨t, rfl⟩
  | _ => cases h

/-- `unquote` keeps the free names. -/
theorem mem_freeNames_unquote {name : String} {e : Expr} :
    name ∈ e.unquote.freeNames ↔ name ∈ e.freeNames := by
  induction e using unquote.induct with
  | case1 operand t ih => exact ih
  | case2 e hquote =>
    rw [unquote]
    exact hquote

section
variable {e : Expr} {x y : String}

theorem eq_of_isParameter (hx : e.isParameter x = true) (hy : y ∈ e.freeNames) : y = x := by
  obtain ⟨t, rfl⟩ := eq_parameter_of_isParameter hx
  simpa [freeNames] using hy

/-- What is free in `body` and not declared by `ps` is free in the lambda, also with quotes. -/
theorem mem_freeNames_of_body {ps : List LambdaParam} {body : Expr}
    (h : e.unquote = .lambda ps body) (hx : x ∈ body.freeNames)
    (hps : ps.any (·.name == x) = false) : x ∈ e.freeNames := by
  apply mem_freeNames_unquote.mp
  rw [h]
  exact mem_freeNames_of_child (List.mem_singleton_self body) hps hx

/-- What is free in a lambda, also with quotes, is free in `body` and not declared. -/
theorem mem_freeNames_body {ps : List LambdaParam} {body : Expr} (h : e.unquote = .lambda ps body)
    (hx : x ∈ e.freeNames) : x ∈ body.freeNames ∧ ps.any (·.name == x) = false := by
  rw [← mem_freeNames_unquote, h] at hx
  simpa [freeNames] using hx

end

theorem shadows_withChildren (name : String) (e : Expr) (cs : List Expr) :
    (e.withChildren cs).shadows name = e.shadows name :=
  withChildren_congr (f := (·.shadows name)) (fun h => by cases h <;> rfl) e cs

theorem isParameter_withChildren (name : String) (e : Expr) (cs : List Expr) :
    (e.withChildren cs).isParameter name = e.isParameter name :=
  withChildren_congr (f := (·.isParameter name)) (fun h => by cases h <;> rfl) e cs

end QueryTree.Expr
