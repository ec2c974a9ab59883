import Mathlib
import QueryTree.Builder.Program

/-!
# Lambdas of built trees

The parameter of a lambda is named after a counter that goes up while the body is built and down
again after it. A tree is seen here by its `Landmark`s: its lambdas and parameters in the order they
are written, each with the number of lambdas around it. Those of a `Program` are read off the
program, without any generated name, and the tree it builds has the same.
-/

namespace QueryTree

/-- A lambda or a parameter of a tree. -/
inductive Landmark where
  /-- A lambda inside `around` others, and the names it declares. -/
  | lambda (around : Nat) (declared : List String)
  /-- A parameter inside `around` lambdas. The lambda that binds it is inside `binder` others. -/
  | use (around : Nat) (binder : Option Nat)
deriving DecidableEq

/-- The innermost lambda that declares `name`, by the number of lambdas around it. What the lambdas
declare is given from the innermost out. -/
def binder? (name : String) : List (List String) → Option Nat
  | [] => none
  | declared :: outer => if name ∈ declared then some outer.length else binder? name outer

namespace Expr

mutual

/-- The landmarks of an expression inside lambdas that declare `scope`. -/
def landmarks (scope : List (List String)) : Expr → List Landmark
  | .parameter name _ => [.use scope.length (binder? name scope)]
  | .lambda params body =>
    let declared := params.map (·.name)
    .lambda scope.length declared :: body.landmarks (declared :: scope)
  | .member base _ _ => base.landmarks scope
  | .call _ _ receiver args _ => landmarksOption scope receiver ++ landmarksList scope args
  | .unary _ operand _ => operand.landmarks scope
  | .binary _ left right _ => left.landmarks scope ++ right.landmarks scope
  | .newObject _ members => landmarksMembers scope members
  | .newArray _ items => landmarksList scope items
  | .construct _ args => landmarksList scope args
  | .custom inner _ => inner.landmarks scope
  | .groupAggregate _ selector _ => landmarksOption scope selector
  | _ => []
termination_by structural e => e

def landmarksOption (scope : List (List String)) : Option Expr → List Landmark
  | none => []
  | some e => e.landmarks scope
termination_by structural e => e

def landmarksList (scope : List (List String)) : List Expr → List Landmark
  | [] => []
  | e :: es => e.landmarks scope ++ landmarksList scope es
termination_by structural es => es

def landmarksMembers (scope : List (List String)) : List (String × Expr) → List Landmark
  | [] => []
  | (_, e) :: es => e.landmarks scope ++ landmarksMembers scope es
termination_by structural es => es

end

theorem landmarks_withType (scope : List (List String)) (e : Expr) (t : Ty) :
    (e.withType t).landmarks scope = e.landmarks scope := by
  cases e <;> rfl

end Expr

namespace Build

/-- What the lambdas around a place declare, from the innermost out. -/
def declared : Nat → List (List String)
  | 0 => []
  | depth + 1 => [paramName depth] :: declared depth

theorem length_declared (depth : Nat) : (declared depth).length = depth := by
  induction depth with
  | zero => rfl
  | succ depth ih => rw [declared, List.length_cons, ih]

theorem paramName_injective : Function.Injective paramName := by
  intro m n h
  have hrepr : Nat.repr m = Nat.repr n := by simpa [paramName] using h
  exact Nat.repr_inj.mp hrepr

/-- `paramName k` belongs to the lambda it was generated for. -/
theorem binder?_paramName {depth k : Nat} (h : k < depth) :
    binder? (paramName k) (declared depth) = some k := by
  induction depth with
  | zero => omega
  | succ depth ih =>
    by_cases hk : k = depth
    · subst hk
      rw [declared, binder?, if_pos (List.mem_singleton_self _), length_declared]
    · have hne : paramName k ∉ [paramName depth] := by
        intro hmem
        exact hk (paramName_injective (List.mem_singleton.mp hmem))
      rw [declared, binder?, if_neg hne]
      exact ih (by omega)

end Build

namespace Program

open Build (paramName)

/-- The landmark of a parameter that a program names itself. -/
def named (scope : List String) (name : String) : Landmark :=
  .use scope.length (binder? name (Build.declared scope.length))

/-- The landmark of a variable: the innermost closure with a variable `name` binds it. What no
closure binds is a parameter of that name. -/
def used (scope : List String) (name : String) : Landmark :=
  .use scope.length ((binder? name (scope.map fun x => [x])).or
    (binder? name (Build.declared scope.length)))

/-- Whether an operator gives a value and no query. -/
def Step.endsQuery : Step → Bool
  | .filter _ | .select _ | .selectMany _ | .groupBy _ => false
  | .orderBy _ _ | .thenBy _ _ | .take _ | .skip _ => false
  | _ => true

mutual

/-- The landmarks of a program inside closures that bind the variables `scope`, the innermost first.
-/
def landmarks (scope : List String) : Program → List Landmark
  | .param name _ => [named scope name]
  | .var name => [used scope name]
  | .lambda _ f => Closure.landmarks scope f
  | .object members => landmarksMembers scope members
  | .array _ items => landmarksList scope items
  | .construct _ args => landmarksList scope args
  | .call _ _ args _ => landmarksList scope args
  | .field base _ _ => base.landmarks scope
  | .invoke receiver _ _ args _ => receiver.landmarks scope ++ landmarksList scope args
  | .withType base _ => base.landmarks scope
  | .convert base _ => base.landmarks scope
  | .binary _ left right => left.landmarks scope ++ right.landmarks scope
  | .not base => base.landmarks scope
  | .neg base => base.landmarks scope
  | .query _ _ _ steps => landmarksSteps scope steps
  | .lit _ _ | .null | .capture _ _ _ | .static _ _ _ => []
termination_by structural p => p

/-- The lambda that a closure becomes, and the landmarks of its body. -/
def Closure.landmarks (scope : List String) : Closure → List Landmark
  | ⟨name, body⟩ => .lambda scope.length [paramName scope.length] :: body.landmarks (name :: scope)
termination_by structural f => f

def Closure.landmarksOption (scope : List String) : Option Closure → List Landmark
  | none => []
  | some f => Closure.landmarks scope f
termination_by structural f => f

def landmarksList (scope : List String) : List Program → List Landmark
  | [] => []
  | p :: ps => p.landmarks scope ++ landmarksList scope ps
termination_by structural ps => ps

def landmarksMembers (scope : List String) : List (String × Program) → List Landmark
  | [] => []
  | (_, p) :: ps => p.landmarks scope ++ landmarksMembers scope ps
termination_by structural ps => ps

def Step.landmarks (scope : List String) : Step → List Landmark
  | .filter f | .select f | .selectMany f | .groupBy f | .orderBy _ f | .thenBy _ f =>
    Closure.landmarks scope f
  | .take p | .skip p | .contains p | .elementAt _ p => p.landmarks scope
  | .distinct => []
  | .test _ f _ | .pick _ f | .aggregate _ f | .average f => Closure.landmarksOption scope f
  | .call _ args _ => landmarksList scope args
termination_by structural s => s

/-- The landmarks of operators in order, up to the first that gives a value. -/
def landmarksSteps (scope : List String) : List Step → List Landmark
  | [] => []
  | s :: steps =>
    Step.landmarks scope s ++ if Step.endsQuery s then [] else landmarksSteps scope steps
termination_by structural steps => steps

end

/-! ## Building -/

end Program

namespace Build

variable {α β : Type} {depth : Nat}

/-- What `x` builds at `depth` satisfies `P`, and the counter is then back at `depth`. -/
def Gives (depth : Nat) (x : Build α) (P : α → Prop) : Prop :=
  P (x.run depth).1 ∧ (x.run depth).2 = depth

namespace Gives

theorem pure {P : α → Prop} {a : α} (h : P a) : Gives depth (pure a) P := ⟨h, rfl⟩

theorem bind {x : Build α} {f : α → Build β} {Q : α → Prop} {P : β → Prop} (hx : Gives depth x Q)
    (hf : ∀ a, Q a → Gives depth (f a) P) : Gives depth (x >>= f) P := by
  obtain ⟨ha, hdepth⟩ := hx
  have hrun : (x >>= f).run depth = (f (x.run depth).1).run depth := by
    show (f (x.run depth).1).run (x.run depth).2 = _
    rw [hdepth]
  unfold Gives
  rw [hrun]
  exact hf _ ha

theorem imp {x : Build α} {P Q : α → Prop} (h : Gives depth x P) (hPQ : ∀ a, P a → Q a) :
    Gives depth x Q :=
  ⟨hPQ _ h.1, h.2⟩

/-- `lambda` counts up for the body and down again after it. -/
theorem lambda {t : Ty} {f : Expr → Build Expr} {P : Expr → Prop}
    (hf : Gives (depth + 1) (f (.parameter (paramName depth) t)) fun body =>
      P (.lambda [⟨paramName depth, t⟩] body)) : Gives depth (Build.lambda t f) P := by
  obtain ⟨hbody, hdepth⟩ := hf
  refine ⟨hbody, ?_⟩
  have hrun : ((Build.lambda t f).run depth).2 = ((f (.parameter (paramName depth) t)).run
      (depth + 1)).2 - 1 := rfl
  rw [hrun, hdepth, Nat.add_sub_cancel]

end Gives

end Build

namespace Program

open Build (paramName Gives)

/-- The variables of closures stand for the parameters of the lambdas that they become. -/
inductive Env.Of : List String → Env → Prop where
  | nil : Env.Of [] []
  | cons {scope : List String} {env : Env} (name : String) (t : Ty) : Env.Of scope env →
    Env.Of (name :: scope) ((name, .parameter (paramName scope.length) t) :: env)

/-- A variable of `scope` stands for the parameter of its lambda, and any other for nothing. -/
theorem Env.Of.lookup {scope : List String} {env : Env} (h : Env.Of scope env) (name : String) :
    (binder? name (scope.map fun x => [x]) = none ∧ env.lookup name = none) ∨
      ∃ k t, binder? name (scope.map fun x => [x]) = some k ∧ k < scope.length ∧
        env.lookup name = some (.parameter (paramName k) t) := by
  induction h with
  | nil => exact .inl ⟨rfl, rfl⟩
  | @cons scope env x t _ ih =>
    by_cases hx : name = x
    · refine .inr ⟨scope.length, t, ?_, by simp, by simp [hx]⟩
      simp [binder?, hx]
    · have hbinder : binder? name ((x :: scope).map fun x => [x]) = binder? name
          (scope.map fun x => [x]) := by
        simp [binder?, hx]
      have hlookup : List.lookup name
          ((x, .parameter (paramName scope.length) t) :: env) = env.lookup name := by
        rw [List.lookup_cons, beq_eq_false_iff_ne.mpr hx]
      rw [hbinder, hlookup]
      rcases ih with hnone | ⟨k, u, hk, hlt, hfound⟩
      · exact .inl hnone
      · exact .inr ⟨k, u, hk, Nat.lt_succ_of_lt hlt, hfound⟩

/-- A variable becomes a parameter that the lambda of its `Closure` binds. -/
theorem Env.Of.landmarks {scope : List String} {env : Env} (h : Env.Of scope env) (name : String) :
    ((env.lookup name).getD (.parameter name .unknown)).landmarks (Build.declared scope.length) =
      [used scope name] := by
  unfold used
  rcases h.lookup name with ⟨hbinder, hnone⟩ | ⟨k, t, hbinder, hlt, hsome⟩
  · rw [hbinder, hnone]
    simp [Expr.landmarks, Build.length_declared]
  · rw [hbinder, hsome]
    simp [Expr.landmarks, Build.length_declared, Build.binder?_paramName hlt]

/-- What is built at `depth`, inside that many closures, has the landmarks of what builds it. -/
def Marked (env : Env) (depth : Nat) (marks : List String → List Landmark)
    (found : List (List String) → List Landmark) : Prop :=
  ∀ scope, Env.Of scope env → scope.length = depth → found (Build.declared depth) = marks scope

section
variable {env : Env} {depth : Nat} {marks marks' : List String → List Landmark}
  {found found' : List (List String) → List Landmark}

theorem Marked.nil : Marked env depth (fun _ => []) fun _ => [] := fun _ _ _ => rfl

theorem Marked.append (h : Marked env depth marks found) (h' : Marked env depth marks' found') :
    Marked env depth (fun scope => marks scope ++ marks' scope) fun scope =>
      found scope ++ found' scope := by
  intro scope hscope hdepth
  show found _ ++ found' _ = _
  rw [h scope hscope hdepth, h' scope hscope hdepth]

theorem Marked.single {e : Expr} (h : Marked env depth marks (Expr.landmarks · e)) :
    Marked env depth marks (Expr.landmarksList · [e]) := by
  intro scope hscope hdepth
  show e.landmarks _ ++ [] = _
  rw [List.append_nil]
  exact h scope hscope hdepth

theorem Marked.withType {e : Expr} (h : Marked env depth marks (Expr.landmarks · e)) (t : Ty) :
    Marked env depth marks (Expr.landmarks · (e.withType t)) := by
  intro scope hscope hdepth
  show (e.withType t).landmarks _ = _
  rw [Expr.landmarks_withType]
  exact h scope hscope hdepth

/-- A `Closure` becomes a lambda one further in, and its variable the parameter of it. -/
theorem Marked.lambda {name : String} {t : Ty} {body : Program} {e : Expr}
    (h : Marked ((name, .parameter (paramName depth) t) :: env) (depth + 1)
      (Program.landmarks · body) (Expr.landmarks · e)) :
    Marked env depth (Closure.landmarks · ⟨name, body⟩)
      (Expr.landmarks · (.lambda [⟨paramName depth, t⟩] e)) := by
  intro scope hscope hdepth
  subst hdepth
  have hbody := h (name :: scope) (.cons name t hscope) rfl
  show Landmark.lambda (Build.declared scope.length).length _ :: _ = Landmark.lambda
    scope.length _ :: _
  rw [Build.length_declared]
  exact congrArg (Landmark.lambda scope.length [paramName scope.length] :: ·) hbody

end

/-- Whether what has been built is a value and no query. -/
def Progress.ended : Progress → Bool
  | .query _ => false
  | .value _ => true

/-- What an operator makes of `q`: its own landmarks come after those of `q`. -/
structure Stepped (env : Env) (depth : Nat) (q : QueryBuilder) (ended : Bool)
    (marks : List String → List Landmark) (r : Progress) : Prop where
  ended : r.ended = ended
  marked : Marked env depth (fun scope => q.expr.landmarks (Build.declared depth) ++ marks scope)
    (Expr.landmarks · r.expr)

section
variable {env : Env} {depth : Nat} {q : QueryBuilder} {marks : List String → List Landmark}
  {method : String} {args : List Expr}

/-- A call on a query with arguments. -/
theorem Stepped.value (h : Marked env depth marks (Expr.landmarksList · args)) (t : Ty) :
    Stepped env depth q true marks (.value (q.call method args t)) where
  ended := rfl
  marked := by
    intro scope hscope hdepth
    exact congrArg (q.expr.landmarks (Build.declared depth) ++ ·) (h scope hscope hdepth)

/-- A call on a query that gives a query again. -/
theorem Stepped.query (h : Marked env depth marks (Expr.landmarksList · args)) (element : Ty) :
    Stepped env depth q false marks (.query (q.chain method args element)) where
  ended := rfl
  marked := (Stepped.value h _).marked

/-- A call on `q` with one argument that has the landmarks `marks`. -/
def Called (env : Env) (depth : Nat) (q : QueryBuilder) (marks : List String → List Landmark)
    (e : Expr) : Prop :=
  ∃ method arg t, Marked env depth marks (Expr.landmarks · arg) ∧ e = q.call method [arg] t

theorem Called.stepped {e : Expr} (h : Called env depth q marks e) :
    Stepped env depth q true marks (.value e) := by
  obtain ⟨method, arg, t, harg, rfl⟩ := h
  exact .value harg.single t

/-- A query that calls go on with, after a call with one argument. -/
def Chained (env : Env) (depth : Nat) (q : QueryBuilder) (marks : List String → List Landmark)
    (r : QueryBuilder) : Prop :=
  ∃ method arg element, Marked env depth marks (Expr.landmarks · arg) ∧
    r = q.chain method [arg] element

theorem Chained.stepped {r : QueryBuilder} (h : Chained env depth q marks r) :
    Stepped env depth q false marks (.query r) := by
  obtain ⟨method, arg, element, harg, rfl⟩ := h
  exact .query harg.single element

section
variable {f : Expr → Build Expr}
  (h : Gives depth (Build.lambda q.element f) fun e => Marked env depth marks (Expr.landmarks · e))
include h

theorem keeping_gives : Gives depth (q.keeping method f) (Chained env depth q marks) :=
  h.bind fun key hkey => .pure ⟨method, key, q.element, hkey, rfl⟩

theorem select_gives : Gives depth (q.select f) (Chained env depth q marks) :=
  h.bind fun selector hselector => .pure ⟨"Select", selector, _, hselector, rfl⟩

theorem selectMany_gives : Gives depth (q.selectMany f) (Chained env depth q marks) :=
  h.bind fun selector hselector => .pure ⟨"SelectMany", selector, _, hselector, rfl⟩

theorem groupBy_gives : Gives depth (q.groupBy f) (Chained env depth q marks) :=
  h.bind fun key hkey => .pure ⟨"GroupBy", key, _, hkey, rfl⟩

theorem test_gives (t : Ty) : Gives depth (q.test method (some f) t) (Called env depth q marks) :=
  h.bind fun selector hselector => .pure ⟨method, selector, t, hselector, rfl⟩

theorem aggregate_gives : Gives depth (q.aggregate method (some f)) (Called env depth q marks) :=
  h.bind fun selector hselector => .pure ⟨method, selector, selector.ty, hselector, rfl⟩

theorem average_gives : Gives depth (q.average (some f)) (Called env depth q marks) :=
  (aggregate_gives h).bind fun _ hcall => by
    obtain ⟨method, selector, t, hselector, rfl⟩ := hcall
    exact .pure ⟨method, selector, .float64, hselector, rfl⟩

end

end

mutual

theorem eval_gives (env : Env) (depth : Nat) : ∀ p : Program,
    Gives depth (p.eval env) fun e => Marked env depth (landmarks · p) (Expr.landmarks · e)
  | .lit _ _ | .null | .capture _ _ _ | .static _ _ _ => .pure .nil
  | .param name t => by
    refine .pure fun scope _ hdepth => ?_
    subst hdepth
    simp [Expr.landmarks, landmarks, named, Build.length_declared]
  | .var name => by
    refine .pure fun scope hscope hdepth => ?_
    subst hdepth
    exact hscope.landmarks name
  | .lambda t f => lambda_gives env depth t f
  | .object members => (evalMembers_gives env depth members).bind fun _ h => .pure h
  | .array _ items => (evalList_gives env depth items).bind fun _ h => .pure h
  | .construct _ args => (evalList_gives env depth args).bind fun _ h => .pure h
  | .call _ _ args _ => (evalList_gives env depth args).bind fun _ h => .pure h
  | .field base _ none => (eval_gives env depth base).bind fun _ h => .pure h
  | .field base _ (some _) => (eval_gives env depth base).bind fun _ h => .pure h
  | .invoke receiver _ _ args _ => (eval_gives env depth receiver).bind fun _ h =>
    (evalList_gives env depth args).bind fun _ hargs => .pure (h.append hargs)
  | .withType base t => (eval_gives env depth base).bind fun _ h => .pure (h.withType t)
  | .convert base _ => (eval_gives env depth base).bind fun _ h => .pure h
  | .binary _ left right => (eval_gives env depth left).bind fun _ h =>
    (eval_gives env depth right).bind fun _ hright => .pure (h.append hright)
  | .not base => (eval_gives env depth base).bind fun _ h => .pure h
  | .neg base => (eval_gives env depth base).bind fun _ h => .pure h
  | .query table element (some name) steps =>
    (runAll_gives env depth (.captured name table element) steps).bind fun _ h => .pure h
  | .query table element none steps =>
    (runAll_gives env depth (.table table element) steps).bind fun _ h => .pure h
termination_by structural p => p

theorem lambda_gives (env : Env) (depth : Nat) (t : Ty) : ∀ f : Closure,
    Gives depth (Build.lambda t (Closure.apply env f)) fun e =>
      Marked env depth (Closure.landmarks · f) (Expr.landmarks · e)
  | ⟨_, body⟩ => .lambda ((eval_gives _ (depth + 1) body).imp fun _ h => h.lambda)
termination_by structural f => f

theorem evalList_gives (env : Env) (depth : Nat) : ∀ ps : List Program,
    Gives depth (evalList env ps) fun es => Marked env depth (landmarksList · ps)
      (Expr.landmarksList · es)
  | [] => .pure .nil
  | p :: ps => (eval_gives env depth p).bind fun _ h =>
    (evalList_gives env depth ps).bind fun _ hrest => .pure (h.append hrest)
termination_by structural ps => ps

theorem evalMembers_gives (env : Env) (depth : Nat) : ∀ ps : List (String × Program),
    Gives depth (evalMembers env ps) fun es =>
      Marked env depth (landmarksMembers · ps) (Expr.landmarksMembers · es)
  | [] => .pure .nil
  | (_, p) :: ps => (eval_gives env depth p).bind fun _ h =>
    (evalMembers_gives env depth ps).bind fun _ hrest => .pure (h.append hrest)
termination_by structural ps => ps

theorem run_gives (env : Env) (depth : Nat) (q : QueryBuilder) : ∀ s : Step,
    Gives depth (Step.run env q s) (Stepped env depth q (Step.endsQuery s) (Step.landmarks · s))
  | .filter f | .orderBy _ f | .thenBy _ f =>
    (keeping_gives (lambda_gives env depth q.element f)).bind fun _ h => .pure h.stepped
  | .select f => (select_gives (lambda_gives env depth q.element f)).bind fun _ h => .pure h.stepped
  | .selectMany f =>
    (selectMany_gives (lambda_gives env depth q.element f)).bind fun _ h => .pure h.stepped
  | .groupBy f =>
    (groupBy_gives (lambda_gives env depth q.element f)).bind fun _ h => .pure h.stepped
  | .take count => (eval_gives env depth count).bind fun _ h => .pure (.query h.single _)
  | .skip count => (eval_gives env depth count).bind fun _ h => .pure (.query h.single _)
  | .distinct => .pure (.value .nil _)
  | .test _ none _ | .pick _ none | .aggregate _ none => .pure (.value .nil _)
  | .average none => .pure (.value .nil _)
  | .test _ (some f) t =>
    (test_gives (lambda_gives env depth q.element f) t).bind fun _ h => .pure h.stepped
  | .pick _ (some f) =>
    (test_gives (lambda_gives env depth q.element f) _).bind fun _ h => .pure h.stepped
  | .aggregate _ (some f) =>
    (aggregate_gives (lambda_gives env depth q.element f)).bind fun _ h => .pure h.stepped
  | .average (some f) =>
    (average_gives (lambda_gives env depth q.element f)).bind fun _ h => .pure h.stepped
  | .contains value => (eval_gives env depth value).bind fun _ h => .pure (.value h.single _)
  | .elementAt _ position =>
    (eval_gives env depth position).bind fun _ h => .pure (.value h.single _)
  | .call _ args t => (evalList_gives env depth args).bind fun _ h => .pure (.value h t)
termination_by structural s => s

theorem runAll_gives (env : Env) (depth : Nat) (q : QueryBuilder) : ∀ steps : List Step,
    Gives depth (Step.runAll env q steps) fun r =>
      Marked env depth (fun scope => q.expr.landmarks (Build.declared depth) ++
        landmarksSteps scope steps) (Expr.landmarks · r.expr)
  | [] => .pure fun scope _ _ => (List.append_nil _).symm
  | s :: steps => (run_gives env depth q s).bind fun r h => by
    obtain ⟨hended, hmarked⟩ := h
    cases r with
    -- A query goes on with the next operator, and a value ends the chain.
    | query q' =>
      refine (runAll_gives env depth q' steps).imp fun r hr scope hscope hdepth => ?_
      have hq : q'.expr.landmarks (Build.declared depth) = _ := hmarked scope hscope hdepth
      have hrest : r.expr.landmarks (Build.declared depth) = _ := hr scope hscope hdepth
      have hgoes : Step.endsQuery s = false := hended.symm
      show r.expr.landmarks _ = _
      rw [hrest, hq]
      simp [landmarksSteps, hgoes]
    | value e =>
      refine .pure fun scope hscope hdepth => ?_
      have he : e.landmarks (Build.declared depth) = _ := hmarked scope hscope hdepth
      have hstops : Step.endsQuery s = true := hended.symm
      show e.landmarks _ = _
      rw [he]
      simp [landmarksSteps, hstops]
termination_by structural steps => steps

end

/-! ## Names -/

/-- The lambdas among `marks` declare one parameter each, named after the number of lambdas around
them. -/
def Numbered (marks : List Landmark) : Prop :=
  ∀ k declared, Landmark.lambda k declared ∈ marks → declared = [paramName k]

theorem Numbered.nil : Numbered [] := by
  intro k declared h
  cases h

theorem Numbered.append {marks marks' : List Landmark} (h : Numbered marks) (h' : Numbered marks') :
    Numbered (marks ++ marks') := by
  intro k declared hmem
  rcases List.mem_append.mp hmem with hmem | hmem
  · exact h k declared hmem
  · exact h' k declared hmem

theorem Numbered.use (around : Nat) (binder : Option Nat) : Numbered [.use around binder] := by
  intro k declared h
  cases List.mem_singleton.mp h

theorem Numbered.lambda {depth : Nat} {marks : List Landmark} (h : Numbered marks) :
    Numbered (.lambda depth [paramName depth] :: marks) := by
  intro k declared hmem
  rcases List.mem_cons.mp hmem with heq | hmem
  · cases heq
    rfl
  · exact h k declared hmem

mutual

theorem numbered_landmarks (scope : List String) : ∀ p : Program, Numbered (landmarks scope p)
  | .lit _ _ | .null | .capture _ _ _ | .static _ _ _ => .nil
  | .param _ _ | .var _ => .use _ _
  | .lambda _ f => numbered_closure scope f
  | .object members => numbered_members scope members
  | .array _ items => numbered_list scope items
  | .construct _ args | .call _ _ args _ => numbered_list scope args
  | .field base _ _ | .withType base _ | .convert base _ | .not base | .neg base =>
    numbered_landmarks scope base
  | .invoke receiver _ _ args _ =>
    (numbered_landmarks scope receiver).append (numbered_list scope args)
  | .binary _ left right => (numbered_landmarks scope left).append (numbered_landmarks scope right)
  | .query _ _ _ steps => numbered_steps scope steps
termination_by structural p => p

theorem numbered_closure (scope : List String) : ∀ f : Closure, Numbered (Closure.landmarks scope f)
  | ⟨name, body⟩ => .lambda (numbered_landmarks (name :: scope) body)
termination_by structural f => f

theorem numbered_list (scope : List String) : ∀ ps : List Program, Numbered (landmarksList scope ps)
  | [] => .nil
  | p :: ps => (numbered_landmarks scope p).append (numbered_list scope ps)
termination_by structural ps => ps

theorem numbered_members (scope : List String) : ∀ ps : List (String × Program),
    Numbered (landmarksMembers scope ps)
  | [] => .nil
  | (_, p) :: ps => (numbered_landmarks scope p).append (numbered_members scope ps)
termination_by structural ps => ps

theorem numbered_step (scope : List String) : ∀ s : Step, Numbered (Step.landmarks scope s)
  | .filter f | .select f | .selectMany f | .groupBy f | .orderBy _ f | .thenBy _ f =>
    numbered_closure scope f
  | .take p | .skip p | .contains p | .elementAt _ p => numbered_landmarks scope p
  | .distinct | .test _ none _ | .pick _ none | .aggregate _ none | .average none => .nil
  | .test _ (some f) _ | .pick _ (some f) | .aggregate _ (some f) | .average (some f) =>
    numbered_closure scope f
  | .call _ args _ => numbered_list scope args
termination_by structural s => s

theorem numbered_steps (scope : List String) : ∀ steps : List Step,
    Numbered (landmarksSteps scope steps)
  | [] => .nil
  | s :: steps => (numbered_step scope s).append (by
    by_cases hends : Step.endsQuery s = true
    · rw [if_pos hends]
      exact .nil
    · rw [if_neg hends]
      exact numbered_steps scope steps)
termination_by structural steps => steps

end

/-- Nested lambdas of a built tree have different parameters: one inside `k` others declares
`paramName k` only. The tree has the lambdas and parameters that the program says, in order and at
the same depth, and the variable of a closure is bound by the lambda of that closure. The counter is
back where it was after every call. -/
theorem builder_lambdas_apart :
    (∀ p : Program, p.build.landmarks [] = p.landmarks [] ∧
        ∀ k declared, Landmark.lambda k declared ∈ p.build.landmarks [] →
          declared = ["_x" ++ Nat.repr k]) ∧
      Function.Injective (fun k => "_x" ++ Nat.repr k) ∧
      (∀ (p : Program) (env : Env) (depth : Nat), ((p.eval env).run depth).2 = depth) ∧
      ∀ (s : Step) (env : Env) (q : QueryBuilder) (depth : Nat),
        ((Step.run env q s).run depth).2 = depth := by
  have hmarks : ∀ p : Program, p.build.landmarks [] = p.landmarks [] := fun p =>
    (eval_gives [] 0 p).1 [] .nil rfl
  refine ⟨fun p => ⟨hmarks p, ?_⟩, Build.paramName_injective, fun p env depth =>
    ?_, fun s env q depth => ?_⟩
  · rw [hmarks p]
    exact numbered_landmarks [] p
  · exact (eval_gives env depth p).2
  · exact (run_gives env depth q s).2

/-- The inner closure hides the variable of the outer one, but not its parameter, which is named by
the program. -/
example :
    (lambda .unknown ⟨"x",
    .binary .add (.lambda .unknown ⟨"x", .binary .add (.var "x") (.param "_x0" none)⟩)
    (.var "x")⟩).build.landmarks [] =
      [.lambda 0 ["_x0"], .lambda 1 ["_x1"], .use 2 (some 1), .use 2 (some 0),
        .use 1 (some 0)] := by
  decide

end Program

end QueryTree
