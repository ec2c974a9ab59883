import QueryTree.Proofs.Names
import QueryTree.Proofs.Sorting

/-!
# The meaning of scalar expressions

An `Interpretation` says what a node means, given what its children mean; nothing else is assumed
but that a conjunction is one. A parameter means what the `Env` says, a row the current row of its
select, and a lambda a function.
-/

namespace QueryTree

/-- `e` with nothing in the place of its children. -/
def Expr.shape (e : Expr) : Expr :=
  e.withChildren (e.children.map fun _ => .constant .null .unknown)

theorem Expr.substitute_eq (e : Expr) (x : String) (v : Expr) :
    e.substitute x v =
      if e.isParameter x then v
      else if e.shadows x then e
      else e.withChildren (e.children.map fun c => c.substitute x v) := by
  unfold substitute
  rw [replace_eq]
  cases hp : e.isParameter x with
  | true => simp [substituteNode, hp]
  | false =>
    cases hs : e.shadows x with
    | true => simp [substituteNode, hp, hs]
    | false =>
      simp only [substituteNode, hp, hs, Bool.false_eq_true, if_false]

/-- Whether a node stands for something that the environment says. -/
def Expr.isVariable : Expr → Bool
  | .parameter _ _ | .row _ _ | .lambda _ _ => true
  | _ => false

theorem Expr.isVariable_withChildren (e : Expr) (cs : List Expr) :
    (e.withChildren cs).isVariable = e.isVariable :=
  withChildren_congr (f := isVariable) (fun h => by cases h <;> rfl) e cs

/-- What nodes mean. -/
structure Interpretation (V : Type) extends Comparison V where
  /-- The meaning of a node, by its shape and what its children mean. -/
  node : Expr → List V → V
  /-- The meaning of a function, by its parameters and its values. -/
  lambda : List LambdaParam → ((String → V) → V) → V
  /-- Whether a condition is satisfied. -/
  holds : V → Bool
  /-- How many rows a value says. -/
  count : V → Nat
  holds_and : ∀ (t : Ty) (a b : V),
    holds (node (Expr.binary .andAlso (.constant .null .unknown) (.constant .null .unknown) t)
      [a, b]) = (holds a && holds b)

/-- What parameters and rows stand for. -/
structure Env (V : Type) where
  params : String → V
  rows : ScopeId → V

namespace Env

variable {V : Type}

/-- Inside a lambda with the parameters `ps`, which are `given`. -/
def binding (ρ : Env V) (ps : List LambdaParam) (given : String → V) : Env V :=
  { ρ with params := fun name => if ps.any (·.name == name) then given name else ρ.params name }

/-- With `v` for the parameter `x`. -/
def set (ρ : Env V) (x : String) (v : V) : Env V :=
  { ρ with params := fun name => if name = x then v else ρ.params name }

theorem binding_of_not {ρ : Env V} {ps : List LambdaParam} {given : String → V} {y : String}
    (h : ps.any (·.name == y) = false) : (ρ.binding ps given).params y = ρ.params y := by
  simp only [binding, h]
  rfl

theorem set_binding {ρ : Env V} {ps : List LambdaParam} {given : String → V} {x : String} {v : V}
    (h : ps.any (·.name == x) = true) : (ρ.set x v).binding ps given = ρ.binding ps given := by
  unfold binding set
  congr 1
  funext y
  by_cases hy : y = x
  · subst hy
    rw [if_pos h, if_pos h]
  · simp only [if_neg hy]

theorem set_binding_of_not {ρ : Env V} {ps : List LambdaParam} {given : String → V} {x : String}
    {v : V} (h : ps.any (·.name == x) = false) :
    (ρ.set x v).binding ps given = (ρ.binding ps given).set x v := by
  unfold binding set
  congr 1
  funext y
  by_cases hy : y = x
  · subst hy
    rw [h]
    simp
  · simp only [if_neg hy]

/-- With the current row `v` of the select with `scope`. -/
def withRow (ρ : Env V) (scope : ScopeId) (v : V) : Env V :=
  { ρ with rows := fun c => if c = scope then v else ρ.rows c }

end Env

namespace Interpretation

section
variable {V : Type} (I : Interpretation V)

mutual

/-- The meaning of an expression. -/
def value : Env V → Expr → V
  | ρ, .parameter name _ => ρ.params name
  | ρ, .row scope _ => ρ.rows scope
  | ρ, .lambda ps body => I.lambda ps fun given => value (ρ.binding ps given) body
  | ρ, .member base name t => I.node (Expr.member base name t).shape [value ρ base]
  | ρ, .call surface method receiver args t =>
    I.node (Expr.call surface method receiver args t).shape (valueOption ρ receiver ++
      valueList ρ args)
  | ρ, .unary op operand t => I.node (Expr.unary op operand t).shape [value ρ operand]
  | ρ, .binary op left right t =>
    I.node (Expr.binary op left right t).shape [value ρ left, value ρ right]
  | ρ, .newObject t members => I.node (Expr.newObject t members).shape (valueMembers ρ members)
  | ρ, .newArray t items => I.node (Expr.newArray t items).shape (valueList ρ items)
  | ρ, .construct t args => I.node (Expr.construct t args).shape (valueList ρ args)
  | ρ, .custom inner t => I.node (Expr.custom inner t).shape [value ρ inner]
  | ρ, .groupAggregate kind selector t =>
    I.node (Expr.groupAggregate kind selector t).shape (valueOption ρ selector)
  | _, e => I.node e.shape []
termination_by structural _ e => e

def valueOption : Env V → Option Expr → List V
  | _, none => []
  | ρ, some e => [value ρ e]
termination_by structural _ e => e

def valueList : Env V → List Expr → List V
  | _, [] => []
  | ρ, e :: es => value ρ e :: valueList ρ es
termination_by structural _ es => es

def valueMembers : Env V → List (String × Expr) → List V
  | _, [] => []
  | ρ, (_, e) :: es => value ρ e :: valueMembers ρ es
termination_by structural _ es => es

end

theorem valueOption_eq (ρ : Env V) (e : Option Expr) :
    I.valueOption ρ e = e.toList.map (I.value ρ) := by
  cases e <;> simp [valueOption]

theorem valueList_eq (ρ : Env V) (es : List Expr) : I.valueList ρ es = es.map (I.value ρ) := by
  induction es with
  | nil => rfl
  | cons e es ih => simp [valueList, ih]

theorem valueMembers_eq (ρ : Env V) (es : List (String × Expr)) :
    I.valueMembers ρ es = (es.map (·.2)).map (I.value ρ) := by
  induction es with
  | nil => rfl
  | cons e es ih => obtain ⟨name, e⟩ := e; simp [valueMembers, ih]

/-- A node that is no variable means what its `shape` makes of the meanings of its children. -/
theorem value_eq {ρ : Env V} {e : Expr} (h : e.isVariable = false) :
    I.value ρ e = I.node e.shape (e.children.map (I.value ρ)) := by
  cases e with
  | parameter name t => cases h
  | row scope t => cases h
  | lambda ps body => cases h
  | _ => simp [value, Expr.children, valueOption_eq, valueList_eq, valueMembers_eq]

/-- `value` depends on what free parameters and rows stand for only. -/
theorem value_congr {e : Expr} {ρ ρ' : Env V} (hp : ∀ y ∈ e.freeNames, ρ.params y = ρ'.params y)
    (hr : ∀ scope t, .row scope t ∈ e.nodes → ρ.rows scope = ρ'.rows scope) :
    I.value ρ e = I.value ρ' e := by
  induction e using Expr.childrenInduction generalizing ρ ρ' with
  | step e ih =>
    have hrc : ∀ c ∈ e.children, ∀ scope t, .row scope t ∈ c.nodes →
        ρ.rows scope = ρ'.rows scope :=
      fun c hc scope t h => hr scope t (Expr.mem_nodes_of_child hc h)
    cases e with
    | parameter name t => exact hp name (by simp [Expr.freeNames])
    | row scope t => exact hr scope t (Expr.mem_nodes_self _)
    | lambda ps body =>
      have hbody : body ∈ (Expr.lambda ps body).children := by simp [Expr.children]
      simp only [value]
      congr 1
      funext given
      refine ih body hbody (fun y hy => ?_) (hrc body hbody)
      simp only [Env.binding]
      -- A variable that the lambda declares gets the same value on both sides.
      cases hs : ps.any (·.name == y) with
      | true => rfl
      | false => exact hp y (Expr.mem_freeNames_of_child hbody hs hy)
    | _ =>
      rw [I.value_eq rfl, I.value_eq rfl, List.map_congr_left fun c hc => ih c hc
        (fun y hy => hp y (Expr.mem_freeNames_of_child hc rfl hy)) (hrc c hc)]

theorem shape_withChildren {e : Expr} {cs : List Expr} (h : cs.length = e.children.length) :
    (e.withChildren cs).shape = e.shape := by
  unfold Expr.shape
  rw [Expr.children_withChildren h, List.map_const', List.map_const', h]
  cases e with
  | call surface method receiver args t =>
    rcases receiver with _ | r <;> rcases cs with _ | ⟨c, cs⟩ <;> rfl
  | groupAggregate kind selector t =>
    rcases selector with _ | s <;> rcases cs with _ | ⟨c, _ | ⟨d, cs⟩⟩ <;> rfl
  | binary op l r t => rcases cs with _ | ⟨c, _ | ⟨d, _ | ⟨y, cs⟩⟩⟩ <;> rfl
  | newObject t members =>
    simp only [Expr.children, List.length_map] at h
    simp [Expr.withChildren, List.map_fst_zip, h, Expr.children]
  | _ => rcases cs with _ | ⟨c, _ | ⟨d, cs⟩⟩ <;> rfl

/-- Substituting is giving `x` the meaning of `v`, if no lambda on the way declares a name that `v`
uses. -/
theorem value_substitute {e v : Expr} {x : String} {ρ : Env V}
    (h : ∀ n ∈ e.nodes, ∀ y ∈ v.freeNames, n.shadows y = false) :
    I.value ρ (e.substitute x v) = I.value (ρ.set x (I.value ρ v)) e := by
  induction e using Expr.childrenInduction generalizing ρ with
  | step e ih =>
    have hc : ∀ c ∈ e.children, ∀ n ∈ c.nodes, ∀ y ∈ v.freeNames, n.shadows y = false :=
      fun c hc n hn => h n (Expr.mem_nodes_of_child hc hn)
    rw [Expr.substitute_eq]
    cases e with
    | parameter name t =>
      by_cases hx : name = x
      · simp [Expr.isParameter, value, Env.set, hx]
      · simp [Expr.isParameter, Expr.shadows, Expr.withChildren, value, Env.set, hx]
    | row scope t => simp [Expr.isParameter, Expr.shadows, Expr.withChildren, value, Env.set]
    | lambda ps body =>
      have hbody : body ∈ (Expr.lambda ps body).children := by simp [Expr.children]
      have hbinding : ∀ given, I.value (ρ.binding ps given) v = I.value ρ v := by
        refine fun given => I.value_congr (fun y hy => ?_) fun _ _ _ => rfl
        exact Env.binding_of_not (h _ (Expr.mem_nodes_self _) y hy)
      cases hs : (Expr.lambda ps body).shadows x with
      | true =>
        -- The lambda declares the parameter, so nothing is replaced in it.
        simp only [Expr.isParameter, Bool.false_eq_true, if_false, if_true, value]
        congr 1
        funext given
        rw [Env.set_binding hs]
      | false =>
        simp only [Expr.isParameter, Bool.false_eq_true, if_false, Expr.children, List.map_cons,
          List.map_nil, Expr.withChildren, value]
        congr 1
        funext given
        rw [ih body hbody (hc body hbody), hbinding, Env.set_binding_of_not hs]
    | _ =>
      simp only [Expr.isParameter, Expr.shadows, Bool.false_eq_true, if_false]
      have hkids : ∀ c ∈ _, I.value ρ (c.substitute x v) = I.value (ρ.set x (I.value ρ v)) c :=
        fun c hc' => ih c hc' (hc c hc')
      rw [I.value_eq (by rw [Expr.isVariable_withChildren]; rfl), I.value_eq rfl,
        shape_withChildren (by simp), Expr.children_withChildren (by simp), List.map_map,
        ← List.map_congr_left hkids]
      rfl

end

end Interpretation

end QueryTree
