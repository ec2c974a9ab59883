import Mathlib.Algebra.GroupWithZero.Nat
import Mathlib.Data.List.Forall2
import QueryTree.Proofs.Names
import QueryTree.Proofs.Selects
import QueryTree.Relation.Bind

/-!
# Keeping queries apart

A lambda variable can stand for a query, and an operator applied to it extends a copy of the query,
with the lambda of the operator in it. `Expr.Apart` says that no such lambda mentions, from outside,
a variable that may hold a query; a set of names says which variables those are.
-/

theorem List.exists_of_forall₂_right {α β : Type} {R : α → β → Prop} {as : List α} {bs : List β}
    {b : β} (h : List.Forall₂ R as bs) (hb : b ∈ bs) : ∃ a ∈ as, R a b := by
  induction h with
  | nil => cases hb
  | cons hab _ ih =>
    rcases List.mem_cons.mp hb with rfl | hb
    · exact ⟨_, List.mem_cons_self, hab⟩
    · obtain ⟨a, ha, hr⟩ := ih hb
      exact ⟨a, List.mem_cons_of_mem _ ha, hr⟩

namespace QueryTree

/-- Kinds of nodes that binding and naming take away. -/
inductive Mark where
  | operator
  | table
  /-- A source or a captured variable. -/
  | raw
deriving DecidableEq

/-- Whether a node is of the kind `Mark`. -/
def Mark.of : Mark → Expr → Bool
  | .operator, .call .queryable _ none _ _ => true
  | .table, .table _ _ => true
  | .table, .source _ => true
  | .table, .captured _ (.source _) _ => true
  | .raw, .source _ => true
  | .raw, .captured _ _ _ => true
  | _, _ => false

/-- `Mark.operator` is only on calls without a receiver. -/
theorem Mark.operator_of_ne {e : Expr}
    (hcall : ∀ method args t, e ≠ .call .queryable method none args t) :
    Mark.operator.of e = false := by
  cases e with
  | call surface method receiver args t =>
    cases surface <;> cases receiver <;> first | rfl | exact absurd rfl (hcall method args t)
  | _ => rfl

theorem Expr.eq_call_of_mark {e : Expr} (h : Mark.operator.of e = true) :
    ∃ method args t, e = .call .queryable method none args t := by
  cases e with
  | call surface method receiver args t =>
    cases surface <;> cases receiver <;> first | exact ⟨method, args, t, rfl⟩ | cases h
  | _ => cases h

/-- A named node that is no operator and no table has no `Mark`. -/
theorem Mark.of_eq_false {e : Expr} (hop : Mark.operator.of e = false)
    (htable : ∀ name element, e ≠ .table name element) (hraw : Mark.raw.of e = false) (k : Mark) :
    k.of e = false := by
  cases k with
  | operator => exact hop
  | raw => exact hraw
  | table =>
    cases e with
    | table name element => exact absurd rfl (htable name element)
    | source s => cases hraw
    | captured name capture t => cases hraw
    | _ => rfl

/-- Whether an operator makes its arguments part of the select it is applied to. -/
def QueryOp.encloses : QueryOp → Bool
  | .contains | .elementAt _ => false
  | _ => true

namespace Expr

/-- Whether `e` has a node of the kind `k`. -/
def has (k : Mark) (e : Expr) : Bool := e.nodes.any k.of

/-- What a chain of operators starts from. -/
def chainRoot : Expr → Expr
  | .call .queryable _ none (start :: _) _ => start.chainRoot
  | e => e
termination_by structural e => e

/-- Whether the `chainRoot` is a lambda variable, a key, or the select that has taken their place.
-/
def isRooted (e : Expr) : Bool :=
  match e.chainRoot with
  | .parameter _ _ => true
  | .member _ "Key" _ => true
  | .select _ => true
  | _ => false

section
variable (H : String → Bool)

/-- Whether `e` mentions a variable in `H`, or holds a bound select. -/
def mentions (e : Expr) : Bool := !(e.selects true).isEmpty || e.freeNames.any H

/-- Whether the value of `e` may hold a query. -/
def holds (e : Expr) : Bool := e.has .table || e.mentions H

/-- Whether an operator may put out queries where it was given none. -/
def givesQueries : Option QueryOp → List Expr → Bool
  | some .select, [selector] =>
    match selector.unquote with
    | .lambda [_] body => body.holds H
    | _ => true
  | some .groupBy, _ => true
  | _, _ => false

/-- Whether the rows that a chain of operators puts out may hold queries. -/
def rowsHold : Expr → Bool
  | .call .queryable method none (start :: args) _ =>
    givesQueries H (QueryOp.ofMethod? method) args || start.rowsHold
  | .table _ _ => false
  | .source _ => false
  | .captured _ (.source _) _ => false
  | _ => true
termination_by structural e => e

/-- Whether `H` has the variable of a lambda, as far as that matters: a body without operators
cannot apply one to it. -/
def lambdaApart (e : Expr) : Bool :=
  match e.unquote with
  | .lambda [p] body => H p.name || !body.has .operator
  | _ => true

/-- The condition on a node. The variable of a lambda over rows that may hold queries is in `H`, and
what becomes part of a copy of a query mentions no query. -/
def apartAt : Expr → Bool
  | .call .queryable method none (start :: args) _ =>
    (!(start.isRooted && (QueryOp.ofMethod? method).all QueryOp.encloses) ||
        args.all fun a => !a.mentions H) &&
      (!start.rowsHold H || args.all (lambdaApart H))
  | .call .enumerable _ none (_ :: args) _ => args.all (lambdaApart H)
  | _ => true

/-- Whether queries are kept apart in `e`, when the variables in `H` may hold a query. -/
def Apart (e : Expr) : Prop := ∀ n ∈ e.nodes, n.apartAt H = true

instance (e : Expr) : Decidable (e.Apart H) := inferInstanceAs (Decidable (∀ n ∈ e.nodes, _))

end

/-! ## Nodes of a kind -/

theorem has_iff {k : Mark} {e : Expr} :
    e.has k = true ↔ k.of e = true ∨ ∃ c ∈ e.children, c.has k = true := by
  simp only [has, nodes_eq e, List.any_cons, Bool.or_eq_true, List.any_eq_true, List.mem_flatMap]
  constructor
  · rintro (h | ⟨n, ⟨c, hc, hn⟩, hk⟩)
    · exact .inl h
    · exact .inr ⟨c, hc, n, hn, hk⟩
  · rintro (h | ⟨c, hc, n, hn, hk⟩)
    · exact .inl h
    · exact .inr ⟨n, ⟨c, hc, hn⟩, hk⟩

theorem has_of_node {k : Mark} {n e : Expr} (hn : n ∈ e.nodes) (h : n.has k = true) :
    e.has k = true := by
  obtain ⟨m, hm, hk⟩ := List.any_eq_true.mp h
  exact List.any_eq_true.mpr ⟨m, mem_nodes_trans hm hn, hk⟩

theorem has_eq_false_of_node {k : Mark} {n e : Expr} (hn : n ∈ e.nodes) (h : e.has k = false) :
    n.has k = false := by
  rw [Bool.eq_false_iff] at h ⊢
  exact fun hk => h (has_of_node hn hk)

theorem of_withChildren (k : Mark) (e : Expr) (cs : List Expr) :
    k.of (e.withChildren cs) = k.of e := by
  refine withChildren_congr (f := k.of) (fun h => ?_) e cs
  cases h with
  | method surface => cases surface <;> cases k <;> rfl
  | function surface => cases surface <;> cases k <;> rfl
  | _ => cases k <;> rfl

theorem unquote_mem_nodes (e : Expr) : e.unquote ∈ e.nodes := by
  induction e using childrenInduction with
  | step e ih =>
    cases e with
    | unary op x t =>
      cases op with
      | quote =>
        have hx := ih x (by simp [children])
        exact mem_nodes_of_child (c := x) (by simp [children]) hx
      | _ => exact mem_nodes_self _
    | _ => exact mem_nodes_self _

theorem mem_freeNames_of_isKeyOf {name : String} {x : Expr} (h : x.isKeyOf name = true) :
    name ∈ x.freeNames := by
  unfold isKeyOf at h
  split at h
  · rename_i base t
    exact mem_freeNames_of_child (c := base) (by simp [children])
      rfl (mem_freeNames_of_isParameter h)
  · cases h

theorem body_mem_nodes {e body : Expr} {params : List LambdaParam}
    (h : e.unquote = .lambda params body) : body ∈ e.nodes := by
  have hb : body ∈ e.unquote.nodes := by
    rw [h]
    exact mem_nodes_of_child (by simp [children]) (mem_nodes_self body)
  exact mem_nodes_trans hb (unquote_mem_nodes e)

/-- Whether nothing is left to name or to bind in `e`. -/
def Bare (e : Expr) : Prop := ∀ k : Mark, e.has k = false

theorem Bare.of_node {n e : Expr} (h : e.Bare) (hn : n ∈ e.nodes) : n.Bare :=
  fun k => has_eq_false_of_node hn (h k)

theorem bare_iff {e : Expr} : e.Bare ↔ (∀ k : Mark, k.of e = false) ∧ ∀ c ∈ e.children, c.Bare := by
  constructor
  · intro h
    refine ⟨fun k => ?_, fun c hc => h.of_node (mem_nodes_of_child hc (mem_nodes_self c))⟩
    rw [Bool.eq_false_iff]
    intro hk
    exact Bool.eq_false_iff.mp (h k) (has_iff.mpr (.inl hk))
  · rintro ⟨hk, hc⟩ k
    rw [Bool.eq_false_iff]
    intro h
    rcases has_iff.mp h with h | ⟨c, hce, h⟩
    · exact Bool.eq_false_iff.mp (hk k) h
    · exact Bool.eq_false_iff.mp (hc c hce k) h

theorem lambdaApart_of_has {H : String → Bool} {e : Expr} (h : e.has .operator = false) :
    e.lambdaApart H = true := by
  unfold lambdaApart
  split
  · rename_i p body hl
    rw [has_eq_false_of_node (body_mem_nodes hl) h]
    simp
  · rfl

/-- Without operators `Apart` asks for nothing. -/
theorem apart_of_has {H : String → Bool} {e : Expr} (h : e.has .operator = false) : e.Apart H := by
  intro n hn
  have hop := has_eq_false_of_node hn h
  unfold apartAt
  split
  · rename_i method start args t
    have : (Expr.call .queryable method none (start :: args) t).has .operator = true :=
      has_iff.mpr (.inl rfl)
    rw [this] at hop
    cases hop
  · rename_i method group args t
    rw [List.all_eq_true]
    intro a ha
    exact lambdaApart_of_has (has_eq_false_of_node
      (mem_nodes_of_child (by simp [children, ha]) (mem_nodes_self a)) hop)
  · rfl

end Expr
namespace Binding

/-- The operators of `e` are `e` itself, if it is one, and those of its children. -/
theorem operatorCount_eq (e : Expr) :
    operatorCount e = (e.children.map operatorCount).sum + if isOperator e then 1 else 0 := by
  show e.nodes.countP isOperator = _
  rw [Expr.nodes_eq, List.countP_cons, List.countP_flatMap]
  rfl

theorem operatorCount_unquote (a : Expr) : operatorCount a.unquote = operatorCount a := by
  fun_induction Expr.unquote a with
  | case1 operand t ih =>
    rw [ih, operatorCount_eq (.unary .quote operand t)]
    simp [Expr.children, isOperator]
  | case2 => rfl

end Binding

end QueryTree
