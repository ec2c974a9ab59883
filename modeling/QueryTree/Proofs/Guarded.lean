import QueryTree.Proofs.Operator

/-!
# Binding that refuses some nodes

`bindGuarded` refuses some of the nodes it meets, also those that appear when a lambda is applied;
`bindChecked` refuses some of what operators give. Unless one is refused, binding without the guard
ends in the same way, as the steps of binding do more if the function that binds their parts does
more.
-/

namespace QueryTree

/-- Whether a node is neither a table nor a query operator. -/
def Expr.isBound : Expr → Bool
  | .table _ _ => false
  | .call .queryable _ none _ _ => false
  | _ => true

theorem Expr.isBound_of_ne {e : Expr} (htable : ∀ name element, e ≠ .table name element)
    (hcall : ∀ method args t, e ≠ .call .queryable method none args t) : e.isBound = true := by
  cases e with
  | table name element => exact absurd rfl (htable name element)
  | call surface method receiver args t =>
    cases surface <;> cases receiver <;> first | rfl | exact absurd rfl (hcall method args t)
  | _ => rfl

/-- `y` ends as `x` does, unless `x` is stopped. -/
def BindM.Extends {α : Type} (x y : BindM α) : Prop :=
  ∀ n, (x.run.run n).1 ≠ .error .operatorsTooDeep → y.run.run n = x.run.run n

namespace BindM.Extends

variable {α β : Type}

theorem yields {x y : BindM α} (h : x.Extends y) {n m : Nat} {a : α} (hx : Yields x n a m) :
    Yields y n a m := by
  refine (h n ?_).trans hx
  rw [show x.run.run n = (.ok a, m) from hx]
  rintro ⟨⟩

theorem refl (x : BindM α) : x.Extends x := fun _ _ => rfl

theorem stopped (y : BindM α) : (throw .operatorsTooDeep : BindM α).Extends y :=
  fun _ h => absurd rfl h

theorem bind {x y : BindM α} {f g : α → BindM β} (hx : x.Extends y)
    (hf : ∀ a, (f a).Extends (g a)) : (x >>= f).Extends (y >>= g) := by
  intro n h
  have hy := hx n
  rw [run_bind] at h
  rw [run_bind, run_bind]
  generalize (x.run.run n : Except Error α × Nat) = r at h hy ⊢
  obtain ⟨r, k⟩ := r
  cases r with
  | error e => rw [hy fun he => h (congrArg Except.error (Except.error.inj he))]
  | ok a =>
    rw [hy (by rintro ⟨⟩)]
    exact hf a k h

theorem map {x y : BindM α} (hx : x.Extends y) (f : α → β) : (f <$> x).Extends (f <$> y) := by
  rw [← bind_pure_comp, ← bind_pure_comp]
  exact hx.bind fun _ => .refl _

theorem mapM {f g : α → BindM β} {as : List α} (hf : ∀ a ∈ as, (f a).Extends (g a)) :
    (as.mapM f).Extends (as.mapM g) := by
  induction as with
  | nil => exact .refl _
  | cons a as ih =>
    rw [List.mapM_cons, List.mapM_cons]
    refine (hf a List.mem_cons_self).bind fun b => ?_
    exact (ih fun a' ha' => hf a' (List.mem_cons_of_mem a ha')).bind fun _ => .refl _

theorem replaceM {f g : Expr → BindM (Option Expr)} (hf : ∀ e, (f e).Extends (g e)) (e : Expr) :
    (e.replaceM f).Extends (e.replaceM g) := by
  induction e using Expr.childrenInduction with
  | step e ih =>
    rw [Expr.replaceM_eq, Expr.replaceM_eq]
    refine (hf e).bind fun replacement => ?_
    cases replacement with
    | some r => exact .refl _
    | none => exact (mapM ih).map _

end BindM.Extends

namespace Binding

open BindM (Extends)

section
variable {bind bind' : Expr → BindM Expr} (h : ∀ e, (bind e).Extends (bind' e))
include h

theorem applyLambda_extends (s : Select) (method : String) (a : Expr) :
    (applyLambda bind s method a).Extends (applyLambda bind' s method a) :=
  (Extends.refl _).bind fun _ => h _

theorem applyOptional_extends (s : Select) (method : String) (a : Option Expr) :
    (applyOptional bind s method a).Extends (applyOptional bind' s method a) := by
  cases a with
  | none => exact .refl _
  | some a => exact (applyLambda_extends h s method a).bind fun _ => .refl _

theorem restricted_extends (s : Select) (method : String) (predicate : Option Expr) :
    (restricted bind s method predicate).Extends (restricted bind' s method predicate) :=
  (applyOptional_extends h s method predicate).bind fun _ => .refl _

theorem sequence_extends (method : String) (source : Expr) (predicate : Option Expr) :
    (sequence bind method source predicate).Extends (sequence bind' method source predicate) := by
  unfold sequence
  split
  · exact (restricted_extends h _ method _).bind fun _ => .refl _
  · exact .refl _
  · exact .refl _

theorem mergeNode_extends (name : String) (key : GroupKey) (node : Expr) :
    (mergeNode bind name key node).Extends (mergeNode bind' name key node) := by
  rw [mergeNode_eq, mergeNode_eq]
  split
  · exact .refl _
  · split
    · rename_i kind method rest t _
      refine Extends.bind ?_ fun _ => .refl _
      cases rest.head? with
      | none => exact .refl _
      | some lambda => exact (applyLambda_extends h key.source method lambda).bind fun _ => .refl _
    · exact .refl _

theorem bindGroupedProjection_extends (groups : Select) (key : GroupKey) (selector : Expr) :
    (bindGroupedProjection bind groups key selector).Extends
      (bindGroupedProjection bind' groups key selector) := by
  rw [bindGroupedProjection_eq, bindGroupedProjection_eq]
  refine (Extends.refl _).bind fun x => ?_
  split
  · exact (h _).bind fun _ => .refl _
  · refine (Extends.replaceM (mergeNode_extends h x.1.name key) x.2).bind fun merged => ?_
    exact (h merged).bind fun _ => .refl _

theorem bindCount_extends (method : String) (source : Expr) (predicate : Option Expr) (t : Ty) :
    (bindCount bind method source predicate t).Extends
      (bindCount bind' method source predicate t) := by
  unfold bindCount
  split
  · exact (Extends.refl _).bind fun s => (applyOptional_extends h s method _).bind fun _ => .refl _
  · exact .refl _
  · exact .refl _

theorem bindAggregate_extends (kind : AggregateKind) (method : String) (source : Expr)
    (selector : Option Expr) (t : Ty) : (bindAggregate bind kind method source selector t).Extends
      (bindAggregate bind' kind method source selector t) :=
  (Extends.refl _).bind fun _ => (Extends.refl _).bind fun s =>
    (applyOptional_extends h s method selector).bind fun _ => .refl _

theorem bindOperator_extends (op : QueryOp) (method : String) (source : Expr) (args : List Expr)
    (t : Ty) :
    (bindOperator bind op method source args t).Extends
      (bindOperator bind' op method source args t) := by
  unfold bindOperator
  split
  -- Filters, orders and tests of all rows: one function of the rows.
  case h_1 | h_5 | h_6 | h_14 =>
    exact (Extends.refl _).bind fun s => (applyLambda_extends h s method _).bind fun _ => .refl _
  case h_2 =>
    refine (Extends.refl _).bind fun s => ?_
    split
    · exact bindGroupedProjection_extends h s _ _
    · exact (applyLambda_extends h s _ _).bind fun _ => .refl _
  case h_3 | h_11 | h_12 | h_13 => exact bindAggregate_extends h _ method source _ t
  case h_4 =>
    exact (Extends.refl _).bind fun s => (applyLambda_extends h s _ _).bind fun _ => .refl _
  -- The numbers of a window are bound by themselves.
  case h_7 | h_8 => exact (Extends.refl _).bind fun s => (h _).bind fun _ => .refl _
  case h_9 | h_10 => exact bindCount_extends h method source _ t
  -- Answers about the rows, all of them or those that pass a condition.
  case h_15 | h_16 | h_18 | h_19 | h_20 | h_21 =>
    exact (sequence_extends h method source _).bind fun _ => .refl _
  -- The same with a value to look for, or a position.
  case h_17 | h_22 =>
    exact (sequence_extends h method source _).bind fun _ => (h _).bind fun _ => .refl _
  case h_23 => exact .refl _
  case h_24 =>
    exact (Extends.refl _).bind fun s => (restricted_extends h s method _).bind fun _ => .refl _
  case h_25 => exact .refl _

theorem bindNode_extends (e : Expr) : (bindNode bind e).Extends (bindNode bind' e) := by
  unfold bindNode
  split
  · exact .refl _
  · refine Extends.bind ?_ fun _ => .refl _
    unfold bindCall
    split
    · exact .refl _
    · refine (h _).bind fun source => ?_
      split
      · exact bindOperator_extends h _ _ source _ _
      · exact .refl _
  · exact .refl _

end

/-- `bindWith`, but refusing the nodes that are not `ok`. -/
def bindGuarded (ok : Expr → Bool) : (fuel : Nat) → Expr → BindM Expr
  | 0, _ => throw .operatorsTooDeep
  | fuel + 1, e => e.replaceM fun node =>
    if ok node then bindNode (bindGuarded ok fuel) node else throw .operatorsTooDeep

theorem bindGuarded_extends (ok : Expr → Bool) (fuel : Nat) (e : Expr) :
    (bindGuarded ok fuel e).Extends (bindWith fuel e) := by
  induction fuel generalizing e with
  | zero => exact .refl _
  | succ fuel ih =>
    refine Extends.replaceM (fun node => ?_) e
    split
    · exact bindNode_extends ih node
    · exact .stopped _

theorem bindWith_extends {fuel fuel' : Nat} (h : fuel ≤ fuel') (e : Expr) :
    (bindWith fuel e).Extends (bindWith fuel' e) := by
  induction fuel generalizing fuel' e with
  | zero => exact .stopped _
  | succ fuel ih =>
    obtain ⟨fuel', rfl⟩ := Nat.exists_eq_add_one_of_ne_zero (Nat.ne_zero_of_lt h)
    exact .replaceM (bindNode_extends fun c => ih (Nat.le_of_succ_le_succ h) c) e

/-! ## Checking operators -/

section
variable (ok : QueryOp → Expr → List Expr → Expr → Bool) (bind : Expr → BindM Expr)

/-- Binds a call of a query operator, but refuses it if its bound source, its other arguments and
its result are not `ok`. -/
def bindCallChecked (method : String) (args : List Expr) (t : Ty) : BindM Expr :=
  match args with
  | [] => throw (.methodUnsupported method)
  | source :: rest => do
    let source ← bind source
    match QueryOp.ofMethod? method with
    | some op =>
      let r ← bindOperator bind op method source rest t
      if ok op source rest r then return r else throw .operatorsTooDeep
    | none => throw (.methodUnsupported method)

/-- What a node is bound to, if it is a table or a query operator that is `ok`. -/
def bindNodeChecked : Expr → BindM (Option Expr)
  | .call .queryable method none args t => return some (← bindCallChecked ok bind method args t)
  | e => bindNode bind e

end

/-- `bindWith`, but refusing the operators that are not `ok`. -/
def bindChecked (ok : QueryOp → Expr → List Expr → Expr → Bool) : (fuel : Nat) → Expr → BindM Expr
  | 0, _ => throw .operatorsTooDeep
  | fuel + 1, e => e.replaceM (bindNodeChecked ok (bindChecked ok fuel))

section
variable {ok : QueryOp → Expr → List Expr → Expr → Bool} {bind bind' : Expr → BindM Expr}
  {e r : Expr} {method : String} {args : List Expr} {t : Ty} {n m : Nat}

theorem yields_bindCallChecked (h : Yields (bindCallChecked ok bind method args t) n r m) :
    ∃ op start rest source k, args = start :: rest ∧ QueryOp.ofMethod? method = some op ∧
      Yields (bind start) n source k ∧ Yields (bindOperator bind op method source rest t) k r m ∧
        ok op source rest r = true := by
  unfold bindCallChecked at h
  split at h
  · exact absurd h BindM.yields_throw
  · rename_i start rest
    obtain ⟨source, k, hsource, hrest⟩ := yields_bind.mp h
    split at hrest
    · rename_i op hop
      obtain ⟨r', k', hr, hrest⟩ := yields_bind.mp hrest
      split at hrest
      · rename_i hok
        obtain ⟨rfl, rfl⟩ := yields_pure.mp hrest
        exact ⟨op, start, rest, source, k, rfl, hop, hsource, hr, hok⟩
      · exact absurd hrest BindM.yields_throw
    · exact absurd hrest BindM.yields_throw

/-- `bindNodeChecked` makes a table the select of its rows, and a call what its operator gives. -/
theorem yields_bindNodeChecked_some (h : Yields (bindNodeChecked ok bind e) n (some r) m) :
    (∃ name element, e = .table name element ∧ r = .select (.ofTable ⟨n⟩ name element) ∧
      m = n + 1) ∨
      ∃ op method start rest source t k, e = .call .queryable method none (start :: rest) t ∧
        Yields (bind start) n source k ∧ Performs bind method t op source rest k r m ∧
          ok op source rest r = true := by
  unfold bindNodeChecked at h
  split at h
  · rename_i method args t
    obtain ⟨x, k, hx, hrest⟩ := yields_bind.mp h
    obtain ⟨heq, rfl⟩ := yields_pure.mp hrest
    cases heq
    obtain ⟨op, start, rest, source, k, rfl, -, hsource, hr, hok⟩ := yields_bindCallChecked hx
    exact .inr ⟨op, method, start, rest, source, t, k, rfl, hsource, performs_of_yields hr, hok⟩
  · rename_i hcall
    rcases yields_bindNode_some h with htable | ⟨method, args, t, rfl, -⟩
    · exact .inl htable
    · exact absurd rfl (hcall method args t)

/-- A node that `bindNodeChecked` leaves in place is neither a table nor an operator. -/
theorem yields_bindNodeChecked_none (h : Yields (bindNodeChecked ok bind e) n none m) :
    e.isBound = true ∧ m = n := by
  unfold bindNodeChecked bindNode at h
  split at h
  · obtain ⟨x, k, -, hrest⟩ := yields_bind.mp h
    cases (yields_pure.mp hrest).1
  · rename_i hcall
    split at h
    · obtain ⟨scope, k, -, hrest⟩ := yields_bind.mp h
      cases (yields_pure.mp hrest).1
    · rename_i method args t
      exact absurd rfl (hcall method args t)
    · rename_i htable _
      exact ⟨Expr.isBound_of_ne htable hcall, (yields_pure.mp h).2⟩

theorem bindNodeChecked_extends (h : ∀ e, (bind e).Extends (bind' e)) (e : Expr) :
    (bindNodeChecked ok bind e).Extends (bindNode bind' e) := by
  unfold bindNodeChecked
  split
  · rename_i method args t
    refine Extends.bind ?_ fun _ => .refl _
    unfold bindCallChecked bindCall
    split
    · exact .refl _
    · rename_i start rest
      refine (h start).bind fun source => ?_
      cases QueryOp.ofMethod? method with
      | none => exact .refl _
      | some op =>
        dsimp only
        rw [← bind_pure (bindOperator bind' op method source rest t)]
        refine (bindOperator_extends h op method source rest t).bind fun r => ?_
        split
        · exact .refl _
        · exact .stopped _
  · exact bindNode_extends h e

theorem bindChecked_extends (ok : QueryOp → Expr → List Expr → Expr → Bool) (fuel : Nat)
    (e : Expr) : (bindChecked ok fuel e).Extends (bindWith fuel e) := by
  induction fuel generalizing e with
  | zero => exact .refl _
  | succ fuel ih => exact Extends.replaceM (bindNodeChecked_extends ih) e

end

end Binding

end QueryTree
