import QueryTree.Proofs.Grounded
import QueryTree.Proofs.Guarded

/-!
# Binding keeps rows inside their selects

A tree that is yet to be bound is `Expr.Placed` if its rows and selects can stand where it does, and
what it is bound to can stand there too. Binding does not fail for groups without a grouped source,
nor for want of fuel: what is filled in for a variable has no operators, so each level of binding is
inside one more operator of the tree.
-/

namespace QueryTree

open Binding

/-! ## What a computation ensures -/

/-- From whatever scope, `x` gives a value with `Q` or fails with an error with `E`. -/
structure BindM.Ensures (E : Error → Prop) {α : Type} (Q : α → Prop) (x : BindM α) : Prop where
  gives : ∀ n a m, Yields x n a m → Q a
  fails : ∀ n e, (x.run.run n).1 = .error e → E e

namespace BindM.Ensures

section
variable {E : Error → Prop} {α β : Type} {Q : α → Prop} {Q' : β → Prop} {x : BindM α}
  {f : α → BindM β}

theorem pure {a : α} (h : Q a) : Ensures E Q (pure a) where
  gives _ _ _ ha := (yields_pure.mp ha).1 ▸ h
  fails _ _ he := by cases he

theorem throw {e : Error} (h : E e) : Ensures E Q (throw e) where
  gives _ _ _ ha := absurd ha BindM.yields_throw
  fails _ _ he := by
    cases he
    exact h

theorem bind (hx : Ensures E Q x) (hf : ∀ a, Q a → Ensures E Q' (f a)) :
    Ensures E Q' (x >>= f) where
  gives n b m hb := by
    obtain ⟨a, k, ha, hb⟩ := yields_bind.mp hb
    exact (hf a (hx.gives n a k ha)).gives k b m hb
  fails n e he := by
    rw [run_bind] at he
    rcases hrun : (x.run.run n : Except Error α × Nat) with ⟨r, k⟩
    rw [hrun] at he
    cases r with
    | error e' =>
      cases he
      exact hx.fails n e (by rw [hrun])
    | ok a => exact (hf a (hx.gives n a k hrun)).fails k e he

theorem map {g : α → β} (hx : Ensures E Q x) (hg : ∀ a, Q a → Q' (g a)) :
    Ensures E Q' (g <$> x) := by
  rw [← bind_pure_comp]
  exact hx.bind fun a ha => .pure (hg a ha)

theorem ofExcept {r : Except Error α} (hok : ∀ a, r = .ok a → Q a)
    (herror : ∀ e, r = .error e → E e) : Ensures E Q (BindM.ofExcept r) where
  gives _ a _ ha := hok a (BindM.yields_ofExcept.mp ha).1
  fails _ e he := herror e he

theorem freshScope : Ensures E (fun _ => True) BindM.freshScope where
  gives _ _ _ _ := trivial
  fails _ _ he := by cases he

theorem mapM {R : α → β → Prop} {g : α → BindM β} {as : List α}
    (h : ∀ a ∈ as, Ensures E (R a) (g a)) : Ensures E (List.Forall₂ R as) (as.mapM g) := by
  induction as with
  | nil =>
    rw [List.mapM_nil]
    exact .pure .nil
  | cons a as ih =>
    obtain ⟨ha, has⟩ := List.forall_mem_cons.mp h
    rw [List.mapM_cons]
    exact ha.bind fun b hb => (ih has).bind fun bs hbs => .pure (.cons hb hbs)

end

/-- `replaceM` ensures of the whole what it ensures of each replaced node, and of a node that stays
as soon as its children have it. -/
theorem replaceM {E : Error → Prop} {f : Expr → BindM (Option Expr)} {I S : Expr → Prop}
    {T : Expr → Expr → Prop} {e : Expr} (hchild : ∀ e c, I e → c ∈ e.children → I c)
    (hnode : ∀ e, I e → Ensures E (fun r => match r with | some r => T e r | none => S e) (f e))
    (hkids : ∀ e cs, I e → S e → List.Forall₂ T e.children cs → T e (e.withChildren cs))
    (he : I e) : Ensures E (T e) (e.replaceM f) := by
  induction e using Expr.childrenInduction with
  | step e ih =>
    rw [Expr.replaceM_eq]
    refine (hnode e he).bind fun r hr => ?_
    cases r with
    | some r => exact .pure hr
    | none =>
      refine (mapM fun c hc => ih c hc (hchild e c he hc)).map fun cs hcs => ?_
      exact hkids e cs he hr hcs

end BindM.Ensures

/-! ## Trees that are in place -/

/-- A named tree that can stand inside selects with the scopes `around`. -/
def Expr.Placed (around : List ScopeId) (e : Expr) : Prop :=
  ∀ n ∈ e.nodes, Mark.raw.of n = false ∧ (∀ scope t, n = .row scope t → scope ∈ around) ∧
    ∀ s, n.select? = some s → s.Grounded around

section
variable {around inside : List ScopeId} {e c v : Expr}

namespace Expr

theorem eq_row_of_withChildren {cs : List Expr} {scope : ScopeId} {t : Ty}
    (h : e.withChildren cs = .row scope t) : e = .row scope t := by
  have hsame := e.sameNode_withChildren cs
  rw [h] at hsame
  cases hsame
  rfl

namespace Placed

theorem of_node {n : Expr} (h : e.Placed around) (hn : n ∈ e.nodes) : n.Placed around :=
  fun m hm => h m (mem_nodes_trans hm hn)

theorem child (h : e.Placed around) (hc : c ∈ e.children) : c.Placed around :=
  fun n hn => h n (mem_nodes_of_child hc hn)

theorem mono (h : e.Placed around) (hsub : around ⊆ inside) : e.Placed inside := by
  intro n hn
  obtain ⟨hraw, hrow, hselect⟩ := h n hn
  exact ⟨hraw, fun scope t heq => hsub (hrow scope t heq), fun s hs => (hselect s hs).mono hsub⟩

theorem under (h : e.Placed around) (scope : ScopeId) : e.Placed (scope :: around) :=
  h.mono (List.subset_cons_self _ _)

theorem of_parts (hraw : Mark.raw.of e = false)
    (hrow : ∀ scope t, e = .row scope t → scope ∈ around)
    (hselect : ∀ s, e.select? = some s → s.Grounded around)
    (hchild : ∀ c ∈ e.children, c.Placed around) : e.Placed around := by
  intro n hn
  rcases mem_nodes_iff.mp hn with rfl | ⟨c, hc, hn⟩
  · exact ⟨hraw, hrow, hselect⟩
  · exact hchild c hc n hn

theorem withChildren (h : e.Placed around) {cs : List Expr} (hlen : cs.length = e.children.length)
    (hcs : ∀ c ∈ cs, c.Placed around) : (e.withChildren cs).Placed around := by
  obtain ⟨hraw, hrow, hselect⟩ := h e (mem_nodes_self e)
  refine .of_parts ?_ (fun scope t heq => hrow scope t (eq_row_of_withChildren heq))
    (fun s hs => ?_) ?_
  · rw [of_withChildren]
    exact hraw
  · rw [select?_withChildren] at hs
    exact hselect s hs
  · rw [children_withChildren hlen]
    exact hcs

/-- What takes the place of nodes of a `Placed` tree may be further in. -/
theorem replace {f : Expr → Option Expr} (h : e.Placed around) (hsub : around ⊆ inside)
    (hf : ∀ n ∈ e.nodes, ∀ r, f n = some r → r.Placed inside) : (e.replace f).Placed inside := by
  induction e using childrenInduction with
  | step e ih =>
    rw [replace_eq]
    cases hr : f e with
    | some r => exact hf e (mem_nodes_self e) r hr
    | none =>
      refine (h.mono hsub).withChildren (by simp) fun c hc => ?_
      obtain ⟨c, hce, rfl⟩ := List.mem_map.mp hc
      exact ih c hce (h.child hce) fun n hn => hf n (mem_nodes_of_child hce hn)

end Placed

theorem Grounded.placed (h : e.Grounded around) : e.Placed around := by
  induction e using childrenInduction with
  | step e ih =>
    refine .of_parts (h.marks .raw) ?_ (fun s hs => h.select hs) fun c hc => ih c hc (h.child hc)
    rintro scope t rfl
    exact h.row

theorem Placed.substitute (h : e.Placed around) (hsub : around ⊆ inside) (hv : v.Grounded inside)
    (x : String) : (e.substitute x v).Placed inside := by
  refine h.replace hsub fun n hn r hr => ?_
  unfold substituteNode at hr
  split at hr
  · cases hr
    exact hv.placed
  · split at hr
    · cases hr
      exact (h.of_node hn).mono hsub
    · cases hr

theorem Placed.substituteGroup {key : GroupKey} (h : e.Placed around) (hsub : around ⊆ inside)
    (houter : key.outer.Grounded inside) (hvalues : key.values.Grounded inside) (x : String) :
    (e.substituteGroup x key).Placed inside := by
  refine h.replace hsub fun n hn r hr => ?_
  split at hr
  · cases hr
    exact houter.placed
  · split at hr
    · cases hr
      exact hvalues.placed
    · split at hr
      · cases hr
        exact (h.of_node hn).mono hsub
      · cases hr

end Expr

end

/-! ## Depth of operators -/

namespace Expr

/-- Operators are inside each other fewer times than that. -/
def Shallow : Nat → Expr → Prop
  | 0, _ => False
  | room + 1, e => ∀ n ∈ e.nodes, Mark.operator.of n = true → ∀ c ∈ n.children, c.Shallow room

/-- Operators are inside each other no more often in `r` than in `e`. -/
def AsShallow (e r : Expr) : Prop := ∀ room, e.Shallow room → r.Shallow room

section
variable {e r v n : Expr} {room : Nat}

theorem Shallow.of_node (h : e.Shallow room) (hn : n ∈ e.nodes) : n.Shallow room := by
  cases room with
  | zero => exact h.elim
  | succ room => exact fun m hm => h m (mem_nodes_trans hm hn)

theorem Bare.asShallow (h : r.Bare) (e : Expr) : e.AsShallow r := by
  intro room he
  cases room with
  | zero => exact he.elim
  | succ room =>
    intro n hn hop
    rw [(bare_iff.mp (h.of_node hn)).1 .operator] at hop
    cases hop

theorem AsShallow.withChildren {cs : List Expr} (hcs : List.Forall₂ AsShallow e.children cs) :
    e.AsShallow (e.withChildren cs) := by
  intro room he
  cases room with
  | zero => exact he.elim
  | succ room =>
    intro n hn hop c hc
    rcases mem_nodes_iff.mp hn with rfl | ⟨c', hc', hn⟩
    -- Of an operator that stays the children have one level less.
    · rw [of_withChildren] at hop
      rw [children_withChildren hcs.length_eq.symm] at hc
      obtain ⟨d, hd, hlike⟩ := List.exists_of_forall₂_right hcs hc
      exact hlike room (he e (mem_nodes_self e) hop d hd)
    · rw [children_withChildren hcs.length_eq.symm] at hc'
      obtain ⟨d, hd, hlike⟩ := List.exists_of_forall₂_right hcs hc'
      exact hlike (room + 1) (he.of_node (mem_nodes_of_child hd (mem_nodes_self d))) n hn hop c hc

theorem AsShallow.replace {f : Expr → Option Expr} (hf : ∀ n r, f n = some r → n.AsShallow r)
    (e : Expr) : e.AsShallow (e.replace f) := by
  induction e using childrenInduction with
  | step e ih =>
    rw [replace_eq]
    cases hr : f e with
    | some r => exact hf e r hr
    | none => exact .withChildren (List.forall₂_map_right_iff.mpr (List.forall₂_same.mpr ih))

theorem Bare.asShallow_substitute (hv : v.Bare) (e : Expr) (x : String) :
    e.AsShallow (e.substitute x v) := by
  refine .replace (fun n r hr => ?_) e
  unfold substituteNode at hr
  split at hr
  · cases hr
    exact hv.asShallow n
  · split at hr
    · cases hr
      exact fun _ => id
    · cases hr

theorem asShallow_substituteGroup {key : GroupKey} (houter : key.outer.Bare)
    (hvalues : key.values.Bare) (e : Expr) (x : String) :
    e.AsShallow (e.substituteGroup x key) := by
  refine .replace (fun n r hr => ?_) e
  split at hr
  · cases hr
    exact houter.asShallow n
  · split at hr
    · cases hr
      exact hvalues.asShallow n
    · split at hr
      · cases hr
        exact fun _ => id
      · cases hr

theorem operatorCount_child {c : Expr} (hc : c ∈ e.children) :
    operatorCount c + (if isOperator e then 1 else 0) ≤ operatorCount e := by
  have hnodes : c.nodes.Sublist (e.children.flatMap nodes) :=
    List.sublist_flatten_of_mem (List.mem_map_of_mem hc)
  show c.nodes.countP isOperator + _ ≤ e.nodes.countP isOperator
  rw [nodes_eq e, List.countP_cons]
  exact Nat.add_le_add_right hnodes.countP_le _

theorem operatorCount_node (hn : n ∈ e.nodes) : operatorCount n ≤ operatorCount e := by
  induction e using childrenInduction with
  | step e ih =>
    rcases mem_nodes_iff.mp hn with rfl | ⟨c, hc, hn⟩
    · exact Nat.le_refl _
    · exact Nat.le_trans (ih c hc hn) (Nat.le_of_add_right_le (operatorCount_child hc))

/-- `operatorCount` is at least the number of operators inside each other. -/
theorem shallow_of_operatorCount_lt (h : operatorCount e < room) : e.Shallow room := by
  induction room generalizing e with
  | zero => exact absurd h (Nat.not_lt_zero _)
  | succ room ih =>
    intro n hn hop c hc
    obtain ⟨method, args, t, rfl⟩ := eq_call_of_mark hop
    have hchild : operatorCount c + 1 ≤ _ := operatorCount_child hc
    have hnode := operatorCount_node hn
    exact ih (by omega)

end

end Expr

/-- A tree in place into which binding has to go less often than `room`. -/
structure Expr.Bindable (room : Nat) (around : List ScopeId) (e : Expr) : Prop where
  placed : e.Placed around
  shallow : e.Shallow room

namespace Expr.Bindable

variable {room : Nat} {around inside : List ScopeId} {e c v : Expr}

theorem of_node {n : Expr} (h : e.Bindable room around) (hn : n ∈ e.nodes) :
    n.Bindable room around :=
  ⟨h.placed.of_node hn, h.shallow.of_node hn⟩

theorem child (h : e.Bindable room around) (hc : c ∈ e.children) : c.Bindable room around :=
  h.of_node (mem_nodes_of_child hc (mem_nodes_self c))

/-- An argument of an operator is `Bindable` with less room. -/
theorem arg (h : e.Bindable (room + 1) around) (hop : Mark.operator.of e = true)
    (hc : c ∈ e.children) : c.Bindable room around :=
  ⟨h.placed.child hc, h.shallow e (mem_nodes_self e) hop c hc⟩

theorem under (h : e.Bindable room around) (scope : ScopeId) : e.Bindable room (scope :: around) :=
  ⟨h.placed.under scope, h.shallow⟩

theorem substitute (h : e.Bindable room around) (hsub : around ⊆ inside) (hv : v.Grounded inside)
    (x : String) : (e.substitute x v).Bindable room inside :=
  ⟨h.placed.substitute hsub hv x, hv.bare.asShallow_substitute e x room h.shallow⟩

theorem substituteGroup {key : GroupKey} (h : e.Bindable room around) (hsub : around ⊆ inside)
    (houter : key.outer.Grounded inside) (hvalues : key.values.Grounded inside) (x : String) :
    (e.substituteGroup x key).Bindable room inside :=
  ⟨h.placed.substituteGroup hsub houter hvalues x, asShallow_substituteGroup houter.bare
    hvalues.bare e x room h.shallow⟩

end Expr.Bindable

/-! ## Binding -/

/-- Whether binding may refuse a tree for that. `ungroupedSource` is no such reason, and neither is
the end of the fuel. -/
def Error.isRefusal : Error → Bool
  | .methodUnsupported _ | .scalarSource _ | .lambdaExpected _ _ | .lambdaArity _ _ => true
  | _ => false

/-- `x` gives a value with `Q`, and it only fails if the error `isRefusal`. -/
abbrev BindM.Secures {α : Type} (Q : α → Prop) (x : BindM α) : Prop :=
  x.Ensures (fun e => e.isRefusal = true) Q

/-- `bind`, which goes into a tree less often than `room`, keeps what is in place there. -/
def Binding.Places (room : Nat) (bind : Expr → BindM Expr) : Prop :=
  ∀ around e, e.Bindable room around → (bind e).Secures (Expr.Grounded around)

namespace Binding.Places

open BindM

section
variable {room : Nat} {bind : Expr → BindM Expr} {around : List ScopeId} {s : Select}
  {method : String} {t : Ty} {source lambda : Expr} {key : GroupKey}

theorem asLambda_error {method : String} {e : Expr} {err : Error}
    (h : e.asLambda method = .error err) : err.isRefusal = true := by
  unfold Expr.asLambda at h
  split at h <;> cases h <;> rfl

theorem asLambda (hl : lambda.Bindable room around) :
    (BindM.ofExcept (lambda.asLambda method)).Secures fun x => x.2.Bindable room around :=
  .ofExcept (fun _ hx => hl.of_node (Expr.body_mem_nodes (Expr.asLambda_eq_ok hx))) fun _ =>
    asLambda_error

theorem applyLambda (hbind : Places room bind) (hs : s.Grounded around)
    (hl : lambda.Bindable room around) :
    (Binding.applyLambda bind s method lambda).Secures
      (Expr.Grounded (s.scope :: around)) := by
  refine (asLambda hl).bind fun x hbody => hbind _ _ ?_
  split
  · rename_i key hk
    exact hbody.substituteGroup (List.subset_cons_self _ _) (hs.outer hk) (hs.values hk) _
  · exact hbody.substitute (List.subset_cons_self _ _) hs.rowValue _

theorem applyOptional (hbind : Places room bind) (hs : s.Grounded around) {arg : Option Expr}
    (hl : ∀ a ∈ arg.toList, a.Bindable room around) :
    (Binding.applyOptional bind s method arg).Secures fun r =>
      ∀ c ∈ r.toList, c.Grounded (s.scope :: around) := by
  cases arg with
  | none => exact .pure (by simp)
  | some lambda =>
    exact (hbind.applyLambda hs (hl lambda (by simp))).bind fun c hc => .pure (by simpa using hc)

theorem restricted (hbind : Places room bind) (hs : s.Grounded around) {arg : Option Expr}
    (hl : ∀ a ∈ arg.toList, a.Bindable room around) :
    (Binding.restricted bind s method arg).Secures (Select.Grounded around) := by
  refine (hbind.applyOptional hs hl).bind fun r hr => ?_
  cases r with
  | none => exact .pure hs
  | some c => exact .pure (hs.filterBy (hr c (by simp)))

theorem sequence (hbind : Places room bind) (hsource : source.Grounded around) {arg : Option Expr}
    (hl : ∀ a ∈ arg.toList, a.Bindable room around) :
    (Binding.sequence bind method source arg).Secures (Expr.Grounded around) := by
  unfold Binding.sequence
  split
  · exact (hbind.restricted (hsource.select rfl) hl).bind fun s hs => .pure (hs.expr rfl)
  · exact .pure hsource
  · exact .throw rfl

theorem expectSelect (hsource : source.Grounded around) :
    (Binding.expectSelect method source).Secures (Select.Grounded around) := by
  unfold Binding.expectSelect
  split
  · exact .pure (hsource.select rfl)
  · exact .throw rfl

theorem aggregateSource (hs : s.Grounded around) :
    (Binding.aggregateSource s).Secures (Select.Grounded around) := by
  unfold Binding.aggregateSource
  split
  · exact Ensures.freshScope.bind fun scope _ => .pure (hs.ofSelect scope)
  · exact .pure hs

theorem bindProjection (hbind : Places room bind) (hs : s.Grounded around)
    (hl : lambda.Bindable room around) :
    (Binding.bindProjection bind s lambda).Secures (Expr.Grounded around) := by
  refine (hbind.applyLambda hs hl).bind fun c hc => ?_
  have hproject : (Expr.select (s.project (.expr c))).Grounded around :=
    (hs.project (by simpa [Projection.exprs] using hc)).expr rfl
  split
  · split
    · exact .pure (hs.expr rfl)
    · exact .pure hproject
  · exact .pure hproject

theorem bindGroupBy (hbind : Places room bind) (hs : s.Grounded around)
    (hl : lambda.Bindable room around) :
    (Binding.bindGroupBy bind s lambda).Secures (Expr.Grounded around) := by
  rw [bindGroupBy_eq]
  refine (hbind.applyLambda hs hl).bind fun inner hinner =>
    Ensures.freshScope.bind fun scope _ => ?_
  exact .pure ((hs.groups hinner scope).expr rfl)

/-- `aggregatedValue` is what an aggregate takes of each grouped row. -/
theorem aggregatedValue (hbind : Places room bind) {kind : AggregateKind} {arg : Option Expr}
    (hsource : key.source.Grounded around) (hl : ∀ a ∈ arg.toList, a.Bindable room around) :
    (Binding.aggregatedValue bind key method kind arg).Secures fun r =>
      ∀ c ∈ r.toList, c.Grounded (key.source.scope :: around) := by
  cases arg with
  | some lambda =>
    exact (hbind.applyLambda hsource (hl lambda (by simp))).bind fun c hc =>
      .pure (by simpa using hc)
  | none =>
    refine .pure ?_
    split
    · simp
    · simpa using hsource.rowValue

/-- What `mergeNode` makes of a node can stand in the grouped select. -/
theorem mergeNode (hbind : Places room bind) (hs : s.Grounded around) (hk : s.groupKey = some key)
    {name : String} {node : Expr} (hnode : node.Bindable room around) :
    (Binding.mergeNode bind name key node).Secures fun r => match r with
      | some r => r.Placed (key.source.scope :: s.scope :: around) ∧ node.AsShallow r
      | none => True := by
  rw [mergeNode_eq]
  split
  · exact .pure ⟨(hs.inner hk).placed, (hs.inner hk).bare.asShallow node⟩
  · split
    · rename_i kind method rest t hagg
      obtain ⟨group, rfl, -⟩ := Expr.aggregateOf?_eq_some hagg
      have hrest : ∀ a ∈ rest.head?.toList, a.Bindable room (s.scope :: around) := by
        intro a ha
        have harg : a ∈ rest := List.mem_of_head? (Option.mem_toList.mp ha)
        exact (hnode.child (by simp [Expr.children, harg])).under _
      refine (hbind.aggregatedValue (hs.grouped hk) hrest).bind fun value hv => .pure ?_
      have hagg : (Expr.groupAggregate kind value t).Grounded _ :=
        Expr.Grounded.inherited.groupAggregate trivial hv
      exact ⟨hagg.placed, hagg.bare.asShallow _⟩
    · split
      · exact .pure ⟨(hnode.placed.under _).under _, fun _ => id⟩
      · exact .pure trivial

/-- A merged selector can stand in the grouped select. -/
theorem merged (hbind : Places room bind) (hs : s.Grounded around) (hk : s.groupKey = some key)
    {name : String} {body : Expr} (hbody : body.Bindable room around) :
    (body.replaceM (Binding.mergeNode bind name key)).Secures fun r =>
      r.Placed (key.source.scope :: s.scope :: around) ∧ body.AsShallow r := by
  refine Ensures.replaceM (I := Expr.Bindable room around) (S := fun _ => True) (T := fun e r =>
    r.Placed (key.source.scope :: s.scope :: around) ∧ e.AsShallow r) (fun e c => .child)
    (fun e he => hbind.mergeNode hs hk he)
      (fun e cs he _ hcs => ⟨?_, .withChildren (hcs.imp fun _ _ h => h.2)⟩) hbody
  refine ((he.placed.under _).under _).withChildren hcs.length_eq.symm fun c hc => ?_
  obtain ⟨d, -, hd⟩ := List.exists_of_forall₂_right hcs hc
  exact hd.1

theorem bindGroupedProjection (hbind : Places room bind) (hs : s.Grounded around)
    (hk : s.groupKey = some key) (hl : lambda.Bindable room around) :
    (Binding.bindGroupedProjection bind s key lambda).Secures (Expr.Grounded around) := by
  rw [bindGroupedProjection_eq]
  refine (asLambda hl).bind fun x hbody => ?_
  split
  · refine (hbind (s.scope :: around) _ ?_).bind fun c hc => .pure ?_
    · exact hbody.substituteGroup (List.subset_cons_self _ _) (hs.outer hk) (hs.values hk) _
    · exact (hs.ungroup.project (by simpa [Projection.exprs] using hc)).expr rfl
  -- The selector is merged into the grouped select, which has the scope of the rows that are
  -- grouped.
  · obtain ⟨grouped, hsource, hscope⟩ := hs.linked hk
    refine (hbind.merged hs hk hbody).bind fun merged hm => ?_
    refine (hbind _ _ ⟨hm.1, hm.2 room hbody.shallow⟩).bind fun c hc => ?_
    rw [hsource]
    rw [← hscope] at hc
    exact .pure ((hs.readingMerged hsource hc).expr rfl)

theorem bindCount (hbind : Places room bind) (hsource : source.Grounded around) {arg : Option Expr}
    (hl : ∀ a ∈ arg.toList, a.Bindable room around) :
    (Binding.bindCount bind method source arg t).Secures (Expr.Grounded around) := by
  unfold Binding.bindCount
  split
  · refine (aggregateSource (hsource.select rfl)).bind fun s hs => ?_
    refine (hbind.applyOptional hs hl).bind fun r hr => .pure (hs.aggregated ?_)
    simpa [Projection.exprs] using hr
  · exact .pure (Expr.Grounded.inherited.custom
      (Expr.Grounded.inherited.enumerable (by simpa using hsource)))
  · exact .throw rfl

theorem bindAggregate (hbind : Places room bind) (hsource : source.Grounded around)
    {kind : AggregateKind} {arg : Option Expr} (hl : ∀ a ∈ arg.toList, a.Bindable room around) :
    (Binding.bindAggregate bind kind method source arg t).Secures (Expr.Grounded around) := by
  refine (expectSelect hsource).bind fun s hs => (aggregateSource hs).bind fun s hs => ?_
  refine (hbind.applyOptional hs hl).bind fun r hr => .pure (hs.aggregated ?_)
  cases r with
  | none => simpa [Projection.exprs] using hs.rowValue
  | some c => simpa [Projection.exprs] using hr

/-- `answer?` is made of the rows that may be cut down by a condition. -/
theorem answer (hbind : Places room bind) (op : QueryOp) {f : Expr → Expr}
    (hop : op.answer? t = some f) (hsource : source.Grounded around) {arg : Option Expr}
    (hl : ∀ a ∈ arg.toList, a.Bindable room around) :
    (Binding.sequence bind method source arg >>= fun rows => pure (.custom (f rows) t)).Secures
      (Expr.Grounded around) :=
  (hbind.sequence hsource hl).bind fun _ hrows =>
    .pure (Expr.Grounded.inherited.custom (Expr.Grounded.inherited.answer hop hrows))

theorem bindOperator (hbind : Places room bind) {op : QueryOp} {args : List Expr}
    (hsource : source.Grounded around) (hargs : ∀ a ∈ args, a.Bindable room around) :
    (Binding.bindOperator bind op method source args t).Secures (Expr.Grounded around) := by
  have hnew : Expr.Inherited (Expr.Grounded around) (· ∈ around) := Expr.Grounded.inherited
  have hselect : (Binding.expectSelect method source).Secures (Select.Grounded around) :=
    expectSelect hsource
  unfold Binding.bindOperator
  split
  -- A clause of the select is changed.
  case h_1 predicate =>
    refine hselect.bind fun s hs => (hbind.applyLambda hs (hargs _ (by simp))).bind fun c hc => ?_
    exact .pure ((hs.filterBy hc).expr rfl)
  case h_2 selector =>
    refine hselect.bind fun s hs => ?_
    split
    · exact hbind.bindGroupedProjection hs ‹_› (hargs _ (by simp))
    · exact hbind.bindProjection hs (hargs _ (by simp))
  case h_3 selector => exact hbind.bindAggregate hsource (by simpa using hargs)
  case h_4 key => exact hselect.bind fun s hs => hbind.bindGroupBy hs (hargs _ (by simp))
  case h_5 descending key =>
    refine hselect.bind fun s hs => (hbind.applyLambda hs (hargs _ (by simp))).bind fun c hc => ?_
    exact .pure ((hs.amendable.orderBy hc descending).expr rfl)
  case h_6 descending key =>
    refine hselect.bind fun s hs => (hbind.applyLambda hs (hargs _ (by simp))).bind fun c hc => ?_
    exact .pure ((hs.amendable.thenBy hc descending).expr rfl)
  case h_7 count =>
    refine hselect.bind fun s hs => (hbind around _ (hargs _ (by simp))).bind fun c hc => ?_
    exact .pure ((hs.amendable.take (hc.under _)).expr rfl)
  case h_8 count =>
    refine hselect.bind fun s hs => (hbind around _ (hargs _ (by simp))).bind fun c hc => ?_
    exact .pure ((hs.amendable.skip (hc.under _)).expr rfl)
  -- The rows are aggregated.
  case h_9 => exact hbind.bindCount hsource (by simp)
  case h_10 predicate => exact hbind.bindCount hsource (by simpa using hargs)
  case h_11 kind => exact hbind.bindAggregate hsource (by simp)
  case h_12 kind selector => exact hbind.bindAggregate hsource (by simpa using hargs)
  case h_13 => exact hbind.bindAggregate hsource (by simp)
  case h_14 predicate =>
    refine hselect.bind fun s hs => (hbind.applyLambda hs (hargs _ (by simp))).bind fun c hc => ?_
    have hfailing : (Expr.subquery (s.filterBy c.not)).Grounded around :=
      (hs.filterBy (Expr.Grounded.inherited.not hc)).expr rfl
    exact .pure (hnew.custom (hnew.binary (hnew.enumerable (by simpa using hfailing))
      hnew.constant))
  -- The rows are handed on as an array.
  case h_15 => exact hbind.answer .any rfl hsource (by simp)
  case h_16 predicate => exact hbind.answer .any rfl hsource (by simpa using hargs)
  case h_17 value =>
    refine (hbind.sequence hsource (by simp)).bind fun rows hrows => ?_
    refine (hbind around _ (hargs _ (by simp))).bind fun c hc => ?_
    exact .pure (hnew.custom (hnew.enumerable (by simpa using ⟨hrows, hc⟩)))
  case h_18 default => exact hbind.answer (.first default) rfl hsource (by simp)
  case h_19 default predicate =>
    exact hbind.answer (.first default) rfl hsource (by simpa using hargs)
  case h_20 default => exact hbind.answer (.last default) rfl hsource (by simp)
  case h_21 default predicate =>
    exact hbind.answer (.last default) rfl hsource (by simpa using hargs)
  case h_22 default position =>
    refine (hbind.sequence hsource (by simp)).bind fun rows hrows => ?_
    refine (hbind around _ (hargs _ (by simp))).bind fun c hc => ?_
    exact .pure (hnew.custom (hnew.orDefault (hnew.binary hrows hc)))
  -- One row is asked for.
  case h_23 => exact hselect.bind fun s hs => .pure (hs.amendable.single.expr rfl)
  case h_24 predicate =>
    refine hselect.bind fun s hs => (hbind.restricted hs (by simpa using hargs)).bind fun s hs => ?_
    exact .pure (hs.amendable.single.expr rfl)
  case h_25 => exact .throw rfl

theorem bindCall (hbind : Places room bind) {args : List Expr}
    (hargs : ∀ a ∈ args, a.Bindable room around) :
    (Binding.bindCall bind method args t).Secures (Expr.Grounded around) := by
  unfold Binding.bindCall
  split
  · exact .throw rfl
  · obtain ⟨hsource, hrest⟩ := List.forall_mem_cons.mp hargs
    refine (hbind around _ hsource).bind fun source hs => ?_
    split
    · exact hbind.bindOperator hs hrest
    · exact .throw rfl

/-- A node that `bindNode` leaves in place is as it was, and nothing is left to bind of it. -/
theorem bindNode (hbind : Places room bind) {e : Expr} (he : e.Bindable (room + 1) around) :
    (Binding.bindNode bind e).Secures fun r => match r with
      | some r => r.Grounded around
      | none => ∀ k : Mark, k.of e = false := by
  unfold Binding.bindNode
  split
  · exact Ensures.freshScope.bind fun scope _ => .pure (Select.Grounded.ofTable.expr rfl)
  · rename_i method args t
    have hargs : ∀ a ∈ args, a.Bindable room around := fun a ha =>
      he.arg rfl (by simp [Expr.children, ha])
    exact (hbind.bindCall hargs).bind fun r hr => .pure hr
  · rename_i htable hcall
    exact .pure (Mark.of_eq_false (Mark.operator_of_ne hcall)
      htable (he.placed e (Expr.mem_nodes_self e)).1)

theorem replaceM (hbind : Places room bind) :
    Places (room + 1) fun e => e.replaceM (Binding.bindNode bind) := by
  intro around e he
  refine Ensures.replaceM (T := fun _ r => r.Grounded around) (fun e c => .child)
    (fun e he => hbind.bindNode he) (fun e cs he hk hcs => ?_) he
  -- A node that stays is the same row or select as before, and those are in place.
  obtain ⟨-, hrow, hselect⟩ := he.placed e (Expr.mem_nodes_self e)
  refine .mk (fun k => ?_) (fun scope t heq => hrow scope t (Expr.eq_row_of_withChildren heq))
    (fun c hc => ?_) fun s hs => ?_
  · rw [Expr.of_withChildren]
    exact hk k
  · rw [Expr.children_withChildren hcs.length_eq.symm] at hc
    obtain ⟨-, -, hc⟩ := List.exists_of_forall₂_right hcs hc
    exact hc
  · rw [Expr.select?_withChildren] at hs
    exact hselect s hs

theorem bindWith (fuel : Nat) : Places fuel (Binding.bindWith fuel) := by
  induction fuel with
  | zero => exact fun _ _ he => he.shallow.elim
  | succ fuel ih => exact ih.replaceM

end

end Binding.Places

section
variable {around : List ScopeId} {e : Expr}

theorem Expr.Placed.bind (h : e.Placed around) : e.bind.Secures (Expr.Grounded around) :=
  Places.bindWith _ around e ⟨h, shallow_of_operatorCount_lt (Nat.lt_succ_self _)⟩

/-- Binding does not depend on how much fuel it has, as long as that is more than `operatorCount`.
-/
theorem Expr.Placed.bindWith_eq_bind (h : e.Placed around) {fuel : Nat}
    (hfuel : operatorCount e < fuel) : bindWith fuel e = e.bind := by
  funext n
  refine bindWith_extends hfuel e n fun hstopped => ?_
  cases h.bind.fails n _ hstopped

end

end QueryTree
