import Mathlib.Order.Defs.PartialOrder
import QueryTree.Proofs.Throughout

/-!
# Outlines of queries

How a query is ordered and cut can be told, up to a point, from the chain of operators that makes
it. An `Outline` says whether a query may be ordered or cut, and whether it surely is cut or ranges
over groups; lambda variables that stand for queries share one outline. `Expr.OperatorsAllowed` says
that aggregates and groups are taken only of queries whose outline allows it, and binding keeps
that.
-/

namespace QueryTree

/-- Whether rows of `s` are left out by their number. -/
def Select.isCut (s : Select) : Bool := s.take.isSome || s.skip.isSome || s.single

/-- What is known of the clauses of a query. -/
structure Outline where
  /-- The query may have an order. -/
  ordered : Bool
  /-- The query may be cut. -/
  cut : Bool
  /-- The query is cut for sure. -/
  surelyCut : Bool
  /-- The query ranges over groups for sure. -/
  groups : Bool
deriving DecidableEq

namespace Outline

/-- What is known of any query. -/
def unknown : Outline := ⟨true, true, false, false⟩

/-- What is known of a table. -/
def table : Outline := ⟨false, false, false, false⟩

/-- What is known of something that is no query, to which no operator applies. -/
def noQuery : Outline := ⟨false, false, true, true⟩

/-- All that can be known of `s`. -/
def of (s : Select) : Outline := ⟨!s.orderings.isEmpty, s.isCut, s.isCut, s.groupKey.isSome⟩

/-- What is known after an operator. -/
def after (o : Outline) : QueryOp → Outline
  | .filter => o
  | .select => { o with groups := false }
  | .groupBy => ⟨false, false, false, true⟩
  | .orderBy _ | .thenBy _ => { o with ordered := true }
  | .take | .skip | .single => { o with cut := true, surelyCut := true }
  | _ => noQuery

/-- `o ≤ o'` if `o` says all that `o'` says. -/
instance : Preorder Outline where
  le o o' := (o.ordered → o'.ordered) ∧ (o.cut → o'.cut) ∧ (o'.surelyCut → o.surelyCut) ∧
    (o'.groups → o.groups)
  le_refl _ := ⟨id, id, id, id⟩
  le_trans _ _ _ h h' := ⟨h'.1 ∘ h.1, h'.2.1 ∘ h.2.1, h.2.2.1 ∘ h'.2.2.1, h.2.2.2 ∘ h'.2.2.2⟩

instance (o o' : Outline) : Decidable (o ≤ o') := inferInstanceAs (Decidable (_ ∧ _))

variable {o o' : Outline}

theorem noQuery_le (o : Outline) : noQuery ≤ o := ⟨nofun, nofun, fun _ => rfl, fun _ => rfl⟩

theorem le_unknown (o : Outline) : o ≤ unknown := ⟨fun _ => rfl, fun _ => rfl, nofun, nofun⟩

theorem after_mono (h : o ≤ o') (op : QueryOp) : o.after op ≤ o'.after op := by
  obtain ⟨hordered, hcut, hsurely, hgroups⟩ := h
  cases op with
  | filter => exact ⟨hordered, hcut, hsurely, hgroups⟩
  | select => exact ⟨hordered, hcut, hsurely, id⟩
  | orderBy descending => exact ⟨fun _ => rfl, hcut, hsurely, hgroups⟩
  | thenBy descending => exact ⟨fun _ => rfl, hcut, hsurely, hgroups⟩
  | take => exact ⟨hordered, fun _ => rfl, fun _ => rfl, hgroups⟩
  | skip => exact ⟨hordered, fun _ => rfl, fun _ => rfl, hgroups⟩
  | single => exact ⟨hordered, fun _ => rfl, fun _ => rfl, hgroups⟩
  | _ => exact le_refl _

end Outline

/-- What is asked of a tree before it is bound: what the queries that variables stand for may be
like, whether aggregates may be taken of an `ordered` query, and whether groups may be taken of one
that is `cut`. -/
structure Allowance where
  held : Outline
  ordered : Bool
  cut : Bool

/-- Everything is allowed. -/
def Allowance.all : Allowance := ⟨.unknown, true, true⟩

/-- Aggregates are taken of queries without an order and groups of queries that are not cut. -/
def Allowance.strict (held : Outline) : Allowance := ⟨held, false, false⟩

namespace QueryOp

/-- Whether an operator may be applied to a query with the outline `o`. A query that is cut or
ranges over groups is read as a whole by an aggregate, so its order does not matter. -/
def allowed (π : Allowance) (o : Outline) : QueryOp → Bool
  | .count | .aggregate _ | .selectMany | .distinct =>
    π.ordered || !o.ordered || o.surelyCut || o.groups
  | .groupBy => π.cut || !o.cut
  | _ => true

/-- Whether variables can stand for what the argument of the operator gives. -/
def hasValues : QueryOp → Bool
  | .select | .groupBy => true
  | _ => false

theorem allowed_of_le {π : Allowance} {o o' : Outline} (h : o ≤ o') {op : QueryOp}
    (hop : op.allowed π o' = true) : op.allowed π o = true := by
  obtain ⟨hordered, hcut, hsurely, hgroups⟩ := h
  unfold allowed at hop ⊢
  split at hop
  · grind
  · grind
  · grind
  · grind
  · grind
  · rfl

end QueryOp

namespace Expr

section
variable (v : Outline)

/-- What is known of the query an expression gives, if variables stand for queries with the outline
`v`. -/
def outline : Expr → Outline
  | .call .queryable method none (start :: _) _ =>
    match QueryOp.ofMethod? method with
    | some op => start.outline.after op
    | none => .noQuery
  | .table _ _ => .table
  | .source _ => .table
  | .captured _ (.source _) _ => .table
  | .parameter _ _ => v
  | .member _ "Key" _ => v
  | .select s => .of s
  | _ => .noQuery
termination_by structural e => e

/-- What is known of the query that the lambda `e` gives. -/
def bodyOutline (e : Expr) : Outline :=
  match e.unquote with
  | .lambda _ body => body.outline v
  | _ => .unknown

end

/-- What an operator is applied to is `allowed`, what variables will stand for is `held`, and an
open query has no groups. -/
def operatorAllowed (π : Allowance) : Expr → Bool
  | .call .queryable method none (start :: args) _ =>
    (QueryOp.ofMethod? method).all fun op => op.allowed π (start.outline π.held) &&
      (!op.hasValues || args.all fun a => decide (a.bodyOutline π.held ≤ π.held))
  | .select s => s.group.isNone
  | _ => true

end Expr

/-! ## Selects -/

/-- What `π` asks of a bound select on its own. -/
structure Select.ClausesAllowedAt (π : Allowance) (s : Select) : Prop where
  all : s.group = some .all → s.isCut = false ∧ (π.ordered = true ∨ s.orderings = [])
  keys : ∀ ks, s.group = some (.keys ks) → s.orderings = [] ∧ (π.cut = true ∨ s.isCut = false)
  rows : ∀ e, s.projection = .expr e → e.outline π.held ≤ π.held
  key : ∀ k, s.groupKey = some k → ∀ e ∈ k.exprs, e.outline π.held ≤ π.held

/-- What `π` asks of a node of a bound expression. -/
def Expr.ClausesAllowedAt (π : Allowance) (e : Expr) : Prop :=
  e.operatorAllowed π = true ∧ Mark.operator.of e = false

/-- `ClausesAllowedAt` all nodes and selects of a bound expression. -/
def Expr.ClausesAllowed (π : Allowance) : Expr → Prop :=
  Expr.Throughout (Expr.ClausesAllowedAt π) (Select.ClausesAllowedAt π)

/-- `ClausesAllowedAt` a bound select and all that is in it. -/
def Select.ClausesAllowed (π : Allowance) : Select → Prop :=
  Select.Throughout (Expr.ClausesAllowedAt π) (Select.ClausesAllowedAt π)

/-- `operatorAllowed` at all nodes of `e`, and the selects in it are bound. -/
def Expr.OperatorsAllowed (π : Allowance) (e : Expr) : Prop :=
  ∀ n ∈ e.nodes, n.operatorAllowed π = true ∧ ∀ s, n.select? = some s → s.ClausesAllowed π

section
variable {π : Allowance} {e r c : Expr} {s : Select}

theorem Expr.operatorAllowed_of_mark (h : Mark.operator.of e = false) (hs : e.select? = none) :
    e.operatorAllowed π = true := by
  unfold operatorAllowed
  split
  · cases h
  · cases hs
  · rfl

theorem Expr.ClausesAllowed.pervasive :
    Pervasive (Expr.ClausesAllowedAt π) (Expr.ClausesAllowed π) (Select.ClausesAllowedAt π)
      (Select.ClausesAllowed π) :=
  Expr.Throughout.pervasive fun _ hk hs _ =>
    ⟨Expr.operatorAllowed_of_mark (hk .operator) hs, hk .operator⟩

theorem Expr.ClausesAllowed.select (h : e.ClausesAllowed π) (hs : e.select? = some s) :
    s.ClausesAllowed π :=
  Expr.Throughout.select h hs

/-- A query with `ClausesAllowed` has no groups. -/
theorem Expr.ClausesAllowed.group_eq_none (h : (Expr.select s).ClausesAllowed π) : s.group = none :=
  Option.isNone_iff_eq_none.mp (h.nodes _ (Expr.mem_nodes_self _)).1

theorem Select.ClausesAllowed.subquery (h : s.ClausesAllowed π) :
    (Expr.subquery s).ClausesAllowed π :=
  Select.Throughout.expr h rfl ⟨rfl, rfl⟩

theorem Select.ClausesAllowed.select (h : s.ClausesAllowed π) (hs : s.group = none) :
    (Expr.select s).ClausesAllowed π :=
  Select.Throughout.expr h rfl ⟨Option.isNone_iff_eq_none.mpr hs, rfl⟩

theorem Expr.ClausesAllowed.operatorsAllowed (h : e.ClausesAllowed π) : e.OperatorsAllowed π :=
  fun n hn => ⟨(h.nodes n hn).1, fun _ hs => (Expr.Throughout.of_node h hn).select hs⟩

theorem Expr.OperatorsAllowed.of_node {n : Expr} (h : e.OperatorsAllowed π) (hn : n ∈ e.nodes) :
    n.OperatorsAllowed π :=
  fun m hm => h m (Expr.mem_nodes_trans hm hn)

theorem Expr.OperatorsAllowed.child (h : e.OperatorsAllowed π) (hc : c ∈ e.children) :
    c.OperatorsAllowed π :=
  h.of_node (Expr.mem_nodes_of_child hc (Expr.mem_nodes_self c))

theorem Expr.OperatorsAllowed.of_parts
    (he : e.operatorAllowed π = true ∧ ∀ s, e.select? = some s → s.ClausesAllowed π)
    (hc : ∀ c ∈ e.children, c.OperatorsAllowed π) : e.OperatorsAllowed π := by
  intro n hn
  rcases Expr.mem_nodes_iff.mp hn with rfl | ⟨c, hce, hn⟩
  · exact he
  · exact hc c hce n hn

/-- The `outline` of a node that is no operator does not depend on its children. -/
theorem Expr.outline_withChildren {v : Outline} {cs : List Expr} (h : Mark.operator.of e = false)
    (hlen : cs.length = e.children.length) : (e.withChildren cs).outline v = e.outline v := by
  cases e with
  | call surface method receiver args t =>
    cases receiver with
    | none => cases surface <;> first | rfl | cases h
    | some receiver =>
      obtain ⟨receiver', args', rfl⟩ := List.exists_cons_of_length_eq_add_one hlen
      cases surface <;> rfl
  | member base name t =>
    obtain ⟨base', rfl⟩ := List.length_eq_one_iff.mp hlen
    show (Expr.member base' name t).outline v = (Expr.member base name t).outline v
    by_cases hname : name = "Key"
    · subst hname
      rfl
    · have hnone : ∀ b : Expr, (Expr.member b name t).outline v = .noQuery := by
        intro b
        rw [outline.eq_def]
        split <;> simp_all
      rw [hnone, hnone]
  | groupAggregate kind selector t =>
    rcases selector with _ | selector <;> rcases cs with _ | ⟨c, _ | ⟨d, cs⟩⟩ <;> rfl
  | binary op l r t => rcases cs with _ | ⟨c, _ | ⟨d, _ | ⟨y, cs⟩⟩⟩ <;> rfl
  | _ => rcases cs with _ | ⟨c, _ | ⟨d, cs⟩⟩ <;> rfl

theorem Expr.operatorAllowed_withChildren {cs : List Expr} (h : Mark.operator.of e = false) :
    (e.withChildren cs).operatorAllowed π = e.operatorAllowed π := by
  cases hs : e.select? with
  | none =>
    rw [operatorAllowed_of_mark h hs]
    apply operatorAllowed_of_mark
    · rw [of_withChildren, h]
    · rw [select?_withChildren, hs]
  | some s =>
    have hleaf : e.withChildren cs = e := by cases e <;> first | rfl | cases hs
    rw [hleaf]

/-- What is no query and no variable has an `outline` below any other. -/
theorem Expr.outline_composed {v : Outline} : Expr.Composed fun e => e.outline v ≤ v := by
  refine .of_node fun {e} hk hs _ _ _ _ => ?_
  rw [Expr.outline.eq_def]
  split
  · cases hk .operator
  · cases hk .table
  · cases hk .table
  · cases hk .table
  · exact le_refl _
  · exact le_refl _
  · cases hs
  · exact Outline.noQuery_le _

/-! ## Filling in values -/

/-- `r` is `e` with something filled in, and at least as much is known of it. -/
structure Expr.Refines (π : Allowance) (e r : Expr) : Prop where
  outline : r.outline π.held ≤ e.outline π.held
  body : r.bodyOutline π.held ≤ e.bodyOutline π.held
  operatorsAllowed : e.OperatorsAllowed π → r.OperatorsAllowed π

namespace Expr.Refines

theorem refl (e : Expr) : Refines π e e := ⟨le_refl _, le_refl _, id⟩

/-- A bound value in the place of something that is no lambda. -/
theorem value (hr : r.ClausesAllowed π) (hout : r.outline π.held ≤ e.outline π.held)
    (he : ∀ ps body, e.unquote ≠ .lambda ps body) : Refines π e r where
  outline := hout
  body := by
    have hunknown : e.bodyOutline π.held = .unknown := by
      unfold bodyOutline
      split
      · rename_i ps body hb
        exact absurd hb (he ps body)
      · rfl
    rw [hunknown]
    exact Outline.le_unknown _
  operatorsAllowed _ := hr.operatorsAllowed

theorem outline_node {cs : List Expr} (h : List.Forall₂ (Refines π) e.children cs) :
    (e.withChildren cs).outline π.held ≤ e.outline π.held := by
  cases hmark : Mark.operator.of e with
  | false =>
    rw [outline_withChildren hmark h.length_eq.symm]
  | true =>
    obtain ⟨method, args, t, rfl⟩ := eq_call_of_mark hmark
    cases args with
    | nil =>
      cases h
      exact le_refl _
    | cons start args =>
      obtain ⟨start', args', hstart, -, rfl⟩ := List.forall₂_cons_left_iff.mp h
      simp only [withChildren, Expr.outline]
      split
      · exact Outline.after_mono hstart.outline _
      · exact le_refl _

theorem body_node {cs : List Expr} (h : List.Forall₂ (Refines π) e.children cs) :
    (e.withChildren cs).bodyOutline π.held ≤ e.bodyOutline π.held := by
  cases e with
  | unary op operand t =>
    obtain ⟨operand', rfl⟩ := List.length_eq_one_iff.mp h.length_eq.symm
    obtain ⟨hf, -⟩ := List.forall₂_cons.mp h
    cases op with
    | quote => exact hf.body
    | _ => exact le_refl _
  | lambda ps body =>
    obtain ⟨body', rfl⟩ := List.length_eq_one_iff.mp h.length_eq.symm
    obtain ⟨hf, -⟩ := List.forall₂_cons.mp h
    exact hf.outline
  | _ => exact Outline.le_unknown _

theorem operatorAllowed_node {cs : List Expr} (h : List.Forall₂ (Refines π) e.children cs)
    (he : e.operatorAllowed π = true) : (e.withChildren cs).operatorAllowed π = true := by
  cases hmark : Mark.operator.of e with
  | false =>
    rw [operatorAllowed_withChildren hmark]
    exact he
  | true =>
    obtain ⟨method, args, t, rfl⟩ := eq_call_of_mark hmark
    cases args with
    | nil =>
      cases h
      rfl
    | cons start args =>
      obtain ⟨start', args', hstart, hargs, rfl⟩ := List.forall₂_cons_left_iff.mp h
      simp only [operatorAllowed, withChildren, Option.all_eq_true, Bool.and_eq_true,
        Bool.or_eq_true, List.all_eq_true, decide_eq_true_eq] at he ⊢
      intro op hop
      obtain ⟨hallowed, hvalues⟩ := he op hop
      refine ⟨QueryOp.allowed_of_le hstart.outline hallowed, hvalues.imp id ?_⟩
      intro hall a' ha'
      obtain ⟨a, ha, hf⟩ := List.exists_of_forall₂_right hargs ha'
      exact le_trans hf.body (hall a ha)

theorem node {cs : List Expr} (h : List.Forall₂ (Refines π) e.children cs) :
    Refines π e (e.withChildren cs) where
  outline := outline_node h
  body := body_node h
  operatorsAllowed he := by
    have hself := he e (mem_nodes_self e)
    refine .of_parts ⟨operatorAllowed_node h hself.1, ?_⟩ fun c' hc' => ?_
    · rw [select?_withChildren]
      exact hself.2
    · rw [children_withChildren h.length_eq.symm] at hc'
      obtain ⟨c, hc, hf⟩ := List.exists_of_forall₂_right h hc'
      exact hf.operatorsAllowed (he.child hc)

theorem filling : Expr.Filling (Refines π) := ⟨refl, node⟩

theorem parameter {x : String} {v : Expr} (hx : e.isParameter x = true) (hv : v.ClausesAllowed π)
    (hout : v.outline π.held ≤ π.held) : Refines π e v := by
  cases e with
  | parameter name t => exact .value hv hout (by rintro _ _ ⟨⟩)
  | _ => cases hx

theorem groupKey {x : String} {v : Expr} (hx : e.isKeyOf x = true) (hv : v.ClausesAllowed π)
    (hout : v.outline π.held ≤ π.held) : Refines π e v := by
  unfold isKeyOf at hx
  split at hx
  · exact .value hv hout (by rintro _ _ ⟨⟩)
  · cases hx

theorem substitute {x : String} {v : Expr} (hv : v.ClausesAllowed π)
    (hout : v.outline π.held ≤ π.held) : Refines π e (e.substitute x v) :=
  filling.substitute fun _ hp => .parameter hp hv hout

theorem substituteGroup {x : String} {key : GroupKey} (hv : ∀ v ∈ key.exprs, v.ClausesAllowed π)
    (hout : ∀ v ∈ key.exprs, v.outline π.held ≤ π.held) :
    Refines π e (e.substituteGroup x key) := by
  refine filling.substituteGroup (fun n hk => ?_) fun n hp => ?_
  · exact .groupKey hk (hv _ (by simp [GroupKey.exprs])) (hout _ (by simp [GroupKey.exprs]))
  · exact .parameter hp (hv _ (by simp [GroupKey.exprs])) (hout _ (by simp [GroupKey.exprs]))

end Expr.Refines

end

end QueryTree
