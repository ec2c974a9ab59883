import QueryTree.Proofs.AlikeTerms
import QueryTree.Proofs.CallForms
import QueryTree.Proofs.Closure
import QueryTree.Proofs.Hygiene
import QueryTree.Proofs.Operator
import QueryTree.Proofs.Variables

/-!
# Static form does not matter

Each step of compiling does the same to trees that differ in the form of calls: captured values get
the same names, selects the same scopes, and lowering looks at the operands as one list. What fails
does so with the same error.
-/

namespace QueryTree

open Comparing (Matches)
open LowerM (Agree)
open Surql (Term)

/-! ## Naming -/

theorem nameNode_paired {e e' : Expr} (h : e.Paired e') :
    Matches (Option.Rel Expr.Paired) (nameNode e) (nameNode e') := by
  cases h with
  | @kept _ cs _ _ hkids =>
    have hsame := e.sameNode_withChildren cs
    cases e with
    | source s =>
      cases hkids
      exact .pure (.some (.leaf rfl rfl rfl))
    | captured name capture t =>
      cases hkids
      cases capture with
      | value v => exact .self_bind _ fun name => .pure (.some (.leaf rfl rfl rfl))
      | source s => exact .pure (.some (.leaf rfl rfl rfl))
      | unavailable => exact fun _ => .error _
    | _ =>
      generalize Expr.withChildren _ cs = e' at hsame
      cases hsame <;> exact .pure .none
  | _ => exact .pure .none

/-! ## Binding -/

theorem Expr.Paired.select_or {e e' : Expr} (h : e.Paired e') :
    (∃ s s', e = .select s ∧ e' = .select s' ∧ s.Paired s') ∨ (∀ s, e ≠ .select s) ∧
      ∀ s, e' ≠ .select s := by
  cases h with
  | @kept _ cs hselect =>
    refine .inr ⟨?_, fun s hs => ?_⟩
    · rintro s rfl
      cases hselect
    · rw [← Expr.select?_withChildren e cs, hs] at hselect
      cases hselect
  | moved | subquery => exact .inr ⟨by rintro _ ⟨⟩, by rintro _ ⟨⟩⟩
  | select hs => exact .inl ⟨_, _, rfl, rfl, hs⟩

namespace Binding

/-- `bind` does the same to `Paired` trees. -/
def RespectsPaired (bind : Expr → BindM Expr) : Prop :=
  ∀ {e e' : Expr}, e.Paired e' → Matches Expr.Paired (bind e) (bind e')

section
variable {bind : Expr → BindM Expr} {a a' source source' : Expr} {o o' : Option Expr}
  {s s' : Select} {method : String} {t : Ty}

theorem ofMethod?_groupBy (h : QueryOp.ofMethod? method = some .groupBy) : method = "GroupBy" := by
  unfold QueryOp.ofMethod? at h
  split at h <;> first | rfl | cases h

theorem expectSelect_paired (h : source.Paired source') :
    Matches Select.Paired (expectSelect method source) (expectSelect method source') := by
  have hother : ∀ {e : Expr}, (∀ s, e ≠ .select s) →
      expectSelect method e = throw (.scalarSource method) := by
    intro e he
    cases e <;> first | rfl | exact absurd rfl (he _)
  rcases h.select_or with ⟨s, s', rfl, rfl, hs⟩ | ⟨he, he'⟩
  · exact .pure hs
  · rw [hother he, hother he']
    exact .throw _

theorem aggregateSource_paired (h : s.Paired s') :
    Matches Select.Paired (aggregateSource s) (aggregateSource s') := by
  unfold aggregateSource
  rw [h.isWindowed_eq]
  split
  · exact .self_bind _ fun scope => .pure (h.ofSelect scope)
  · exact .pure h

section
variable (hbind : RespectsPaired bind)
include hbind

theorem applyLambda_paired (hs : s.Paired s') (h : a.Paired a') :
    Matches Expr.Paired (applyLambda bind s method a) (applyLambda bind s' method a') := by
  refine (BindM.matches_ofExcept (h.asLambda method)).bind ?_
  intro f f' hf
  obtain ⟨p, body⟩ := f
  obtain ⟨p', body'⟩ := f'
  obtain ⟨rfl, hbody⟩ : p = p' ∧ body.Paired body' := hf
  simp only [hs.keyless.key, hs.groupKey_eq]
  exact hbind (hbody.substitute hs.rowValue p.name)

theorem applyOptional_paired (hs : s.Paired s') (h : Option.Rel Expr.Paired o o') :
    Matches (Option.Rel Expr.Paired) (applyOptional bind s method o)
      (applyOptional bind s' method o') := by
  cases h with
  | none => exact .pure .none
  | some h => exact (applyLambda_paired hbind hs h).bind fun c c' hc => .pure (.some hc)

theorem restricted_paired (hs : s.Paired s') (h : Option.Rel Expr.Paired o o') :
    Matches Select.Paired (restricted bind s method o) (restricted bind s' method o') := by
  refine (applyOptional_paired hbind hs h).bind fun c c' hc => ?_
  cases hc with
  | none => exact .pure hs
  | some hc => exact .pure (hs.filterBy hc)

theorem sequence_paired (hs : source.Paired source') (h : Option.Rel Expr.Paired o o') :
    Matches Expr.Paired (sequence bind method source o) (sequence bind method source' o') := by
  have hother : ∀ {e : Expr} {o : Option Expr}, (∀ s, e ≠ .select s) → sequence bind method e o =
      o.elim (pure e) fun _ => throw (.scalarSource method) := by
    intro e o he
    cases e <;> cases o <;> first | rfl | exact absurd rfl (he _)
  rcases hs.select_or with ⟨s, s', rfl, rfl, hselect⟩ | ⟨he, he'⟩
  · exact (restricted_paired hbind hselect h).bind fun s s' hs => .pure (.subquery hs)
  · rw [hother he, hother he']
    cases h with
    | none => exact .pure hs
    | some => exact .throw _

theorem bindProjection_paired (hs : s.Paired s') (h : a.Paired a') :
    Matches Expr.Paired (bindProjection bind s a) (bindProjection bind s' a') := by
  rw [bindProjection_eq, bindProjection_eq]
  exact (applyLambda_paired hbind hs h).bind fun c c' hc => .pure (.select (hs.projectBy hc))

theorem bindCount_paired (hs : source.Paired source') (h : Option.Rel Expr.Paired o o') :
    Matches Expr.Paired (bindCount bind method source o t)
      (bindCount bind method source' o' t) := by
  have hother : ∀ {e : Expr} {o : Option Expr}, (∀ s, e ≠ .select s) → bindCount bind method e o t =
      o.elim (pure (.custom (.staticCall .enumerable "Count" [e] t) t)) fun _ =>
        throw (.scalarSource method) := by
    intro e o he
    cases e <;> cases o <;> first | rfl | exact absurd rfl (he _)
  rcases hs.select_or with ⟨s, s', rfl, rfl, hselect⟩ | ⟨he, he'⟩
  · refine (aggregateSource_paired hselect).bind fun s s' hs => ?_
    exact (applyOptional_paired hbind hs h).bind fun c c' hc =>
      .pure (hs.aggregated (.count hc) _ t)
  · rw [hother he, hother he']
    cases h with
    | none => exact .pure (.custom t (.sequenceCall "Count" t (.cons hs .nil)))
    | some => exact .throw _

theorem bindAggregate_paired (kind : AggregateKind) (hs : source.Paired source')
    (h : Option.Rel Expr.Paired o o') :
    Matches Expr.Paired (bindAggregate bind kind method source o t)
      (bindAggregate bind kind method source' o' t) := by
  refine (expectSelect_paired hs).bind fun s s' hs =>
    (aggregateSource_paired hs).bind fun s s' hs => ?_
  refine (applyOptional_paired hbind hs h).bind fun c c' hc =>
    .pure (hs.aggregated (.aggregation ?_) _ t)
  cases hc with
  | none => exact hs.rowValue
  | some hc => exact hc

theorem answer_paired (op : QueryOp) {f : Expr → Expr} (hop : op.answer? t = some f)
    (hs : source.Paired source') (h : Option.Rel Expr.Paired o o') :
    Matches Expr.Paired
      (sequence bind method source o >>= fun rows => pure (.custom (f rows) t))
      (sequence bind method source' o' >>= fun rows => pure (.custom (f rows) t)) := by
  refine (sequence_paired hbind hs h).bind fun rows rows' hrows => .pure (.custom t ?_)
  cases op with
  | any =>
    cases hop
    exact hrows.existsTest
  | first default =>
    cases hop
    exact .orDefault default t (.combine .arrayIndex hrows (.constant _ _))
  | last default =>
    cases hop
    exact .orDefault default t (.sequenceCall "Last" t (.cons hrows .nil))
  | _ => cases hop

/-- Every operator but `groupBy` does the same. -/
theorem bindOperator_paired {op : QueryOp} {args args' : List Expr} (hop : op ≠ .groupBy)
    (hs : source.Paired source') (h : List.Forall₂ Expr.Paired args args') :
    Matches Expr.Paired (bindOperator bind op method source args t)
      (bindOperator bind op method source' args' t) := by
  have hselect : Matches Select.Paired (expectSelect method source) (expectSelect method source') :=
    expectSelect_paired hs
  rcases h with _ | ⟨ha, _ | ⟨hb, h⟩⟩
  · cases op with
    | count => exact bindCount_paired hbind hs .none
    | aggregate kind => exact bindAggregate_paired hbind kind hs .none
    | distinct => exact bindAggregate_paired hbind .distinct hs .none
    | any => exact answer_paired hbind .any rfl hs .none
    | first default => exact answer_paired hbind (.first default) rfl hs .none
    | last default => exact answer_paired hbind (.last default) rfl hs .none
    | single => exact hselect.bind fun s s' hs => .pure (.select hs.single)
    | _ => exact .throw _
  · cases op with
    | filter =>
      refine hselect.bind fun s s' hs => (applyLambda_paired hbind hs ha).bind fun c c' hc => ?_
      exact .pure (.select (hs.filterBy hc))
    | select =>
      refine hselect.bind fun s s' hs => ?_
      -- Nothing has been grouped, so no selector is merged.
      simp only [hs.keyless.key, hs.groupKey_eq]
      exact bindProjection_paired hbind hs ha
    | selectMany => exact bindAggregate_paired hbind .flatten hs (.some ha)
    | groupBy => exact absurd rfl hop
    | orderBy descending =>
      refine hselect.bind fun s s' hs => (applyLambda_paired hbind hs ha).bind fun c c' hc => ?_
      exact .pure (.select (hs.orderBy hc descending))
    | thenBy descending =>
      refine hselect.bind fun s s' hs => (applyLambda_paired hbind hs ha).bind fun c c' hc => ?_
      exact .pure (.select (hs.thenBy hc descending))
    | take =>
      exact hselect.bind fun s s' hs => (hbind ha).bind fun c c' hc => .pure (.select (hs.take hc))
    | skip =>
      exact hselect.bind fun s s' hs => (hbind ha).bind fun c c' hc => .pure (.select (hs.skip hc))
    | count => exact bindCount_paired hbind hs (.some ha)
    | aggregate kind => exact bindAggregate_paired hbind kind hs (.some ha)
    | distinct => exact .throw _
    | all =>
      refine hselect.bind fun s s' hs => (applyLambda_paired hbind hs ha).bind fun c c' hc => ?_
      have hfailing := hs.filterBy hc.not
      refine .pure (.custom t (.combine .equal (.sequenceCall "Count" .int32 ?_) (.constant _ _)))
      exact .cons (.subquery hfailing) .nil
    | any => exact answer_paired hbind .any rfl hs (.some ha)
    | contains =>
      refine (sequence_paired hbind hs .none).bind fun rows rows' hrows => ?_
      refine (hbind ha).bind fun c c' hc => .pure (.custom t ?_)
      exact .sequenceCall "Contains" .bool (.cons hrows (.cons hc .nil))
    | first default => exact answer_paired hbind (.first default) rfl hs (.some ha)
    | last default => exact answer_paired hbind (.last default) rfl hs (.some ha)
    | elementAt default =>
      refine (sequence_paired hbind hs .none).bind fun rows rows' hrows => ?_
      refine (hbind ha).bind fun c c' hc => .pure (.custom t ?_)
      exact .orDefault default t (.combine .arrayIndex hrows hc)
    | single =>
      refine hselect.bind fun s s' hs => (restricted_paired hbind hs (.some ha)).bind
        fun s s' hs => ?_
      exact .pure (.select hs.single)
  · cases op <;> exact .throw _

theorem bindCall_paired {args args' : List Expr} (hmethod : method ≠ "GroupBy")
    (h : List.Forall₂ Expr.Paired args args') :
    Matches Expr.Paired (bindCall bind method args t) (bindCall bind method args' t) := by
  cases h with
  | nil => exact .throw _
  | cons hs hargs =>
    refine (hbind hs).bind fun source source' hs => ?_
    cases hop : QueryOp.ofMethod? method with
    | none => exact .throw _
    | some op =>
      refine bindOperator_paired hbind ?_ hs hargs
      intro hgroup
      exact hmethod (ofMethod?_groupBy (hgroup ▸ hop))

theorem bindNode_paired {e e' : Expr} (h : e.Paired e') :
    Matches (Option.Rel Expr.Paired) (bindNode bind e) (bindNode bind e') := by
  cases h with
  | @kept _ cs _ hgrouping hkids =>
    have hsame := e.sameNode_withChildren cs
    cases e with
    | table name element =>
      cases hkids
      exact .self_bind _ fun scope => .pure (.some (.select (.ofTable scope name element)))
    | call surface method receiver args t =>
      cases receiver with
      | some receiver =>
        rcases hkids with _ | ⟨hreceiver, hargs⟩
        cases surface <;> exact .pure .none
      | none =>
        cases surface with
        | queryable =>
          have hmethod : method ≠ "GroupBy" := by simpa [Expr.isGrouping] using hgrouping
          exact (bindCall_paired hbind hmethod hkids).bind fun r r' hr => .pure (.some hr)
        | _ => exact .pure .none
    | _ =>
      generalize Expr.withChildren _ cs = e' at hsame
      cases hsame <;> exact .pure .none
  | @moved surface _ _ _ _ _ hsurface =>
    cases surface with
    | queryable => cases hsurface
    | _ => exact .pure .none
  | select | subquery => exact .pure .none

end

theorem respectsPaired_bindWith (fuel : Nat) : RespectsPaired (bindWith fuel) := by
  induction fuel with
  | zero => exact fun _ => .throw _
  | succ fuel ih => exact fun h => h.replaceM (bindNode_paired ih)

/-- Calls in static form are no operators for `isOperator`. -/
theorem isOperator_paired {e e' : Expr} (h : e.Paired e') : isOperator e = isOperator e' := by
  cases h with
  | kept => exact (isOperator_withChildren _ _).symm
  | @moved surface _ _ _ _ _ hsurface =>
    cases surface with
    | queryable => cases hsurface
    | _ => rfl
  | select | subquery => rfl

theorem operatorCount_paired {e e' : Expr} (h : e.Paired e') :
    operatorCount e = operatorCount e' := by
  induction e using Expr.childrenInduction generalizing e' with
  | step e ih =>
    have hkids := h.children_imp fun c hc c' hcc' => ih c hc hcc'
    have hsums : e.children.map operatorCount = e'.children.map operatorCount := by
      rw [← List.forall₂_eq_eq_eq, List.forall₂_map_left_iff, List.forall₂_map_right_iff]
      exact hkids
    rw [operatorCount_eq, operatorCount_eq, hsums, isOperator_paired h]

end

end Binding

theorem Expr.Paired.bind {e e' : Expr} (h : e.Paired e') : Matches Expr.Paired e.bind e'.bind := by
  unfold Expr.bind
  rw [Binding.operatorCount_paired h]
  exact Binding.respectsPaired_bindWith _ h

/-! ## Lowering -/

namespace LowerM

/-- Runs from the same state that do the same, also where they fail. -/
abbrev Correspondence.exact : Correspondence where
  states := Eq
  names _ := True
  faults _ := True
  terms _ := True

theorem level_exact : Correspondence.exact.Level := by
  intro s t hst
  cases hst
  exact ⟨rfl, fun _ => rfl⟩

end LowerM

section
variable {e e' : Expr} {s s' : Select}

namespace Expr

/-- `lower` reads all operands of a call as one list, wherever the first of them is written. -/
theorem lower_static {surface : Surface} (h : surface.hasStaticForm = true) (method : String)
    (receiver : Expr) (args : List Expr) (t : Ty) :
    (call surface method (some receiver) args t).lower =
      (call surface method none (receiver :: args) t).lower := by
  cases surface <;> first | rfl | cases h

theorem Paired.readsLike (h : e.Paired e') : e.ReadsLike e' := by
  induction e using childrenInduction generalizing e' with
  | step e ih =>
    have hkids := h.children_imp fun c hc c' hcc' => ih c hc hcc'
    cases h with
    | kept _ _ hpaired =>
      rw [children_withChildren hpaired.length_eq.symm] at hkids
      exact readsLike_withChildren hkids
    | _ => exact ⟨rfl, rfl, rfl, rfl, rfl⟩

end Expr

theorem Select.Paired.related (h : s.Paired s') : s.Related Expr.Paired Select.Paired s' := by
  cases h with
  | @mk _ _ projection _ _ _ _ hkey hsource hprojection hfilter horderings htake hskip =>
    refine ⟨rfl, rfl, hsource, ?_, hfilter, ?_, ?_, htake, hskip⟩
    · show s.projection.Related Expr.Paired projection
      generalize s.projection = p at hprojection
      cases hprojection with
      | all => exact .all
      | expr h => exact .expr h
      | count h => exact .count h
      | aggregation h => exact .aggregation h
    · show Option.Rel (RowGroup.Related Expr.Paired) s.group s.group
      rcases hkey.group with hnone | hall
      · rw [hnone]
        exact .none
      · rw [hall]
        exact .some .all
    · refine horderings.imp fun k k' hk => ?_
      cases hk with
      | mk hk => exact ⟨rfl, hk⟩

/-- What is `Paired` lowers to the same, or fails in the same way. -/
theorem lowers_paired : (∀ e : Expr, ∀ e', e.Paired e' → e.LowersLike .exact e') ∧
    ∀ s : Select, ∀ s', s.Paired s' → Agree .exact (fun _ => True) s.lower s'.lower := by
  have hselect : ∀ {s s' : Select}, Agree .exact (fun _ => True) s.lower s'.lower →
      Agree .exact (fun _ => True) (do return Surql.Term.subquery (← LowerM.nested s.lower))
        (do return .subquery (← LowerM.nested s'.lower)) :=
    fun h => (h.nested LowerM.level_exact).bind fun u => .pure id
  apply deepInduction
  · intro e hkids hselects e' h
    have hreads := h.readsLike
    have hty : e'.ty = e.ty ∨ false = true ∧ Fruitless e.lower := .inl h.ty_eq.symm
    have hlowers := h.children_imp hkids
    cases h with
    | @kept _ cs _ _ hpaired =>
      rw [Expr.children_withChildren hpaired.length_eq.symm] at hlowers
      cases hcompound : e.isCompound with
      | true =>
        refine ⟨⟨hreads, hty, ?_⟩, ?_, ?_⟩
        · exact Expr.lower_agree_of_children LowerM.level_exact ⟨trivial, fun _ => trivial⟩
            trivial hcompound hlowers fun _ => hpaired.imp fun _ _ hc => hc.ty_eq.symm
        · exact Expr.knownItems_agree_of_children hcompound hlowers
        · exact Expr.memberOperands_agree_of_children hlowers
      | false =>
        -- A lambda is no operand, whatever its body is.
        by_cases hlambda : ∃ ps body, e = .lambda ps body
        · obtain ⟨ps, body, rfl⟩ := hlambda
          rcases hpaired with _ | ⟨hbody, ⟨⟩⟩
          exact ⟨⟨hreads, hty, .refuse rfl⟩, .nil, .nil⟩
        · have hleaf : e.children = [] := by
            cases e with
            | lambda ps body => exact absurd ⟨ps, body, rfl⟩ hlambda
            | _ => first | rfl | cases hcompound
          rw [hleaf] at hpaired
          cases hpaired
          rw [← hleaf, Expr.withChildren_children]
          exact Expr.lowersLike_self rfl (fun _ => trivial) (fun _ => trivial) hcompound
    | @moved surface method receiver args cs t hsurface hpaired =>
      refine ⟨⟨hreads, hty, ?_⟩, .nil, .nil⟩
      show Agree .exact (fun _ => True) (Expr.call surface method (some receiver) args t).lower _
      -- Both forms are lowered as the call that has all operands in its list.
      rw [Expr.lower_static hsurface]
      exact Expr.lower_agree_of_children (e := .call surface method none (receiver :: args) t)
        LowerM.level_exact ⟨trivial, fun _ => trivial⟩ trivial rfl hlowers nofun
    | select hs => exact ⟨⟨hreads, hty, hselect (hselects _ rfl _ hs)⟩, .nil, .nil⟩
    | subquery hs => exact ⟨⟨hreads, hty, hselect (hselects _ rfl _ hs)⟩, .nil, .nil⟩
  · intro s hclauses hinputs s' h
    exact (Select.lower_agree LowerM.level_exact (h.related.imp hclauses hinputs)).imp fun _
      _ => trivial

theorem Expr.Paired.toQuery_eq (h : e.Paired e') (params : Params) :
    e.toQuery params = e'.toQuery params := by
  have hroot : Agree .exact (fun _ => True) e.lowerRoot e'.lowerRoot := by
    have hterm := (lowers_paired.1 e e' h).lower
    rcases h.select_or with ⟨s, s', rfl, rfl, hs⟩ | ⟨he, he'⟩
    · refine Expr.lowerRoot_agree_of (C := .exact) hterm ?_ fun _ _ => ⟨s, rfl⟩
      rintro _ ⟨⟩
      exact ⟨s', rfl, lowers_paired.2 s s' hs⟩
    · exact Expr.lowerRoot_agree_of (C := .exact) hterm (fun s hs => absurd hs (he s)) fun s' hs' =>
        absurd hs' (he' s')
  obtain ⟨hresult, hstate⟩ := hroot.same rfl (s := ⟨params, .empty⟩) rfl
  unfold Expr.toQuery
  rw [Prod.ext hresult hstate]

end

/-! ## Compiling -/

section
variable {t t' : Expr}

/-- Trees that callers make and in which nothing is grouped by keys are `Paired`. -/
theorem Expr.Respelled.paired (h : t.Respelled t') (ht : t.Written)
    (hgroup : ∀ n ∈ t.nodes, n.isGrouping = false) : t.Paired t' := by
  induction t using Expr.childrenInduction generalizing t' with
  | step t ih =>
    have hkids : ∀ {cs}, List.Forall₂ Expr.Respelled t.children cs →
        List.Forall₂ Expr.Paired t.children cs := by
      intro cs hcs
      rw [List.forall₂_iff_zip] at hcs ⊢
      refine ⟨hcs.1, fun hp => ?_⟩
      have hc := (List.of_mem_zip hp).1
      exact ih _ hc (hcs.2 hp) (ht.child hc) fun n hn => hgroup n (Expr.mem_nodes_of_child hc hn)
    cases h with
    | kept hcs =>
      have hselect := Expr.select?_eq_none_of_isWritten (ht t t.mem_nodes_self)
      exact .kept hselect (hgroup t t.mem_nodes_self) (hkids hcs)
    | moved hsurface hcs => exact .moved hsurface (hkids hcs)

/-- For every tree of callers without `GroupBy`, and for all options: calls on sequences, objects
and vectors in static form give the same error, or the same text with the same parameters. -/
theorem static_form_compiles_alike (o : Options) (ht : t.Written)
    (hgroup : ∀ n ∈ t.nodes, n.isGrouping = false) (h : t.Respelled t') :
    t'.compile o = t.compile o := by
  have hpaired : t.Paired t' := h.paired ht hgroup
  symm
  refine (hpaired.replaceM nameNode_paired (.empty o)).bind_eq ?_
  intro named named' hnamed
  obtain ⟨tree, params⟩ := named
  obtain ⟨tree', params'⟩ := named'
  obtain ⟨htree, rfl⟩ : tree.Paired tree' ∧ params = params' := hnamed
  refine (htree.bind 0).1.bind_eq fun bound bound' hbound => ?_
  rw [hbound.toQuery_eq]

theorem Expr.Respelled.refl (e : Expr) : e.Respelled e := by
  induction e using Expr.childrenInduction with
  | step e ih =>
    have hnode : e.Respelled (e.withChildren e.children) := .kept (List.forall₂_same.mpr ih)
    rwa [Expr.withChildren_children] at hnode

namespace Sample

/-- Users whose tags contain the text of a number, with methods of the tags and of the number. -/
def taggedUsers : Expr :=
  on (rows "user") "Where" [fn "u" (.methodCall (col "u" "Tags") .enumerable "Contains"
    [.methodCall (.capture "wanted" (.int 7)) .object "ToString" [] .string] .bool)]

/-- `taggedUsers` with functions of the tags and the number. -/
def taggedUsersStatic : Expr :=
  on (rows "user") "Where" [fn "u" (.staticCall .enumerable "Contains"
    [col "u" "Tags", .staticCall .object "ToString" [.capture "wanted" (.int 7)] .string] .bool)]

theorem respelled_taggedUsers : taggedUsers.Respelled taggedUsersStatic := by
  have hnumber : (Expr.methodCall (.capture "wanted" (.int 7)) .object "ToString" []
      .string).Respelled
        (.staticCall .object "ToString" [.capture "wanted" (.int 7)] .string) :=
    .moved rfl (.cons (.refl _) .nil)
  have hcontains : (Expr.methodCall (col "u" "Tags") .enumerable "Contains"
      [.methodCall (.capture "wanted" (.int 7)) .object "ToString" [] .string] .bool).Respelled
      (.staticCall .enumerable "Contains"
        [col "u" "Tags", .staticCall .object "ToString" [.capture "wanted" (.int 7)] .string]
          .bool) :=
    .moved rfl (.cons (.refl _) (.cons hnumber .nil))
  have hlambda := Expr.Respelled.kept (e := fn "u" _) (.cons hcontains .nil)
  exact .kept (e := taggedUsers) (.cons (.refl _) (.cons hlambda .nil))

end Sample

theorem static_form_compiles_alike_taggedUsers :
    Sample.taggedUsers.Written ∧ (∀ n ∈ Sample.taggedUsers.nodes, n.isGrouping = false) ∧
      Sample.taggedUsers.Respelled Sample.taggedUsersStatic ∧
      (Sample.taggedUsers.compile .standard).toOption.map (·.text) =
        some "SELECT * FROM user WHERE Tags CONTAINS (<string> $wanted)" ∧
      Sample.taggedUsersStatic.compile .standard = Sample.taggedUsers.compile .standard :=
  ⟨by decide, by decide, Sample.respelled_taggedUsers, by decide +kernel,
    static_form_compiles_alike .standard (by decide) (by decide) Sample.respelled_taggedUsers⟩

end

end QueryTree
