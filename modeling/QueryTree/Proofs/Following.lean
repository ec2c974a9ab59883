import QueryTree.Proofs.Counterparts
import QueryTree.Proofs.Variables

/-!
# Binding trees that are alike

If a way to bind `Follows` another on trees that are alike, so does binding one operator more. The
pairings of variables met on the way are those of a family that is kept under lambdas.
-/

namespace QueryTree

/-- `A` has the base `B` and is kept under lambdas. -/
structure Pairing.Kept (B : Pairing) (A : Pairing → Prop) : Prop where
  base : ∀ {Γ}, A Γ → B.Below Γ
  under : ∀ {Γ ps ps'}, A Γ → B.Declares Γ ps ps' → A (Γ.under ps ps')

/-- `bind'` follows `bind`. What is bound has no variables but those of `B`. -/
def Binding.Follows (B : Pairing) (A : Pairing → Prop) (bind bind' : Expr → BindM Expr) : Prop :=
  ∀ {strict Γ e e'}, A Γ → Expr.Alike B strict Γ e e' → Simulates (Expr.Alike B strict B)
    (bind e) (bind' e')

section
variable {B Γ : Pairing} {A : Pairing → Prop} {bind bind' : Expr → BindM Expr} {strict : Bool}
  {e e' a a' source source' : Expr} {o o' : Option Expr} {s s' : Select} {method : String} {t : Ty}

theorem Select.Alike.projectBy {c c' : Expr} (hs : s.Alike B s') (hc : c.Alike B true B c') :
    (s.projectBy c).Alike B (s'.projectBy c') := by
  have hproject : (s.project (.expr c)).Alike B (s'.project (.expr c')) := hs.project (.expr hc)
  by_cases hrow : ∃ scope u, c = .row scope u
  · obtain ⟨scope, u, rfl⟩ := hrow
    obtain rfl := hc.of_row
    simp only [Select.projectBy, hs.scope_eq]
    split
    · exact hs
    · exact hproject
  · have hrow' : ∀ scope u, c' ≠ .row scope u := by
      rintro scope u rfl
      exact hrow ⟨scope, u, hc.row_right⟩
    unfold Select.projectBy
    split
    · exact absurd ⟨_, _, rfl⟩ hrow
    · exact hproject

namespace Binding

/-! ## Parts of operators -/

/-- Lambdas that are `Alike` have bodies that are, below their parameters. -/
theorem asLambda_alike (h : a.Alike B strict Γ a') :
    Simulates (fun x x' => B.Declares Γ [x.1] [x'.1] ∧ x.2.Alike B true (Γ.under [x.1] [x'.1]) x'.2)
      (BindM.ofExcept (a.asLambda method)) (BindM.ofExcept (a'.asLambda method)) := by
  rintro n ⟨p, body⟩ m hx
  obtain ⟨hp, rfl⟩ := BindM.yields_ofExcept.mp hx
  obtain ⟨ps', body', hu, hps, hbody⟩ := h.of_unquote (Expr.asLambda_eq_ok hp)
  obtain ⟨p', rfl⟩ := List.length_eq_one_iff.mp hps.length.symm
  refine ⟨(p', body'), BindM.yields_ofExcept.mpr ⟨?_, rfl⟩, hps, hbody⟩
  rw [Expr.asLambda, hu]

theorem expectSelect_alike (h : source.Alike B strict Γ source') :
    Simulates (Select.Alike B) (expectSelect method source) (expectSelect method source') := by
  unfold expectSelect
  split
  · obtain ⟨s', rfl, hs⟩ := h.of_select
    exact .pure hs
  · exact .of_fruitless (BindM.fruitless_throw _) _

theorem aggregateSource_alike (h : s.Alike B s') :
    Simulates (Select.Alike B) (aggregateSource s) (aggregateSource s') := by
  unfold aggregateSource
  rw [h.isWindowed_eq]
  split
  · exact (Simulates.refl _).bind_eq fun scope => .pure (h.ofSelect scope)
  · exact .pure h

section
variable (hA : B.Kept A) (hbind : Follows B A bind bind') (hΓ : A Γ)
include hA hbind hΓ

theorem applyLambda_alike (hs : s.Alike B s') (h : a.Alike B strict Γ a') :
    Simulates (Expr.Alike B true B) (applyLambda bind s method a)
      (applyLambda bind' s' method a') := by
  refine (asLambda_alike h).bind ?_
  rintro ⟨p, body⟩ ⟨p', body'⟩ ⟨-, hbody⟩
  have hfills := Pairing.fills_under Γ p p'
  have hkey := hs.groupKey
  simp only
  generalize s.groupKey = k at hkey ⊢
  generalize s'.groupKey = k' at hkey ⊢
  cases hkey with
  | none => exact hbind hΓ (hbody.substitute hfills (hA.base hΓ) hs.rowValue)
  | some hkey => exact hbind hΓ (hbody.substituteGroup hfills (hA.base hΓ) hkey)

theorem applyOptional_alike (hs : s.Alike B s') (h : Option.Rel (Expr.Alike B false Γ) o o') :
    Simulates (Option.Rel (Expr.Alike B true B)) (applyOptional bind s method o)
      (applyOptional bind' s' method o') := by
  cases h with
  | none => exact .pure .none
  | some h => exact (applyLambda_alike hA hbind hΓ hs h).bind fun c c' hc => .pure (.some hc)

theorem restricted_alike (hs : s.Alike B s') (h : Option.Rel (Expr.Alike B false Γ) o o') :
    Simulates (Select.Alike B) (restricted bind s method o) (restricted bind' s' method o') := by
  refine (applyOptional_alike hA hbind hΓ hs h).bind fun c c' hc => ?_
  cases hc with
  | none => exact .pure hs
  | some hc => exact .pure (hs.filterBy hc)

/-- `sequence` does not cut a source that is no query. -/
theorem sequence_alike (hs : source.Alike B false B source')
    (h : Option.Rel (Expr.Alike B false Γ) o o') :
    Simulates (Expr.Alike B false B) (sequence bind method source o)
      (sequence bind' method source' o') := by
  by_cases hselect : ∃ s, source = .select s
  · obtain ⟨s, rfl⟩ := hselect
    obtain ⟨s', rfl, hsel⟩ := hs.of_select
    exact (restricted_alike hA hbind hΓ hsel h).bind fun s s' hs => .pure (.subquery hs)
  · have hother : ∀ {bind : Expr → BindM Expr} {source : Expr}, (∀ s, source ≠ .select s) →
        sequence bind method source none = pure source := by
      intro bind source hne
      unfold sequence
      split
      · exact absurd rfl (hne _)
      · rfl
      · contradiction
    cases h with
    | none =>
      rw [hother (not_exists.mp hselect), hother]
      · exact .pure hs
      · intro s' hs'
        obtain ⟨s, rfl, -⟩ := hs.select_right hs'
        exact hselect ⟨s, rfl⟩
    | some _ =>
      -- Only queries can be cut down, so the first tree is not bound at all, and nothing is asked
      -- of the second.
      refine .of_fruitless ?_ _
      unfold sequence
      split
      · exact absurd ⟨_, rfl⟩ hselect
      · contradiction
      · exact BindM.fruitless_throw _

theorem bindProjection_alike (hs : s.Alike B s') (h : a.Alike B strict Γ a') :
    Simulates (Expr.Alike B true B) (bindProjection bind s a) (bindProjection bind' s' a') := by
  rw [bindProjection_eq, bindProjection_eq]
  exact (applyLambda_alike hA hbind hΓ hs h).bind fun c c' hc => .pure (.select (hs.projectBy hc))

theorem bindGroupBy_alike (hs : s.Alike B s') (h : a.Alike B strict Γ a') :
    Simulates (Expr.Alike B true B) (bindGroupBy bind s a) (bindGroupBy bind' s' a') := by
  rw [bindGroupBy_eq, bindGroupBy_eq]
  refine (applyLambda_alike hA hbind hΓ hs h).bind fun inner inner' hi => ?_
  exact (Simulates.refl _).bind_eq fun scope => .pure (.select (hs.groups hi scope))

theorem bindCount_alike (hs : source.Alike B false B source')
    (h : Option.Rel (Expr.Alike B false Γ) o o') :
    Simulates (Expr.Alike B true B) (bindCount bind method source o t)
      (bindCount bind' method source' o' t) := by
  by_cases hselect : ∃ s, source = .select s
  · obtain ⟨s, rfl⟩ := hselect
    obtain ⟨s', rfl, hsel⟩ := hs.of_select
    refine (aggregateSource_alike hsel).bind fun s s' hs => ?_
    exact (applyOptional_alike hA hbind hΓ hs h).bind fun c c' hc =>
      .pure (hs.aggregated (.count hc) _ t)
  · have hother : ∀ {bind : Expr → BindM Expr} {source : Expr}, (∀ s, source ≠ .select s) →
        bindCount bind method source none t = pure
          (.custom (.staticCall .enumerable "Count" [source] t) t) := by
      intro bind source hne
      unfold bindCount
      split
      · exact absurd rfl (hne _)
      · rfl
      · contradiction
    cases h with
    | none =>
      rw [hother (not_exists.mp hselect), hother]
      · exact .pure (.custom t (.staticCall .enumerable "Count" t (.cons hs .nil)))
      · intro s' hs'
        obtain ⟨s, rfl, -⟩ := hs.select_right hs'
        exact hselect ⟨s, rfl⟩
    | some _ =>
      -- A condition on anything but a query is refused.
      refine .of_fruitless ?_ _
      unfold bindCount
      split
      · exact absurd ⟨_, rfl⟩ hselect
      · contradiction
      · exact BindM.fruitless_throw _

theorem bindAggregate_alike (kind : AggregateKind) (hs : source.Alike B false B source')
    (h : Option.Rel (Expr.Alike B false Γ) o o') : Simulates (Expr.Alike B true B)
      (bindAggregate bind kind method source o t)
        (bindAggregate bind' kind method source' o' t) := by
  refine (expectSelect_alike hs).bind fun s s' hs =>
    (aggregateSource_alike hs).bind fun s s' hs => ?_
  refine (applyOptional_alike hA hbind hΓ hs h).bind fun c c' hc =>
    .pure (hs.aggregated (.aggregation ?_) _ t)
  cases hc with
  | none => exact hs.rowValue
  | some hc => exact hc

/-! ## Merging -/

theorem aggregatedValue_alike {key key' : GroupKey} (hkey : key.Alike B key') (kind : AggregateKind)
    (h : Option.Rel (Expr.Alike B false Γ) o o') : Simulates (Option.Rel (Expr.Alike B true B))
      (aggregatedValue bind key method kind o) (aggregatedValue bind' key' method kind o') := by
  cases h with
  | some h =>
    exact (applyLambda_alike hA hbind hΓ hkey.source h).bind fun c c' hc => .pure (.some hc)
  | none =>
    simp only [aggregatedValue]
    split
    · exact .pure .none
    · exact .pure (.some hkey.source.rowValue)

end

theorem aboutVariable_mergeNode (x : String) (key : GroupKey) :
    AboutVariable x (mergeNode bind x key) where
  inert {e} h := by
    cases e with
    | unary | binary | select | subquery => rfl
    | _ => cases h
  enter h := by simp [mergeNode_eq, Expr.isKeyOf, Expr.aggregateOf?, Expr.shadows, h]
  unused {n} h := by
    rw [mergeNode_eq, Expr.isKeyOf_eq_false h, Expr.aggregateOf?_eq_none h]
    by_cases hs : n.shadows x = true
    · exact .inl (by simp [hs])
    · exact .inr ⟨by simp [hs], by simpa using hs⟩

/-- `mergeNode` leaves the variable where it is used for itself, so the pairing stays as it is. -/
theorem mergeNode_lockstep (hA : B.Kept A) (hbind : Follows B A bind bind') {key key' : GroupKey}
    (hkey : key.Alike B key') (x x' : String) :
    Lockstep B (fun Δ Γ => Δ = Γ ∧ A Γ ∧ ∃ Γ', Pairing.Fills x x' Γ Γ') (mergeNode bind x key)
      (mergeNode bind' x' key') := by
  refine .of_variable (aboutVariable_mergeNode x key) (aboutVariable_mergeNode x' key')
    (fun h => hA.base h.2.1) (fun h => h.1 ▸ h.2.2) ?_ ?_ ?_ ?_
  · rintro Δ Γ ps ps' ⟨rfl, hΓ, Γ', hx⟩ hps hx₁ hx₁'
    exact ⟨rfl, hA.under hΓ hps, _, hx.under hx₁ hx₁'⟩
  · rintro Δ Γ ps ps' body body' ⟨rfl, -, -⟩ - - hbody
    exact hbody
  · rintro strict Δ Γ y y' t ⟨rfl, -, -⟩ hy
    -- The variable itself is left to binding, on both sides.
    have hstays : ∀ {bind : Expr → BindM Expr} {x y : String} {key : GroupKey},
        (Expr.parameter y t).replaceM (mergeNode bind x key) = pure (.parameter y t) := by
      intro bind x y key
      rw [Expr.replaceM_eq, mergeNode_eq]
      simp [Expr.isKeyOf, Expr.aggregateOf?, Expr.shadows, Expr.children, Expr.withChildren]
    rw [hstays, hstays]
    exact .pure (.parameter hy)
  · rintro strict Δ Γ e cs ⟨rfl, hΓ, Γ', hx⟩ hplain hkids
    have hplain' : (e.withChildren cs).isPlain = true :=
      (Expr.isPlain_withChildren e cs).trans hplain
    have hagg := Expr.Alike.aggregateOf?_rel hkids hx
    rw [Expr.replaceM_eq, Expr.replaceM_eq, mergeNode_eq, mergeNode_eq,
      ← Expr.Alike.isKeyOf_eq hkids hx, Expr.shadows_of_isPlain hplain,
      Expr.shadows_of_isPlain hplain']
    by_cases hk : e.isKeyOf x = true
    · right
      simp only [hk, if_true, pure_bind]
      exact .pure (hkey.inner.mono (hA.base hΓ) (hA.base hΓ)).loose
    · simp only [hk, Bool.false_eq_true, if_false]
      generalize e.aggregateOf? x = g, (e.withChildren cs).aggregateOf? x' = g' at hagg ⊢
      cases hagg with
      | none => exact .inl ⟨rfl, rfl⟩
      | @some g g' hg =>
        right
        obtain ⟨kind, method, rest, u⟩ := g
        obtain ⟨kind', method', rest', u'⟩ := g'
        obtain ⟨rfl, rfl, hrest, rfl⟩ := hg
        have hhead : Option.Rel (Expr.Alike B false Δ) rest.head? rest'.head? := by
          cases hrest with
          | nil => exact .none
          | cons ha _ => exact .some ha
        simp only [bind_assoc, pure_bind]
        refine (aggregatedValue_alike hA hbind hΓ hkey kind hhead).bind fun c c' hc => .pure ?_
        exact .mono (.groupAggregate kind u hc) (hA.base hΓ) (hA.base hΓ)

section
variable (hA : B.Kept A) (hbind : Follows B A bind bind') (hΓ : A Γ)
include hA hbind hΓ

theorem bindGroupedProjection_alike {key key' : GroupKey} (hs : s.Alike B s')
    (hkey : key.Alike B key') (h : a.Alike B strict Γ a') :
    Simulates (Expr.Alike B true B) (bindGroupedProjection bind s key a)
      (bindGroupedProjection bind' s' key' a') := by
  rw [bindGroupedProjection_eq, bindGroupedProjection_eq]
  refine (asLambda_alike h).bind ?_
  rintro ⟨p, body⟩ ⟨p', body'⟩ ⟨hps, hbody⟩
  have hfills := Pairing.fills_under Γ p p'
  simp only [GroupUses.of_alike hbody hfills]
  split
  · refine (hbind hΓ (hbody.substituteGroup hfills (hA.base hΓ) hkey)).bind fun c c' hc => ?_
    exact .pure (.select (hs.ungrouped.project (.expr hc)))
  · have hΔ := hA.under hΓ hps
    have hmerged := (mergeNode_lockstep hA hbind hkey p.name p'.name).replaceM ⟨rfl, hΔ, Γ, hfills⟩
      hbody
    refine hmerged.bind fun r r' hr => (hbind hΔ hr).bind fun c c' hc => ?_
    have hsource := hs.source
    generalize s.source = source at hsource ⊢
    generalize s'.source = source' at hsource ⊢
    cases hsource with
    | table name => exact .of_fruitless (BindM.fruitless_throw _) _
    | subquery hg => exact .pure (.select (hs.readingMerged hg hc))

/-! ## Operators -/

/-- `answer?` is made of the rows that may be cut down by a condition. -/
theorem answer_alike (op : QueryOp) {f : Expr → Expr} (hop : op.answer? t = some f)
    (hs : source.Alike B false B source') (h : Option.Rel (Expr.Alike B false Γ) o o') :
    Simulates (Expr.Alike B true B) (sequence bind method source o >>= fun rows =>
      pure (.custom (f rows) t))
      (sequence bind' method source' o' >>= fun rows => pure (.custom (f rows) t)) := by
  refine (sequence_alike hA hbind hΓ hs h).bind fun rows rows' hrows => .pure (.custom t ?_)
  cases op with
  | any =>
    cases hop
    exact hrows.existsTest
  | first default =>
    cases hop
    exact .orDefault default t (.index hrows (.constant _ _))
  | last default =>
    cases hop
    exact .orDefault default t (.staticCall .enumerable "Last" t (.cons hrows .nil))
  | _ => cases hop

theorem bindOperator_alike {op : QueryOp} {args args' : List Expr}
    (hs : source.Alike B false B source') (h : List.Forall₂ (Expr.Alike B false Γ) args args') :
    Simulates (Expr.Alike B true B)
      (bindOperator bind op method source args t)
        (bindOperator bind' op method source' args' t) := by
  have hselect : Simulates (Select.Alike B) (expectSelect method source)
      (expectSelect method source') :=
    expectSelect_alike hs
  -- By the number of arguments: what an operator does not take is refused on the left, and nothing
  -- is asked then.
  rcases h with _ | ⟨ha, _ | ⟨hb, h⟩⟩
  · cases op with
    | count => exact bindCount_alike hA hbind hΓ hs .none
    | aggregate kind => exact bindAggregate_alike hA hbind hΓ kind hs .none
    | distinct => exact bindAggregate_alike hA hbind hΓ .distinct hs .none
    | any => exact answer_alike hA hbind hΓ .any rfl hs .none
    | first default => exact answer_alike hA hbind hΓ (.first default) rfl hs .none
    | last default => exact answer_alike hA hbind hΓ (.last default) rfl hs .none
    | single => exact hselect.bind fun s s' hs => .pure (.select hs.single)
    | _ => exact .of_fruitless (BindM.fruitless_throw _) _
  · cases op with
    | filter =>
      refine hselect.bind fun s s' hs => (applyLambda_alike hA hbind hΓ hs ha).bind
        fun c c' hc => ?_
      exact .pure (.select (hs.filterBy hc))
    | select =>
      refine hselect.bind fun s s' hs => ?_
      have hkey := hs.groupKey
      generalize s.groupKey = k at hkey ⊢
      generalize s'.groupKey = k' at hkey ⊢
      cases hkey with
      | none => exact bindProjection_alike hA hbind hΓ hs ha
      | some hkey => exact bindGroupedProjection_alike hA hbind hΓ hs hkey ha
    | selectMany => exact bindAggregate_alike hA hbind hΓ .flatten hs (.some ha)
    | groupBy => exact hselect.bind fun s s' hs => bindGroupBy_alike hA hbind hΓ hs ha
    | orderBy descending =>
      refine hselect.bind fun s s' hs => (applyLambda_alike hA hbind hΓ hs ha).bind
        fun c c' hc => ?_
      exact .pure (.select (hs.orderBy hc descending))
    | thenBy descending =>
      refine hselect.bind fun s s' hs => (applyLambda_alike hA hbind hΓ hs ha).bind
        fun c c' hc => ?_
      exact .pure (.select (hs.thenBy hc descending))
    | take =>
      exact hselect.bind fun s s' hs => (hbind hΓ ha).bind fun c c' hc =>
      .pure (.select (hs.take hc))
    | skip =>
      exact hselect.bind fun s s' hs => (hbind hΓ ha).bind fun c c' hc =>
      .pure (.select (hs.skip hc))
    | count => exact bindCount_alike hA hbind hΓ hs (.some ha)
    | aggregate kind => exact bindAggregate_alike hA hbind hΓ kind hs (.some ha)
    | distinct => exact .of_fruitless (BindM.fruitless_throw _) _
    | all =>
      refine hselect.bind fun s s' hs => (applyLambda_alike hA hbind hΓ hs ha).bind
        fun c c' hc => ?_
      have hfailing := hs.filterBy hc.not
      refine .pure (.custom t (.combine .equal (.staticCall .enumerable "Count" .int32 ?_)
        (.constant _ _)))
      exact .cons (.subquery hfailing) .nil
    | any => exact answer_alike hA hbind hΓ .any rfl hs (.some ha)
    | contains =>
      refine (sequence_alike hA hbind hΓ hs .none).bind fun rows rows' hrows => ?_
      refine (hbind hΓ ha).bind fun c c' hc => .pure (.custom t ?_)
      exact .staticCall .enumerable "Contains" .bool (.cons hrows (.cons hc .nil))
    | first default => exact answer_alike hA hbind hΓ (.first default) rfl hs (.some ha)
    | last default => exact answer_alike hA hbind hΓ (.last default) rfl hs (.some ha)
    | elementAt default =>
      refine (sequence_alike hA hbind hΓ hs .none).bind fun rows rows' hrows => ?_
      refine (hbind hΓ ha).bind fun c c' hc => .pure (.custom t ?_)
      exact .orDefault default t (.index hrows hc)
    | single =>
      refine hselect.bind fun s s' hs => (restricted_alike hA hbind hΓ hs (.some ha)).bind
        fun s s' hs => ?_
      exact .pure (.select hs.single)
  · refine .of_fruitless ?_ _
    cases op <;> exact BindM.fruitless_throw _

theorem bindCall_alike {args args' : List Expr}
    (h : List.Forall₂ (Expr.Alike B false Γ) args args') :
    Simulates (Expr.Alike B true B) (bindCall bind method args t)
      (bindCall bind' method args' t) := by
  cases h with
  | nil => exact .of_fruitless (BindM.fruitless_throw _) _
  | cons hs hargs =>
    refine (hbind hΓ hs).bind fun source source' hs => ?_
    cases QueryOp.ofMethod? method with
    | none => exact .of_fruitless (BindM.fruitless_throw _) _
    | some op => exact bindOperator_alike hA hbind hΓ hs hargs

end

/-- `bindNode` does the same to nodes that are alike. -/
theorem bindNode_lockstep (hA : B.Kept A) (hbind : Follows B A bind bind') :
    Lockstep B (fun Δ Γ => Δ = Γ ∧ A Γ) (bindNode bind) (bindNode bind') := by
  refine .of_nodes hA.base hA.under ?_ ?_
  · intro e he
    cases e with
    | table | call => rcases he with he | he <;> cases he
    | _ => exact ⟨rfl, rfl⟩
  · intro strict Γ e cs hΓ hplain hkids
    have hsame := e.sameNode_withChildren cs
    cases e with
    | table name element =>
      right
      cases hkids
      show Simulates _ (Expr.replaceM _ _) (Expr.replaceM _ (.table name element))
      rw [Expr.replaceM_eq, Expr.replaceM_eq]
      simp only [bindNode, bind_assoc, pure_bind]
      exact (Simulates.refl _).bind_eq fun scope => .pure (.select (.ofTable scope name element))
    | call surface method receiver args t =>
      cases receiver with
      | some r =>
        generalize Expr.withChildren _ cs = e' at hsame ⊢
        cases hsame <;> cases surface <;> exact .inl ⟨rfl, rfl⟩
      | none =>
        cases surface with
        | queryable =>
          right
          rw [Expr.withChildren, Expr.replaceM_eq, Expr.replaceM_eq]
          simp only [bindNode, bind_assoc, pure_bind]
          refine (bindCall_alike hA hbind hΓ hkids).bind fun r r' hr => .pure ?_
          exact (hr.mono (hA.base hΓ) (hA.base hΓ)).loose
        | _ => exact .inl ⟨rfl, rfl⟩
    | _ =>
      generalize Expr.withChildren _ cs = e' at hsame ⊢
      cases hsame <;> exact .inl ⟨rfl, rfl⟩

end Binding

end

end QueryTree
