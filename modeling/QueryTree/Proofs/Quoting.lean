import QueryTree.Proofs.AlikeTerms
import QueryTree.Proofs.Closure
import QueryTree.Proofs.Following

/-!
# Quotes

A lambda that is an argument may be quoted, as often as one likes. The tree with the quotes is
`Expr.Alike` to the one without, and compiling takes alike trees to the same query.
-/

namespace QueryTree

/-! ## Compiling alike trees -/

section
variable {B Γ : Pairing} {A : Pairing → Prop} {strict : Bool} {e e' : Expr}

theorem nameNode_lockstep (hA : B.Kept A) :
    Lockstep B (fun Δ Γ => Δ = Γ ∧ A Γ) nameNode nameNode := by
  have hleaf : ∀ {strict Γ e}, Mark.raw.of e = true →
      Simulates (Expr.Alike B strict Γ) (e.replaceM nameNode) (e.replaceM nameNode) := by
    intro strict Γ e hraw
    refine ((Simulates.refl _).and_left (P := fun r => r.isPlain = true ∧ r.children = []) ?_).imp
      ?_
    · intro p r p' hr
      rw [Expr.replaceM_eq] at hr
      obtain ⟨r', q, hnode, hrest⟩ := yields_bind.mp hr
      cases r' with
      | none => rw [(nameNode_none hnode).2] at hraw; cases hraw
      | some r' =>
        obtain ⟨rfl, -⟩ := yields_pure.mp hrest
        rcases nameNode_some hnode with ⟨s, rfl, -⟩ | ⟨x, v, t, name, -, rfl, -⟩ <;>
          exact ⟨rfl, rfl⟩
    · rintro r _ ⟨⟨hplain, hnil⟩, rfl⟩
      exact .leaf hplain hnil
  refine .of_nodes hA.base hA.under ?_ ?_
  · intro e he
    have hraw : Mark.raw.of e = false := by
      cases e with
      | source | captured => rcases he with he | he <;> cases he
      | _ => rfl
    exact ⟨nameNode_of_raw hraw, nameNode_of_raw hraw⟩
  · intro strict Γ e cs hΓ hplain hkids
    cases hraw : Mark.raw.of e with
    | true =>
      have hnil : e.children = [] := by cases e <;> first | rfl | cases hraw
      rw [hnil] at hkids
      cases hkids
      rw [← hnil, Expr.withChildren_children]
      exact .inr (hleaf hraw)
    | false =>
      have hraw' : Mark.raw.of (e.withChildren cs) = false := by
        rw [← hraw]
        exact Expr.withChildren_congr (f := Mark.raw.of) (fun h => by cases h <;> rfl) e cs
      exact .inl ⟨nameNode_of_raw hraw, nameNode_of_raw hraw'⟩

theorem Expr.Alike.nameCaptures (hA : B.Kept A) (hΓ : A Γ) (h : Expr.Alike B strict Γ e e') :
    Simulates (Expr.Alike B strict Γ) e.nameCaptures e'.nameCaptures :=
  (nameNode_lockstep hA).replaceM ⟨rfl, hΓ⟩ h

/-- A tree that is named, bound and lowered is compiled by `compile`. -/
theorem Expr.compile_of_yields {o : Options} {t tree bound : Expr} {params : Params} {n : Nat}
    {query : Surql.Query} {state : LowerState}
    (hname : Yields t.nameCaptures (.empty o) tree params) (hbind : Yields tree.bind 0 bound n)
    (hlower : Yields bound.lowerRoot ⟨params, .empty⟩ query state) :
    t.compile o = .ok ⟨query.text, state.params.entries⟩ := by
  have hnamed : t.nameCaptures.run (.empty o) = .ok (tree, params) := hname
  have hbound : tree.bind.run.run 0 = (.ok bound, n) := hbind
  have hlowered : bound.lowerRoot.run.run ⟨params, .empty⟩ = (.ok query, state) := hlower
  have hquery : bound.toQuery params = .ok (query, state.params) := by
    unfold toQuery
    rw [hlowered]
    rfl
  unfold compile
  rw [hnamed]
  show ((tree.bind.run.run 0).1 >>= _) = _
  rw [hbound]
  show (bound.toQuery params >>= _) = _
  rw [hquery]
  rfl

/-- A tree is compiled to what an `Alike` tree is compiled to, if it can be bound as that one is. -/
theorem Expr.Alike.compile {o : Options} {q : CompiledQuery} (hA : B.Kept A) (hΓ : A Γ)
    (h : Expr.Alike B strict Γ e e')
    (hbind : ∀ tree tree' params bound n, Expr.Alike B strict Γ tree tree' →
      Yields e.nameCaptures (.empty o) tree params → Yields tree.bind 0 bound n →
      ∃ bound', Yields tree'.bind 0 bound' n ∧ Expr.Alike B strict B bound bound')
    (hq : e.compile o = .ok q) : e'.compile o = .ok q := by
  obtain ⟨tree, params, bound, n, query, final, hname, hbound, hquery, rfl⟩ := compile_ok hq
  obtain ⟨state, hlower, rfl⟩ := toQuery_ok hquery
  obtain ⟨tree', hname', htree⟩ := h.nameCaptures hA hΓ _ tree params hname
  obtain ⟨bound', hbound', halike⟩ := hbind tree tree' params bound n htree hname hbound
  obtain ⟨query', hlower', rfl⟩ := halike.lowerRoot _ query state hlower
  exact compile_of_yields hname' hbound' hlower'

end

/-! ## The same variables -/

namespace Pairing

/-- Each variable is paired with itself, and with no other. -/
def Same (Γ : Pairing) : Prop := ∀ y y', Γ y y' ↔ y = y'

section
variable {Γ : Pairing} {ps ps' : List LambdaParam}

theorem Same.declares (h : Γ.Same) (ps : List LambdaParam) : Declares Eq Γ ps ps where
  length := rfl
  base y _ hy := by
    subst hy
    cases hps : ps.any (·.name == y) with
    | true =>
      obtain ⟨i, hi⟩ := Option.isSome_iff_exists.mp (List.findIdx?_isSome.trans hps)
      exact under_iff.mpr (.inl ⟨i, hi, hi⟩)
    | false => exact under_iff.mpr (.inr ⟨hps, hps, (h y y).mpr rfl⟩)

/-- Lambdas inside which a pairing is the `Same` have the same parameters. -/
theorem Same.under (h : Γ.Same) (hps : Declares Eq Γ ps ps') : (Γ.under ps ps').Same := by
  intro y y'
  constructor
  · intro hy
    rcases under_iff.mp hy with ⟨i, hi, hi'⟩ | ⟨-, -, hΓ⟩
    · -- The name is found at the same place in both lists, and one place has one name.
      have hplace : ps.findIdx? (·.name == y') = some i := by
        rcases under_iff.mp (hps.base y' y' rfl) with ⟨j, hj, hj'⟩ | ⟨-, hnone, -⟩
        · rw [hj, ← hj', hi']
        · rw [← List.findIdx?_isSome, hi'] at hnone
          cases hnone
      obtain ⟨_, hname, -⟩ := List.findIdx?_eq_some_iff_getElem.mp hi
      obtain ⟨_, hname', -⟩ := List.findIdx?_eq_some_iff_getElem.mp hplace
      exact (beq_iff_eq.mp hname).symm.trans (beq_iff_eq.mp hname')
    · exact (h y y').mp hΓ
  · exact hps.base y y'

theorem kept_same : Kept Eq Same where
  base h y y' hy := (h y y').mpr hy
  under h hps := h.under hps

end

end Pairing

/-- Where each variable stands for itself, `bindWith` follows itself. -/
theorem Binding.bindWith_follows (fuel : Nat) :
    Follows Eq Pairing.Same (bindWith fuel) (bindWith fuel) := by
  induction fuel with
  | zero =>
    intro strict Γ e e' _ _
    exact .of_fruitless (BindM.fruitless_throw _) _
  | succ fuel ih =>
    intro strict Γ e e' hΓ h
    have hsteps := (bindNode_lockstep Pairing.kept_same ih).replaceM ⟨rfl, hΓ⟩ h
    exact hsteps.imp fun r r' hr => hr.mono (fun _ _ => id) fun y y' => (hΓ y y').mp

theorem Expr.Alike.compile_same {strict : Bool} {t t' : Expr} {o : Options} {q : CompiledQuery}
    (h : Expr.Alike Eq strict Eq t t') (hq : t.compile o = .ok q) : t'.compile o = .ok q := by
  have hsame : Pairing.Same Eq := fun _ _ => Iff.rfl
  refine h.compile Pairing.kept_same hsame (fun tree tree' params bound n htree _ hbound => ?_) hq
  unfold Expr.bind at hbound ⊢
  rw [← Binding.operatorCount_alike htree]
  exact Binding.bindWith_follows _ hsame htree _ bound n hbound

/-- Every tree and every select is `Alike` to itself. -/
theorem alike_refl : (∀ e : Expr, ∀ strict Γ, Pairing.Same Γ → Expr.Alike Eq strict Γ e e) ∧
    ∀ s : Select, s.Alike Eq s := by
  have hsame : Pairing.Same Eq := fun _ _ => Iff.rfl
  apply deepInduction
  · intro e hkids hselects strict Γ hΓ
    cases hplain : e.isPlain with
    | true =>
      have hnode : Expr.Alike Eq strict Γ e (e.withChildren e.children) :=
        .of_children hplain (List.forall₂_same.mpr fun c hc => hkids c hc _ Γ hΓ)
      rwa [Expr.withChildren_children] at hnode
    | false =>
      cases e with
      | parameter x t => exact .parameter ((hΓ x x).mpr rfl)
      | lambda ps body =>
        have hps := hΓ.declares ps
        exact .lambda hps (hkids body (List.mem_singleton_self body) _ _ (hΓ.under hps))
      | select s => exact .select (hselects s rfl)
      | subquery s => exact .subquery (hselects s rfl)
      | _ => cases hplain
  · intro s hclauses hinputs
    have hclause : ∀ c ∈ s.clauses true, ∀ strict, Expr.Alike Eq strict Eq c c :=
      fun c hc strict => hclauses c hc strict Eq hsame
    have hoption : ∀ {strict} (o : Option Expr), (∀ c ∈ o, c ∈ s.clauses true) →
        Option.Rel (Expr.Alike Eq strict Eq) o o := by
      intro strict o ho
      cases o with
      | none => exact .none
      | some c => exact .some (hclause c (ho c rfl) strict)
    -- Clause by clause; each of them is among the clauses, and the source among the inputs.
    refine .mk rfl rfl rfl ?_ ?_ (hoption _ ?_) ?_ ?_ (hoption _ ?_) (hoption _ ?_) ?_
    · have hmem : ∀ v, s.source = .subquery v → v ∈ s.inputs true := by
        intro v hv
        simp [Select.inputs, hv, RowSource.select?]
      generalize s.source = source at hmem
      cases source with
      | table name => exact .table name
      | subquery v => exact .subquery (hinputs v (hmem v rfl))
    · have hmem : ∀ c ∈ s.projection.exprs, Expr.Alike Eq true Eq c c :=
        fun c hc => hclause c (by simp [Select.clauses, hc]) true
      generalize s.projection = p at hmem
      cases p with
      | all => exact .all
      | expr e => exact .expr (hmem e (by simp [Projection.exprs]))
      | fields fs =>
        refine .fields (List.forall₂_same.mpr fun f hf => ?_)
        have hfield := hmem f.expr (List.mem_map.mpr ⟨f, hf, rfl⟩)
        obtain ⟨e, label⟩ := f
        exact .mk hfield
      | count o =>
        cases o with
        | none => exact .count .none
        | some e => exact .count (.some (hmem e (by simp [Projection.exprs])))
      | aggregation kind e label => exact .aggregation (hmem e (by simp [Projection.exprs]))
    · exact fun c hc => by simp [Select.clauses, Option.mem_def.mp hc]
    · have hmem : ∀ g, s.group = some g → ∀ c ∈ g.exprs, Expr.Alike Eq true Eq c c :=
        fun g hg c hc => hclause c (by simp [Select.clauses, hg, hc]) true
      generalize s.group = g at hmem
      rcases g with _ | _ | keys
      · exact .none
      · exact .some .all
      · exact .some (.keys (List.forall₂_same.mpr (hmem _ rfl)))
    · refine List.forall₂_same.mpr fun k hk => ?_
      have hmem : k.expr ∈ s.clauses true := by
        simp only [Select.clauses, List.mem_append]
        exact .inl (.inl (.inl (.inr (List.mem_map.mpr ⟨k, hk, rfl⟩))))
      obtain ⟨e, descending⟩ := k
      exact .mk (hclause e hmem true)
    · exact fun c hc => by simp [Select.clauses, Option.mem_def.mp hc]
    · exact fun c hc => by simp [Select.clauses, Option.mem_def.mp hc]
    · have hmem : ∀ key, s.groupKey = some key → (∀ c ∈ key.exprs, Expr.Alike Eq true Eq c c) ∧
          key.source.Alike Eq key.source := by
        intro key hkey
        refine ⟨fun c hc => hclause c ?_ true, hinputs key.source ?_⟩
        · simp [Select.clauses, hkey, hc]
        · simp [Select.inputs, hkey]
      generalize s.groupKey = key at hmem
      cases key with
      | none => exact .none
      | some key =>
        obtain ⟨hexprs, hsource⟩ := hmem key rfl
        obtain ⟨inner, outer, source, values⟩ := key
        refine .some (.mk (hexprs _ ?_) (hexprs _ ?_) hsource (hexprs _ ?_)) <;>
          simp [GroupKey.exprs]

/-! ## Quoting -/

namespace Expr

/-- Whether a node is a call. -/
def isCall : Expr → Bool
  | .call _ _ _ _ _ => true
  | _ => false

/-- A tree with quotes around lambdas. At an `operand` of a call, a lambda may be put into quotes of
its type, as often as one likes. -/
inductive Quoting : (operand : Bool) → Expr → Expr → Prop
  | node {operand : Bool} {e : Expr} {cs : List Expr} : cs.length = e.children.length →
    (∀ p ∈ e.children.zip cs, Quoting e.isCall p.1 p.2) → Quoting operand e (e.withChildren cs)
  | quote {e e' : Expr} : e.isLambda = true → Quoting true e e' →
    Quoting true e (.unary .quote e' e.ty)

section
variable {Γ : Pairing} {strict operand : Bool} {e e' d d' t t' : Expr} {cs : List Expr}

theorem Quoting.of_children (h : List.Forall₂ (Quoting e.isCall) e.children cs) :
    Quoting operand e (e.withChildren cs) := by
  obtain ⟨hlen, hkids⟩ := List.forall₂_iff_zip.mp h
  exact .node hlen.symm fun p hp => hkids hp

theorem Quoting.refl (operand : Bool) (e : Expr) : Quoting operand e e := by
  induction e using childrenInduction generalizing operand with
  | step e ih =>
    have hnode : Quoting operand e (e.withChildren e.children) :=
      .of_children (List.forall₂_same.mpr fun c hc => ih c hc e.isCall)
    rwa [withChildren_children] at hnode

theorem Alike.requoted (h : Expr.Alike Eq strict Γ e e') (hlambda : e.unquote.isLambda = true)
    (hd : d.unquote = e.unquote) (hd' : d'.unquote = e'.unquote) : Expr.Alike Eq false Γ d d' := by
  obtain ⟨ps, body, he⟩ : ∃ ps body, e.unquote = .lambda ps body := by
    generalize e.unquote = u at hlambda
    cases u <;> first | exact ⟨_, _, rfl⟩ | cases hlambda
  obtain ⟨ps', body', he', hps, hbody⟩ := h.of_unquote he
  exact .quoted (hd.trans he) (hd'.trans he') hps hbody

/-- A tree and the tree with quotes are `Alike`, both ways round. -/
theorem Quoting.alike (h : Quoting operand e e') (hΓ : Γ.Same) :
    Expr.Alike Eq (!operand) Γ e e' ∧ Expr.Alike Eq (!operand) Γ e' e := by
  induction h generalizing Γ with
  | @node operand e cs hlen hkids ih =>
    cases hplain : e.isPlain with
    | true =>
      -- Operands of a call are compared loosely, and those of all other nodes strictly.
      have hstrict : ∀ {c c'}, Expr.Alike Eq (!e.isCall) Γ c c' →
          Expr.Alike Eq e.isStrict Γ c c' := by
        intro c c' hc
        cases e <;> first | exact hc.loose | exact hc
      constructor
      · exact .of_children hplain
          (List.forall₂_iff_zip.mpr ⟨hlen.symm, fun hp => hstrict (ih _ hp hΓ).1⟩)
      · have hback : List.Forall₂ (flip (Expr.Alike Eq e.isStrict Γ)) e.children cs :=
          List.forall₂_iff_zip.mpr ⟨hlen.symm, fun hp => hstrict (ih _ hp hΓ).2⟩
        have hnode : Expr.Alike Eq (!operand) Γ (e.withChildren cs) (e.withChildren e.children) :=
          .withChildren hplain hlen hback.flip
        rwa [withChildren_children] at hnode
    | false =>
      cases e with
      | lambda ps body =>
        obtain ⟨body', rfl⟩ := List.length_eq_one_iff.mp hlen
        have hps := hΓ.declares ps
        obtain ⟨hbody, hback⟩ := ih (body, body') (by simp [children]) (hΓ.under hps)
        exact ⟨.lambda hps hbody, .lambda hps hback⟩
      | parameter | select | subquery => exact ⟨alike_refl.1 _ _ Γ hΓ, alike_refl.1 _ _ Γ hΓ⟩
      | _ => cases hplain
  | @quote e e' hlambda _ ih =>
    obtain ⟨hto, hback⟩ := ih hΓ
    have hu : e.unquote.isLambda = true := by cases e <;> first | rfl | cases hlambda
    have hu' : e'.unquote.isLambda = true := hto.readsLike.isLambda.trans hu
    exact ⟨hto.requoted hu rfl rfl, hback.requoted hu' rfl rfl⟩

/-- A tree with quotes around lambdas that are operands of calls is compiled whenever `t`, the tree
without them, is, and to the same text and the same parameters. -/
theorem compile_quoting (o : Options) (h : t.Quoting false t') (q : CompiledQuery) :
    t'.compile o = .ok q ↔ t.compile o = .ok q := by
  obtain ⟨hto, hback⟩ := h.alike (Γ := Eq) fun _ _ => Iff.rfl
  exact ⟨hback.compile_same, hto.compile_same⟩

end

end Expr

namespace Sample

/-- The condition `v => v.age == 3`. -/
def ofAgeThree : Expr := fn "v" ((col "v" "age").eq (.int32 3))

/-- Whether any user for whom `condition` holds is old. -/
def anyOld (condition : Expr) : Expr :=
  on (on (rows "user") "Where" [condition]) "Any" [fn "v" (col "v" "old")]

/-- `ofAgeThree` in two quotes. -/
def ofAgeThreeQuoted : Expr :=
  .unary .quote (.unary .quote ofAgeThree ofAgeThree.ty) ofAgeThree.ty

end Sample

section
open Sample

theorem compile_quoting_anyOld : (anyOld ofAgeThree).Quoting false (anyOld ofAgeThreeQuoted) ∧
    ∃ q, (anyOld ofAgeThree).compile .standard = .ok q ∧
      (anyOld ofAgeThreeQuoted).compile .standard = .ok q := by
  have hcondition : Expr.Quoting true ofAgeThree ofAgeThreeQuoted :=
    .quote rfl (.quote rfl (.refl _ _))
  have hwhere : Expr.Quoting true (on (rows "user") "Where" [ofAgeThree])
      (on (rows "user") "Where" [ofAgeThreeQuoted]) :=
    .of_children (e := on (rows "user") "Where" [ofAgeThree])
      (.cons (.refl _ _) (.cons hcondition .nil))
  have hquoting : (anyOld ofAgeThree).Quoting false (anyOld ofAgeThreeQuoted) :=
    .of_children (e := anyOld ofAgeThree) (.cons hwhere (.cons (.refl _ _) .nil))
  have hok : ((anyOld ofAgeThree).compile .standard).isOk = true := by decide +kernel
  refine ⟨hquoting, ?_⟩
  cases h : (anyOld ofAgeThree).compile .standard with
  | error err =>
    rw [h] at hok
    cases hok
  | ok q => exact ⟨q, rfl, (Expr.compile_quoting .standard hquoting q).mpr h⟩

end

end QueryTree
