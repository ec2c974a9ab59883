import QueryTree.Proofs.Closure
import QueryTree.Proofs.InScope
import QueryTree.Proofs.Preservation
import QueryTree.Proofs.Scoping

/-!
# No variable is left over

A tree without free variables whose variables are used only where they may be (`Expr.Scoped`) is
bound to an expression without any: applying a lambda replaces its variable everywhere, by values
that are bound already. So lowering never meets a variable.
-/

namespace QueryTree

open Binding

/-! ## Ways to replace variables -/

section
variable {e r v a c : Expr} {s : Select} {x : String} {key : GroupKey} {P : String → Prop}

theorem Expr.isPlaceholder_of_isParameter (h : e.isParameter x = true) :
    e.isPlaceholder = true := by
  cases e <;> first | rfl | cases h

theorem Expr.isPlaceholder_of_isKeyOf (h : e.isKeyOf x = true) : e.isPlaceholder = true := by
  unfold isKeyOf at h
  split at h
  · rename_i base t
    cases base <;> first | rfl | cases h
  · cases h

/-- `replace` is a way to rebuild trees. -/
theorem Expr.rebuilds_replace {f : Expr → Option Expr}
    (hsome : ∀ e r, f e = some r → Rebuilt P (fun e r => r = e.replace f) e r)
    (hnone : ∀ e, f e = none → (∀ x, e.isParameter x = true → P x) ∧ ∀ x, e.shadows x = true →
    P x) :
    Rebuilds P fun e r => r = e.replace f := by
  rintro e r rfl
  rw [replace_eq]
  cases hf : f e with
  | some r => exact hsome e r hf
  | none =>
    obtain ⟨hparam, hshadows⟩ := hnone e hf
    refine .node hparam hshadows ?_
    rw [List.forall₂_map_right_iff, List.forall₂_same]
    exact fun _ _ => rfl

/-- A lambda that `shadows` the variable stays as it is. -/
theorem Expr.Rebuilt.of_shadows {R : Expr → Expr → Prop} (h : e.shadows x = true) :
    Rebuilt (· ≠ x) R e e := by
  cases e with
  | lambda ps body =>
    refine .stays fun y hy => ?_
    rw [not_not.mp hy]
    exact h
  | _ => cases h

theorem Expr.ne_of_unused (hparam : e.isParameter x = false) (hshadows : e.shadows x = false) :
    (∀ y, e.isParameter y = true → y ≠ x) ∧ ∀ y, e.shadows y = true → y ≠ x := by
  constructor
  · rintro y hy rfl
    rw [hparam] at hy
    cases hy
  · rintro y hy rfl
    rw [hshadows] at hy
    cases hy

theorem Expr.rebuilds_substitute (hv : v.Closed) (x : String) :
    Rebuilds (· ≠ x) fun e r => r = e.substitute x v := by
  refine rebuilds_replace (fun e r hr => ?_) fun e hr => ?_
  · unfold substituteNode at hr
    split at hr
    · rename_i hp
      cases hr
      exact .value (isPlaceholder_of_isParameter hp) hv
    · split at hr
      · rename_i hs
        cases hr
        exact .of_shadows hs
      · cases hr
  · unfold substituteNode at hr
    split at hr
    · cases hr
    · split at hr
      · cases hr
      · rename_i hp hs
        -- Neither the variable nor a lambda that declares it.
        exact ne_of_unused (by simpa using hp) (by simpa using hs)

theorem Expr.rebuilds_substituteGroup (houter : key.outer.Closed) (hvalues : key.values.Closed)
    (x : String) : Rebuilds (· ≠ x) fun e r => r = e.substituteGroup x key := by
  refine rebuilds_replace (fun e r hr => ?_) fun e hr => ?_
  · split at hr
    · rename_i hk
      cases hr
      exact .value (isPlaceholder_of_isKeyOf hk) houter
    · split at hr
      · rename_i hp
        cases hr
        exact .value (isPlaceholder_of_isParameter hp) hvalues
      · split at hr
        · rename_i hs
          cases hr
          exact .of_shadows hs
        · cases hr
  · split at hr
    · cases hr
    · split at hr
      · cases hr
      · split at hr
        · cases hr
        · rename_i hp hs
          exact ne_of_unused (by simpa using hp) (by simpa using hs)

/-- `replaceM` rebuilds a tree, if the children of a node that stays have what is asked. -/
theorem Expr.rebuilds_replaceM {m : Type → Type} {σ : Type} [Monad m] [LawfulMonad m] [Yielding m σ]
    {f : Expr → m (Option Expr)} {I : Expr → Prop}
    (hsome : ∀ e s r t, I e → Yields (f e) s (some r) t →
      Rebuilt P (fun e r => I e ∧ ∃ s t, Yields (e.replaceM f) s r t) e r)
    (hnone : ∀ e s t, I e → Yields (f e) s none t → (∀ c ∈ e.children, I c) ∧
      (∀ x, e.isParameter x = true → P x) ∧ ∀ x, e.shadows x = true → P x) :
    Rebuilds P fun e r => I e ∧ ∃ s t, Yields (e.replaceM f) s r t := by
  rintro e r ⟨he, s, t, h⟩
  rw [replaceM_eq, yields_bind] at h
  obtain ⟨replacement, u, hf, h⟩ := h
  cases replacement with
  | some replacement =>
    obtain ⟨rfl, rfl⟩ := yields_pure.mp h
    exact hsome e s r t he hf
  | none =>
    obtain ⟨cs, hcs, rfl⟩ := yields_map.mp h
    obtain ⟨hI, hparam, hshadows⟩ := hnone e s u he hf
    refine .node hparam hshadows ?_
    exact ((yields_mapM.mp hcs).imp fun c hc s' c' t' hc' =>
      show I c ∧ ∃ s t, Yields (c.replaceM f) s c' t from ⟨hI c hc, s', t', hc'⟩).forall₂

/-! ## Lambdas -/

/-- `bind` gives closed expressions for trees in which no variables may be used. -/
def BindsClosed (bind : Expr → BindM Expr) : Prop :=
  ∀ e n r m, e.Scoped .none → Yields (bind e) n r m → r.Closed

variable {bind : Expr → BindM Expr} {σ : Variables} {op : QueryOp} {method : String} {t : Ty}
  {source : Expr} {args : List Expr} {n m : Nat}

theorem Variables.covers_none (p : String) : Covers (· ≠ p) (none.declare p) none := by
  refine ⟨fun y hy hs => ?_, fun g y _ hy hs => ?_⟩
  · simp [Variables.declare, none, hy] at hs
  · simp [Variables.declare, none] at hs

/-- A tree whose only variable `p` is replaced has none. -/
theorem Expr.Rebuilds.scoped_none {R : Expr → Expr → Prop} {p : String} (hR : Rebuilds (· ≠ p) R)
    (h : e.Scoped (Variables.none.declare p)) (hr : R e r) : r.Scoped .none := by
  refine hR.keeps_scoped h (Variables.covers_none p) (fun y hy => ?_) hr
  rw [not_not.mp hy]
  exact Variables.closes_declare_none p

theorem Select.Closed.fillIn (hs : s.Closed) {p : String} {body : Expr}
    (h : body.Scoped (Variables.none.declare p)) : (s.fillIn p body).Scoped .none := by
  unfold Select.fillIn
  split
  · rename_i key hk
    have hkey := fun {v} => Expr.Closed.pervasive.keyExpr hs hk (v := v)
    exact (Expr.rebuilds_substituteGroup (hkey (by simp [GroupKey.exprs]))
      (hkey (by simp [GroupKey.exprs])) p).scoped_none h rfl
  · exact (Expr.rebuilds_substitute (Expr.Closed.pervasive.rowValue hs) p).scoped_none h rfl

/-- The body of the lambda `a` may use its variable only. -/
def Expr.Applicable (a : Expr) : Prop :=
  ∀ p body, a.unquote = .lambda [p] body → body.Scoped (Variables.none.declare p.name)

theorem BindsClosed.applyLambda (hbind : BindsClosed bind) (hs : s.Closed) (ha : a.Applicable)
    (h : Yields (applyLambda bind s method a) n c m) : c.Closed := by
  obtain ⟨p, body, hlambda, hbody⟩ := yields_applyLambda h
  exact hbind _ _ _ _ (hs.fillIn (ha p body hlambda)) hbody

/-! ## Merging -/

/-- A function that may use no variables from outside is `Applicable`. -/
theorem Expr.Scoped.applicable {f : Option String × Expr} (h : e.Scoped σ) (hf : f ∈ e.functions)
    (hσ : Variables.Covers (fun _ => True) (σ.within f.1) .none) : f.2.Applicable := by
  intro p body hlambda
  cases h with
  | node _ _ _ _ _ hbody =>
    exact (hbody f hf p body hlambda).covers ((hσ.declare p.name).mono fun _ _ => .inl trivial)
      fun _ _ => trivial

/-- `aggregatedValue` is closed. -/
theorem BindsClosed.aggregatedValue (hbind : BindsClosed bind) (hs : key.source.Closed)
    {kind : AggregateKind} {arg value : Option Expr} (ha : ∀ a ∈ arg.toList, a.Applicable)
    (h : Yields (aggregatedValue bind key method kind arg) n value m) :
    ∀ c ∈ value.toList, c.Closed := by
  refine forall_mem_aggregatedValue h (Expr.Closed.pervasive.rowValue hs) ?_
  exact fun a hmem c hc => hbind.applyLambda hs (ha a hmem) hc

/-- The function of `aggregateOf?` is one of `functions`. -/
theorem Expr.mem_functions_of_aggregateOf? {kind : AggregateKind} {rest : List Expr}
    (h : e.aggregateOf? x = some (kind, method, rest, t)) (ha : a ∈ rest.head?.toList) :
    (some x, a) ∈ e.functions := by
  unfold aggregateOf? at h
  split at h
  · rename_i method group rest' t
    split at h
    · rename_i hparam
      obtain ⟨kind, hkind, heq⟩ := Option.map_eq_some_iff.mp h
      cases heq
      cases group with
      | parameter g u =>
        obtain rfl : g = x := by simpa [isParameter] using hparam
        cases rest with
        | nil => cases ha
        | cons b rest =>
          obtain rfl := List.mem_singleton.mp ha
          simp [functions, applies, hkind, children, functionsOf]
      | _ => cases hparam
    · cases h
  · cases h

/-- `mergeNode` rebuilds a body that uses its group for the key and in aggregates only. -/
theorem BindsClosed.rebuilds_merge (hbind : BindsClosed bind) (hs : s.Closed)
    (hk : s.groupKey = some key) (g : String) :
    Expr.Rebuilds (· ≠ g) fun e r => (GroupUses.of e g).other = false ∧
      ∃ n m, Yields (e.replaceM (mergeNode bind g key)) n r m := by
  refine Expr.rebuilds_replaceM (fun e n r m hother hr => ?_) fun e n m hother hr => ?_
  · rcases yields_mergeNode hr with ⟨hkey, heq, -⟩ |
      ⟨kind, method, rest, t, value, hagg, hvalue, heq⟩ | ⟨heq, hshadows, -⟩ | ⟨heq, -⟩
    · cases heq
      exact .value (Expr.isPlaceholder_of_isKeyOf hkey)
        (Expr.Closed.pervasive.keyExpr hs hk (by simp [GroupKey.exprs]))
    · cases heq
      refine .inert ?_ rfl fun σ he hcloses => ?_
      · obtain ⟨group, rfl, -⟩ := Expr.aggregateOf?_eq_some hagg
        rfl
      -- Nothing that the function may use is left but its own variable.
      have hcloses : σ.Closes g := hcloses g (by simp)
      refine Expr.Closed.pervasive.groupAggregate trivial (hbind.aggregatedValue
        (Expr.Closed.pervasive.keySource hs hk) (fun a ha => ?_) hvalue)
      exact he.applicable (f := (some g, a)) (Expr.mem_functions_of_aggregateOf? hagg ha)
        hcloses.covers
    · cases heq
      exact .of_shadows hshadows
    · cases heq
  · rcases yields_mergeNode hr with ⟨-, heq, -⟩ | ⟨_, _, _, _, _, -, -, heq⟩ | ⟨heq, -, -⟩ |
      ⟨-, hkey, hagg, hshadows, -⟩
    · cases heq
    · cases heq
    · cases heq
    · exact ⟨fun c hc => GroupUses.other_child hother hshadows hkey hagg hc,
        Expr.ne_of_unused (GroupUses.isParameter_of_other hother) hshadows⟩

/-! ## Operators -/

section
variable {d : Expr} {s' : Select}

theorem Select.Closed.update (h : s.Closed)
    (hclauses : ∀ c ∈ s'.clauses true, c ∈ s.clauses true ∨ c.Closed)
    (hsource : s'.source = s.source) (hkey : s'.groupKey = none ∨ s'.groupKey = s.groupKey) :
    s'.Closed :=
  Expr.Closed.pervasive.update h trivial hclauses hsource hkey

theorem Select.Closed.amendable (h : s.Closed) : s.Amendable true Expr.Closed Select.Closed :=
  fun _ _ _ _ _ hclauses => h.update hclauses rfl (.inr rfl)

theorem Select.Closed.ungroup (h : s.Closed) : Select.Closed { s with groupKey := none } :=
  h.update (fun _ hd => .inl (Select.clauses_without_key hd)) rfl (.inl rfl)

theorem Select.Closed.filterBy (h : s.Closed) (hc : c.Closed) : (s.filterBy c).Closed :=
  Expr.Closed.pervasive.filterBy h hc trivial

theorem Select.Closed.project (h : s.Closed) {p : Projection} (hp : ∀ c ∈ p.exprs, c.Closed) :
    (s.project p).Closed :=
  Expr.Closed.pervasive.project h hp trivial

theorem Select.Closed.expr (h : s.Closed) (he : e.select? = some s) : e.Closed :=
  Expr.Closed.pervasive.expr h he trivial

theorem Select.Closed.aggregateSource (h : s.Closed) (hs' : Yields (aggregateSource s) n s' m) :
    s'.Closed := by
  rcases yields_aggregateSource hs' with ⟨rfl, -, -⟩ | ⟨rfl, -⟩
  · exact h
  · exact Expr.Closed.pervasive.ofSelect h trivial

theorem Select.Closed.aggregated {p : Projection} {label : String} (h : s.Closed)
    (hp : ∀ c ∈ p.exprs, c.Closed) : (Binding.aggregated s p label t).Closed := by
  have hgrouped : (s.project p).groupAll.Closed :=
    (h.project hp).update (fun d hd => .inl (Select.mem_clauses_groupAll hd)) rfl (.inr rfl)
  exact Expr.Closed.pervasive.onlyRowMember (hgrouped.expr rfl)

/-- Sources, clauses and results are closed. An argument may use no variable, but the row if it is a
function. -/
def closedInvariant : Invariant Unit where
  result _ e := e.Closed
  query _ s := s.Closed
  base _ s := s.Closed
  clause _ _ c := c.Closed
  argument _ op a := (op.takesValue = false → a.Applicable) ∧
    (op.takesValue = true → a.Scoped .none)
  allowed _ _ _ _ := True

theorem BindsClosed.preserved (hbind : BindsClosed bind) :
    closedInvariant.Preserved .blank bind where
  result_mono _ h := h
  query_mono _ h := h
  base_mono _ h := h
  argument_mono _ h := h
  assembled _ := Expr.Closed.pervasive.toAssembled
  select {_ s} (h : (Expr.select s).Closed) := h.select rfl
  expr {_ s _} (h : s.Closed) he := h.expr he
  apply hop _ hs ha h := .blank (hbind.applyLambda hs (ha.1 hop) h)
  amount _ hop _ ha h := .blank (hbind _ _ _ _ (ha.2 hop) h)
  value {_ op _ _ _ _} hop _ ha h := by
    have hvalue : op.takesValue = true := by cases op <;> first | rfl | cases hop
    exact .blank (hbind _ _ _ _ (ha.2 hvalue) h)
  amendable {_ s} _ (h : s.Closed) := h.amendable
  filterBy {_ s _ _} (h : s.Closed) hc := h.filterBy hc
  not h := Expr.Closed.pervasive.not h
  project {_ s _} (h : s.Closed) hc := h.project (List.forall_mem_singleton.mpr hc)
  ungroup {_ s} (h : s.Closed) := h.ungroup
  merge _ hs ha hkey hlambda hgrouped hmerges hmerged hc _ := by
    have hbody := (hbind.rebuilds_merge hs hkey _).scoped_none (ha.1 rfl _ _ hlambda)
      ⟨(Expr.isMerged_iff.mp hmerges).2, _, _, hmerged⟩
    have hvalue := hbind _ _ _ _ hbody hc
    exact .blank (Expr.Closed.pervasive.readingMerged hs hgrouped hvalue trivial trivial)
  groups _ hs hc _ := .blank (Expr.Closed.pervasive.groups hs hc trivial trivial trivial trivial)
  aggregateSource {_ s _ _ _ _ _ _} _ (hs : s.Closed) _ _ h := .blank (hs.aggregateSource h)
  query_of_base h := h
  rowValue _ h := Expr.Closed.pervasive.rowValue h
  aggregated {_ s _ _ _ _} (h : s.Closed) _ hc := h.aggregated hc
  counted {_ s _ _ _ _ _ _} _ (hs : s.Closed) _ h :=
    .blank ((hs.aggregateSource h).aggregated (List.forall_mem_nil _))

/-! ## Trees -/

/-- The source of an operator and its functions or values are `Scoped` by themselves. -/
theorem Expr.Scoped.operator {start : Expr} {rest : List Expr}
    (h : (Expr.call .queryable method none (start :: rest) t).Scoped .none)
    (hop : QueryOp.ofMethod? method = some op) : start.Scoped .none ∧
      (op.takesValue = false → ∀ a ∈ rest, a.Applicable) ∧
      (op.takesValue = true → ∀ a ∈ rest, a.Scoped .none) := by
  have happ : (Expr.call .queryable method none (start :: rest) t).applies =
      if op.takesValue then none else some none := by
    cases hvalue : op.takesValue <;> simp [Expr.applies, hop, hvalue]
  refine ⟨h.plain ?_, fun hvalue a ha => ?_, fun hvalue a ha => h.plain ?_⟩
  · cases hvalue : op.takesValue <;>
      simp [plainChildren, isLambda, happ, hvalue, children, valuesOf]
  · refine h.applicable (f := (none, a)) ?_ ⟨fun _ _ hs => hs, fun _ _ _ _ hs => hs⟩
    simpa [functions, happ, hvalue, children, functionsOf] using ha
  · simpa [plainChildren, isLambda, happ, hvalue, children, valuesOf] using .inr ha

/-- Where `Variables.none` may be used, there are no aggregates over variables. -/
theorem Expr.Scoped.child (h : e.Scoped .none) (hmark : Mark.operator.of e = false)
    (hlambda : e.isLambda = false) (hc : c ∈ e.children) : c.Scoped .none := by
  rcases plain_or_function hlambda hc with hc | ⟨group, hc⟩
  · exact h.plain hc
  · have happ := applies_of_function hc
    cases group with
    | none =>
      rw [operator_of_applies happ] at hmark
      cases hmark
    | some g =>
      -- Such an aggregate has its variable for a child, and there is none that could be used.
      obtain ⟨t, hgroup⟩ := exists_parameter_of_applies happ
      rcases plain_or_function hlambda hgroup with hgroup | ⟨group, hgroup⟩
      · cases (h.plain hgroup).parameter (x := g) (by simp [isParameter])
      · cases h.placeholder hgroup

theorem bindsClosed_bindWith (fuel : Nat) : BindsClosed (bindWith fuel) := by
  induction fuel with
  | zero => exact fun e n r m _ h => absurd h BindM.yields_throw
  | succ fuel ih =>
    intro e n r m he h
    refine yields_replaceM (T := fun e _ r _ => e.Scoped .none → r.Closed) ?_ ?_ h he
    · intro e n r m hr he
      rcases yields_bindNode_some hr with ⟨name, element, -, rfl, -⟩ | ⟨method, args, t, rfl, hcall⟩
      · exact (Expr.Closed.pervasive.ofTable trivial).expr rfl
      · obtain ⟨op, start, rest, source, k, rfl, hop, hsource, hperforms⟩ := yields_bindCall hcall
        obtain ⟨hstart, hfun, hval⟩ := he.operator hop
        obtain ⟨_, -, -, hr⟩ := ih.preserved.performs (w := ()) trivial (ih _ _ _ _ hstart hsource)
          (fun a ha => ⟨fun hop => hfun hop a ha, fun hop => hval hop a ha⟩) trivial hperforms
        exact hr
    · intro e n k cs m hnone hcs he
      obtain ⟨-, hmark, -⟩ := yields_bindNode_none hnone
      have hkids : List.Forall₂ (fun c c' => c.Scoped .none → c'.Closed)
          e.children cs := hcs.forall₂
      refine .node (fun x => ?_) ?_ (fun hlambda c' hc' => ?_) fun s hs => ?_
      · rw [Expr.isParameter_withChildren]
        by_contra hx
        cases he.parameter (by simpa using hx)
      · rw [Expr.of_withChildren, hmark]
      · rw [Expr.children_withChildren hkids.length_eq.symm] at hc'
        obtain ⟨c, hc, hr⟩ := List.exists_of_forall₂_right hkids hc'
        rw [Expr.isLambda_withChildren] at hlambda
        exact hr (he.child hmark hlambda hc)
      · rw [Expr.select?_withChildren] at hs
        exact he.select hs

end

/-! ## Lowering -/

/-- `lowerRoot` of a `Closed` expression meets no variable. -/
theorem Expr.Closed.lowerRoot_ne (h : e.Closed) (p : Params) (x : String) :
    (e.lowerRoot.run.run ⟨p, .empty⟩).1 ≠ .error (.unboundParameter x) := by
  have hdescends : Descending (fun _ e => e.Closed) fun _ s => s.Closed := by
    refine ⟨fun hlambda he hc => he.child ?_ hc, fun he hs => he.select hs, fun hs hc =>
      ?_, fun hs hv => ?_⟩
    · rename_i e _
      cases e <;> first | rfl | exact absurd rfl (hlambda _ _)
    · exact Closed.pervasive.clause hs (Select.clauses_subset _ hc)
    · exact Closed.pervasive.input hs (Select.inputs_subset _ hv)
  intro herror
  refine (lowerRoot_within (E := fun err => ∀ x, err ≠ .unboundParameter x)
    hdescends .empty ?_ ?_ h).fails ⟨p, .empty⟩ ⟨p, .empty⟩ _ ⟨rfl, rfl, rfl⟩ herror rfl x rfl
  · rintro - - - - - y ⟨⟩
  · rintro - e err he hfault y rfl
    cases e with
    | parameter z t =>
      have hparam := he.isParameter z
      simp [Expr.isParameter] at hparam
    | _ => cases hfault

end

/-! ## Compiling -/

/-- `nameNode` keeps where variables are used. -/
theorem Expr.rebuilds_nameCaptures :
    Rebuilds (fun _ => True) fun e r => True ∧ ∃ p q, Yields (e.replaceM nameNode) p r q := by
  refine rebuilds_replaceM (fun e p r q _ hr => ?_) fun e p q _ _ =>
    ⟨fun _ _ => trivial, fun _ _ => trivial, fun _ _ => trivial⟩
  have hleaf : r.Closed → r.isInert = true → e.unquote.isLambda = false →
      Rebuilt (fun _ => True) (fun e r => True ∧ ∃ p q, Yields (e.replaceM nameNode) p r q) e r :=
    fun hclosed hinert he => .inert he hinert fun _ _ _ => hclosed
  have hclosed : r.select? = none → r.children = [] → Mark.operator.of r = false →
      (∀ x, r.isParameter x = false) → r.Closed := fun hs hc hmark hparam =>
    .node hparam hmark (by rw [hc]; exact fun _ => List.forall_mem_nil _) (by rw [hs]; nofun)
  rcases nameNode_some hr with ⟨s, rfl, -, rfl | ⟨x, t, rfl⟩⟩ | ⟨x, v, t, name, rfl, rfl, -⟩
  all_goals exact hleaf (hclosed rfl rfl rfl fun _ => rfl) rfl rfl

/-- A tree without free variables that is `Scoped` never fails for a variable that is left over:
functions are written as lambdas, and those of aggregates over a variable use nothing that is
declared by the lambda of the variable or inside it. -/
theorem compile_leaves_no_parameter {o : Options} {t : Expr} (hw : t.Written)
    (hclosed : t.freeNames = []) (hscoped : t.Scoped .any) (x : String) :
    t.compile o ≠ .error (.unboundParameter x) := by
  intro h
  have hnone : t.Scoped .none := by
    refine hscoped.covers (P := fun _ => False) ⟨fun _ hy => hy.elim, fun _ _ hg => hg.elim⟩ ?_
    rw [hclosed]
    exact List.forall_mem_nil _
  rcases Expr.compile_error h with ⟨y, hy⟩ |
    ⟨tree, params, hname, hbind | ⟨bound, n, hbind, hlower⟩⟩
  · cases hy
  · cases (hw.placed hname).bind.fails 0 _ hbind
  · have htree : tree.Scoped .none := Expr.rebuilds_nameCaptures.keeps_scoped hnone
      ⟨fun _ _ hs => hs, fun _ _ _ _ hs => hs⟩ (fun _ hx => absurd trivial hx)
        ⟨trivial, _, _, hname⟩
    have hbound : bound.Closed := bindsClosed_bindWith _ tree 0 bound n htree hbind
    exact hbound.lowerRoot_ne params x hlower

/-! ## Checking -/

/-- Whether variables are used only where they may be, in a tree of at most `depth` without selects.
-/
def Expr.checkScoped : (depth : Nat) → Variables → Expr → Bool
  | 0, _, _ => false
  | depth + 1, σ, e =>
    e.select?.isNone && (match e with
      | .parameter x _ => σ.sees x
      | _ => true) && e.plainChildren.all (checkScoped depth σ) &&
    e.functions.all fun f => !f.2.isPlaceholder && match f.2.unquote with
      | .lambda [p] body => checkScoped depth ((σ.within f.1).declare p.name) body
      | .lambda _ _ => true
      | _ => checkScoped depth σ f.2

theorem Expr.scoped_of_check {depth : Nat} {σ : Variables} {e : Expr}
    (h : e.checkScoped depth σ = true) : e.Scoped σ := by
  induction depth generalizing σ e with
  | zero => cases h
  | succ depth ih =>
    simp only [checkScoped, Bool.and_eq_true, List.all_eq_true, Bool.not_eq_true'] at h
    obtain ⟨⟨⟨hselect, hparam⟩, hplain⟩, hfun⟩ := h
    refine .node (fun x hx => ?_) (fun s hs => ?_) (fun c hc => ih (hplain c hc))
      (fun f hf => (hfun f hf).1) (fun f hf hvalue => ?_) fun f hf p body hlambda => ?_
    · cases e with
      | parameter y t =>
        obtain rfl : y = x := by simpa [isParameter] using hx
        exact hparam
      | _ => cases hx
    · rw [hs] at hselect
      cases hselect
    · have hcheck := (hfun f hf).2
      split at hcheck
      · rename_i heq
        rw [heq] at hvalue
        cases hvalue
      · rename_i heq
        rw [heq] at hvalue
        cases hvalue
      · exact ih hcheck
    · have hcheck := (hfun f hf).2
      rw [hlambda] at hcheck
      exact ih hcheck

/-- The error that `t` is refused with. -/
def Expr.compileError? (o : Options) (t : Expr) : Option Error :=
  match t.compile o with
  | .error err => some err
  | .ok _ => none

theorem Expr.compile_of_compileError? {o : Options} {t : Expr} {err : Error}
    (h : t.compileError? o = some err) : t.compile o = .error err := by
  unfold compileError? at h
  split at h
  · cases h
    assumption
  · cases h

namespace Sample

/-- For each user the groups of posts with the same number, with the number, how many of them are
the user's own, and how many users have the number as their age. -/
def ownPostsByNumber : Expr :=
  on (rows "user") "Select" [fn "u" (on (on (rows "post") "GroupBy" [fn "p" (col "p" "x")]) "Select"
    [fn "g" (.newObject .unknown [("x", col "g" "Key"),
      ("own", .staticCall .enumerable "Count"
        [var "g", fn "q" ((col "q" "author").eq (col "u" "id"))] .unknown),
      ("aged", on (rows "user") "Count" [fn "w" ((col "w" "age").eq (col "g" "Key"))])])])]

/-- The sum of the number over all posts that have it. What is summed up is the key of the group
itself. -/
def sumsOfNumbers : Expr :=
  on (on (rows "post") "GroupBy" [fn "p" (col "p" "x")]) "Select"
    [fn "g" (.staticCall .enumerable "Sum" [var "g", fn "q" (col "g" "Key")] .unknown)]

end Sample

section
open Sample

theorem compile_leaves_no_parameter_ownPostsByNumber :
    ownPostsByNumber.Written ∧ ownPostsByNumber.freeNames = [] ∧ ownPostsByNumber.Scoped .any ∧
      ownPostsByNumber.compile .standard ≠ .error (.unboundParameter "u") := by
  have hw : ownPostsByNumber.Written := by decide
  have hclosed : ownPostsByNumber.freeNames = [] := by decide
  have hcheck : ownPostsByNumber.checkScoped 20 .any = true := by decide
  have hscoped := Expr.scoped_of_check hcheck
  exact ⟨hw, hclosed, hscoped, compile_leaves_no_parameter hw hclosed hscoped "u"⟩

/-- `sumsOfNumbers` has no free variables and fails for a variable that is left over. -/
theorem sumsOfNumbers_leaves_parameter :
    sumsOfNumbers.Written ∧ sumsOfNumbers.freeNames = [] ∧
      sumsOfNumbers.compile .standard = .error (.unboundParameter "g") := by
  have hfails : sumsOfNumbers.compileError? .standard = some (.unboundParameter "g") := by
    decide +kernel
  exact ⟨by decide +kernel, by decide +kernel, Expr.compile_of_compileError? hfails⟩

end

end QueryTree
