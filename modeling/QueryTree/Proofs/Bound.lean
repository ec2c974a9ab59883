import QueryTree.Proofs.Operator
import QueryTree.Proofs.Settled

/-!
# Binding one operator

Binding a tree in which queries are kept apart gives selects without their own scope inside. A tree
is `Ready` before it is bound and `Bound` afterwards; here each operator takes the one to the other,
if its arguments are bound that way.
-/

namespace QueryTree

/-- The scopes there can be after binding `e` with the counter going from `n` to `m`. -/
def Known (e : Expr) (n m : Nat) (c : ScopeId) : Prop :=
  (∃ u ∈ e.selects true, u.scope = c) ∨ n ≤ c.index ∧ c.index < m

/-- A tree that can be bound when `n` scopes have been given out. -/
structure Ready (H : String → Bool) (n : Nat) (e : Expr) : Prop where
  apart : e.Apart H
  raw : e.has .raw = false
  selects : ∀ u ∈ e.selects true, u.Proper ∧ u.scope.index < n

/-- A bound expression that is made of parts of `e`. -/
structure Within (e : Expr) (n m : Nat) (r : Expr) : Prop where
  settled : r.Settled (Known e n m)
  names : ∀ y ∈ r.freeNames, y ∈ e.freeNames
  plain : e.has .table = false → e.selects true = [] → r.selects true = []

/-- The scopes of `s` and of what it groups were given out from `n` on. -/
def Select.Newer (n : Nat) (s : Select) : Prop :=
  n ≤ s.scope.index ∧ ∀ key, s.groupKey = some key → n ≤ key.source.scope.index

/-- The rows of `s` hold no queries. -/
def Select.PlainRows (H : String → Bool) (s : Select) : Prop :=
  s.groupKey = none ∧ Expr.PlainValues H (Expr.ValueName s.rowExprs) (Expr.ValueSelect s.rowExprs)

/-- What binding `e` gives. -/
structure Bound (H : String → Bool) (e : Expr) (n : Nat) (r : Expr) (m : Nat) : Prop
    extends Within e n m r where
  le : n ≤ m
  rows : ∀ s, r = .select s → e.rowsHold H = false → s.PlainRows H
  root : ∀ s, r = .select s → e.isRooted = true ∨ s.Newer n

/-- Binding a `Ready` tree gives what is `Bound`. -/
def Binds (H : String → Bool) (bind : Expr → BindM Expr) : Prop :=
  ∀ e n r m, Ready H n e → Yields (bind e) n r m → Bound H e n r m

section
variable {H : String → Bool} {e r c : Expr} {n m n' m' : Nat} {s : Select}

theorem Known.mono (hn : n' ≤ n) (hm : m ≤ m') {a : ScopeId}
    (hsub : ∀ u ∈ c.selects true, u ∈ e.selects true) (h : Known c n m a) : Known e n' m' a := by
  rcases h with ⟨u, hu, rfl⟩ | h
  · exact .inl ⟨u, hsub u hu, rfl⟩
  · exact .inr (by omega)

theorem Known.lt (hsel : ∀ u ∈ e.selects true, u.scope.index < n) (hn : n ≤ m) {a : ScopeId}
    (h : Known e n m a) : a.index < m := by
  rcases h with ⟨u, hu, rfl⟩ | h
  · have := hsel u hu
    omega
  · exact h.2

theorem Ready.mono (h : Ready H n e) (hn : n ≤ m) : Ready H m e :=
  ⟨h.apart, h.raw, fun u hu => (h.selects u hu).imp id fun hi => Nat.lt_of_lt_of_le hi hn⟩

theorem Ready.of_node (h : Ready H n e) (hc : c ∈ e.nodes) : Ready H n c :=
  ⟨h.apart.of_node hc, Expr.has_eq_false_of_node hc h.raw,
    fun u hu => h.selects u (Expr.mem_selects_of_node hc hu)⟩

theorem Ready.child (h : Ready H n e) (hc : c ∈ e.children) : Ready H n c :=
  h.of_node (Expr.mem_nodes_of_child hc (Expr.mem_nodes_self c))

theorem Within.mono (hn : n' ≤ n) (hm : m ≤ m') (h : Within e n m r) : Within e n' m' r :=
  ⟨h.settled.mono fun _ => Known.mono hn hm fun _ hu => hu, h.names, h.plain⟩

/-- What is made of parts of a child is made of parts of `e`, unless `e` declares a name. -/
theorem Within.of_child (hc : c ∈ e.children) (hs : ∀ y, e.shadows y = false) (h : Within c n m r) :
    Within e n m r where
  settled := h.settled.mono fun _ =>
    Known.mono (Nat.le_refl n) (Nat.le_refl m) fun _ hu => Expr.mem_selects_of_child hc hu
  names y hy := Expr.mem_freeNames_of_child hc (hs y) (h.names y hy)
  plain ht hu := by
    refine h.plain ?_ ?_
    · exact Expr.has_eq_false_of_node (Expr.mem_nodes_of_child hc (Expr.mem_nodes_self c)) ht
    · rw [List.eq_nil_iff_forall_not_mem] at hu ⊢
      exact fun u huc => hu u (Expr.mem_selects_of_child hc huc)

/-- An expression is `Within` if its parts are. -/
theorem Within.node (hk : ∀ k : Mark, k.of r = false) (hq : r.select? = none)
    (hp : ∀ y, r.isParameter y = false) (h : ∀ c ∈ r.children, Within e n m c) :
    Within e n m r where
  settled := .node hk hq fun c hc => (h c hc).settled
  names y hy := by
    rcases Expr.mem_freeNames.mp hy with hy | ⟨-, c, hc, hy⟩
    · rw [hp y] at hy
      cases hy
    · exact (h c hc).names y hy
  plain ht hu := by
    rw [Expr.selects_eq, hq, List.flatMap_eq_nil_iff]
    exact fun c hc => (h c hc).plain ht hu

theorem Within.composed : Expr.Composed (Within e n m) :=
  .of_node fun hk hq hp _ _ h => Within.node hk hq hp h

theorem Within.select (hs : s.Settled (Known e n m)) (hr : r.select? = some s)
    (he : ¬ (e.has .table = false ∧ e.selects true = [])) : Within e n m r where
  settled := hs.expr hr
  names y hy := by
    cases r <;> simp only [Expr.select?, reduceCtorEq] at hr <;> cases hy
  plain ht hu := absurd ⟨ht, hu⟩ he

end

/-! ## Lambdas -/

/-- The argument `arg` is bound for the rows of `s` while `e` is bound. -/
structure Site (H : String → Bool) (e : Expr) (n m : Nat) (s : Select) (arg : Expr) : Prop where
  le : n ≤ m
  older : ∀ u ∈ e.selects true, u.scope.index < n
  select : s.Settled (Known e n m)
  ready : Ready H n arg
  inside : ∀ u ∈ arg.selects true, u ∈ e.selects true
  apart : ∀ u ∈ arg.selects true, u.scope ≠ s.scope
  rows : arg.lambdaApart H = true ∨ s.PlainRows H

/-- What the lambda `arg` gives for the rows of `s`, with the counter going from `k` to `m`. -/
structure Applied (e : Expr) (n k m : Nat) (s : Select) (arg r : Expr) : Prop where
  settled : r.Settled fun a => Known e n m a ∧ a ≠ s.scope
  origin : ∀ u ∈ r.selects true, (∃ w ∈ arg.selects true, w.scope = u.scope) ∨
    (∃ w ∈ s.nested true, w.scope = u.scope) ∨ k ≤ u.scope.index
  source : ∃ p body, arg.unquote = .lambda [p] body ∧
    (∀ y ∈ r.freeNames, y ∈ body.freeNames ∨
      p.name ∈ body.freeNames ∧ Expr.ValueName s.rowExprs y) ∧
    (body.has .table = false → body.selects true = [] →
      (p.name ∈ body.freeNames → ∀ u, ¬ Expr.ValueSelect s.rowExprs u) → r.selects true = [])

section
variable {H : String → Bool} {bind : Expr → BindM Expr} {e r arg : Expr} {n m m' : Nat} {s : Select}
  {method : String}

/-- The rows of `s` can be filled in for the variable of `arg`. -/
theorem Site.fillable (hs : Site H e n m s arg) {p : LambdaParam} {body : Expr}
    (hb : arg.unquote = .lambda [p] body) :
    Expr.Fillable H p.name (Expr.ValueName s.rowExprs) (Expr.ValueSelect s.rowExprs) body := by
  rcases hs.rows with h | h
  · simp only [Expr.lambdaApart, hb, Bool.or_eq_true, Bool.not_eq_true'] at h
    exact h.imp id .inr
  · exact .inr (.inl h.2)

/-- The body of `arg` with the rows of `s` filled in. -/
theorem Site.filled (hs : Site H e n m s arg) {p : LambdaParam} {body : Expr}
    (hb : arg.unquote = .lambda [p] body) :
    Expr.FilledApart H p.name (Expr.ValueName s.rowExprs) (Expr.ValueSelect s.rowExprs) body
      (match s.groupKey with
        | some key => body.substituteGroup p.name key
        | none => body.substitute p.name s.rowValue) := by
  have hbare : ∀ v ∈ s.rowExprs, v.Bare := fun v hv => (hs.select.rowExprs hv).bare
  have hx := hs.fillable hb
  cases hk : s.groupKey with
  | some key =>
    have hkeys : s.rowExprs = [key.outer, key.values] := by simp [Select.rowExprs, hk]
    rw [hkeys] at hbare hx ⊢
    exact Expr.filledApart_substituteGroup (by simp) (by simp) hbare hx
  | none =>
    have hvalue : s.rowExprs = [s.rowValue] := by simp [Select.rowExprs, hk]
    rw [hvalue] at hbare hx ⊢
    exact Expr.filledApart_substitute (by simp) (hbare _ (by simp)) hx

/-- Binding something that the rows of `s` have been filled in to. -/
theorem Site.bound (hbind : Binds H bind) (hs : Site H e n m s arg) {p : LambdaParam}
    {body x : Expr} (hb : arg.unquote = .lambda [p] body)
    (hf : Expr.FilledApart H p.name (Expr.ValueName s.rowExprs) (Expr.ValueSelect s.rowExprs)
      body x) (h : Yields (bind x) m r m') : m ≤ m' ∧ Applied e n m m' s arg r := by
  have hnode := Expr.body_mem_nodes hb
  have hready := hs.ready.of_node hnode
  -- Its selects are of the argument or of the rows that are filled in: known before, and not the
  -- select itself.
  have hx : ∀ u ∈ x.selects true, u.Proper ∧ Known e n m u.scope ∧ u.scope ≠ s.scope := by
    intro u hu
    rcases hf.selects u hu with hu | ⟨-, v, hv, hu⟩
    · have harg := Expr.mem_selects_of_node hnode hu
      exact ⟨(hready.selects u hu).1, .inl ⟨u, hs.inside u harg, rfl⟩, hs.apart u harg⟩
    · exact (hs.select.rowExprs hv).selects u hu
  have hlt : ∀ {a : ScopeId}, Known e n m a → a.index < m := fun ha => ha.lt hs.older hs.le
  have hr : Ready H m x := by
    refine ⟨hf.apart hready.apart, ?_, fun u hu => ⟨(hx u hu).1, hlt (hx u hu).2.1⟩⟩
    rw [Bool.eq_false_iff]
    intro hraw
    exact Bool.eq_false_iff.mp hready.raw (hf.has .raw hraw)
  have hbound := hbind x m r m' hr h
  refine ⟨hbound.le, ?_, ?_, p, body, hb, fun y hy => hf.names y (hbound.names y hy), ?_⟩
  · refine hbound.settled.mono fun a ha => ?_
    rcases ha with ⟨u, hu, rfl⟩ | ha
    · exact ⟨(hx u hu).2.1.mono (Nat.le_refl n) hbound.le fun _ h => h, (hx u hu).2.2⟩
    · refine ⟨.inr (by have := hs.le; omega), ?_⟩
      rintro rfl
      have := hlt hs.select.scope
      omega
  · intro u hu
    rcases (hbound.settled.selects u hu).2 with ⟨w, hw, heq⟩ | hnew
    · rcases hf.selects w hw with hw | ⟨-, v, hv, hw⟩
      · exact .inl ⟨w, Expr.mem_selects_of_node hnode hw, heq⟩
      · exact .inr (.inl ⟨w, s.mem_nested_of_rowExprs hv hw, heq⟩)
    · exact .inr (.inr hnew.1)
  · intro ht hsel hv
    refine hbound.plain ?_ ?_
    · rw [Bool.eq_false_iff] at ht ⊢
      exact fun hx => ht (hf.has .table hx)
    · rw [List.eq_nil_iff_forall_not_mem] at hsel ⊢
      intro u hu
      rcases hf.selects u hu with hu | ⟨hp, hu⟩
      · exact hsel u hu
      · exact hv hp u hu

theorem Site.applyLambda (hbind : Binds H bind) (hs : Site H e n m s arg)
    (h : Yields (Binding.applyLambda bind s method arg) m r m') :
    m ≤ m' ∧ Applied e n m m' s arg r := by
  obtain ⟨⟨p, body⟩, u, hu, hbody⟩ := yields_bind.mp h
  obtain ⟨hl, rfl⟩ := BindM.yields_ofExcept.mp hu
  have hb := Expr.asLambda_eq_ok hl
  exact hs.bound hbind hb (hs.filled hb) hbody

end

/-! ## Operators -/

/-- A call `e` of the operator `op` whose source has been bound. -/
structure Calling (H : String → Bool) (op : QueryOp) (e : Expr) (args : List Expr) (n : Nat)
    (source : Expr) (m : Nat) : Prop where
  ready : Ready H n e
  le : n ≤ m
  bound_source : Within e n m source
  below : ∀ a ∈ args, a ∈ e.children
  shadows : ∀ y, e.shadows y = false
  apart : op.encloses = true → ∀ a ∈ args, a.selects true ≠ [] → ∀ s, source = .select s → s.Newer n
  lambdas : ∀ s, source = .select s → (∀ a ∈ args, a.lambdaApart H = true) ∨ s.PlainRows H
  rows : e.rowsHold H = false → Expr.givesQueries H (some op) args = false ∧
    ∀ s, source = .select s → s.PlainRows H
  root : ∀ s, source = .select s → e.isRooted = true ∨ s.Newer n

/-- `PlainRows` depends on the projection and the key only. -/
theorem Select.PlainRows.congr {H : String → Bool} {s s' : Select} (h : s.PlainRows H)
    (hkey : s'.groupKey = s.groupKey) (hp : s'.projection = s.projection) : s'.PlainRows H := by
  obtain ⟨hnone, hplain⟩ := h
  refine ⟨hkey.trans hnone, ?_⟩
  rw [show s'.rowExprs = [s'.rowValue] by simp [rowExprs, hkey, hnone]]
  rw [show s.rowExprs = [s.rowValue] by simp [rowExprs, hnone]] at hplain
  have hnames : s'.rowValue.freeNames = s.rowValue.freeNames := by
    unfold rowValue
    rw [hp]
    split <;> rfl
  have hselects : s'.rowValue.selects true = s.rowValue.selects true := by
    unfold rowValue
    rw [hp]
    split <;> rfl
  simpa only [Expr.PlainValues, Expr.ValueName, Expr.ValueSelect, List.mem_singleton,
    exists_eq_left, hnames, hselects] using hplain

section
variable {H : String → Bool} {op : QueryOp} {e source a r : Expr} {args : List Expr} {n m m' : Nat}
  {s s' : Select}

theorem Calling.site (hc : Calling H op e args n source m) (hop : op.encloses = true)
    (hs : source = .select s) (ha : a ∈ args) : Site H e n m s a where
  le := hc.le
  older u hu := (hc.ready.selects u hu).2
  select := hc.bound_source.settled.select (by rw [hs]; rfl)
  ready := hc.ready.child (hc.below a ha)
  inside u hu := Expr.mem_selects_of_child (hc.below a ha) hu
  apart u hu := by
    have hnew := hc.apart hop a ha (List.ne_nil_of_mem hu) s hs
    have hold := (hc.ready.selects u (Expr.mem_selects_of_child (hc.below a ha) hu)).2
    rintro heq
    have := hnew.1
    rw [heq] at hold
    omega
  rows := (hc.lambdas s hs).imp (fun h => h a ha) id

/-- The selects in an argument are not those of `key.source`. -/
theorem Calling.group_apart (hc : Calling H op e args n source m) (hop : op.encloses = true)
    (hs : source = .select s) (ha : a ∈ args) {key : GroupKey} (hk : s.groupKey = some key) :
    ∀ u ∈ a.selects true, u.scope ≠ key.source.scope := by
  intro u hu heq
  have hnew := (hc.apart hop a ha (List.ne_nil_of_mem hu) s hs).2 key hk
  have hold := (hc.ready.selects u (Expr.mem_selects_of_child (hc.below a ha) hu)).2
  rw [heq] at hold
  omega

theorem Calling.queries (hc : Calling H op e args n source m) (hs : source = .select s) :
    ¬ (e.has .table = false ∧ e.selects true = []) := by
  rintro ⟨ht, hu⟩
  have hmem : s ∈ source.selects true := by
    rw [hs]
    exact s.mem_withNested_self true
  rw [hc.bound_source.plain ht hu] at hmem
  cases hmem

theorem Calling.argument {bind : Expr → BindM Expr} (hbind : Binds H bind)
    (hc : Calling H op e args n source m) (ha : a ∈ args) {k : Nat} (hm : m ≤ k)
    (h : Yields (bind a) k r m') : k ≤ m' ∧ Within e n m' r := by
  have hn : n ≤ k := Nat.le_trans hc.le hm
  have hb := hbind a k r m' ((hc.ready.child (hc.below a ha)).mono hn) h
  exact ⟨hb.le, (hb.toWithin.of_child (hc.below a ha) hc.shadows).mono hn (Nat.le_refl m')⟩

/-- An operator that gives `s` with other clauses. -/
theorem Calling.bound (hc : Calling H op e args n source m) (hs : source = .select s) (hm : m ≤ m')
    (hs' : s'.Settled (Known e n m')) (hscope : s'.scope = s.scope)
    (hkey : s'.groupKey = none ∨ s'.groupKey = s.groupKey)
    (hrows : Expr.givesQueries H (some op) args = false → s.PlainRows H → s'.PlainRows H) :
    Bound H e n (.select s') m' where
  toWithin := .select hs' rfl (hc.queries hs)
  le := Nat.le_trans hc.le hm
  rows u hu he := by
    cases hu
    exact hrows (hc.rows he).1 ((hc.rows he).2 s hs)
  root u hu := by
    cases hu
    refine (hc.root s hs).imp id fun hnew => ⟨hscope ▸ hnew.1, fun key hk => ?_⟩
    rcases hkey with hkey | hkey
    · rw [hkey] at hk
      cases hk
    · exact hnew.2 key (hkey ▸ hk)

theorem Calling.value (hc : Calling H op e args n source m) (hm : m ≤ m') (hr : Within e n m' r)
    (hq : r.select? = none) : Bound H e n r m' where
  toWithin := hr
  le := Nat.le_trans hc.le hm
  rows u hu := by
    rw [hu] at hq
    cases hq
  root u hu := by
    rw [hu] at hq
    cases hq

end

section
variable {H : String → Bool} {bind : Expr → BindM Expr} {op : QueryOp} {e source r : Expr}
  {args : List Expr} {n m m' : Nat} {s s' : Select} {method : String}

/-- The `predicate`, if there is one, is one more clause of the select. -/
theorem Calling.restricted (hbind : Binds H bind) {predicate : Option Expr}
    (hc : Calling H op e predicate.toList n source m) (hop : op.encloses = true)
    (hs : source = .select s) (h : Yields (Binding.restricted bind s method predicate) m s' m') :
    m ≤ m' ∧ s'.Settled (Known e n m') ∧ s'.scope = s.scope ∧ s'.groupKey = s.groupKey ∧
      s'.projection = s.projection := by
  have hsettled : s.Settled (Known e n m) := hc.bound_source.settled.select (by rw [hs]; rfl)
  obtain ⟨condition, u, hcond, h⟩ := yields_bind.mp h
  cases predicate with
  | none =>
    obtain ⟨rfl, rfl⟩ := yields_pure.mp hcond
    obtain ⟨rfl, rfl⟩ := yields_pure.mp h
    exact ⟨Nat.le_refl _, hsettled, rfl, rfl, rfl⟩
  | some p =>
    obtain ⟨c, u', hp, hcond⟩ := yields_bind.mp hcond
    obtain ⟨rfl, rfl⟩ := yields_pure.mp hcond
    obtain ⟨rfl, rfl⟩ := yields_pure.mp h
    obtain ⟨hle, happ⟩ := (hc.site hop hs (by simp)).applyLambda hbind hp
    refine ⟨hle, ?_, rfl, rfl, rfl⟩
    refine (hsettled.mono fun a ha => ha.mono (Nat.le_refl n) hle fun _ h => h).filterBy ?_
    exact happ.settled

/-- `sequence` gives the rows of a source as an array. -/
theorem Calling.sequence (hbind : Binds H bind) {predicate : Option Expr}
    (hc : Calling H op e args n source m)
    (hop : predicate = none ∨ args = predicate.toList ∧ op.encloses = true)
    (h : Yields (Binding.sequence bind method source predicate) m r m') :
    m ≤ m' ∧ Within e n m' r := by
  unfold Binding.sequence at h
  split at h
  · rename_i s
    obtain ⟨s', u, hs', h⟩ := yields_bind.mp h
    obtain ⟨rfl, rfl⟩ := yields_pure.mp h
    rcases hop with rfl | ⟨rfl, hop⟩
    · obtain ⟨c, v, hcond, hsame⟩ := yields_bind.mp hs'
      obtain ⟨rfl, rfl⟩ := yields_pure.mp hcond
      obtain ⟨rfl, rfl⟩ := yields_pure.mp hsame
      have hsettled := hc.bound_source.settled.select rfl
      exact ⟨Nat.le_refl _, .select hsettled rfl (hc.queries rfl)⟩
    · obtain ⟨hle, hsettled, -⟩ := hc.restricted hbind hop rfl hs'
      exact ⟨hle, .select hsettled rfl (hc.queries rfl)⟩
  · obtain ⟨rfl, rfl⟩ := yields_pure.mp h
    exact ⟨Nat.le_refl _, hc.bound_source⟩
  · exact absurd h BindM.yields_throw

end

/-! ## Aggregates -/

section
variable {H : String → Bool} {bind : Expr → BindM Expr} {op : QueryOp} {e source r : Expr}
  {args : List Expr} {n m m' : Nat} {s s' : Select} {method : String} {t : Ty}

theorem Select.plainRows_ofSelect {scope : ScopeId} : (Select.ofSelect scope s).PlainRows H := by
  refine ⟨rfl, ?_⟩
  rw [show (Select.ofSelect scope s).rowExprs = [(Select.ofSelect scope s).rowValue] from rfl]
  constructor
  · rintro y ⟨v, hv, hy⟩
    obtain rfl := List.mem_singleton.mp hv
    cases hy
  · rintro u ⟨v, hv, hu⟩
    obtain rfl := List.mem_singleton.mp hv
    cases hu

theorem Calling.aggregateSource (hc : Calling H op e args n source m) (hs : source = .select s)
    (h : Yields (Binding.aggregateSource s) m s' m') : m ≤ m' ∧ s'.Settled (Known e n m') := by
  have hsettled : s.Settled (Known e n m) := hc.bound_source.settled.select (by rw [hs]; rfl)
  have hle := hc.le
  rcases Binding.yields_aggregateSource h with ⟨rfl, -, rfl⟩ | ⟨rfl, -, rfl⟩
  · exact ⟨Nat.le_refl _, hsettled⟩
  · refine ⟨Nat.le_succ m, ?_⟩
    refine (hsettled.mono fun a ha => ha.mono (Nat.le_refl n) (Nat.le_succ m) fun _ h => h).ofSelect
      (.inr ⟨hle, Nat.lt_succ_self m⟩) fun u hu heq => ?_
    have hlt := (hsettled u hu).2.lt (fun u hu => (hc.ready.selects u hu).2) hle
    rw [heq] at hlt
    exact Nat.lt_irrefl _ hlt

/-- An argument for the rows of the `aggregateSource`. -/
theorem Calling.aggregateSite (hc : Calling H op e args n source m) (hop : op.encloses = true)
    (hs : source = .select s) (h : Yields (Binding.aggregateSource s) m s' m') {a : Expr}
    (ha : a ∈ args) : Site H e n m' s' a := by
  have hsite := hc.site hop hs ha
  obtain ⟨hle, hsettled⟩ := hc.aggregateSource hs h
  refine { hsite with le := Nat.le_trans hsite.le hle, select := hsettled, apart := ?_, rows := ?_ }
  · rcases Binding.yields_aggregateSource h with ⟨rfl, -⟩ | ⟨rfl, -⟩
    · exact hsite.apart
    · rintro u hu heq
      have hlt := (hsite.ready.selects u hu).2
      have hn := hsite.le
      rw [heq] at hlt
      exact absurd hlt (Nat.not_lt_of_le hn)
  · rcases Binding.yields_aggregateSource h with ⟨rfl, -⟩ | ⟨rfl, -⟩
    · exact hsite.rows
    · exact .inr Select.plainRows_ofSelect

theorem Within.aggregated {p : Projection} {label : String} (hs : s.Settled (Known e n m))
    (hp : ∀ c ∈ p.exprs, c.Settled fun a => Known e n m a ∧ a ≠ s.scope)
    (he : ¬ (e.has .table = false ∧ e.selects true = [])) :
    Within e n m (Binding.aggregated s p label t) :=
  Within.composed.onlyRowMember (.select (hs.project hp).groupAll rfl he)

/-- An argument that may be missing, for the rows of the `aggregateSource`. -/
theorem Calling.applyOptional (hbind : Binds H bind) {arg value : Option Expr} {k : Nat}
    (hc : Calling H op e arg.toList n source m) (hop : op.encloses = true) (hs : source = .select s)
    (hagg : Yields (Binding.aggregateSource s) m s' k)
    (h : Yields (Binding.applyOptional bind s' method arg) k value m') :
    m ≤ m' ∧ s'.Settled (Known e n m') ∧
      ∀ c ∈ value.toList, c.Settled fun a => Known e n m' a ∧ a ≠ s'.scope := by
  obtain ⟨hle, hsettled⟩ := hc.aggregateSource hs hagg
  cases arg with
  | none =>
    obtain ⟨rfl, rfl⟩ := yields_pure.mp h
    exact ⟨hle, hsettled, fun c hc => by cases hc⟩
  | some a =>
    obtain ⟨c, u, ha, h⟩ := yields_bind.mp h
    obtain ⟨rfl, rfl⟩ := yields_pure.mp h
    obtain ⟨hle', happ⟩ := (hc.aggregateSite hop hs hagg (by simp)).applyLambda hbind ha
    refine ⟨Nat.le_trans hle hle', ?_, by simpa using happ.settled⟩
    exact hsettled.mono fun a ha => ha.mono (Nat.le_refl n) hle' fun _ h => h

theorem Calling.bindCount (hbind : Binds H bind) (predicate : Option Expr)
    (hc : Calling H op e predicate.toList n source m) (hop : op.encloses = true)
    (h : Yields (Binding.bindCount bind method source predicate t) m r m') : Bound H e n r m' := by
  unfold Binding.bindCount at h
  split at h
  · obtain ⟨s', k, hagg, h⟩ := yields_bind.mp h
    obtain ⟨value, u, hvalue, h⟩ := yields_bind.mp h
    obtain ⟨rfl, rfl⟩ := yields_pure.mp h
    obtain ⟨hle, hsettled, hcond⟩ := hc.applyOptional hbind hop rfl hagg hvalue
    exact hc.value hle (.aggregated hsettled hcond (hc.queries rfl)) rfl
  · obtain ⟨rfl, rfl⟩ := yields_pure.mp h
    have hcount : Within e n m' (.staticCall .enumerable "Count" [source] t) :=
      Within.composed.enumerable (by simpa using hc.bound_source)
    exact hc.value (Nat.le_refl _) (Within.composed.custom hcount) rfl
  · exact absurd h BindM.yields_throw

theorem Calling.bindAggregate (hbind : Binds H bind) (selector : Option Expr) {kind : AggregateKind}
    (hc : Calling H op e selector.toList n source m) (hop : op.encloses = true)
    (h : Yields (Binding.bindAggregate bind kind method source selector t) m r m') :
    Bound H e n r m' := by
  obtain ⟨s, rfl, hrest⟩ := Binding.yields_expectSelect_bind.mp h
  obtain ⟨s', k', hagg, hrest⟩ := yields_bind.mp hrest
  obtain ⟨value, u, hvalue, hrest⟩ := yields_bind.mp hrest
  obtain ⟨rfl, rfl⟩ := yields_pure.mp hrest
  obtain ⟨hle, hsettled, hval⟩ := hc.applyOptional hbind hop rfl hagg hvalue
  refine hc.value hle (.aggregated hsettled ?_ (hc.queries rfl)) rfl
  cases value with
  | none => simpa [Projection.exprs] using hsettled.rowValue
  | some v => simpa [Projection.exprs] using hval

end

/-! ## Projections and groups -/

section
variable {H : String → Bool} {bind : Expr → BindM Expr} {op : QueryOp} {e source r : Expr}
  {n m m' : Nat} {s s' : Select} {method : String} {t : Ty}

/-- The bound `body` is the new projection of the select. -/
theorem Calling.project {selector body : Expr} (hc : Calling H .select e [selector] n source m)
    (hs : source = .select s) (hm : m ≤ m') (hbody : Applied e n m m' s selector body)
    (hkey : s'.groupKey = none) (hscope : s'.scope = s.scope) (hp : s'.projection = .expr body)
    (hs' : s'.Settled (Known e n m')) : Bound H e n (.select s') m' := by
  refine hc.bound hs hm hs' hscope (.inl hkey) fun hgives hplain => ⟨hkey, ?_⟩
  rw [show s'.rowExprs = [body] by simp [Select.rowExprs, hkey, Select.rowValue, hp]]
  obtain ⟨p, body₀, hb, hnames, hsel⟩ := hbody.source
  simp only [Expr.givesQueries, hb, Expr.holds, Bool.or_eq_false_iff] at hgives
  obtain ⟨ht, hmentions⟩ := hgives
  rw [Expr.mentions_eq_false] at hmentions
  -- The body is the row of the new select, and holds queries only if the selector does or the old
  -- row did.
  constructor
  · rintro y ⟨v, hv, hy⟩
    obtain rfl := List.mem_singleton.mp hv
    rcases hnames y hy with hy | ⟨-, hy⟩
    · exact hmentions.2 y hy
    · exact hplain.2.1 y hy
  · rintro u ⟨v, hv, hu⟩
    obtain rfl := List.mem_singleton.mp hv
    rw [hsel ht hmentions.1 fun _ => hplain.2.2] at hu
    cases hu

theorem Calling.bindProjection (hbind : Binds H bind) {selector : Expr}
    (hc : Calling H .select e [selector] n (.select s) m) (hkey : s.groupKey = none)
    (h : Yields (Binding.bindProjection bind s selector) m r m') : Bound H e n r m' := by
  obtain ⟨body, k, hbody, h⟩ := yields_bind.mp h
  obtain ⟨hle, happ⟩ := (hc.site rfl rfl (by simp)).applyLambda hbind hbody
  have hsettled : s.Settled (Known e n k) :=
    (hc.bound_source.settled.select rfl).mono fun a ha => ha.mono (Nat.le_refl n) hle fun _ h => h
  have hproject : Bound H e n (.select (s.project (.expr body))) k :=
    hc.project rfl hle happ hkey rfl rfl
      (hsettled.project (by simpa [Projection.exprs] using happ.settled))
  have hsame : Bound H e n (.select s) k :=
    hc.bound rfl hle hsettled rfl (.inr rfl) fun _ hplain => hplain
  split at h
  · split at h
    · obtain ⟨rfl, rfl⟩ := yields_pure.mp h
      exact hsame
    · obtain ⟨rfl, rfl⟩ := yields_pure.mp h
      exact hproject
  · obtain ⟨rfl, rfl⟩ := yields_pure.mp h
    exact hproject

/-- What is `Known` does not have a scope that is given out later. -/
theorem Known.fresh (hold : ∀ u ∈ e.selects true, u.scope.index < n) (hn : n ≤ m) {a : ScopeId}
    (h : Known e n m a) : Known e n (m + 1) a ∧ a ≠ ⟨m⟩ := by
  refine ⟨h.mono (Nat.le_refl n) (Nat.le_succ m) fun _ h => h, ?_⟩
  rintro rfl
  exact Nat.lt_irrefl _ (h.lt hold hn)

/-- The select `groupedBy` a key is settled. -/
theorem Select.Settled.groupedBy {K : ScopeId → Prop} {inner : Expr} (h : s.Settled K)
    (hi : inner.Settled fun a => K a ∧ a ≠ s.scope) (scope : ScopeId) :
    (s.groupedBy inner scope).Settled K := by
  have hfields := Expr.Settled.inherited.columns_fields s.scope scope hi
  refine h.update rfl (fun c hc => ?_) rfl (.inr rfl)
  rcases Select.mem_clauses_groupedBy hc with hc | ⟨f, hf, rfl⟩ | hc
  · exact .inl hc
  · exact .inr (hfields f hf)
  · exact .inr (Expr.Settled.inherited.terms trivial hfields c hc)

/-- The select over `groups` has a new scope, and the key over the grouped rows is apart from it. -/
theorem Select.Settled.groups {K K' : ScopeId → Prop} {inner : Expr} {scope : ScopeId}
    (h : s.Settled K) (hi : inner.Settled fun a => K a ∧ a ≠ s.scope) (hscope : K' scope)
    (hfresh : ∀ a, K a → K' a ∧ a ≠ scope) : (s.groups inner scope).Settled K' := by
  have houter : ∀ K, (GroupKey.columns inner s.scope scope).2.Settled K := fun _ =>
    Expr.Settled.inherited.columns s.scope trivial inner
  have hvalues : (s.groupRows inner scope).Settled K :=
    h.filterBy (Expr.Settled.inherited.equality hi (houter _))
  refine .of_parts hscope (fun c hc => ?_) (fun v hv => ?_) fun key hk => ?_
  · rcases Select.mem_clauses_groups hc with rfl | rfl | rfl
    · exact hi.mono fun a ha => hfresh a ha.1
    · exact houter _
    · exact (hvalues.mono hfresh).expr rfl
  · rw [Select.inputs_groups] at hv
    rcases List.mem_cons.mp hv with rfl | hv
    · exact (h.groupedBy hi scope).mono hfresh
    · obtain rfl := List.mem_singleton.mp hv
      exact h.mono hfresh
  · cases hk
    exact ⟨_, rfl, rfl, fun u hu => (hi.selects u hu).2.2⟩

theorem Calling.bindGroupBy (hbind : Binds H bind) {key : Expr}
    (hc : Calling H .groupBy e [key] n (.select s) m)
    (h : Yields (Binding.bindGroupBy bind s key) m r m') : Bound H e n r m' := by
  rw [Binding.bindGroupBy_eq] at h
  obtain ⟨inner, k, hinner, h⟩ := yields_bind.mp h
  obtain ⟨scope, k', hscope, h⟩ := yields_bind.mp h
  obtain ⟨rfl, rfl⟩ := BindM.yields_freshScope.mp hscope
  obtain ⟨rfl, rfl⟩ := yields_pure.mp h
  obtain ⟨hle, happ⟩ := (hc.site rfl rfl (by simp)).applyLambda hbind hinner
  have hn : n ≤ k := Nat.le_trans hc.le hle
  have hsource : s.Settled (Known e n k) :=
    (hc.bound_source.settled.select rfl).mono fun a ha => ha.mono (Nat.le_refl n) hle fun _ h => h
  -- The scope of the groups has just been given out, so neither the source nor the key has it.
  refine ⟨.select ?_ rfl (hc.queries rfl), by omega, fun u hu he => ?_, fun u hu => ?_⟩
  · exact hsource.groups happ.settled (.inr ⟨hn, Nat.lt_succ_self k⟩) fun a ha =>
      ha.fresh (fun u hu => (hc.ready.selects u hu).2) hn
  · cases (hc.rows he).1
  · cases hu
    refine (hc.root s rfl).imp id fun hnew => ⟨hn, fun key hk => ?_⟩
    cases hk
    exact hnew.1

end

end QueryTree
