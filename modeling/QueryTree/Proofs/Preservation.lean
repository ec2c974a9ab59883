import QueryTree.Proofs.Clauses
import QueryTree.Proofs.Composed

/-!
# What operators preserve

The ways of `Binding.Performs` do the same few things: an argument is bound, a clause is added to a
select, and a value is read from one. A `Binding.Invariant` that is preserved by these is preserved
by every operator; the operators are gone through once, in `Binding.Invariant.Preserved.performs`.
What is asked may depend on notes taken when scopes are given out: `Knowledge` is what there is to
know, and how it grows.
-/

namespace QueryTree

/-! ## Knowledge -/

/-- What is known while a tree is bound: `At w n` if `w` can be known when `n` scopes have been
given out, and `Le w w'` if `w'` says all that `w` says. -/
structure Knowledge (W : Type) where
  At : W → Nat → Prop
  Le : W → W → Prop
  refl : ∀ w, Le w w
  trans : ∀ {u v w}, Le u v → Le v w → Le u w

namespace Knowledge

/-- Nothing is noted. -/
def blank : Knowledge Unit where
  At _ _ := True
  Le _ _ := True
  refl _ := trivial
  trans _ _ := trivial

/-- A note is taken for every scope. -/
def notes (K : Type) : Knowledge (List K) where
  At w n := w.length = n
  Le w w' := w <+: w'
  refl := List.prefix_refl
  trans := List.IsPrefix.trans

/-- When `m` scopes have been given out, something more than `w` is known, of which `R` holds. -/
def Later {W : Type} (K : Knowledge W) (w : W) (m : Nat) (R : W → Prop) : Prop :=
  ∃ w', K.Le w w' ∧ K.At w' m ∧ R w'

namespace Later

variable {W : Type} {K : Knowledge W} {w : W} {n m k : Nat} {R S : W → Prop}

theorem refl (hw : K.At w m) (h : R w) : K.Later w m R := ⟨w, K.refl w, hw, h⟩

theorem bind (h : K.Later w k R)
    (hS : ∀ w', K.Le w w' → K.At w' k → R w' → K.Later w' m S) : K.Later w m S := by
  obtain ⟨v, hwv, hv, hR⟩ := h
  obtain ⟨u, hvu, hu, hS⟩ := hS v hwv hv hR
  exact ⟨u, K.trans hwv hvu, hu, hS⟩

theorem imp (h : K.Later w m R) (hRS : ∀ w', K.Le w w' → R w' → S w') : K.Later w m S := by
  obtain ⟨v, hwv, hv, hR⟩ := h
  exact ⟨v, hwv, hv, hRS v hwv hR⟩

theorem blank {R : Unit → Prop} (h : R ()) : Knowledge.blank.Later () m R :=
  ⟨(), trivial, trivial, h⟩

theorem note {K : Type} {w : List K} {a : K} {R : List K → Prop} (hw : w.length = n)
    (h : R (w ++ [a])) : (notes K).Later w (n + 1) R :=
  ⟨w ++ [a], List.prefix_append w [a], by simp [notes, hw], h⟩

end Later

end Knowledge

/-! ## Invariants -/

/-- Whether a projection puts out an aggregate. -/
def Projection.isAggregate : Projection → Bool
  | .count _ | .aggregation _ _ _ => true
  | _ => false

namespace Binding

/-- What is asked of the parts of an operator, given what is known. -/
structure Invariant (W : Type) where
  /-- Of its source, and of what it gives. -/
  result : W → Expr → Prop
  /-- Of the select of its source. -/
  query : W → Select → Prop
  /-- Of a select that an aggregate is put on. -/
  base : W → Select → Prop
  /-- Of what it puts into a clause of the select. -/
  clause : W → QueryOp → Expr → Prop
  /-- Of its arguments, before they are bound. -/
  argument : W → QueryOp → Expr → Prop
  /-- Of the operator with its source, its arguments and what it gives. -/
  allowed : QueryOp → Expr → List Expr → Expr → Prop

namespace Invariant

variable {W : Type}

/-- `I` is preserved by all that operators do when `bind` binds their arguments. -/
structure Preserved (I : Invariant W) (K : Knowledge W) (bind : Expr → BindM Expr) : Prop where
  result_mono : ∀ {w w' e}, K.Le w w' → I.result w e → I.result w' e
  query_mono : ∀ {w w' s}, K.Le w w' → I.query w s → I.query w' s
  base_mono : ∀ {w w' s}, K.Le w w' → I.base w s → I.base w' s
  argument_mono : ∀ {w w' op a}, K.Le w w' → I.argument w op a → I.argument w' op a
  assembled : ∀ w, Expr.Assembled (I.result w)
  select : ∀ {w s}, I.result w (.select s) → I.query w s
  expr : ∀ {w s e}, I.query w s → e.select? = some s → I.result w e
  /-- A function for the rows of a select. -/
  apply : ∀ {w s op method a c n m}, op.takesValue = false → K.At w n → I.query w s →
    I.argument w op a → Yields (applyLambda bind s method a) n c m → K.Later w m (I.clause · op c)
  /-- A number of rows. -/
  amount : ∀ {w op a c n m}, op.addsClause = true → op.takesValue = true → K.At w n →
    I.argument w op a → Yields (bind a) n c m → K.Later w m (I.clause · op c)
  /-- A value that no select is needed for. -/
  value : ∀ {w op a c n m}, op.encloses = false → K.At w n → I.argument w op a →
    Yields (bind a) n c m → K.Later w m (I.result · c)
  amendable : ∀ {w s} op, I.query w s → s.Amendable true (I.clause w op) (I.query w)
  filterBy : ∀ {w s op c}, I.query w s → I.clause w op c → I.query w (s.filterBy c)
  not : ∀ {w c}, I.clause w .all c → I.clause w .all c.not
  project : ∀ {w s c}, I.query w s → I.clause w .select c → I.query w (s.project (.expr c))
  ungroup : ∀ {w s}, I.query w s → I.query w { s with groupKey := none }
  merge : ∀ {w s grouped key selector body merged c p n k m}, K.At w n → I.query w s →
    I.argument w .select selector → s.groupKey = some key → selector.unquote = .lambda [p] body →
      s.source = .subquery grouped → body.isMerged p.name = true →
      Yields (body.replaceM (mergeNode bind p.name key)) n merged k → Yields (bind merged) k c m →
      I.allowed .select (.select s) [selector] (.select (s.readingMerged grouped c)) →
        K.Later w m (I.query · (s.readingMerged grouped c))
  groups : ∀ {w s c args m}, K.At w m → I.query w s → I.clause w .groupBy c →
    I.allowed .groupBy (.select s) args (.select (s.groups c ⟨m⟩)) →
      K.Later w (m + 1) (I.query · (s.groups c ⟨m⟩))
  aggregateSource : ∀ {w s s' op args r n k}, K.At w n → I.query w s →
    op = .count ∧ args ≠ [] ∨ op.aggregate?.isSome = true → I.allowed op (.select s) args r →
      Yields (aggregateSource s) n s' k → K.Later w k (I.base · s')
  query_of_base : ∀ {w s}, I.base w s → I.query w s
  rowValue : ∀ {w s op}, op.aggregate?.isSome = true → I.base w s → I.clause w op s.rowValue
  aggregated : ∀ {w s op p label t}, I.base w s → p.isAggregate = true →
    (∀ c ∈ p.exprs, I.clause w op c) → I.result w (aggregated s p label t)
  /-- All rows are counted, and none of them is looked at. -/
  counted : ∀ {w s s' r label t n m}, K.At w n → I.query w s → I.allowed .count (.select s) [] r →
    Yields (Binding.aggregateSource s) n s' m →
      K.Later w m (I.result · (Binding.aggregated s' (.count none) label t))

namespace Preserved

variable {I : Invariant W} {K : Knowledge W} {bind : Expr → BindM Expr} {w : W} {op : QueryOp}
  {method : String} {t : Ty} {source r : Expr} {args : List Expr} {n m : Nat}

theorem sequences (hI : I.Preserved K bind) (op : QueryOp) (hw : K.At w n)
    (hsource : I.result w source) {predicate : Option Expr}
    (ha : ∀ a ∈ predicate.toList, op.takesValue = false ∧ I.argument w op a)
    (h : Sequences bind method source predicate n r m) : K.Later w m (I.result · r) := by
  cases h with
  | rows => exact .refl hw (hI.expr (hI.select hsource) rfl)
  | passing hc =>
    have hs := hI.select hsource
    obtain ⟨hop, ha⟩ := ha _ (List.mem_singleton_self _)
    exact (hI.apply hop hw hs ha hc).imp fun w' hle hc =>
      hI.expr (hI.filterBy (hI.query_mono hle hs) hc) rfl
  | items => exact .refl hw hsource

/-- An operator on a source that satisfies `I` gives something that does. -/
theorem performs (hI : I.Preserved K bind) (hw : K.At w n) (hsource : I.result w source)
    (hargs : ∀ a ∈ args, I.argument w op a) (hallowed : I.allowed op source args r)
    (h : Performs bind method t op source args n r m) : K.Later w m (I.result · r) := by
  cases h with
  | filter hc =>
    have hs := hI.select hsource
    exact (hI.apply rfl hw hs (hargs _ (by simp)) hc).imp fun w' hle hc =>
      hI.expr (hI.filterBy (hI.query_mono hle hs) hc) rfl
  | orderBy hc =>
    have hs := hI.select hsource
    exact (hI.apply rfl hw hs (hargs _ (by simp)) hc).imp fun w' hle hc =>
      hI.expr ((hI.amendable _ (hI.query_mono hle hs)).orderBy hc _) rfl
  | thenBy hc =>
    have hs := hI.select hsource
    exact (hI.apply rfl hw hs (hargs _ (by simp)) hc).imp fun w' hle hc =>
      hI.expr ((hI.amendable _ (hI.query_mono hle hs)).thenBy hc _) rfl
  | take hc =>
    have hs := hI.select hsource
    exact (hI.amount rfl rfl hw (hargs _ (by simp)) hc).imp fun w' hle hc =>
      hI.expr ((hI.amendable _ (hI.query_mono hle hs)).take hc) rfl
  | skip hc =>
    have hs := hI.select hsource
    exact (hI.amount rfl rfl hw (hargs _ (by simp)) hc).imp fun w' hle hc =>
      hI.expr ((hI.amendable _ (hI.query_mono hle hs)).skip hc) rfl
  | keep _ hc =>
    exact (hI.apply rfl hw (hI.select hsource) (hargs _ (by simp)) hc).imp fun w' hle _ =>
      hI.result_mono hle hsource
  | project _ hc =>
    have hs := hI.select hsource
    exact (hI.apply rfl hw hs (hargs _ (by simp)) hc).imp fun w' hle hc =>
      hI.expr (hI.project (hI.query_mono hle hs) hc) rfl
  | projectGroups _ _ _ hc =>
    have hs := hI.select hsource
    exact (hI.apply rfl hw hs (hargs _ (by simp)) hc).imp fun w' hle hc =>
      hI.expr (hI.project (hI.ungroup (hI.query_mono hle hs)) hc) rfl
  | mergeGroups hkey hlambda hgrouped hmerges hmerged hc =>
    exact (hI.merge hw (hI.select hsource) (hargs _ (by simp)) hkey hlambda hgrouped hmerges hmerged
      hc hallowed).imp fun w' _ hs => hI.expr hs rfl
  | groupBy hc =>
    have hs := hI.select hsource
    refine (hI.apply rfl hw hs (hargs _ (by simp)) hc).bind fun w' hle hw' hc => ?_
    exact (hI.groups hw' (hI.query_mono hle hs) hc hallowed).imp fun w'' _ hs => hI.expr hs rfl
  | @count s s' predicate c n k m hs' hc =>
    rcases yields_applyOptional hc with ⟨rfl, rfl, rfl⟩ | ⟨a, c, rfl, rfl, hvalue⟩
    · exact hI.counted hw (hI.select hsource) hallowed hs'
    · refine (hI.aggregateSource hw (hI.select hsource) (.inl ⟨rfl, by simp⟩) hallowed hs').bind
        fun w' hle hw' hbase => ?_
      have ha := hI.argument_mono hle (hargs a (by simp))
      refine (hI.apply rfl hw' (hI.query_of_base hbase) ha hvalue).imp fun w'' hle' hc => ?_
      exact hI.aggregated (hI.base_mono hle' hbase) rfl (List.forall_mem_singleton.mpr hc)
  | countItems =>
    exact .refl hw ((hI.assembled w).custom ((hI.assembled w).enumerable (by simpa using hsource)))
  | @aggregate op kind s s' selector c n k m hkind hs' hc =>
    have hsome : op.aggregate?.isSome = true := by rw [hkind]; rfl
    refine (hI.aggregateSource hw (hI.select hsource) (.inr hsome) hallowed hs').bind
      fun w' hle hw' hbase => ?_
    rcases yields_applyOptional hc with ⟨rfl, rfl, rfl⟩ | ⟨a, c, rfl, rfl, hvalue⟩
    · have hrow := hI.rowValue hsome hbase
      exact .refl hw' (hI.aggregated hbase rfl (List.forall_mem_singleton.mpr hrow))
    · have hop : op.takesValue = false := by cases op <;> first | rfl | cases hkind
      have ha := hI.argument_mono hle (hargs a (by simp))
      refine (hI.apply hop hw' (hI.query_of_base hbase) ha hvalue).imp fun w'' hle' hc => ?_
      exact hI.aggregated (hI.base_mono hle' hbase) rfl (List.forall_mem_singleton.mpr hc)
  | all hc =>
    have hs := hI.select hsource
    refine (hI.apply rfl hw hs (hargs _ (by simp)) hc).imp fun w' hle hc => ?_
    have hP := hI.assembled w'
    have hfailing := hI.filterBy (hI.query_mono hle hs) (hI.not hc)
    refine hP.custom (hP.binary (hP.enumerable (List.forall_mem_singleton.mpr ?_)) hP.constant)
    exact hI.expr hfailing rfl
  | answer hf hrows =>
    have hop : op.takesValue = false := by cases op <;> first | rfl | cases hf
    refine (hI.sequences op hw hsource (fun a ha => ⟨hop, hargs a ha⟩) hrows).imp fun w'
      _ hrows => ?_
    exact (hI.assembled w').custom ((hI.assembled w').answer hf hrows)
  | contains hrows hc =>
    refine (hI.sequences .any hw hsource (by simp) hrows).bind fun w' hle hw' hrows => ?_
    have ha := hI.argument_mono hle (hargs _ (List.mem_singleton_self _))
    refine (hI.value rfl hw' ha hc).imp fun w'' hle' hc => ?_
    have hitems := List.forall_mem_cons.mpr
      ⟨hI.result_mono hle' hrows, List.forall_mem_singleton.mpr hc⟩
    exact (hI.assembled w'').custom ((hI.assembled w'').enumerable hitems)
  | elementAt hrows hc =>
    refine (hI.sequences .any hw hsource (by simp) hrows).bind fun w' hle hw' hrows => ?_
    have ha := hI.argument_mono hle (hargs _ (List.mem_singleton_self _))
    refine (hI.value rfl hw' ha hc).imp fun w'' hle' hc => ?_
    have hP := hI.assembled w''
    exact hP.custom (hP.orDefault (hP.binary (hI.result_mono hle' hrows) hc))
  | single => exact .refl hw (hI.expr (hI.amendable .single (hI.select hsource)).single rfl)
  | singleOf hc =>
    have hs := hI.select hsource
    refine (hI.apply rfl hw hs (hargs _ (by simp)) hc).imp fun w' hle hc => ?_
    have hs := hI.filterBy (hI.query_mono hle hs) hc
    exact hI.expr (hI.amendable .single hs).single rfl

end Preserved

end Invariant

end Binding

end QueryTree
