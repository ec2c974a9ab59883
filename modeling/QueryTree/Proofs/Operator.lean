import QueryTree.Proofs.Apart
import QueryTree.Proofs.Grouped
import QueryTree.Proofs.Runs

/-!
# What an operator can do

Binding an operator adds a clause to the select of its source, projects or groups it, aggregates its
rows or hands them on as an array. `Binding.Performs` lists the ways, with the runs that bound the
arguments, so that what is true of all operators is shown by its cases.
-/

namespace QueryTree

/-- The aggregate that an operator takes of what a selector makes of the rows. -/
def QueryOp.aggregate? : QueryOp → Option AggregateKind
  | .selectMany => some .flatten
  | .aggregate kind => some kind
  | .distinct => some .distinct
  | _ => none

/-- What an operator makes of the rows that may be cut down by a condition. -/
def QueryOp.answer? (t : Ty) : QueryOp → Option (Expr → Expr)
  | .any => some Binding.existsTest
  | .first default => some fun rows => Binding.orDefault default (rows.index (.int32 0)) t
  | .last default =>
    some fun rows => Binding.orDefault default (.staticCall .enumerable "Last" [rows] t) t
  | _ => none

/-- Whether an operator adds a clause other than the projection to the select of its source. -/
def QueryOp.addsClause : QueryOp → Bool
  | .filter | .orderBy _ | .thenBy _ | .take | .skip => true
  | _ => false

/-- Whether the argument of an operator is no function of rows. -/
def QueryOp.takesValue : QueryOp → Bool
  | .take | .skip | .contains | .elementAt _ => true
  | _ => false

/-- Whether a selector over the groups `g` is merged into the grouped select: an aggregate is taken
of `g`, and `g` is used for its key and in aggregates only. -/
def Expr.isMerged (body : Expr) (g : String) : Bool :=
  !((GroupUses.of body g).aggregates == 0 || (GroupUses.of body g).other)

theorem Expr.isMerged_iff {body : Expr} {g : String} : body.isMerged g = true ↔
    (GroupUses.of body g).aggregates ≠ 0 ∧ (GroupUses.of body g).other = false := by
  simp [isMerged]

theorem Expr.asLambda_eq_ok {method : String} {e body : Expr} {p : LambdaParam}
    (h : e.asLambda method = .ok (p, body)) : e.unquote = .lambda [p] body := by
  unfold asLambda at h
  split at h
  · rename_i hl
    cases h
    exact hl
  · cases h
  · cases h

theorem Expr.isKeyOf_eq_true {g : String} {e : Expr} (h : e.isKeyOf g = true) :
    ∃ base t, e = .member base "Key" t ∧ base.isParameter g = true := by
  unfold isKeyOf at h
  split at h
  · exact ⟨_, _, rfl, h⟩
  · cases h

theorem Expr.aggregateOf?_eq_some {name method : String} {x : Expr} {kind : AggregateKind}
    {rest : List Expr} {t : Ty} (h : x.aggregateOf? name = some (kind, method, rest, t)) :
    ∃ group : Expr, x = .call .enumerable method none (group :: rest) t ∧
      group.isParameter name = true := by
  unfold aggregateOf? at h
  split at h
  · split at h
    · rename_i group rest' t' hp
      obtain ⟨kind', -, heq⟩ := Option.map_eq_some_iff.mp h
      cases heq
      exact ⟨group, rfl, hp⟩
    · cases h
  · cases h

/-- The body of a lambda for the results of `s`, with what its parameter stands for filled in. -/
def Select.fillIn (s : Select) (name : String) (body : Expr) : Expr :=
  match s.groupKey with
  | some key => body.substituteGroup name key
  | none => body.substitute name s.rowValue

/-- `R` holds of a tree that stays as it is, and of a node as soon as it holds of its children, so
it holds when values have been filled in. -/
structure Expr.Filling (R : Expr → Expr → Prop) : Prop where
  refl : ∀ e, R e e
  node : ∀ {e : Expr} {cs : List Expr}, List.Forall₂ R e.children cs → R e (e.withChildren cs)

namespace Expr.Filling

variable {R : Expr → Expr → Prop} {e v : Expr} {x : String}

theorem replace (h : Filling R) {f : Expr → Option Expr} (hsome : ∀ n r, f n = some r → R n r) :
    R e (e.replace f) := by
  induction e using childrenInduction with
  | step e ih =>
    rw [replace_eq]
    cases hf : f e with
    | some r => exact hsome e r hf
    | none =>
      apply h.node
      rw [List.forall₂_map_right_iff, List.forall₂_same]
      exact ih

theorem substitute (h : Filling R) (hv : ∀ n : Expr, n.isParameter x = true → R n v) :
    R e (e.substitute x v) := by
  apply h.replace
  intro n r hr
  unfold substituteNode at hr
  split at hr
  · rename_i hp
    cases hr
    exact hv n hp
  · split at hr
    · cases hr
      exact h.refl n
    · cases hr

theorem substituteGroup (h : Filling R) {key : GroupKey}
    (hkey : ∀ n : Expr, n.isKeyOf x = true → R n key.outer)
    (hvalues : ∀ n : Expr, n.isParameter x = true → R n key.values) :
    R e (e.substituteGroup x key) := by
  apply h.replace
  intro n r hr
  split at hr
  · rename_i hk
    cases hr
    exact hkey n hk
  · split at hr
    · rename_i hp
      cases hr
      exact hvalues n hp
    · split at hr
      · cases hr
        exact h.refl n
      · cases hr

end Expr.Filling

/-- Filling in a value for another variable leaves `y` where it is. -/
theorem Expr.filling_freeNames (y : String) :
    Filling fun e r => y ∈ e.freeNames → y ∈ r.freeNames where
  refl _ := id
  node {e cs} h hy := by
    rcases mem_freeNames.mp hy with hparam | ⟨hshadows, c, hc, hyc⟩
    · exact mem_freeNames_of_isParameter ((isParameter_withChildren y e cs).trans hparam)
    · obtain ⟨c', hc', hr⟩ := List.exists_of_forall₂_right h.flip hc
      rw [← children_withChildren h.length_eq.symm] at hc'
      exact mem_freeNames_of_child hc' ((shadows_withChildren y e cs).trans hshadows) (hr hyc)

/-- `Select.fillIn` takes away its own variable only. -/
theorem Select.mem_freeNames_fillIn {s : Select} {x y : String} {body : Expr}
    (hy : y ∈ body.freeNames) (hne : y ≠ x) : y ∈ (s.fillIn x body).freeNames := by
  have hparam : ∀ {n : Expr}, n.isParameter x = true → y ∉ n.freeNames := fun hx hy =>
    hne (Expr.eq_of_isParameter hx hy)
  unfold fillIn
  split
  · refine (Expr.filling_freeNames y).substituteGroup (fun n hk hn => ?_) (fun n hx hn => ?_) hy
    · obtain ⟨base, t, rfl, hbase⟩ := Expr.isKeyOf_eq_true hk
      exact absurd (show y ∈ base.freeNames from hn) (hparam hbase)
    · exact absurd hn (hparam hx)
  · exact (Expr.filling_freeNames y).substitute (fun n hx hn => absurd hn (hparam hx)) hy

namespace Binding

/-- How a source becomes an array. -/
inductive Sequences (bind : Expr → BindM Expr) (method : String) :
    Expr → Option Expr → Nat → Expr → Nat → Prop
  | rows {s : Select} {n : Nat} : Sequences bind method (.select s) none n (.subquery s) n
  | passing {s : Select} {predicate c : Expr} {n m : Nat} :
    Yields (applyLambda bind s method predicate) n c m →
      Sequences bind method (.select s) (some predicate) n (.subquery (s.filterBy c)) m
  | items {source : Expr} {n : Nat} : (∀ s, source ≠ .select s) →
    Sequences bind method source none n source n

/-- The ways in which an operator is bound to its source and its arguments. -/
inductive Performs (bind : Expr → BindM Expr) (method : String) (t : Ty) :
    QueryOp → Expr → List Expr → Nat → Expr → Nat → Prop
  | filter {s : Select} {predicate c : Expr} {n m : Nat} :
    Yields (applyLambda bind s method predicate) n c m →
      Performs bind method t .filter (.select s) [predicate] n (.select (s.filterBy c)) m
  | orderBy {s : Select} {descending : Bool} {key c : Expr} {n m : Nat} :
    Yields (applyLambda bind s method key) n c m →
      Performs bind method t (.orderBy descending) (.select s) [key]
        n (.select (s.orderBy c descending)) m
  | thenBy {s : Select} {descending : Bool} {key c : Expr} {n m : Nat} :
    Yields (applyLambda bind s method key) n c m →
      Performs bind method t (.thenBy descending) (.select s) [key]
        n (.select (s.thenBy c descending)) m
  | take {s : Select} {count c : Expr} {n m : Nat} : Yields (bind count) n c m →
    Performs bind method t .take (.select s) [count] n (.select { s with take := some c }) m
  | skip {s : Select} {count c : Expr} {n m : Nat} : Yields (bind count) n c m →
    Performs bind method t .skip (.select s) [count] n (.select { s with skip := some c }) m
  /-- A selector that gives the row itself. -/
  | keep {s : Select} {selector : Expr} {u : Ty} {n m : Nat} : s.groupKey = none →
    Yields (applyLambda bind s "Select" selector) n (.row s.scope u) m →
      Performs bind method t .select (.select s) [selector] n (.select s) m
  | project {s : Select} {selector c : Expr} {n m : Nat} : s.groupKey = none →
    Yields (applyLambda bind s "Select" selector) n c m →
      Performs bind method t .select (.select s) [selector] n (.select (s.project (.expr c))) m
  /-- A selector over groups that is computed group by group. -/
  | projectGroups {s : Select} {key : GroupKey} {selector body c : Expr} {p : LambdaParam}
    {n m : Nat} : s.groupKey = some key → selector.unquote = .lambda [p] body →
    body.isMerged p.name = false →
      Yields (applyLambda bind s "Select" selector) n c m →
        Performs bind method t .select (.select s) [selector] n
          (.select (Select.project { s with groupKey := none } (.expr c))) m
  /-- A selector over groups that the grouped select computes. -/
  | mergeGroups {s grouped : Select} {key : GroupKey} {selector body merged c : Expr}
    {p : LambdaParam} {n k m : Nat} :
    s.groupKey = some key → selector.unquote = .lambda [p] body → s.source = .subquery grouped →
      body.isMerged p.name = true →
      Yields (body.replaceM (mergeNode bind p.name key)) n merged k → Yields (bind merged) k c m →
        Performs bind method t .select (.select s) [selector]
          n (.select (s.readingMerged grouped c)) m
  | groupBy {s : Select} {key inner : Expr} {n m : Nat} :
    Yields (applyLambda bind s "GroupBy" key) n inner m →
      Performs bind method t .groupBy (.select s) [key] n (.select (s.groups inner ⟨m⟩)) (m + 1)
  | count {s s' : Select} {predicate c : Option Expr} {n k m : Nat} :
    Yields (aggregateSource s) n s' k → Yields (applyOptional bind s' method predicate) k c m →
      Performs bind method t .count (.select s) predicate.toList n
        (aggregated s' (.count c) AggregateKind.count.label t) m
  | countItems {source : Expr} {n : Nat} :
    Performs bind method t .count source [] n
      (.custom (.staticCall .enumerable "Count" [source] t) t) n
  | aggregate {op : QueryOp} {kind : AggregateKind} {s s' : Select} {selector c : Option Expr}
    {n k m : Nat} : op.aggregate? = some kind →
    Yields (aggregateSource s) n s' k → Yields (applyOptional bind s' method selector) k c m →
      Performs bind method t op (.select s) selector.toList n
        (aggregated s' (.aggregation kind (c.getD s'.rowValue) kind.label) kind.label t) m
  | all {s : Select} {predicate c : Expr} {n m : Nat} :
    Yields (applyLambda bind s method predicate) n c m →
      Performs bind method t .all (.select s) [predicate] n
        (.custom (Expr.eq (.staticCall .enumerable "Count" [.subquery (s.filterBy c.not)] .int32)
          (.int32 0)) t) m
  | answer {op : QueryOp} {f : Expr → Expr} {source rows : Expr} {predicate : Option Expr}
    {n m : Nat} : op.answer? t = some f → Sequences bind method source predicate n rows m →
      Performs bind method t op source predicate.toList n (.custom (f rows) t) m
  | contains {source rows value c : Expr} {n k m : Nat} :
    Sequences bind method source none n rows k → Yields (bind value) k c m →
      Performs bind method t .contains source [value] n
        (.custom (.staticCall .enumerable "Contains" [rows, c] .bool) t) m
  | elementAt {source rows position c : Expr} {default : Bool} {n k m : Nat} :
    Sequences bind method source none n rows k → Yields (bind position) k c m →
      Performs bind method t (.elementAt default) source [position] n
        (.custom (orDefault default (rows.index c) t) t) m
  | single {s : Select} {n : Nat} :
    Performs bind method t .single (.select s) [] n (.select { s with single := true }) n
  | singleOf {s : Select} {predicate c : Expr} {n m : Nat} :
    Yields (applyLambda bind s method predicate) n c m →
      Performs bind method t .single (.select s) [predicate] n
        (.select { s.filterBy c with single := true }) m

/-- What the aggregate over a group becomes: the value that is taken of each row, if there is one.
-/
def aggregatedValue (bind : Expr → BindM Expr) (key : GroupKey) (method : String)
    (kind : AggregateKind) : Option Expr → BindM (Option Expr)
  | some lambda => do return some (← applyLambda bind key.source method lambda)
  | none => pure (if kind = .count then none else some key.source.rowValue)

section
variable {bind : Expr → BindM Expr} {method : String} {t : Ty} {op : QueryOp} {source r : Expr}
  {args : List Expr} {s s' : Select} {n m : Nat}

/-! ## Parts of operators -/

/-- `applyLambda` binds a body after what its parameter stands for has been filled in. -/
theorem yields_applyLambda {a c : Expr} (h : Yields (applyLambda bind s method a) n c m) :
    ∃ p body, a.unquote = .lambda [p] body ∧ Yields (bind (s.fillIn p.name body)) n c m := by
  obtain ⟨⟨p, body⟩, k, hp, hbody⟩ := yields_bind.mp h
  obtain ⟨hlambda, rfl⟩ := BindM.yields_ofExcept.mp hp
  exact ⟨p, body, Expr.asLambda_eq_ok hlambda, hbody⟩

theorem yields_applyOptional {a c : Option Expr}
    (h : Yields (applyOptional bind s method a) n c m) :
    a = none ∧ c = none ∧ m = n ∨
      ∃ a' c', a = some a' ∧ c = some c' ∧ Yields (applyLambda bind s method a') n c' m := by
  cases a with
  | none =>
    obtain ⟨rfl, rfl⟩ := yields_pure.mp h
    exact .inl ⟨rfl, rfl, rfl⟩
  | some a =>
    obtain ⟨c', k, hc, hrest⟩ := yields_bind.mp h
    obtain ⟨rfl, rfl⟩ := yields_pure.mp hrest
    exact .inr ⟨a, c', rfl, rfl, hc⟩

/-- `aggregatedValue` is nothing for a number, the rows, or what the function gives. -/
theorem yields_aggregatedValue {key : GroupKey} {kind : AggregateKind} {arg value : Option Expr}
    (h : Yields (aggregatedValue bind key method kind arg) n value m) :
    arg = none ∧ value = (if kind = .count then none else some key.source.rowValue) ∧ m = n ∨
      ∃ a c, arg = some a ∧ value = some c ∧ Yields (applyLambda bind key.source method a)
        n c m := by
  cases arg with
  | none =>
    obtain ⟨rfl, rfl⟩ := yields_pure.mp h
    exact .inl ⟨rfl, rfl, rfl⟩
  | some a =>
    obtain ⟨c, k, hc, hrest⟩ := yields_bind.mp h
    obtain ⟨rfl, rfl⟩ := yields_pure.mp hrest
    exact .inr ⟨a, c, rfl, rfl, hc⟩

theorem forall_mem_aggregatedValue {P : Expr → Prop} {key : GroupKey} {kind : AggregateKind}
    {arg value : Option Expr} (h : Yields (aggregatedValue bind key method kind arg) n value m)
    (hrow : P key.source.rowValue)
    (happly : ∀ a ∈ arg.toList, ∀ c, Yields (applyLambda bind key.source method a) n c m → P c) :
    ∀ c ∈ value.toList, P c := by
  rcases yields_aggregatedValue h with ⟨-, rfl, -⟩ | ⟨a, c, rfl, rfl, hc⟩
  · split
    · exact List.forall_mem_nil _
    · exact List.forall_mem_singleton.mpr hrow
  · exact List.forall_mem_singleton.mpr (happly a (by simp) c hc)

theorem yields_expectSelect :
    Yields (expectSelect method source) n s m ↔ source = .select s ∧ m = n := by
  unfold expectSelect
  split
  · rw [yields_pure, Expr.select.injEq]
    exact and_congr_left fun _ => eq_comm
  · rename_i hne
    constructor
    · intro h
      exact absurd h BindM.yields_throw
    · rintro ⟨rfl, -⟩
      exact absurd rfl (hne s)

/-- What follows `expectSelect` starts in the same state. -/
theorem yields_expectSelect_bind {α : Type} {f : Select → BindM α} {a : α} :
    Yields (expectSelect method source >>= f) n a m ↔
      ∃ s, source = .select s ∧ Yields (f s) n a m := by
  rw [yields_bind]
  constructor
  · rintro ⟨s, k, hs, h⟩
    obtain ⟨rfl, rfl⟩ := yields_expectSelect.mp hs
    exact ⟨s, rfl, h⟩
  · rintro ⟨s, rfl, h⟩
    exact ⟨s, n, yields_expectSelect.mpr ⟨rfl, rfl⟩, h⟩

/-- `aggregateSource` is the given select, if it is not cut to a window, or a new one over it. -/
theorem yields_aggregateSource (h : Yields (aggregateSource s) n s' m) :
    s' = s ∧ s.isWindowed = false ∧ m = n ∨ s' = .ofSelect ⟨n⟩ s ∧ s.isWindowed = true ∧
      m = n + 1 := by
  unfold aggregateSource at h
  split at h
  · rename_i hwindow
    obtain ⟨scope, k, hscope, hrest⟩ := yields_bind.mp h
    obtain ⟨rfl, rfl⟩ := BindM.yields_freshScope.mp hscope
    obtain ⟨rfl, rfl⟩ := yields_pure.mp hrest
    exact .inr ⟨rfl, hwindow, rfl⟩
  · rename_i hwindow
    obtain ⟨rfl, rfl⟩ := yields_pure.mp h
    exact .inl ⟨rfl, by simpa using hwindow, rfl⟩

theorem yields_restricted {predicate : Option Expr}
    (h : Yields (restricted bind s method predicate) n s' m) :
    predicate = none ∧ s' = s ∧ m = n ∨
      ∃ p c, predicate = some p ∧ Yields (applyLambda bind s method p) n c m ∧
        s' = s.filterBy c := by
  obtain ⟨condition, k, hcond, h⟩ := yields_bind.mp h
  cases predicate with
  | none =>
    obtain ⟨rfl, rfl⟩ := yields_pure.mp hcond
    obtain ⟨rfl, rfl⟩ := yields_pure.mp h
    exact .inl ⟨rfl, rfl, rfl⟩
  | some p =>
    obtain ⟨c, k', hc, hcond⟩ := yields_bind.mp hcond
    obtain ⟨rfl, rfl⟩ := yields_pure.mp hcond
    obtain ⟨rfl, rfl⟩ := yields_pure.mp h
    exact .inr ⟨p, c, rfl, hc, rfl⟩

theorem sequences_of_yields {predicate : Option Expr}
    (h : Yields (sequence bind method source predicate) n r m) :
    Sequences bind method source predicate n r m := by
  unfold sequence at h
  split at h
  · obtain ⟨s', k, hs', h⟩ := yields_bind.mp h
    obtain ⟨rfl, rfl⟩ := yields_pure.mp h
    rcases yields_restricted hs' with ⟨rfl, rfl, rfl⟩ | ⟨p, c, rfl, hc, rfl⟩
    · exact .rows
    · exact .passing hc
  · rename_i hother
    obtain ⟨rfl, rfl⟩ := yields_pure.mp h
    exact .items fun s hs => hother s hs
  · exact absurd h BindM.yields_throw

theorem performs_of_bindProjection {selector : Expr} (hkey : s.groupKey = none)
    (h : Yields (bindProjection bind s selector) n r m) :
    Performs bind method t .select (.select s) [selector] n r m := by
  obtain ⟨c, k, hc, h⟩ := yields_bind.mp h
  split at h
  · rename_i scope u
    split at h
    · rename_i hscope
      obtain ⟨rfl, rfl⟩ := yields_pure.mp h
      rw [eq_of_beq hscope] at hc
      exact .keep hkey hc
    · obtain ⟨rfl, rfl⟩ := yields_pure.mp h
      exact .project hkey hc
  · obtain ⟨rfl, rfl⟩ := yields_pure.mp h
    exact .project hkey hc

theorem performs_of_bindGroupedProjection {key : GroupKey} {selector : Expr}
    (hkey : s.groupKey = some key) (h : Yields (bindGroupedProjection bind s key selector) n r m) :
    Performs bind method t .select (.select s) [selector] n r m := by
  rw [bindGroupedProjection_eq] at h
  obtain ⟨⟨p, body⟩, k, hx, hrest⟩ := yields_bind.mp h
  obtain ⟨hlambda, rfl⟩ := BindM.yields_ofExcept.mp hx
  have hbody := Expr.asLambda_eq_ok hlambda
  split at hrest
  all_goals rename_i huses
  · obtain ⟨c, k', hc, hrest⟩ := yields_bind.mp hrest
    obtain ⟨rfl, rfl⟩ := yields_pure.mp hrest
    have happly : Yields (applyLambda bind s "Select" selector) k c m := by
      refine yields_bind.mpr ⟨(p, body), k, BindM.yields_ofExcept.mpr ⟨hlambda, rfl⟩, ?_⟩
      simpa only [hkey] using hc
    exact .projectGroups hkey hbody (by simp [Expr.isMerged, huses]) happly
  · obtain ⟨merged, k', hmerged, hrest⟩ := yields_bind.mp hrest
    obtain ⟨c, k'', hc, hrest⟩ := yields_bind.mp hrest
    split at hrest
    · exact absurd hrest BindM.yields_throw
    · rename_i grouped hsource
      obtain ⟨rfl, rfl⟩ := yields_pure.mp hrest
      exact .mergeGroups hkey hbody hsource (by simpa [Expr.isMerged] using huses) hmerged hc

theorem performs_of_bindCount (predicate : Option Expr)
    (h : Yields (bindCount bind method source predicate t) n r m) :
    Performs bind method t .count source predicate.toList n r m := by
  unfold bindCount at h
  split at h
  · obtain ⟨s', k, hs', hrest⟩ := yields_bind.mp h
    obtain ⟨c, k', hc, hrest⟩ := yields_bind.mp hrest
    obtain ⟨rfl, rfl⟩ := yields_pure.mp hrest
    exact .count hs' hc
  · obtain ⟨rfl, rfl⟩ := yields_pure.mp h
    exact .countItems
  · exact absurd h BindM.yields_throw

theorem performs_of_bindAggregate {kind : AggregateKind} (selector : Option Expr)
    (hop : op.aggregate? = some kind)
    (h : Yields (bindAggregate bind kind method source selector t) n r m) :
    Performs bind method t op source selector.toList n r m := by
  obtain ⟨s, rfl, hrest⟩ := yields_expectSelect_bind.mp h
  obtain ⟨s', k', hs', hrest⟩ := yields_bind.mp hrest
  obtain ⟨c, k'', hc, hrest⟩ := yields_bind.mp hrest
  obtain ⟨rfl, rfl⟩ := yields_pure.mp hrest
  exact .aggregate hop hs' hc

theorem performs_of_sequence {f : Expr → Expr} (predicate : Option Expr)
    (hop : op.answer? t = some f)
    (h : Yields (sequence bind method source predicate >>= fun rows => pure (.custom (f rows) t))
      n r m) : Performs bind method t op source predicate.toList n r m := by
  obtain ⟨rows, k, hrows, hrest⟩ := yields_bind.mp h
  obtain ⟨rfl, rfl⟩ := yields_pure.mp hrest
  exact .answer hop (sequences_of_yields hrows)

theorem mergeNode_eq (name : String) (key : GroupKey) (node : Expr) :
    mergeNode bind name key node =
      if node.isKeyOf name then pure (some key.inner)
      else match node.aggregateOf? name with
        | some (kind, method, rest, t) =>
          aggregatedValue bind key method kind rest.head? >>= fun value =>
            pure (some (.groupAggregate kind value t))
        | none => if node.shadows name then pure (some node) else pure none := by
  unfold mergeNode
  split
  · rfl
  · cases hagg : node.aggregateOf? name with
    | none => rfl
    | some aggregate =>
      obtain ⟨kind, method, rest, t⟩ := aggregate
      cases hhead : rest.head? <;> cases kind <;> simp [hhead, aggregatedValue]

/-- `mergeNode` makes a node the key, an aggregate, or itself; other nodes are left to their
children. -/
theorem yields_mergeNode {name : String} {key : GroupKey} {node : Expr} {result : Option Expr}
    (h : Yields (mergeNode bind name key node) n result m) :
    (node.isKeyOf name = true ∧ result = some key.inner ∧ m = n) ∨
      (∃ kind method rest t value, node.aggregateOf? name = some (kind, method, rest, t) ∧
        Yields (aggregatedValue bind key method kind rest.head?) n value m ∧
        result = some (.groupAggregate kind value t)) ∨
      (result = some node ∧ node.shadows name = true ∧ m = n) ∨
      (result = none ∧ node.isKeyOf name = false ∧ node.aggregateOf? name = none ∧
        node.shadows name = false ∧ m = n) := by
  rw [mergeNode_eq] at h
  split at h
  · rename_i hkey
    obtain ⟨rfl, rfl⟩ := yields_pure.mp h
    exact .inl ⟨hkey, rfl, rfl⟩
  · rename_i hkey
    split at h
    · rename_i kind method rest t hagg
      obtain ⟨value, k, hvalue, hresult⟩ := yields_bind.mp h
      obtain ⟨rfl, rfl⟩ := yields_pure.mp hresult
      exact .inr (.inl ⟨kind, method, rest, t, value, hagg, hvalue, rfl⟩)
    · rename_i hagg
      split at h
      · rename_i hshadows
        obtain ⟨rfl, rfl⟩ := yields_pure.mp h
        exact .inr (.inr (.inl ⟨rfl, hshadows, rfl⟩))
      · rename_i hshadows
        obtain ⟨rfl, rfl⟩ := yields_pure.mp h
        exact .inr (.inr (.inr ⟨rfl, by simpa using hkey, hagg, by simpa using hshadows, rfl⟩))

/-! ## All operators -/

/-- Whatever `bindOperator` yields, it `Performs` in one of the ways. -/
theorem performs_of_yields (h : Yields (bindOperator bind op method source args t) n r m) :
    Performs bind method t op source args n r m := by
  unfold bindOperator at h
  split at h
  -- Filters, orders and windows: one clause of the select.
  case h_1 | h_5 | h_6 | h_7 | h_8 =>
    obtain ⟨s, rfl, hrest⟩ := yields_expectSelect_bind.mp h
    obtain ⟨c, k, hc, hrest⟩ := yields_bind.mp hrest
    obtain ⟨rfl, rfl⟩ := yields_pure.mp hrest
    constructor
    exact hc
  case h_2 =>
    obtain ⟨s, rfl, hrest⟩ := yields_expectSelect_bind.mp h
    split at hrest
    · rename_i hkey
      exact performs_of_bindGroupedProjection hkey hrest
    · rename_i hkey
      exact performs_of_bindProjection hkey hrest
  case h_3 selector => exact performs_of_bindAggregate (some selector) rfl h
  case h_4 =>
    obtain ⟨s, rfl, hrest⟩ := yields_expectSelect_bind.mp h
    rw [bindGroupBy_eq] at hrest
    obtain ⟨inner, k, hinner, hrest⟩ := yields_bind.mp hrest
    obtain ⟨scope, k', hscope, hrest⟩ := yields_bind.mp hrest
    obtain ⟨rfl, rfl⟩ := BindM.yields_freshScope.mp hscope
    obtain ⟨rfl, rfl⟩ := yields_pure.mp hrest
    exact .groupBy hinner
  -- Aggregates, with a function or without.
  case h_9 => exact performs_of_bindCount none h
  case h_10 predicate => exact performs_of_bindCount (some predicate) h
  case h_11 | h_13 => exact performs_of_bindAggregate none rfl h
  case h_12 selector => exact performs_of_bindAggregate (some selector) rfl h
  case h_14 =>
    obtain ⟨s, rfl, hrest⟩ := yields_expectSelect_bind.mp h
    obtain ⟨c, k, hc, hrest⟩ := yields_bind.mp hrest
    obtain ⟨rfl, rfl⟩ := yields_pure.mp hrest
    exact .all hc
  -- Answers about the rows, and rows that are picked.
  case h_15 | h_18 | h_20 => exact performs_of_sequence none rfl h
  case h_16 predicate | h_19 predicate | h_21 predicate =>
    exact performs_of_sequence (some predicate) rfl h
  case h_17 | h_22 =>
    obtain ⟨rows, k, hrows, hrest⟩ := yields_bind.mp h
    obtain ⟨c, k', hc, hrest⟩ := yields_bind.mp hrest
    obtain ⟨rfl, rfl⟩ := yields_pure.mp hrest
    constructor
    · exact sequences_of_yields hrows
    · exact hc
  case h_23 =>
    obtain ⟨s, rfl, hrest⟩ := yields_expectSelect_bind.mp h
    obtain ⟨rfl, rfl⟩ := yields_pure.mp hrest
    exact .single
  case h_24 predicate =>
    obtain ⟨s, rfl, hrest⟩ := yields_expectSelect_bind.mp h
    obtain ⟨s', k, hs', hrest⟩ := yields_bind.mp hrest
    obtain ⟨rfl, rfl⟩ := yields_pure.mp hrest
    rcases yields_restricted hs' with ⟨hnone, -⟩ | ⟨p, c, hp, hc, rfl⟩
    · cases hnone
    · cases hp
      exact .singleOf hc
  case h_25 => exact absurd h BindM.yields_throw

/-- An operator that `addsClause` leaves the rest of the select of its source as it is. -/
theorem Performs.clause (hop : op.addsClause = true)
    (h : Performs bind method t op (.select s) args n r m) :
    ∃ s', r = .select s' ∧ s' = { s with
      filter := s'.filter, orderings := s'.orderings, take := s'.take, skip := s'.skip } := by
  cases h with
  | filter _ | orderBy _ | thenBy _ | take _ | skip _ => exact ⟨_, rfl, rfl⟩
  | aggregate hkind _ _ => cases op <;> cases hkind <;> cases hop
  | answer hanswer _ => cases op <;> cases hanswer <;> cases hop
  | _ => cases hop

theorem yields_bindCall (h : Yields (bindCall bind method args t) n r m) :
    ∃ op start rest source k, args = start :: rest ∧ QueryOp.ofMethod? method = some op ∧
      Yields (bind start) n source k ∧ Performs bind method t op source rest k r m := by
  unfold bindCall at h
  split at h
  · exact absurd h BindM.yields_throw
  · rename_i start rest
    obtain ⟨source, k, hsource, hrest⟩ := yields_bind.mp h
    split at hrest
    · rename_i op hop
      exact ⟨op, start, rest, source, k, rfl, hop, hsource, performs_of_yields hrest⟩
    · exact absurd hrest BindM.yields_throw

/-- `bindNode` makes a table the select of its rows, and a call what its operator gives. -/
theorem yields_bindNode_some {e : Expr} (h : Yields (bindNode bind e) n (some r) m) :
    (∃ name element, e = .table name element ∧ r = .select (.ofTable ⟨n⟩ name element) ∧
      m = n + 1) ∨
      ∃ method args t, e = .call .queryable method none args t ∧
        Yields (bindCall bind method args t) n r m := by
  unfold bindNode at h
  split at h
  · rename_i name element
    obtain ⟨scope, k, hscope, hrest⟩ := yields_bind.mp h
    obtain ⟨rfl, rfl⟩ := BindM.yields_freshScope.mp hscope
    obtain ⟨heq, rfl⟩ := yields_pure.mp hrest
    cases heq
    exact .inl ⟨name, element, rfl, rfl, rfl⟩
  · rename_i method args t
    obtain ⟨x, k, hx, hrest⟩ := yields_bind.mp h
    obtain ⟨heq, rfl⟩ := yields_pure.mp hrest
    cases heq
    exact .inr ⟨method, args, t, rfl, hx⟩
  · cases (yields_pure.mp h).1

/-- A node that `bindNode` leaves in place is no operator, and no table if it is named. -/
theorem yields_bindNode_none {e : Expr} (h : Yields (bindNode bind e) n none m) :
    m = n ∧ Mark.operator.of e = false ∧ (Mark.raw.of e = false → Mark.table.of e = false) := by
  unfold bindNode at h
  split at h
  · obtain ⟨scope, k, hscope, hrest⟩ := yields_bind.mp h
    cases (yields_pure.mp hrest).1
  · obtain ⟨x, k, hx, hrest⟩ := yields_bind.mp h
    cases (yields_pure.mp hrest).1
  · rename_i htable hcall
    have hop := Mark.operator_of_ne hcall
    exact ⟨(yields_pure.mp h).2, hop, fun hraw => Mark.of_eq_false hop htable hraw .table⟩

/-- `bindWith` binds a call one level below the operator. -/
theorem yields_bindWith_call {fuel : Nat}
    (h : Yields (bindWith fuel (.call .queryable method none args t)) n r m) :
    ∃ fuel' op start rest source k, args = start :: rest ∧ QueryOp.ofMethod? method = some op ∧
      Yields (bindWith fuel' start) n source k ∧
        Performs (bindWith fuel') method t op source rest k r m := by
  cases fuel with
  | zero => exact absurd h BindM.yields_throw
  | succ fuel =>
    unfold bindWith at h
    rw [Expr.replaceM_eq] at h
    obtain ⟨result, k, hnode, hrest⟩ := yields_bind.mp h
    obtain ⟨x, k', hcall, hsome⟩ := yields_bind.mp hnode
    obtain ⟨rfl, rfl⟩ := yields_pure.mp hsome
    obtain ⟨rfl, rfl⟩ := yields_pure.mp hrest
    exact ⟨fuel, yields_bindCall hcall⟩

end

/-! ## Scopes -/

/-- `bind` takes scopes and gives none back. -/
def Ascends (bind : Expr → BindM Expr) : Prop := ∀ e n r m, Yields (bind e) n r m → n ≤ m

section
variable {bind : Expr → BindM Expr} {method : String} {t : Ty} {op : QueryOp} {source r a : Expr}
  {args : List Expr} {s s' : Select} {n m : Nat}

theorem Ascends.applyLambda (hbind : Ascends bind)
    (h : Yields (applyLambda bind s method a) n r m) : n ≤ m := by
  obtain ⟨p, body, -, hbody⟩ := yields_applyLambda h
  exact hbind _ _ _ _ hbody

theorem Ascends.applyOptional (hbind : Ascends bind) {a c : Option Expr}
    (h : Yields (applyOptional bind s method a) n c m) : n ≤ m := by
  rcases yields_applyOptional h with ⟨-, -, rfl⟩ | ⟨a, c, -, -, hc⟩
  · exact Nat.le_refl _
  · exact hbind.applyLambda hc

theorem Ascends.sequences (hbind : Ascends bind) {predicate : Option Expr}
    (h : Sequences bind method source predicate n r m) : n ≤ m := by
  cases h with
  | rows => exact Nat.le_refl _
  | passing hc => exact hbind.applyLambda hc
  | items => exact Nat.le_refl _

theorem aggregateSource_ascends (h : Yields (aggregateSource s) n s' m) : n ≤ m := by
  rcases yields_aggregateSource h with ⟨-, -, rfl⟩ | ⟨-, -, rfl⟩ <;> omega

theorem Ascends.mergeNode (hbind : Ascends bind) {name : String} {key : GroupKey}
    {result : Option Expr} (h : Yields (mergeNode bind name key a) n result m) : n ≤ m := by
  rcases yields_mergeNode h with ⟨-, -, rfl⟩ | ⟨kind, method, rest, t, value, -, hvalue, -⟩ |
    ⟨-, -, rfl⟩ | ⟨-, -, -, -, rfl⟩
  · exact Nat.le_refl _
  · rcases yields_aggregatedValue hvalue with ⟨-, -, rfl⟩ | ⟨a, c, -, -, hc⟩
    · exact Nat.le_refl _
    · exact hbind.applyLambda hc
  all_goals exact Nat.le_refl _

theorem ascends_replaceM {f : Expr → BindM (Option Expr)}
    (hf : ∀ e n result m, Yields (f e) n result m → n ≤ m) {e : Expr}
    (h : Yields (e.replaceM f) n r m) : n ≤ m := by
  refine yields_replaceM (T := fun _ n _ m => n ≤ m) (fun e n r m hr => hf e n _ m hr) ?_ h
  intro e n k cs m hnone hcs
  have hkids : k ≤ m := (hcs.imp fun _ _ a _ b hab (ha : k ≤ a) => Nat.le_trans ha hab).keeps
    (Nat.le_refl k)
  exact Nat.le_trans (hf e n _ k hnone) hkids

theorem Ascends.performs (hbind : Ascends bind) (h : Performs bind method t op source args n r m) :
    n ≤ m := by
  cases h with
  | take hc | skip hc => exact hbind _ _ _ _ hc
  | mergeGroups _ _ _ _ hmerged hc =>
    exact Nat.le_trans (ascends_replaceM (fun _ _ _ _ => hbind.mergeNode) hmerged)
      (hbind _ _ _ _ hc)
  | groupBy hc => exact Nat.le_succ_of_le (hbind.applyLambda hc)
  | count hs hc | aggregate _ hs hc =>
    exact Nat.le_trans (aggregateSource_ascends hs) (hbind.applyOptional hc)
  | answer _ hrows => exact hbind.sequences hrows
  | contains hrows hc | elementAt hrows hc =>
    exact Nat.le_trans (hbind.sequences hrows) (hbind _ _ _ _ hc)
  | filter hc | orderBy hc | thenBy hc | all hc | singleOf hc => exact hbind.applyLambda hc
  | keep _ hc | project _ hc | projectGroups _ _ _ hc => exact hbind.applyLambda hc
  | countItems | single => exact Nat.le_refl _

theorem ascends_bindWith (fuel : Nat) : Ascends (bindWith fuel) := by
  induction fuel with
  | zero => exact fun _ _ _ _ h => absurd h BindM.yields_throw
  | succ fuel ih =>
    intro e n r m h
    refine ascends_replaceM (fun e n result m hr => ?_) h
    cases result with
    | none => exact Nat.le_of_eq (yields_bindNode_none hr).1.symm
    | some r =>
      rcases yields_bindNode_some hr with ⟨name, element, -, -, rfl⟩ | ⟨method, args, t, -, hcall⟩
      · exact Nat.le_succ n
      · obtain ⟨op, start, rest, source, k, -, -, hsource, hop⟩ := yields_bindCall hcall
        exact Nat.le_trans (ih _ _ _ _ hsource) (ih.performs hop)

end

end Binding

/-! ## Chains of operators -/

open Binding in
/-- Whatever `e` is bound to from the scope `n` on is a select with `P`. -/
def Expr.BindsSelect (n : Nat) (P : Select → Prop) (e : Expr) : Prop :=
  ∀ fuel r k, Yields (bindWith fuel e) n r k → ∃ s, r = .select s ∧ P s

namespace Expr.BindsSelect

open Binding

variable {e : Expr} {n : Nat} {P Q : Select → Prop} {op : QueryOp} {method : String}
  {args : List Expr} {t : Ty}

/-- A call `BindsSelect` if its operator makes that of the select of its source. -/
theorem call (he : e.BindsSelect n P) (hop : QueryOp.ofMethod? method = some op)
    (hstep : ∀ fuel s args' r k m, args' = args → P s →
      Performs (bindWith fuel) method t op (.select s) args' k r m → ∃ s', r = .select s' ∧ Q s') :
    (Expr.call .queryable method none (e :: args) t).BindsSelect n Q := by
  intro fuel r m h
  obtain ⟨fuel', op', start, rest, source, k, heq, hop', hsource, hperforms⟩ :=
    yields_bindWith_call h
  cases heq
  obtain ⟨s, rfl, hs⟩ := he fuel' source k hsource
  cases hop.symm.trans hop'
  exact hstep fuel' s _ r k m rfl hs hperforms

theorem clause (he : e.BindsSelect n P) (hop : QueryOp.ofMethod? method = some op)
    (hclause : op.addsClause = true) (hP : ∀ s s' : Select, P s → s' = { s with
      filter := s'.filter, orderings := s'.orderings, take := s'.take, skip := s'.skip } → P s') :
    (Expr.call .queryable method none (e :: args) t).BindsSelect n P := by
  refine he.call hop fun fuel s args' r k m _ hs h => ?_
  obtain ⟨s', rfl, hrest⟩ := h.clause hclause
  exact ⟨s', rfl, hP s s' hs hrest⟩

end Expr.BindsSelect

end QueryTree
