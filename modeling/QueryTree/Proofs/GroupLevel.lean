import QueryTree.Proofs.GroupUses
import QueryTree.Proofs.Guarded
import QueryTree.Proofs.InScope
import QueryTree.Proofs.Preservation
import QueryTree.Proofs.Throughout

/-!
# Aggregates at the level of their group

Merging a selector puts aggregates over a group into the place of calls before the selector is
bound, and an aggregate in the argument of an operator would then be taken over the rows of another
select. If no merged selector has one there (`Expr.levelAt`), all aggregates are in the fields of
their grouped select (`Expr.AggregatesGrouped`).
-/

namespace QueryTree

open Binding

/-- `e` has no `groupAggregate` outside its selects. -/
def Expr.AggregateFree (e : Expr) : Prop := ∀ n ∈ e.nodes, n.isGroupAggregate = false

/-- The arguments of an operator that become clauses of a select. -/
def Expr.enclosed : Expr → List Expr
  | .call .queryable method none (_ :: args) _ =>
    if (QueryOp.ofMethod? method).any (·.encloses) then args else []
  | _ => []

/-- Whether a query may range over groups. -/
def Expr.mayGroup : Expr → Bool
  | .call .queryable method none (start :: _) _ =>
    match QueryOp.ofMethod? method with
    | some .groupBy => true
    | some op => (op.addsClause || op == .single) && start.mayGroup
    | none => false
  | .select s => s.groupKey.isSome
  | _ => false
termination_by structural e => e

/-- Whether no aggregate over `g` is in an argument that becomes a clause of a select. -/
def Expr.levelOver (g : String) (body : Expr) : Bool :=
  (body.walk fun n => !n.shadows g).all fun n => n.enclosed.all fun a =>
    (GroupUses.of a g).aggregates == 0

/-- Whether aggregates over the group stay at its level if `selector` is merged. -/
def Expr.levelSelector (selector : Expr) : Bool :=
  match selector.unquote with
  | .lambda [p] body => (GroupUses.of body p.name).other || body.levelOver p.name
  | _ => true

/-- Whether a node is no selector over groups, or a `levelSelector`. -/
def Expr.levelAt : Expr → Bool
  | .call .queryable method none [start, selector] _ =>
    QueryOp.ofMethod? method != some .select || !start.mayGroup || selector.levelSelector
  | _ => true

/-! ## Selects -/

/-- Aggregates over a group are in the fields of `s` only, and only if it groups by keys. If it
ranges over groups, it reads a select that groups by keys, and the source of the groups has none. -/
structure Select.AggregatesGroupedAt (s : Select) : Prop where
  clauses : ∀ c ∈ (s.project .all).clauses true, c.AggregateFree
  projection : ∀ c ∈ s.projection.exprs, c.AggregateFree ∨
    (∃ ks, s.group = some (.keys ks)) ∧ ∃ fs, s.projection = .fields fs
  source : ∀ key, s.groupKey = some key → key.source.group = none
  grouped : s.groupKey.isSome = true → ∀ grouped, s.source = .subquery grouped →
    ∃ ks, grouped.group = some (.keys ks)

/-- `n` is no operator, and an open query has no groups. -/
def Expr.BoundAt (n : Expr) : Prop :=
  Mark.operator.of n = false ∧ ∀ s, n = .select s → s.group = none

/-- A bound expression with `AggregatesGroupedAt` in all of its selects. -/
def Expr.AggregatesGrouped : Expr → Prop := Expr.Throughout Expr.BoundAt Select.AggregatesGroupedAt

/-- A bound select with `AggregatesGroupedAt` in all selects. -/
def Select.AggregatesGrouped : Select → Prop :=
  Select.Throughout Expr.BoundAt Select.AggregatesGroupedAt

/-- A bound expression without aggregates of its own. -/
def Expr.BoundAggregateFree (e : Expr) : Prop := e.AggregatesGrouped ∧ e.AggregateFree

/-- Nothing is grouped yet, so there are no aggregates in the clauses. -/
structure Select.BoundUngrouped (s : Select) : Prop where
  aggregates : s.AggregatesGrouped
  group : s.group = none

section
variable {e r c d : Expr} {s s' : Select} {key : GroupKey}

theorem Expr.AggregateFree.child (h : e.AggregateFree) (hc : c ∈ e.children) : c.AggregateFree :=
  fun n hn => h n (mem_nodes_of_child hc hn)

theorem Expr.aggregateFree_iff :
    e.AggregateFree ↔ e.isGroupAggregate = false ∧ ∀ c ∈ e.children, c.AggregateFree := by
  constructor
  · exact fun h => ⟨h e (mem_nodes_self e), fun c hc => h.child hc⟩
  · rintro ⟨he, hc⟩ n hn
    rcases mem_nodes_iff.mp hn with rfl | ⟨c, hce, hn⟩
    · exact he
    · exact hc c hce n hn

theorem Expr.AggregatesGrouped.pervasive :
    Pervasive BoundAt AggregatesGrouped Select.AggregatesGroupedAt Select.AggregatesGrouped :=
  Expr.Throughout.pervasive fun _ hk hs _ => ⟨hk .operator, by
    rintro s rfl
    cases hs⟩

theorem Expr.aggregateFree_inherited : Inherited AggregateFree (fun _ => True) False where
  toComposed := .of_node fun _ _ _ _ hG hc => aggregateFree_iff.mpr ⟨by simpa using hG, hc⟩
  member_of_object h _ hm := h.child (List.mem_map_of_mem hm)

theorem Expr.boundAggregateFree_inherited : Inherited BoundAggregateFree (fun _ => True) False where
  toComposed := .of_node fun hk hs hp hr hG hc =>
    ⟨AggregatesGrouped.pervasive.node hk hs hp hr (fun _ => trivial) fun c h => (hc c h).1,
      aggregateFree_inherited.node hk hs hp hr hG fun c h => (hc c h).2⟩
  member_of_object h m hm := ⟨AggregatesGrouped.pervasive.member_of_object h.1 m hm,
    aggregateFree_inherited.member_of_object h.2 m hm⟩

theorem Select.BoundUngrouped.select (h : s.BoundUngrouped) :
    (Expr.select s).BoundAggregateFree := by
  refine ⟨Expr.AggregatesGrouped.pervasive.expr h.aggregates rfl ⟨rfl, ?_⟩, ?_⟩
  · rintro _ ⟨⟩
    exact h.group
  · exact Expr.aggregateFree_iff.mpr ⟨rfl, List.forall_mem_nil _⟩

theorem Select.AggregatesGrouped.subquery (h : s.AggregatesGrouped) :
    (Expr.subquery s).BoundAggregateFree :=
  ⟨Expr.AggregatesGrouped.pervasive.expr h rfl ⟨rfl, by rintro _ ⟨⟩⟩,
    Expr.aggregateFree_iff.mpr ⟨rfl, List.forall_mem_nil _⟩⟩

theorem Expr.AggregatesGrouped.boundUngrouped (h : (Expr.select s).AggregatesGrouped) :
    s.BoundUngrouped :=
  ⟨Throughout.select h rfl, (h.nodes _ (mem_nodes_self _)).2 s rfl⟩

/-- A clause is in the projection, or stays with `project .all`. -/
theorem Select.mem_clauses_project_all (h : c ∈ s.clauses true) :
    c ∈ s.projection.exprs ∨ c ∈ (s.project .all).clauses true := by
  rcases mem_clauses.mp h with h | h
  · exact .inl h
  · exact .inr (mem_clauses.mpr (.inr h))

theorem Select.AggregatesGroupedAt.of_free (hfree : ∀ c ∈ s.clauses true, c.AggregateFree)
    (hsource : ∀ key, s.groupKey = some key → key.source.group = none)
    (hgrouped : s.groupKey.isSome = true → ∀ grouped, s.source = .subquery grouped →
      ∃ ks, grouped.group = some (.keys ks)) : s.AggregatesGroupedAt where
  clauses c hc := by
    rcases mem_clauses_project hc with hc | hc
    · exact hfree c hc
    · cases hc
  projection c hc := .inl (hfree c (mem_clauses_of_projection hc))
  source := hsource
  grouped := hgrouped

namespace Select.BoundUngrouped

theorem clause (h : s.BoundUngrouped) (hc : c ∈ s.clauses true) : c.BoundAggregateFree := by
  refine ⟨Expr.AggregatesGrouped.pervasive.clause h.aggregates hc, ?_⟩
  have hat : s.AggregatesGroupedAt := Select.Throughout.self h.aggregates
  rcases mem_clauses_project_all hc with hc | hc
  · rcases hat.projection c hc with hfree | ⟨⟨ks, hks⟩, -⟩
    · exact hfree
    · rw [h.group] at hks
      cases hks
  · exact hat.clauses c hc

theorem rowValue (h : s.BoundUngrouped) : s.rowValue.BoundAggregateFree := by
  rcases s.rowValue_cases with hc | ⟨members, hobject, hc⟩ | ⟨t, hrow⟩
  · exact h.clause (mem_clauses_of_projection hc)
  · rw [hobject]
    exact Expr.boundAggregateFree_inherited.object fun m hm =>
      h.clause (mem_clauses_of_projection (hc m hm))
  · rw [hrow]
    exact Expr.boundAggregateFree_inherited.row trivial

theorem keyExpr (h : s.BoundUngrouped) (hk : s.groupKey = some key) {v : Expr}
    (hv : v ∈ key.exprs) : v.BoundAggregateFree :=
  h.clause (mem_clauses_of_groupKey hk hv)

theorem keySource (h : s.BoundUngrouped) (hk : s.groupKey = some key) : key.source.BoundUngrouped :=
  ⟨Expr.AggregatesGrouped.pervasive.keySource h.aggregates hk,
    (Select.Throughout.self h.aggregates).source key hk⟩

/-- A `BoundUngrouped` select can be given any clauses without aggregates. -/
theorem update (h : s.BoundUngrouped)
    (hclauses : ∀ c ∈ s'.clauses true, c ∈ s.clauses true ∨ c.BoundAggregateFree)
    (hsource : s'.source = s.source) (hkey : s'.groupKey = none ∨ s'.groupKey = s.groupKey) :
    s'.AggregatesGrouped := by
  have hat : s.AggregatesGroupedAt := Select.Throughout.self h.aggregates
  refine Expr.AggregatesGrouped.pervasive.update h.aggregates (.of_free (fun c hc => ?_) ?_ ?_)
    (fun c hc => (hclauses c hc).imp id And.left) hsource hkey
  · exact (hclauses c hc).elim (fun hc => (h.clause hc).2) And.right
  · intro key hk
    rcases hkey with hnone | hsame
    · rw [hnone] at hk
      cases hk
    · exact hat.source key (hsame ▸ hk)
  · intro hk grouped hgrouped
    rcases hkey with hnone | hsame
    · rw [hnone] at hk
      cases hk
    · exact hat.grouped (hsame ▸ hk) grouped (hsource ▸ hgrouped)

theorem amendable (h : s.BoundUngrouped) :
    s.Amendable true Expr.BoundAggregateFree BoundUngrouped := fun _ _ _ _ _ hclauses =>
  ⟨h.update hclauses rfl (.inr rfl), h.group⟩

theorem filterBy (h : s.BoundUngrouped) (hc : c.BoundAggregateFree) :
    (s.filterBy c).BoundUngrouped :=
  h.amendable.filterBy hc fun _ hd => Expr.boundAggregateFree_inherited.binary (h.clause hd) hc

theorem project (h : s.BoundUngrouped) {p : Projection} (hp : ∀ c ∈ p.exprs, c.BoundAggregateFree) :
    (s.project p).BoundUngrouped :=
  ⟨h.update (fun d hd => (mem_clauses_project hd).imp id (hp d)) rfl (.inr rfl), h.group⟩

theorem ungroup (h : s.BoundUngrouped) : Select.BoundUngrouped { s with groupKey := none } :=
  ⟨h.update (fun _ hd => .inl (clauses_without_key hd)) rfl (.inl rfl), h.group⟩

theorem ofTable (scope : ScopeId) (name : String) (element : Ty) :
    (Select.ofTable scope name element).BoundUngrouped := by
  refine ⟨Expr.AggregatesGrouped.pervasive.ofTable (.of_free (fun c hc => ?_) nofun nofun), rfl⟩
  rw [clauses_ofTable] at hc
  cases hc

theorem ofSelect (h : s.BoundUngrouped) (scope : ScopeId) :
    (Select.ofSelect scope s).BoundUngrouped := by
  refine ⟨Expr.AggregatesGrouped.pervasive.ofSelect h.aggregates
    (.of_free (fun c hc => ?_) nofun nofun), rfl⟩
  rw [clauses_ofSelect] at hc
  cases hc

theorem aggregated {p : Projection} {label : String} {t : Ty} (h : s.BoundUngrouped)
    (hp : ∀ c ∈ p.exprs, c.BoundAggregateFree) :
    (Binding.aggregated s p label t).BoundAggregateFree := by
  have hgrouped : (s.project p).groupAll.AggregatesGrouped := by
    refine (h.project hp).update (fun d hd => .inl ?_) rfl (.inr rfl)
    exact mem_clauses_groupAll hd
  exact Expr.boundAggregateFree_inherited.onlyRowMember hgrouped.subquery

/-- The select over `groups` is `BoundUngrouped`, and what it reads groups by keys. -/
theorem groups (h : s.BoundUngrouped) (hc : c.BoundAggregateFree) (scope : ScopeId) :
    (s.groups c scope).BoundUngrouped := by
  have hfields := Expr.boundAggregateFree_inherited.columns_fields s.scope scope hc
  have houter : (GroupKey.columns c s.scope scope).2.BoundAggregateFree :=
    Expr.boundAggregateFree_inherited.columns s.scope trivial c
  have hrows : (s.groupRows c scope).BoundUngrouped :=
    h.filterBy (Expr.boundAggregateFree_inherited.equality hc houter)
  have hgrouped : (s.groupedBy c scope).AggregatesGrouped := by
    refine h.update (fun d hd => ?_) rfl (.inr rfl)
    rcases mem_clauses_groupedBy hd with hd | ⟨f, hf, rfl⟩ | hd
    · exact .inl hd
    · exact .inr (hfields f hf)
    · exact .inr (Expr.boundAggregateFree_inherited.terms trivial hfields d hd)
  have hclauses : ∀ d ∈ (s.groups c scope).clauses true, d.BoundAggregateFree := by
    intro d hd
    rcases mem_clauses_groups hd with rfl | rfl | rfl
    · exact hc
    · exact houter
    · exact hrows.aggregates.subquery
  have hat : (s.groups c scope).AggregatesGroupedAt := by
    refine .of_free (fun d hd => (hclauses d hd).2) ?_ ?_
    · rintro key ⟨⟩
      exact h.group
    · rintro - grouped ⟨⟩
      exact ⟨_, rfl⟩
  refine ⟨Expr.AggregatesGrouped.pervasive.of_parts hat (fun d hd => (hclauses d hd).1)
    fun v hv => ?_, rfl⟩
  rw [inputs_groups] at hv
  rcases List.mem_cons.mp hv with rfl | hv
  · exact hgrouped
  · obtain rfl := List.mem_singleton.mp hv
    exact h.aggregates

/-- `readingMerged` puts a selector into the fields of the select that groups by keys. -/
theorem readingMerged {grouped : Select} (h : s.BoundUngrouped) (hk : s.groupKey.isSome = true)
    (hsource : s.source = .subquery grouped) (hc : c.AggregatesGrouped) :
    (s.readingMerged grouped c).BoundUngrouped := by
  have hgrouped : grouped.AggregatesGroupedAt := by
    refine Select.Throughout.self (Select.Throughout.input h.aggregates ?_)
    simp [inputs, hsource, RowSource.select?]
  have hkeys := (Select.Throughout.self h.aggregates).grouped hk grouped hsource
  have hmerged : (s.readingMerged grouped c).AggregatesGroupedAt := by
    refine .of_free (fun d hd => ?_) (by rintro _ ⟨⟩) (by rintro ⟨⟩)
    rcases mem_clauses_readingMerged hd with hd | rfl
    · exact (h.clause hd).2
    · exact Expr.aggregateFree_inherited.toComposed.readBack trivial c
  refine ⟨Expr.AggregatesGrouped.pervasive.readingMerged h.aggregates hsource hc hmerged ?_,
    h.group⟩
  exact ⟨hgrouped.clauses, fun d _ => .inr ⟨hkeys, _, rfl⟩, hgrouped.source, hgrouped.grouped⟩

end Select.BoundUngrouped

/-! ## Trees that are bound -/

/-- There are no aggregates in what becomes a clause of `n`, and the selects are bound. -/
structure Expr.EnclosesNoAggregateAt (n : Expr) : Prop where
  enclosed : ∀ a ∈ n.enclosed, a.AggregateFree
  select : ∀ s, n.select? = some s → s.AggregatesGrouped
  group : ∀ s, n = .select s → s.group = none

/-- `EnclosesNoAggregateAt` every node of `e`. -/
def Expr.EnclosesNoAggregate (e : Expr) : Prop := ∀ n ∈ e.nodes, n.EnclosesNoAggregateAt

theorem Expr.enclosed_of_mark (h : Mark.operator.of e = false) : e.enclosed = [] := by
  unfold enclosed
  split
  · cases h
  · rfl

theorem Expr.mem_children_of_enclosed {a : Expr} (h : a ∈ e.enclosed) : a ∈ e.children := by
  unfold enclosed at h
  split at h
  · split at h
    · exact List.mem_cons_of_mem _ h
    · cases h
  · cases h

/-- What is `enclosed` comes from what was `enclosed`. -/
theorem Expr.exists_enclosed {R : Expr → Expr → Prop} {cs : List Expr} {a : Expr}
    (h : List.Forall₂ R e.children cs) (ha : a ∈ (e.withChildren cs).enclosed) :
    ∃ b ∈ e.enclosed, R b a := by
  cases hmark : Mark.operator.of e with
  | false =>
    rw [enclosed_of_mark ((of_withChildren .operator e cs).trans hmark)] at ha
    cases ha
  | true =>
    obtain ⟨method, args, t, rfl⟩ := eq_call_of_mark hmark
    cases args with
    | nil =>
      cases h
      cases ha
    | cons start args =>
      obtain ⟨start', args', -, hargs, rfl⟩ := List.forall₂_cons_left_iff.mp h
      simp only [withChildren, Expr.enclosed] at ha ⊢
      split at ha
      · rename_i hop
        rw [if_pos hop]
        exact List.exists_of_forall₂_right hargs ha
      · cases ha

theorem Expr.EnclosesNoAggregate.of_node {n : Expr} (h : e.EnclosesNoAggregate) (hn : n ∈ e.nodes) :
    n.EnclosesNoAggregate :=
  fun m hm => h m (mem_nodes_trans hm hn)

theorem Expr.EnclosesNoAggregate.child (h : e.EnclosesNoAggregate) (hc : c ∈ e.children) :
    c.EnclosesNoAggregate :=
  h.of_node (mem_nodes_of_child hc (mem_nodes_self c))

theorem Expr.EnclosesNoAggregate.of_parts (he : e.EnclosesNoAggregateAt)
    (hc : ∀ c ∈ e.children, c.EnclosesNoAggregate) : e.EnclosesNoAggregate := by
  intro n hn
  rcases mem_nodes_iff.mp hn with rfl | ⟨c, hce, hn⟩
  · exact he
  · exact hc c hce n hn

theorem Expr.AggregatesGrouped.enclosesNoAggregate (h : e.AggregatesGrouped) :
    e.EnclosesNoAggregate := by
  intro n hn
  obtain ⟨hmark, hgroup⟩ := h.nodes n hn
  refine ⟨fun a ha => ?_, fun s hs => Throughout.select (h.of_node hn) hs, hgroup⟩
  rw [enclosed_of_mark hmark] at ha
  cases ha

/-- `withChildren` makes a select of a select only. -/
theorem Expr.eq_select_of_withChildren {cs : List Expr} (h : e.withChildren cs = .select s) :
    e = .select s := by
  have hq : e.select? = some s := by
    rw [← select?_withChildren e cs, h]
    rfl
  have hleaf : e.withChildren cs = e := by cases e <;> first | rfl | cases hq
  exact hleaf ▸ h

theorem Expr.EnclosesNoAggregateAt.withChildren {cs : List Expr} (h : e.EnclosesNoAggregateAt)
    (henclosed : ∀ a ∈ (e.withChildren cs).enclosed, a.AggregateFree) :
    (e.withChildren cs).EnclosesNoAggregateAt where
  enclosed := henclosed
  select s hs := h.select s (by rwa [select?_withChildren] at hs)
  group s hs := h.group s (eq_select_of_withChildren hs)

theorem Expr.isGroupAggregate_withChildren (e : Expr) (cs : List Expr) :
    (e.withChildren cs).isGroupAggregate = e.isGroupAggregate :=
  withChildren_congr (f := isGroupAggregate) (fun h => by cases h <;> rfl) e cs

/-- `r` is `e` with values without aggregates filled in. -/
structure Expr.Fits (e r : Expr) : Prop where
  enclosesNoAggregate : e.EnclosesNoAggregate → r.EnclosesNoAggregate
  free : e.AggregateFree → r.AggregateFree

namespace Expr.Fits

theorem value (hr : r.BoundAggregateFree) : Fits e r :=
  ⟨fun _ => hr.1.enclosesNoAggregate, fun _ => hr.2⟩

theorem filling : Filling Fits where
  refl e := ⟨id, id⟩
  node {e cs} h := by
    have hkids := children_withChildren h.length_eq.symm
    refine ⟨fun he => ?_, fun he => ?_⟩
    · have hself := he e (mem_nodes_self e)
      refine .of_parts (hself.withChildren fun a ha => ?_) fun c' hc' => ?_
      · obtain ⟨b, hb, hf⟩ := exists_enclosed h ha
        exact hf.free (hself.enclosed b hb)
      · rw [hkids] at hc'
        obtain ⟨c, hc, hf⟩ := List.exists_of_forall₂_right h hc'
        exact hf.enclosesNoAggregate (he.child hc)
    · obtain ⟨hself, hc⟩ := aggregateFree_iff.mp he
      refine aggregateFree_iff.mpr ⟨?_, fun c' hc' => ?_⟩
      · rw [isGroupAggregate_withChildren, hself]
      · rw [hkids] at hc'
        obtain ⟨c, hce, hf⟩ := List.exists_of_forall₂_right h hc'
        exact hf.free (hc c hce)

theorem fillIn (hs : s.BoundUngrouped) (x : String) (body : Expr) :
    Fits body (s.fillIn x body) := by
  unfold Select.fillIn
  cases hk : s.groupKey with
  | none => exact filling.substitute fun _ _ => value hs.rowValue
  | some key =>
    exact filling.substituteGroup (fun _ _ => value (hs.keyExpr hk (by simp [GroupKey.exprs])))
      fun _ _ => value (hs.keyExpr hk (by simp [GroupKey.exprs]))

end Expr.Fits

/-! ## Lambdas -/

/-- Binding keeps `AggregatesGrouped`. It adds no aggregates to a tree without any, and gives a
query over groups only for a tree that `mayGroup`. -/
def BindsAggregatesGrouped (bind : Expr → BindM Expr) : Prop :=
  ∀ e n r m, e.EnclosesNoAggregate → Yields (bind e) n r m → r.AggregatesGrouped ∧
    (e.AggregateFree → r.AggregateFree) ∧ ∀ s, r = .select s → s.groupKey.isSome = true →
    e.mayGroup = true

variable {bind : Expr → BindM Expr} {op : QueryOp} {method : String} {t : Ty} {source a : Expr}
  {args : List Expr} {n m : Nat}

theorem Expr.AggregateFree.of_node (h : e.AggregateFree) (hc : c ∈ e.nodes) : c.AggregateFree :=
  fun n hn => h n (mem_nodes_trans hn hc)

theorem BindsAggregatesGrouped.boundAggregateFree (hbind : BindsAggregatesGrouped bind)
    (he : e.EnclosesNoAggregate) (hfree : e.AggregateFree) (h : Yields (bind e) n r m) :
    r.BoundAggregateFree :=
  have hr := hbind e n r m he h
  ⟨hr.1, hr.2.1 hfree⟩

theorem BindsAggregatesGrouped.applyLambda (hbind : BindsAggregatesGrouped bind)
    (hs : s.BoundUngrouped) (ha : a.EnclosesNoAggregate) (hfree : a.AggregateFree)
    (h : Yields (applyLambda bind s method a) n c m) : c.BoundAggregateFree := by
  obtain ⟨p, body, hlambda, hbody⟩ := yields_applyLambda h
  have hnode := Expr.body_mem_nodes hlambda
  have hfits := Expr.Fits.fillIn hs p.name body
  exact hbind.boundAggregateFree (hfits.enclosesNoAggregate (ha.of_node hnode))
    (hfits.free (hfree.of_node hnode)) hbody

/-! ## Merging -/

section
variable {g : String}

theorem GroupUses.aggregates_child (h : (GroupUses.of e g).aggregates = 0)
    (hshadows : e.shadows g = false) (hc : c ∈ e.children) : (GroupUses.of c g).aggregates = 0 := by
  rw [GroupUses.of_eq hshadows] at h
  have hsum : (e.children.map fun c => (GroupUses.of c g).aggregates).sum = 0 := by
    simp only at h
    omega
  exact List.sum_eq_zero_iff.mp hsum _ (List.mem_map_of_mem hc)

theorem Expr.levelOver_enclosed (h : e.levelOver g = true) (ha : a ∈ e.enclosed) :
    (GroupUses.of a g).aggregates = 0 := by
  unfold levelOver at h
  rw [walk_eq, List.all_cons, Bool.and_eq_true] at h
  simpa using List.all_eq_true.mp h.1 a ha

theorem Expr.levelOver_child (h : e.levelOver g = true) (hshadows : e.shadows g = false)
    (hc : c ∈ e.children) : c.levelOver g = true := by
  unfold levelOver at h ⊢
  rw [walk_eq, List.all_cons, Bool.and_eq_true] at h
  simp only [hshadows, Bool.not_false, if_true, List.all_flatMap] at h
  exact List.all_eq_true.mp h.2 c hc

theorem BindsAggregatesGrouped.aggregatedValue (hbind : BindsAggregatesGrouped bind)
    (hs : key.source.BoundUngrouped) {kind : AggregateKind} {arg value : Option Expr}
    (ha : ∀ a ∈ arg.toList, a.EnclosesNoAggregate) (hfree : ∀ a ∈ arg.toList, a.AggregateFree)
    (h : Yields (aggregatedValue bind key method kind arg) n value m) :
    ∀ c ∈ value.toList, c.AggregatesGrouped := by
  refine forall_mem_aggregatedValue h hs.rowValue.1 fun a hmem c hc => ?_
  exact (hbind.applyLambda hs (ha a hmem) (hfree a hmem) hc).1

/-- A merged selector `EnclosesNoAggregate` if aggregates over the group stay at its level. Where
there are none over the group, there are none afterwards. -/
theorem BindsAggregatesGrouped.merged (hbind : BindsAggregatesGrouped bind) (hs : s.BoundUngrouped)
    (hk : s.groupKey = some key) (hencloses : e.EnclosesNoAggregate) (hfree : e.AggregateFree)
    (hlevel : e.levelOver g = true) (h : Yields (e.replaceM (mergeNode bind g key)) n r m) :
    r.EnclosesNoAggregate ∧ ((GroupUses.of e g).aggregates = 0 → r.AggregateFree) := by
  refine yields_replaceM (T := fun e _ r _ => e.EnclosesNoAggregate → e.AggregateFree →
    e.levelOver g = true → r.EnclosesNoAggregate ∧
    ((GroupUses.of e g).aggregates = 0 → r.AggregateFree)) ?_ ?_ h hencloses hfree hlevel
  · intro e n r m hr hencloses hfree _
    rcases yields_mergeNode hr with ⟨-, heq, -⟩ |
      ⟨kind, method, rest, t, value, hagg, hvalue, heq⟩ | ⟨heq, -, -⟩ | ⟨heq, -⟩
    · cases heq
      have hinner := hs.keyExpr hk (v := key.inner) (by simp [GroupKey.exprs])
      exact ⟨hinner.1.enclosesNoAggregate, fun _ => hinner.2⟩
    · cases heq
      have hrest : ∀ a ∈ rest.head?.toList, a ∈ e.children := by
        obtain ⟨group, rfl, -⟩ := Expr.aggregateOf?_eq_some hagg
        intro a ha
        exact List.mem_cons_of_mem _ (List.mem_of_mem_head? (Option.mem_toList.mp ha))
      have hvalues := hbind.aggregatedValue (hs.keySource hk)
        (fun a ha => hencloses.child (hrest a ha)) (fun a ha => hfree.child (hrest a ha)) hvalue
      -- The node is an aggregate over the group, so the number of these is not zero.
      refine ⟨(Expr.AggregatesGrouped.pervasive.groupAggregate trivial hvalues).enclosesNoAggregate,
        fun hzero => ?_⟩
      rw [GroupUses.of_aggregateOf? hagg] at hzero
      cases hzero
    · cases heq
      exact ⟨hencloses, fun _ => hfree⟩
    · cases heq
  · intro e n k cs m hnone hcs hencloses hfree hlevel
    rcases yields_mergeNode hnone with ⟨-, heq, -⟩ | ⟨_, _, _, _, _, -, -, heq⟩ | ⟨heq, -, -⟩ |
      ⟨-, -, -, hshadows, -⟩
    · cases heq
    · cases heq
    · cases heq
    have hkids := (hcs.imp fun c hc _ c' _ hT => show c'.EnclosesNoAggregate ∧
      ((GroupUses.of c g).aggregates = 0 → c'.AggregateFree) from hT (hencloses.child hc)
      (hfree.child hc)
        (Expr.levelOver_child hlevel hshadows hc)).forall₂
    have hlen := Expr.children_withChildren hkids.length_eq.symm
    refine ⟨.of_parts ((hencloses e (Expr.mem_nodes_self e)).withChildren fun a ha => ?_)
      fun c' hc' => ?_, ?_⟩
    · -- The arguments of an operator have no aggregates over the group, so none are put into them.
      obtain ⟨b, hb, -, hbfree⟩ := Expr.exists_enclosed hkids ha
      exact hbfree (Expr.levelOver_enclosed hlevel hb)
    · rw [hlen] at hc'
      obtain ⟨c, -, hc, -⟩ := List.exists_of_forall₂_right hkids hc'
      exact hc
    · intro hzero
      refine Expr.aggregateFree_iff.mpr ⟨?_, fun c' hc' => ?_⟩
      · rw [Expr.isGroupAggregate_withChildren, (Expr.aggregateFree_iff.mp hfree).1]
      · rw [hlen] at hc'
        obtain ⟨c, hc, -, hcfree⟩ := List.exists_of_forall₂_right hkids hc'
        exact hcfree (GroupUses.aggregates_child hzero hshadows hc)

end

/-! ## Operators -/

theorem Select.BoundUngrouped.aggregateSource (h : s.BoundUngrouped)
    (hs' : Yields (aggregateSource s) n s' m) : s'.BoundUngrouped := by
  rcases yields_aggregateSource hs' with ⟨rfl, -, -⟩ | ⟨rfl, -⟩
  · exact h
  · exact h.ofSelect ⟨n⟩

/-- Results are `AggregatesGrouped`, and without aggregates if `free` holds. What becomes a clause
has none, and a merged selector keeps aggregates at the level of the group. -/
def levelInvariant (free : Prop) : Invariant Unit where
  result _ e := e.AggregatesGrouped ∧ (free → e.AggregateFree)
  query _ s := s.BoundUngrouped
  base _ s := s.BoundUngrouped
  clause _ _ c := c.BoundAggregateFree
  argument _ op a := a.EnclosesNoAggregate ∧ (op.encloses = true ∨ free → a.AggregateFree)
  allowed op source args _ := op = .select → ∀ s, source = .select s → s.groupKey.isSome = true →
    ∀ a, args = [a] → a.levelSelector = true

theorem Expr.BoundAggregateFree.result {free : Prop} (h : e.BoundAggregateFree) :
    e.AggregatesGrouped ∧ (free → e.AggregateFree) :=
  ⟨h.1, fun _ => h.2⟩

theorem BindsAggregatesGrouped.preserved (hbind : BindsAggregatesGrouped bind) (free : Prop) :
    (levelInvariant free).Preserved .blank bind where
  result_mono _ h := h
  query_mono _ h := h
  base_mono _ h := h
  argument_mono _ h := h
  assembled _ := ⟨fun hk hs hp hm hc =>
    ⟨Expr.AggregatesGrouped.pervasive.assemble hk hs hp hm fun c h => (hc c h).1, fun hfree =>
      Expr.aggregateFree_inherited.assemble hk hs hp hm fun c h => (hc c h).2 hfree⟩⟩
  select h := h.1.boundUngrouped
  expr {_ s e} (h : s.BoundUngrouped) he := by
    cases e <;> cases he
    · exact h.select.result
    · exact h.aggregates.subquery.result
  apply {_ _ op _ _ _ _ _} hop _ hs ha h := by
    have hencloses : op.encloses = true := by cases op <;> first | rfl | cases hop
    exact .blank (hbind.applyLambda hs ha.1 (ha.2 (.inl hencloses)) h)
  amount {_ op _ _ _ _} hop _ _ ha h := by
    have hencloses : op.encloses = true := by cases op <;> first | rfl | cases hop
    exact .blank (hbind.boundAggregateFree ha.1 (ha.2 (.inl hencloses)) h)
  value _ _ ha h := by
    obtain ⟨hlevel, hfree, -⟩ := hbind _ _ _ _ ha.1 h
    exact .blank ⟨hlevel, fun h => hfree (ha.2 (.inr h))⟩
  amendable {_ s} _ (h : s.BoundUngrouped) := h.amendable
  filterBy {_ s _ _} (h : s.BoundUngrouped) hc := h.filterBy hc
  not h := Expr.boundAggregateFree_inherited.not h
  project {_ s _} (h : s.BoundUngrouped) hc := h.project (List.forall_mem_singleton.mpr hc)
  ungroup {_ s} (h : s.BoundUngrouped) := h.ungroup
  merge {_ s _ _ _ _ _ _ _ _ _ _} _ (hs : s.BoundUngrouped) ha hkey hlambda hgrouped hmerges hmerged
    hc hallowed := by
    have hnode := Expr.body_mem_nodes hlambda
    have hsome := Option.isSome_iff_exists.mpr ⟨_, hkey⟩
    have hlevel := hallowed rfl _ rfl hsome _ rfl
    simp only [Expr.levelSelector, hlambda, (Expr.isMerged_iff.mp hmerges).2,
      Bool.false_or] at hlevel
    have hencloses := (hbind.merged hs hkey (ha.1.of_node hnode) ((ha.2 (.inl rfl)).of_node hnode)
      hlevel hmerged).1
    exact .blank (hs.readingMerged hsome hgrouped (hbind _ _ _ _ hencloses hc).1)
  groups {_ s _ _ _} _ (hs : s.BoundUngrouped) hc _ := .blank (hs.groups hc _)
  aggregateSource {_ s _ _ _ _ _ _} _ (hs : s.BoundUngrouped) _ _ h := .blank (hs.aggregateSource h)
  query_of_base h := h
  rowValue {_ s _} _ (h : s.BoundUngrouped) := h.rowValue
  aggregated {_ s _ _ _ _} (h : s.BoundUngrouped) _ hc := (h.aggregated hc).result
  counted {_ s _ _ _ _ _ _} _ (hs : s.BoundUngrouped) _ h :=
    .blank ((hs.aggregateSource h).aggregated (List.forall_mem_nil _)).result

/-- Groups are kept by operators that `addsClause`, and made by grouping only. -/
theorem Binding.Performs.groups (h : Performs bind method t op source args n r m)
    (hr : r = .select s') (hk : s'.groupKey.isSome = true) :
    op = .groupBy ∨
      (op.addsClause || op == .single) = true ∧ ∃ s, source = .select s ∧
        s.groupKey.isSome = true := by
  cases h with
  | groupBy _ => exact .inl rfl
  | filter _ | orderBy _ | thenBy _ | take _ | skip _ | single | singleOf _ =>
    cases hr
    exact .inr ⟨rfl, _, rfl, hk⟩
  | keep hkey _ | project hkey _ =>
    cases hr
    have hk : _ = true := hk
    simp [Select.project, hkey] at hk
  | projectGroups _ _ _ _ | mergeGroups _ _ _ _ _ _ =>
    cases hr
    cases hk
  | _ => cases hr

/-! ## Trees -/

/-- `bindNode` keeps aggregates at their level if `bind` does. -/
theorem BindsAggregatesGrouped.node (hbind : BindsAggregatesGrouped bind)
    (he : e.EnclosesNoAggregate) (hat : e.levelAt = true)
    (h : Yields (bindNode bind e) n (some r) m) :
    r.AggregatesGrouped ∧ (e.AggregateFree → r.AggregateFree) ∧
      ∀ s, r = .select s → s.groupKey.isSome = true → e.mayGroup = true := by
  rcases yields_bindNode_some h with ⟨name, element, rfl, rfl, -⟩ | ⟨method, args, t, rfl, hcall⟩
  · obtain ⟨hlevel, hfree⟩ := (Select.BoundUngrouped.ofTable ⟨n⟩ name element).select
    refine ⟨hlevel, fun _ => hfree, ?_⟩
    rintro s ⟨⟩ hk
    cases hk
  obtain ⟨op, start, rest, source, k, rfl, hop, hsource, hperforms⟩ := yields_bindCall hcall
  have hstart : start ∈ (Expr.call .queryable method none (start :: rest) t).children := .head _
  have hrest : ∀ a ∈ rest, a ∈ (Expr.call .queryable method none (start :: rest) t).children :=
    fun a ha => List.mem_cons_of_mem _ ha
  obtain ⟨hlevel, hfree, hgroup⟩ := hbind _ _ _ _ (he.child hstart) hsource
  have hencloses : op.encloses = true → ∀ a ∈ rest, a.AggregateFree := by
    intro hencloses a ha
    refine (he _ (Expr.mem_nodes_self _)).enclosed a ?_
    simp only [Expr.enclosed, hop, Option.any_some, hencloses, if_true]
    exact ha
  have hselector : op = .select → ∀ s, source = .select s → s.groupKey.isSome = true →
      ∀ a, rest = [a] → a.levelSelector = true := by
    rintro rfl s rfl hk a rfl
    have hmay := hgroup s rfl hk
    simpa [Expr.levelAt, hop, hmay] using hat
  let free := (Expr.call .queryable method none (start :: rest) t).AggregateFree
  have hargs : ∀ a ∈ rest, (levelInvariant free).argument () op a := fun a ha =>
    ⟨he.child (hrest a ha), Or.rec (hencloses · a ha) fun h => h.child (hrest a ha)⟩
  obtain ⟨_, -, -, hr, hrfree⟩ := (hbind.preserved free).performs trivial
    ⟨hlevel, fun h => hfree (h.child hstart)⟩ hargs hselector hperforms
  refine ⟨hr, hrfree, ?_⟩
  intro s hs hk
  rcases hperforms.groups hs hk with rfl | ⟨hkeeps, s', hs', hk'⟩
  · simp [Expr.mayGroup, hop]
  · have hmay := hgroup s' hs' hk'
    simp only [Expr.mayGroup, hop]
    split
    · rfl
    · rename_i heq
      cases heq
      rw [hkeeps, hmay]
      rfl
    · rename_i heq
      cases heq

/-- A node that stays, with children that have been bound. -/
theorem Expr.EnclosesNoAggregateAt.bound {cs : List Expr} (he : e.EnclosesNoAggregateAt)
    (hmark : Mark.operator.of e = false)
    (hkids : List.Forall₂ (fun c c' => c'.AggregatesGrouped ∧ (c.AggregateFree → c'.AggregateFree))
      e.children cs) :
    (e.withChildren cs).AggregatesGrouped ∧ (e.AggregateFree → (e.withChildren cs).AggregateFree) ∧
      ∀ s, e.withChildren cs = .select s → s.groupKey.isSome = true → e.mayGroup = true := by
  have hlen := children_withChildren hkids.length_eq.symm
  refine ⟨.of_parts ⟨?_, ?_⟩ (fun c' hc' => ?_) fun s hs => ?_, fun hfree => ?_, fun s hs hk => ?_⟩
  · rw [of_withChildren, hmark]
  · exact fun s hs => he.group s (eq_select_of_withChildren hs)
  · rw [hlen] at hc'
    obtain ⟨c, -, hc, -⟩ := List.exists_of_forall₂_right hkids hc'
    exact hc
  · rw [select?_withChildren] at hs
    exact he.select s hs
  · obtain ⟨hself, hc⟩ := aggregateFree_iff.mp hfree
    refine aggregateFree_iff.mpr ⟨by rw [isGroupAggregate_withChildren, hself], fun c' hc' => ?_⟩
    rw [hlen] at hc'
    obtain ⟨c, hce, -, hcfree⟩ := List.exists_of_forall₂_right hkids hc'
    exact hcfree (hc c hce)
  · rw [eq_select_of_withChildren hs]
    exact hk

theorem bindsAggregatesGrouped_bindGuarded (fuel : Nat) :
    BindsAggregatesGrouped (bindGuarded Expr.levelAt fuel) := by
  induction fuel with
  | zero => exact fun e n r m _ h => absurd h BindM.yields_throw
  | succ fuel ih =>
    intro e n r m he h
    refine yields_replaceM (T := fun e _ r _ => e.EnclosesNoAggregate → r.AggregatesGrouped ∧
      (e.AggregateFree → r.AggregateFree) ∧ ∀ s, r = .select s → s.groupKey.isSome = true →
      e.mayGroup = true) ?_ ?_ h he
    · intro e n r m hr he
      split at hr
      · rename_i hat
        exact ih.node he hat hr
      · exact absurd hr BindM.yields_throw
    · intro e n k cs m hnone hcs he
      split at hnone
      · obtain ⟨-, hmark, -⟩ := yields_bindNode_none hnone
        have hkids := (hcs.imp fun c hc _ c' _ hT => show c'.AggregatesGrouped ∧
          (c.AggregateFree → c'.AggregateFree) from ⟨(hT (he.child hc)).1,
          (hT (he.child hc)).2.1⟩).forall₂
        exact (he e (Expr.mem_nodes_self e)).bound hmark hkids
      · exact absurd hnone BindM.yields_throw

end

/-! ## From the tree a caller makes -/

theorem Expr.isGroupAggregate_of_isWritten {e : Expr} (h : e.isWritten = true) :
    e.isGroupAggregate = false := by
  cases e <;> first | rfl | cases h

/-- `nameCaptures` adds neither selects nor aggregates over groups. -/
theorem Expr.Written.named {t tree : Expr} {params params' : Params} (hw : t.Written)
    (h : Yields t.nameCaptures params tree params') :
    ∀ n ∈ tree.nodes, n.select? = none ∧ n.isGroupAggregate = false := by
  refine yields_replaceM (T := fun e _ r _ => e.Written →
    ∀ n ∈ r.nodes, n.select? = none ∧ n.isGroupAggregate = false) ?_ ?_ h hw
  · intro e p r p' hr _ n hn
    rcases nameNode_some hr with ⟨s, rfl, -, -⟩ | ⟨x, v, t, name, -, rfl, -⟩
    all_goals
      obtain rfl := List.mem_singleton.mp hn
      exact ⟨rfl, rfl⟩
  · intro e p u cs p' _ hcs hw n hn
    have hcs := hcs.forall₂
    have he := hw e (mem_nodes_self e)
    rcases mem_nodes_iff.mp hn with rfl | ⟨c', hc', hn⟩
    · rw [select?_withChildren, isGroupAggregate_withChildren]
      exact ⟨select?_eq_none_of_isWritten he, isGroupAggregate_of_isWritten he⟩
    · rw [children_withChildren hcs.length_eq.symm] at hc'
      obtain ⟨c, hc, hr⟩ := List.exists_of_forall₂_right hcs hc'
      exact hr (hw.child hc) n hn

/-- A tree without selects and aggregates `EnclosesNoAggregate`. -/
theorem Expr.EnclosesNoAggregate.of_nodes {tree : Expr}
    (h : ∀ n ∈ tree.nodes, n.select? = none ∧ n.isGroupAggregate = false) :
    tree.EnclosesNoAggregate := by
  intro n hn
  refine ⟨fun a ha m hm => ?_, fun s hs => ?_, fun s hs => ?_⟩
  · exact (h m (mem_nodes_trans (mem_nodes_of_child (mem_children_of_enclosed ha) hm) hn)).2
  · rw [(h n hn).1] at hs
    cases hs
  · have hnone := (h n hn).1
    rw [hs] at hnone
    cases hnone

/-- `tree` can be bound so that in every merged selector aggregates over the group stay at its
level, where all other variables have been replaced. -/
def Expr.MergesLevel (tree : Expr) : Prop :=
  ∃ r m, Yields (bindGuarded levelAt (operatorCount tree + 1) tree) 0 r m

instance (tree : Expr) : Decidable tree.MergesLevel :=
  decidable_of_iff (((bindGuarded Expr.levelAt (operatorCount tree + 1) tree).run.run
    0).1.toOption.isSome = true)
    ⟨BindM.exists_yields, fun ⟨_, _, h⟩ => by rw [show _ = _ from h]; rfl⟩

theorem Expr.MergesLevel.bound {tree bound : Expr} {n : Nat} (h : tree.MergesLevel)
    (hbind : Yields tree.bind 0 bound n) :
    Yields (bindGuarded levelAt (operatorCount tree + 1) tree) 0 bound n := by
  obtain ⟨r, m, hr⟩ := h
  have hsame : Yields tree.bind 0 r m := (bindGuarded_extends levelAt _ tree).yields hr
  cases hsame.symm.trans hbind
  exact hr

/-- Where no merged selector has an aggregate over its group inside the argument of an operator
(`MergesLevel`), aggregates over groups only occur in the fields of a select that groups by keys.
`nodes` do not go into selects, so no other select is in between. -/
theorem group_aggregates_at_level {o : Options} {t tree bound : Expr} {params : Params} {n : Nat}
    (hw : t.Written) (hname : Yields t.nameCaptures (.empty o) tree params)
    (hbind : Yields tree.bind 0 bound n) (hlevel : tree.MergesLevel) :
    (∀ e ∈ bound.nodes, e.isGroupAggregate = false) ∧ ∀ s ∈ bound.selects true,
      (∀ c ∈ (s.project .all).clauses true, ∀ e ∈ c.nodes, e.isGroupAggregate = false) ∧
      ∀ c ∈ s.projection.exprs, ∀ e ∈ c.nodes, e.isGroupAggregate = true →
        (∃ keys, s.group = some (.keys keys)) ∧ ∃ fields, s.projection = .fields fields := by
  have hnamed := hw.named hname
  have hguarded := hlevel.bound hbind
  obtain ⟨hbound, hfree, -⟩ := bindsAggregatesGrouped_bindGuarded _ _ _ _ _ (.of_nodes hnamed)
    hguarded
  refine ⟨hfree fun m hm => (hnamed m hm).2, fun s hs => ?_⟩
  have hat := (hbound.selects s hs).1
  refine ⟨hat.clauses, fun c hc e he hagg => ?_⟩
  rcases hat.projection c hc with hc | hc
  · rw [hc e he] at hagg
    cases hagg
  · exact hc

/-- Whether a `groupAggregate` is in `e`, outside its selects. -/
def Expr.hasGroupAggregate (e : Expr) : Bool := e.nodes.any (·.isGroupAggregate)

namespace Sample

/-- For each number of posts, the users who are as old as there are posts with the number, counted
inside the condition on the users. -/
def usersByCount : Expr :=
  on (on (rows "post") "GroupBy" [fn "p" (col "p" "x")]) "Select"
    [fn "g" (on (rows "user") "Where"
      [fn "u" ((col "u" "age").eq (.staticCall .enumerable "Count" [var "g"] .unknown))])]

end Sample

section
open Sample

theorem group_aggregates_at_level_mostPostsByAge :
    mostPostsByAge.Written ∧ ∃ tree params bound n,
      Yields mostPostsByAge.nameCaptures (.empty .standard) tree params ∧
        Yields tree.bind 0 bound n ∧
        tree.MergesLevel ∧ (∀ e ∈ bound.nodes, e.isGroupAggregate = false) ∧
        ∃ s ∈ bound.selects true, ∃ c ∈ s.projection.exprs, ∃ e ∈ c.nodes,
          e.isGroupAggregate = true ∧
          (∃ keys, s.group = some (.keys keys)) ∧ ∃ fields, s.projection = .fields fields := by
  have hw : mostPostsByAge.Written := by decide +kernel
  have hrun : mostPostsByAge.bindsTo .standard (fun b => (b.selects true).any fun s =>
      s.projection.exprs.any Expr.hasGroupAggregate) = true := by
    decide +kernel
  have hlevel : (mostPostsByAge.nameCaptures.run (.empty .standard)).toOption.all
      (fun named => named.1.MergesLevel) = true := by
    decide +kernel
  obtain ⟨tree, params, bound, n, hname, hbind, hagg⟩ := Expr.exists_of_bindsTo hrun
  rw [show _ = _ from hname] at hlevel
  have hlevel : tree.MergesLevel := of_decide_eq_true hlevel
  obtain ⟨hfree, hselects⟩ := group_aggregates_at_level hw hname hbind hlevel
  simp only [Expr.hasGroupAggregate, List.any_eq_true] at hagg
  obtain ⟨s, hs, c, hc, e, he, hagg⟩ := hagg
  exact ⟨hw, tree, params, bound, n, hname, hbind, hlevel, hfree, s, hs, c, hc, e, he, hagg,
    (hselects s hs).2 c hc e he hagg⟩

/-- In `usersByCount` an aggregate over a group ends up in a select without groups, inside the one
that groups. -/
theorem usersByCount_counts_users :
    usersByCount.Written ∧ ∃ tree params bound n,
      Yields usersByCount.nameCaptures (.empty .standard) tree params ∧ Yields tree.bind 0 bound n ∧
        ∃ s ∈ bound.selects false, s.group = none ∧
          ∃ c ∈ s.clauses false, c.hasGroupAggregate = true := by
  have hrun : usersByCount.bindsTo .standard (fun b => (b.selects false).any fun s =>
      s.group.isNone && (s.clauses false).any Expr.hasGroupAggregate) = true := by
    decide +kernel
  obtain ⟨tree, params, bound, n, hname, hbind, hagg⟩ := Expr.exists_of_bindsTo hrun
  refine ⟨by decide +kernel, tree, params, bound, n, hname, hbind, ?_⟩
  simpa using hagg

end

end QueryTree
