import QueryTree.Proofs.Bound
import QueryTree.Proofs.Naming
import QueryTree.Proofs.Nesting

/-!
# Scopes stay apart

Binding gives every select a scope of its own, as long as the queries of a tree are kept apart: no
select is inside another with the same scope, so the rows of nested selects are told apart.
-/

namespace QueryTree

/-! ## Merging a selector into the grouped select -/

section
variable {H : String → Bool} {bind : Expr → BindM Expr} {e r selector body : Expr} {n m m' : Nat}
  {s : Select} {key : GroupKey} {p : LambdaParam}

/-- A select with the scope `a` can stand both in the grouped select and in the one over the groups.
-/
def Mergeable (e : Expr) (n m : Nat) (s : Select) (key : GroupKey) (a : ScopeId) : Prop :=
  Known e n m a ∧ a ≠ s.scope ∧ a ≠ key.source.scope

/-- What filling in the group `name` leaves of a node of the selector. -/
def MergedNode (H : String → Bool) (e : Expr) (n m : Nat) (s : Select) (key : GroupKey)
    (name : String) : Expr → Expr → Prop :=
  Expr.FilledApart H name (fun _ => True) fun u => u.Proper ∧ Mergeable e n m s key u.scope

theorem MergedNode.mono {name : String} {x : Expr} (h : MergedNode H e n m s key name x r)
    (hm : m ≤ m') : MergedNode H e n m' s key name x r :=
  Expr.FilledApart.mono h (fun _ => id) fun _ hu =>
    ⟨hu.1, hu.2.1.mono (Nat.le_refl n) hm fun _ h => h, hu.2.2⟩

/-- An expression that is `Mergeable` everywhere fills in for a use of the group. -/
theorem MergedNode.value {name : String} {x : Expr} (hx : name ∈ x.freeNames)
    (hr : r.Settled (Mergeable e n m s key)) (hroot : r.isRooted = true → x.isRooted = true)
    (hrows : x.rowsHold H = true) (hl : ∀ ps body, x.unquote ≠ .lambda ps body) :
    MergedNode H e n m s key name x r :=
  Expr.FilledApart.value
    (.value hx hr.bare (fun _ _ => .inr trivial) fun u hu => .inr (hr.selects u hu)) hr.bare hroot
    (fun _ => hrows) hl

theorem Calling.settled_inner (hc : Calling H .select e [selector] n (.select s) m)
    (hk : s.groupKey = some key) : key.inner.Settled (Mergeable e n m s key) := by
  have hs := hc.bound_source.settled.select rfl
  have hclause : key.inner ∈ s.clauses true := Select.mem_clauses.mpr
    (.inr (.inr (.inr (.inr (.inr (.inr ⟨rfl, key, hk, by simp [GroupKey.exprs]⟩))))))
  obtain ⟨g, -, hscope, hinner⟩ := hs.proper.grouped key hk
  refine ⟨(hs.clause hclause).bare, fun u hu => ?_⟩
  obtain ⟨hproper, hknown, hne⟩ := (hs.clause hclause).selects u hu
  exact ⟨hproper, hknown, hne, hscope ▸ hinner u hu⟩

theorem Select.mem_inputs_of_groupKey (hk : s.groupKey = some key) :
    key.source ∈ s.inputs true := by
  simp [Select.inputs, hk]

/-- A lambda in an aggregate is applied to the rows of `key.source`. -/
theorem Calling.groupSite (hc : Calling H .select e [selector] n (.select s) m)
    (hk : s.groupKey = some key) {k : Nat} (hm : m ≤ k) {arg node : Expr}
    (hnode : node ∈ selector.nodes) (harg : arg ∈ node.children)
    (hl : arg.lambdaApart H = true) : Site H e n k key.source arg := by
  have hsite := hc.site rfl rfl (a := selector) (by simp)
  have harg' : arg ∈ selector.nodes :=
    Expr.mem_nodes_trans (Expr.mem_nodes_of_child harg (Expr.mem_nodes_self arg)) hnode
  have hsub : ∀ u ∈ arg.selects true, u ∈ selector.selects true :=
    fun u hu => Expr.mem_selects_of_node harg' hu
  refine ⟨Nat.le_trans hc.le hm, hsite.older, ?_, hsite.ready.of_node harg', fun u hu =>
    hsite.inside u (hsub u hu), fun u hu => ?_, .inl hl⟩
  · refine (hsite.select.input (Select.mem_inputs_of_groupKey hk)).mono fun a ha => ?_
    exact ha.1.mono (Nat.le_refl n) hm fun _ h => h
  · exact hc.group_apart rfl rfl (by simp) hk u (hsub u hu)

/-- What an aggregate is taken of is `Mergeable`. -/
theorem Calling.settled_selector (hc : Calling H .select e [selector] n (.select s) m)
    (hk : s.groupKey = some key) {k k' : Nat} (hm : m ≤ k) {arg node : Expr}
    (hnode : node ∈ selector.nodes) (harg : arg ∈ node.children)
    (happ : Applied e n k k' key.source arg r) : r.Settled (Mergeable e n k' s key) := by
  have hsite := hc.site rfl rfl (a := selector) (by simp)
  refine ⟨happ.settled.bare, fun u hu => ?_⟩
  obtain ⟨hproper, hknown, hne⟩ := happ.settled.selects u hu
  refine ⟨hproper, hknown, ?_, hne⟩
  -- It is of the argument, or of the grouped rows, or has been given out since. None is the select
  -- over the groups.
  rcases happ.origin u hu with ⟨w, hw, heq⟩ | ⟨w, hw, heq⟩ | hnew
  · have harg' : arg ∈ selector.nodes :=
      Expr.mem_nodes_trans (Expr.mem_nodes_of_child harg (Expr.mem_nodes_self arg)) hnode
    exact heq ▸ hsite.apart w (Expr.mem_selects_of_node harg' hw)
  · have hw' : w ∈ key.source.withNested true := by
      rw [Select.withNested_eq]
      exact List.mem_cons_of_mem _ hw
    exact heq ▸ hsite.select.proper.inside w
      (Select.mem_nested.mpr (.inr ⟨key.source, Select.mem_inputs_of_groupKey hk, hw'⟩))
  · have hlt := hsite.select.scope.lt hsite.older hsite.le
    intro heq
    rw [heq] at hnew
    omega

/-- The aggregate that a node of the selector is, over the rows of `key.source`. -/
theorem Calling.settled_aggregate (hbind : Binds H bind)
    (hc : Calling H .select e [selector] n (.select s) m) (hk : s.groupKey = some key) {k k' : Nat}
    (hm : m ≤ k) {method : String} {group : Expr} {rest : List Expr} {kind : AggregateKind} {t : Ty}
    {value : Option Expr}
    (hnode : Expr.call .enumerable method none (group :: rest) t ∈ selector.nodes)
    (h : Yields (Binding.aggregatedValue bind key method kind rest.head?) k value k') :
    k ≤ k' ∧ ∀ c ∈ value.toList, c.Settled (Mergeable e n k' s key) := by
  have hsite := hc.site rfl rfl (a := selector) (by simp)
  cases rest with
  | cons lambda rest =>
    obtain ⟨c, u, hlambda, h⟩ := yields_bind.mp h
    obtain ⟨rfl, rfl⟩ := yields_pure.mp h
    have hapart := hsite.ready.apart _ hnode
    simp only [Expr.apartAt, List.all_cons, Bool.and_eq_true] at hapart
    obtain ⟨hle, happ⟩ :=
      (hc.groupSite hk hm hnode (by simp [Expr.children]) hapart.1).applyLambda hbind hlambda
    refine ⟨hle, ?_⟩
    simpa using hc.settled_selector hk hm hnode (by simp [Expr.children]) happ
  -- Without a function the aggregate is of the rows themselves.
  | nil =>
    have hinput := hsite.select.input (Select.mem_inputs_of_groupKey hk)
    have hvalue : key.source.rowValue.Settled (Mergeable e n k s key) :=
      hinput.rowValue.mono fun a ha => ⟨ha.1.1.mono (Nat.le_refl n) hm fun _ h => h, ha.1.2, ha.2⟩
    cases kind with
    | count =>
      obtain ⟨rfl, rfl⟩ := yields_pure.mp h
      exact ⟨Nat.le_refl _, fun c hc => by cases hc⟩
    | _ =>
      obtain ⟨rfl, rfl⟩ := yields_pure.mp h
      exact ⟨Nat.le_refl _, by simpa using hvalue⟩

/-- What `mergeNode` puts in the place of a node. -/
theorem Calling.mergeNode (hbind : Binds H bind)
    (hc : Calling H .select e [selector] n (.select s) m) (hk : s.groupKey = some key) {k k' : Nat}
    (hm : m ≤ k) {node : Expr} {result : Option Expr} {name : String}
    (hnode : node ∈ selector.nodes)
    (h : Yields (Binding.mergeNode bind name key node) k result k') :
    k ≤ k' ∧ (∀ r, result = some r → MergedNode H e n k' s key name node r) ∧
      (result = none → node.shadows name = false) := by
  rcases Binding.yields_mergeNode h with ⟨hkey, rfl, rfl⟩ |
    ⟨kind, method, rest, t, value, hagg, hvalue, rfl⟩ | ⟨rfl, -, rfl⟩ | ⟨rfl, -, -, hshadows, rfl⟩
  · refine ⟨Nat.le_refl _, fun r hr => ?_, fun hr => by cases hr⟩
    cases hr
    refine MergedNode.mono (.value (Expr.mem_freeNames_of_isKeyOf hkey) (hc.settled_inner hk)
      ?_ ?_ ?_) hm
    all_goals
      unfold Expr.isKeyOf at hkey
      split at hkey
      · first | exact fun _ => rfl | rfl | rintro _ _ ⟨⟩
      · cases hkey
  · obtain ⟨group, rfl, hgroup⟩ := Expr.aggregateOf?_eq_some hagg
    obtain ⟨hle, hsettled⟩ := hc.settled_aggregate hbind hk hm hnode hvalue
    refine ⟨hle, fun r hr => ?_, fun hr => by cases hr⟩
    cases hr
    refine .value ?_ ?_ (fun hroot => by cases hroot) rfl (by rintro _ _ ⟨⟩)
    · exact Expr.mem_freeNames_of_child (c := group) (by simp [Expr.children]) rfl
        (Expr.mem_freeNames_of_isParameter hgroup)
    · exact Expr.Settled.inherited.groupAggregate trivial hsettled
  · refine ⟨Nat.le_refl _, fun r hr => ?_, fun hr => by cases hr⟩
    cases hr
    exact Expr.FilledApart.refl node
  · exact ⟨Nat.le_refl _, nofun, fun _ => hshadows⟩

/-- The selector with the group filled in by `mergeNode`. -/
theorem Calling.mergedBody (hbind : Binds H bind)
    (hc : Calling H .select e [selector] n (.select s) m) (hk : s.groupKey = some key)
    (hb : selector.unquote = .lambda [p] body)
    (h : Yields (body.replaceM (Binding.mergeNode bind p.name key)) m r m') :
    m ≤ m' ∧ MergedNode H e n m' s key p.name body r := by
  have hsite := hc.site rfl rfl (a := selector) (by simp)
  have hx : H p.name = true ∨ body.has .operator = false := by
    rcases hsite.rows with hl | hplain
    · simpa only [Expr.lambdaApart, hb, Bool.or_eq_true, Bool.not_eq_true'] using hl
    · rw [hplain.1] at hk
      cases hk
  have hbody := Expr.body_mem_nodes hb
  refine yields_replaceM (T := fun x k y k' => x ∈ body.nodes → m ≤ k →
    k ≤ k' ∧ MergedNode H e n k' s key p.name x y) ?_ ?_ h (Expr.mem_nodes_self body)
      (Nat.le_refl m)
  · intro x k y k' hy hxb hmk
    obtain ⟨hle, hmerged, -⟩ := hc.mergeNode hbind hk hmk (Expr.mem_nodes_trans hxb hbody) hy
    exact ⟨hle, hmerged y rfl⟩
  · intro x k u cs k' hnone hcs hxb hmk
    obtain ⟨hle, -, hshadows⟩ := hc.mergeNode hbind hk hmk (Expr.mem_nodes_trans hxb hbody) hnone
    -- One child after the other: what was merged before stays merged when more scopes are given
    -- out.
    have hkids : ∀ {xs ys : List Expr} {a b : Nat}, (∀ x ∈ xs, x ∈ body.nodes) → m ≤ a →
        Along (fun x k y k' => x ∈ body.nodes → m ≤ k →
          k ≤ k' ∧ MergedNode H e n k' s key p.name x y) xs a ys b →
        a ≤ b ∧ List.Forall₂ (MergedNode H e n b s key p.name) xs ys := by
      intro xs ys a b hxs hma halong
      induction halong with
      | nil => exact ⟨Nat.le_refl _, .nil⟩
      | cons hhead _ ih =>
        obtain ⟨hle, hnode⟩ := hhead (hxs _ (by simp)) hma
        obtain ⟨hle', htail⟩ := ih (fun x hx => hxs x (by simp [hx])) (Nat.le_trans hma hle)
        exact ⟨Nat.le_trans hle hle', .cons (hnode.mono hle') htail⟩
    have hchildren : ∀ c ∈ x.children, c ∈ body.nodes := fun c hc =>
      Expr.mem_nodes_trans (Expr.mem_nodes_of_child hc (Expr.mem_nodes_self c)) hxb
    obtain ⟨hle', hall⟩ := hkids hchildren (Nat.le_trans hmk hle) hcs
    refine ⟨Nat.le_trans hle hle', Expr.FilledApart.node ?_ (fun hs => ?_) hall⟩
    · exact hx.imp id fun h => .inr (Expr.has_eq_false_of_node hxb h)
    · rw [hshadows rfl] at hs
      cases hs

/-- The merged selector, bound. -/
theorem Calling.merged (hbind : Binds H bind)
    (hc : Calling H .select e [selector] n (.select s) m) (hk : s.groupKey = some key)
    (hb : selector.unquote = .lambda [p] body) {x : Expr} {k : Nat} (hm : m ≤ k)
    (hx : MergedNode H e n k s key p.name body x) (h : Yields (bind x) k r m') :
    k ≤ m' ∧ r.Settled (Mergeable e n m' s key) := by
  have hsite := hc.site rfl rfl (a := selector) (by simp)
  have hbody := Expr.body_mem_nodes hb
  have hready := hsite.ready.of_node hbody
  have hn : n ≤ k := Nat.le_trans hc.le hm
  -- Both scopes are avoided before binding, by the parts of the selector and by what was merged.
  have hselects : ∀ u ∈ x.selects true, u.Proper ∧ Mergeable e n k s key u.scope := by
    intro u hu
    rcases hx.selects u hu with hu | ⟨-, hu⟩
    · have hsel := Expr.mem_selects_of_node hbody hu
      exact ⟨(hready.selects u hu).1, .inl ⟨u, hsite.inside u hsel, rfl⟩, hsite.apart u hsel,
        hc.group_apart rfl rfl (by simp) hk u hsel⟩
    · exact hu
  have hr : Ready H k x := by
    refine ⟨hx.apart hready.apart, ?_, fun u hu => ?_⟩
    · rw [Bool.eq_false_iff]
      exact fun hraw => Bool.eq_false_iff.mp hready.raw (hx.has .raw hraw)
    · exact ⟨(hselects u hu).1, (hselects u hu).2.1.lt hsite.older hn⟩
  have hbound := hbind x k r m' hr h
  have hgroup := (hsite.select.input (Select.mem_inputs_of_groupKey hk)).scope
  refine ⟨hbound.le, hbound.settled.mono fun a ha => ?_⟩
  rcases ha with ⟨u, hu, rfl⟩ | ha
  · obtain ⟨-, hknown, hne⟩ := hselects u hu
    exact ⟨hknown.mono (Nat.le_refl n) hbound.le fun _ h => h, hne⟩
  -- And afterwards, since binding gives out new scopes.
  · refine ⟨.inr (by omega), ?_, ?_⟩
    · rintro rfl
      have := hsite.select.scope.lt hsite.older hsite.le
      omega
    · rintro rfl
      have := hgroup.1.lt hsite.older hsite.le
      omega

theorem Select.Settled.withMerged {K : ScopeId → Prop} {grouped : Select} {scope : ScopeId}
    {value : Expr} (h : grouped.Settled K) (hv : value.Settled fun a => K a ∧ a ≠ grouped.scope) :
    (grouped.withMerged scope value).Settled K := by
  refine h.update rfl (fun c hc => ?_) rfl (.inr rfl)
  rcases Select.mem_clauses_withMerged hc with hc | ⟨f, hf, rfl⟩
  · exact .inl hc
  · exact .inr (Expr.Settled.inherited.readBack_fields scope hv f hf)

theorem Calling.settled_readingMerged (hc : Calling H .select e [selector] n (.select s) m)
    (hk : s.groupKey = some key) {grouped : Select} (hsource : s.source = .subquery grouped)
    (hm : m ≤ m') {value : Expr} (hv : value.Settled (Mergeable e n m' s key)) :
    (s.readingMerged grouped value).Settled (Known e n m') := by
  have hs : s.Settled (Known e n m') := (hc.bound_source.settled.select rfl).mono
    fun a ha => ha.mono (Nat.le_refl n) hm fun _ h => h
  have hgrouped := hs.input (v := grouped) (by simp [Select.inputs, hsource, RowSource.select?])
  -- The select that is read is the one that the key remembers.
  have hscope : grouped.scope = key.source.scope := by
    obtain ⟨g, hg, heq, -⟩ := hs.proper.grouped key hk
    rw [hsource] at hg
    cases hg
    exact heq
  have hmerged : (grouped.withMerged s.scope value).Settled fun a => Known e n m' a ∧ a ≠ s.scope :=
    hgrouped.withMerged (hv.mono fun a ha => ⟨⟨ha.1, ha.2.1⟩, hscope ▸ ha.2.2⟩)
  refine .of_parts hs.scope (fun c hc => ?_) (fun v hv => ?_) fun key hk => by cases hk
  · rcases Select.mem_clauses_readingMerged hc with hc | rfl
    · exact hs.clause hc
    · exact Expr.Settled.inherited.toComposed.readBack trivial value
  · rw [Select.inputs_readingMerged, List.mem_singleton] at hv
    subst hv
    exact hmerged

theorem Calling.bindGroupedProjection (hbind : Binds H bind)
    (hc : Calling H .select e [selector] n (.select s) m) (hk : s.groupKey = some key)
    (h : Yields (Binding.bindGroupedProjection bind s key selector) m r m') : Bound H e n r m' := by
  have hsite := hc.site rfl rfl (a := selector) (by simp)
  rw [Binding.bindGroupedProjection_eq] at h
  obtain ⟨⟨p, body⟩, u, hp, hrest⟩ := yields_bind.mp h
  obtain ⟨hl, rfl⟩ := BindM.yields_ofExcept.mp hp
  have hb := Expr.asLambda_eq_ok hl
  split at hrest
  · obtain ⟨value, k, hvalue, hrest⟩ := yields_bind.mp hrest
    obtain ⟨rfl, rfl⟩ := yields_pure.mp hrest
    have hfilled := hsite.filled hb
    rw [hk] at hfilled
    obtain ⟨hle, happ⟩ := hsite.bound hbind hb hfilled hvalue
    refine hc.project rfl hle happ rfl rfl rfl ?_
    have hs : s.Settled (Known e n m') :=
      hsite.select.mono fun a ha => ha.mono (Nat.le_refl n) hle fun _ h => h
    have hungrouped : Select.Settled (Known e n m') { s with groupKey := none } :=
      hs.update rfl (fun c hc => .inl (Select.clauses_without_key hc)) rfl (.inl rfl)
    exact hungrouped.project (by simpa [Projection.exprs] using happ.settled)
  · obtain ⟨x, k, hx, hrest⟩ := yields_bind.mp hrest
    obtain ⟨value, k', hvalue, hrest⟩ := yields_bind.mp hrest
    obtain ⟨hle, hmerged⟩ := hc.mergedBody hbind hk hb hx
    obtain ⟨hle', hsettled⟩ := hc.merged hbind hk hb hle hmerged hvalue
    split at hrest
    · exact absurd hrest BindM.yields_throw
    · rename_i grouped hsource
      obtain ⟨rfl, rfl⟩ := yields_pure.mp hrest
      have hm := Nat.le_trans hle hle'
      refine hc.bound rfl hm (hc.settled_readingMerged hk hsource hm hsettled) rfl (.inl rfl) ?_
      intro _ hplain
      rw [hplain.1] at hk
      cases hk

end

/-! ## Whole trees -/

section
variable {H : String → Bool} {bind : Expr → BindM Expr} {op : QueryOp} {e source r a : Expr}
  {args : List Expr} {n m m' : Nat} {s : Select} {method : String} {t : Ty}

/-- `f` gives a select one more clause, and leaves its scope, its key and what it puts out. -/
structure AddsClause (f : Select → Expr → Select) : Prop where
  settled : ∀ {K : ScopeId → Prop} {s : Select} {c : Expr}, s.Settled K →
    (c.Settled fun b => K b ∧ b ≠ s.scope) → (f s c).Settled K
  leaves : ∀ s c, (f s c).scope = s.scope ∧ (f s c).groupKey = s.groupKey ∧
    (f s c).projection = s.projection

section
variable {f : Select → Expr → Select} {c : Expr}

theorem Calling.addClause (hc : Calling H op e args n (.select s) m) (hf : AddsClause f)
    (hle : m ≤ m') (hclause : c.Settled fun b => Known e n m' b ∧ b ≠ s.scope) :
    Bound H e n (.select (f s c)) m' := by
  have hsettled : s.Settled (Known e n m') :=
    (hc.bound_source.settled.select rfl).mono fun a ha => ha.mono (Nat.le_refl n) hle fun _ h => h
  obtain ⟨hscope, hkey, hproj⟩ := hf.leaves s c
  exact hc.bound rfl hle (hf.settled hsettled hclause) hscope (.inr hkey) fun _ hplain =>
    hplain.congr hkey hproj

/-- A clause from a lambda. -/
theorem Calling.clause (hbind : Binds H bind) (hc : Calling H op e [a] n source m)
    (hop : op.encloses = true) (hf : AddsClause f) (h : Yields (do
      let s ← Binding.expectSelect method source
      return .select (f s (← Binding.applyLambda bind s method a))) m r m') :
    Bound H e n r m' := by
  obtain ⟨s, rfl, hrest⟩ := Binding.yields_expectSelect_bind.mp h
  obtain ⟨c, k', hc', hrest⟩ := yields_bind.mp hrest
  obtain ⟨rfl, rfl⟩ := yields_pure.mp hrest
  obtain ⟨hle, happ⟩ := (hc.site hop rfl (by simp)).applyLambda hbind hc'
  exact hc.addClause hf hle happ.settled

/-- A clause from an argument without rows. -/
theorem Calling.bound_clause (hbind : Binds H bind) (hc : Calling H op e [a] n source m)
    (hop : op.encloses = true) (hf : AddsClause f) (h : Yields (do
      let s ← Binding.expectSelect method source
      return .select (f s (← bind a))) m r m') : Bound H e n r m' := by
  obtain ⟨s, rfl, hrest⟩ := Binding.yields_expectSelect_bind.mp h
  obtain ⟨c, k', hc', hrest⟩ := yields_bind.mp hrest
  obtain ⟨rfl, rfl⟩ := yields_pure.mp hrest
  have hsite := hc.site hop rfl (a := a) (by simp)
  have hb := hbind a m c m' (hsite.ready.mono hsite.le) hc'
  refine hc.addClause hf hb.le (hb.settled.mono fun b hb' => ?_)
  -- The scope of the source was given out before the argument was bound, and the argument is kept
  -- apart from it.
  rcases hb' with ⟨u, hu, rfl⟩ | hnew
  · exact ⟨.inl ⟨u, hsite.inside u hu, rfl⟩, hsite.apart u hu⟩
  · refine ⟨.inr (by have := hsite.le; omega), ?_⟩
    rintro rfl
    have := hsite.select.scope.lt hsite.older hsite.le
    omega

end

/-- An element of `sequence`. -/
theorem Calling.element (hbind : Binds H bind) (predicate : Option Expr) {f : Expr → Expr}
    (hc : Calling H op e predicate.toList n source m) (hop : op.encloses = true)
    (hf : ∀ {k rows}, Within e n k rows → Within e n k (f rows))
    (h : Yields (do return .custom (f (← Binding.sequence bind method source predicate)) t)
      m r m') : Bound H e n r m' := by
  obtain ⟨rows, k, hrows, hrest⟩ := yields_bind.mp h
  obtain ⟨rfl, rfl⟩ := yields_pure.mp hrest
  obtain ⟨hle, hw⟩ := hc.sequence hbind (.inr ⟨rfl, hop⟩) hrows
  exact hc.value hle (Within.composed.custom (hf hw)) rfl

theorem Calling.bindAll (hbind : Binds H bind) (hc : Calling H .all e [a] n source m)
    (h : Yields (Binding.bindOperator bind .all method source [a] t) m r m') :
    Bound H e n r m' := by
  obtain ⟨s, rfl, hrest⟩ := Binding.yields_expectSelect_bind.mp h
  obtain ⟨c, k', hc', hrest⟩ := yields_bind.mp hrest
  obtain ⟨rfl, rfl⟩ := yields_pure.mp hrest
  obtain ⟨hle, happ⟩ := (hc.site rfl rfl (by simp)).applyLambda hbind hc'
  have hsettled : s.Settled (Known e n m') :=
    (hc.bound_source.settled.select rfl).mono fun a ha => ha.mono (Nat.le_refl n) hle fun _ h => h
  have hfailing : (s.filterBy c.not).Settled (Known e n m') :=
    hsettled.filterBy (Expr.Settled.inherited.not happ.settled)
  have hrows : Within e n m' (.subquery (s.filterBy c.not)) :=
    .select hfailing rfl (hc.queries rfl)
  have hcount :
      Within e n m' (.staticCall .enumerable "Count" [.subquery (s.filterBy c.not)] .int32) :=
    Within.composed.enumerable (by simpa using hrows)
  exact hc.value hle (Within.composed.custom
    (Within.composed.binary hcount Within.composed.constant)) rfl

theorem Calling.bindSingle (hbind : Binds H bind) (predicate : Option Expr)
    (hc : Calling H .single e predicate.toList n source m) (h : Yields (do
      let s ← Binding.restricted bind (← Binding.expectSelect method source) method predicate
      return .select { s with single := true }) m r m') : Bound H e n r m' := by
  obtain ⟨s, rfl, hrest⟩ := Binding.yields_expectSelect_bind.mp h
  obtain ⟨s', k', hs', hrest⟩ := yields_bind.mp hrest
  obtain ⟨rfl, rfl⟩ := yields_pure.mp hrest
  obtain ⟨hle, hsettled, hscope, hkey, hproj⟩ := hc.restricted hbind rfl rfl hs'
  exact hc.bound rfl hle hsettled.amendable.single hscope (.inr hkey) fun _ hplain =>
    hplain.congr hkey hproj

/-- Every operator, applied to a bound source, gives something `Bound`. -/
theorem Calling.bindOperator (hbind : Binds H bind) (hc : Calling H op e args n source m)
    (h : Yields (Binding.bindOperator bind op method source args t) m r m') : Bound H e n r m' := by
  unfold Binding.bindOperator at h
  -- The operators in the order of their definition, those that add a clause first.
  split at h
  · exact hc.clause hbind rfl (f := Select.filterBy)
      ⟨fun hs hc => hs.filterBy hc, fun _ _ => ⟨rfl, rfl, rfl⟩⟩ h
  · obtain ⟨s, rfl, hrest⟩ := Binding.yields_expectSelect_bind.mp h
    split at hrest
    · rename_i key hk
      exact hc.bindGroupedProjection hbind hk hrest
    · rename_i hk
      exact hc.bindProjection hbind hk hrest
  · rename_i a
    exact Calling.bindAggregate hbind (some a) hc rfl h
  · obtain ⟨s, rfl, hrest⟩ := Binding.yields_expectSelect_bind.mp h
    exact hc.bindGroupBy hbind hrest
  · rename_i descending a
    exact hc.clause hbind rfl (f := fun s c => s.orderBy c descending)
      ⟨fun hs hc => hs.amendable.orderBy hc descending, fun _ _ => ⟨rfl, rfl, rfl⟩⟩ h
  · rename_i descending a
    exact hc.clause hbind rfl (f := fun s c => s.thenBy c descending)
      ⟨fun hs hc => hs.amendable.thenBy hc descending, fun _ _ => ⟨rfl, rfl, rfl⟩⟩ h
  · exact hc.bound_clause hbind rfl (f := fun s c => { s with take := some c })
      ⟨fun hs hc => hs.amendable.take hc, fun _ _ => ⟨rfl, rfl, rfl⟩⟩ h
  · exact hc.bound_clause hbind rfl (f := fun s c => { s with skip := some c })
      ⟨fun hs hc => hs.amendable.skip hc, fun _ _ => ⟨rfl, rfl, rfl⟩⟩ h
  · exact Calling.bindCount hbind none hc rfl h
  · rename_i a
    exact Calling.bindCount hbind (some a) hc rfl h
  · exact Calling.bindAggregate hbind none hc rfl h
  · rename_i kind a
    exact Calling.bindAggregate hbind (some a) hc rfl h
  · exact Calling.bindAggregate hbind none hc rfl h
  · exact hc.bindAll hbind h
  · exact Calling.element hbind none hc rfl Within.composed.existsTest h
  · rename_i a
    exact Calling.element hbind (some a) hc rfl Within.composed.existsTest h
  · rename_i a
    obtain ⟨rows, k, hrows, hrest⟩ := yields_bind.mp h
    obtain ⟨value, k', hvalue, hrest⟩ := yields_bind.mp hrest
    obtain ⟨rfl, rfl⟩ := yields_pure.mp hrest
    obtain ⟨hle, hw⟩ := hc.sequence hbind (.inl rfl) hrows
    obtain ⟨hle', hv⟩ := hc.argument hbind (by simp) hle hvalue
    refine hc.value (Nat.le_trans hle hle') (Within.composed.custom (Within.composed.enumerable ?_))
      rfl
    simpa using ⟨hw.mono (Nat.le_refl n) hle', hv⟩
  · exact Calling.element hbind none hc rfl
      (fun h => Within.composed.orDefault (Within.composed.binary h Within.composed.constant)) h
  · rename_i default a
    exact Calling.element hbind (some a) hc rfl
      (fun h => Within.composed.orDefault (Within.composed.binary h Within.composed.constant)) h
  · exact Calling.element hbind none hc rfl
      (fun h => Within.composed.orDefault (Within.composed.enumerable (by simpa using h))) h
  · rename_i default a
    exact Calling.element hbind (some a) hc rfl
      (fun h => Within.composed.orDefault (Within.composed.enumerable (by simpa using h))) h
  · obtain ⟨rows, k, hrows, hrest⟩ := yields_bind.mp h
    obtain ⟨position, k', hposition, hrest⟩ := yields_bind.mp hrest
    obtain ⟨rfl, rfl⟩ := yields_pure.mp hrest
    obtain ⟨hle, hw⟩ := hc.sequence hbind (.inl rfl) hrows
    obtain ⟨hle', hp⟩ := hc.argument hbind (by simp) hle hposition
    have hindex : Within e n m' (rows.index position) :=
      Within.composed.binary (hw.mono (Nat.le_refl n) hle') hp
    exact hc.value (Nat.le_trans hle hle')
      (Within.composed.custom (Within.composed.orDefault hindex)) rfl
  · exact Calling.bindSingle hbind none hc h
  · rename_i a
    exact Calling.bindSingle hbind (some a) hc h
  · exact absurd h BindM.yields_throw

/-- A `Calling` operator is one whose source has been bound. -/
theorem Calling.of_bound {start : Expr} (hop : QueryOp.ofMethod? method = some op)
    (hr : Ready H n (.call .queryable method none (start :: args) t))
    (hb : Bound H start n source m) :
    Calling H op (.call .queryable method none (start :: args) t) args n source m := by
  have hat := hr.apart _ (Expr.mem_nodes_self _)
  simp only [Expr.apartAt, hop, Option.all_some, Bool.and_eq_true, Bool.or_eq_true,
    Bool.not_eq_true'] at hat
  refine
    { ready := hr
      le := hb.le
      bound_source := hb.toWithin.of_child (by simp [Expr.children]) fun _ => rfl
      below := fun a ha => by simp [Expr.children, ha]
      shadows := fun _ => rfl
      apart := fun hen a ha hsel s hs => ?_
      lambdas := fun s hs => ?_
      rows := fun hrows => ?_
      root := hb.root }
  -- A source that is a query of the tree may be the one that an argument mentions, unless the two
  -- are kept apart.
  · refine (hb.root s hs).resolve_left fun hroot => hsel ?_
    rcases hat.1 with hno | hall
    · rw [hroot, hen] at hno
      cases hno
    · have hm := List.all_eq_true.mp hall a ha
      simp only [Bool.not_eq_true'] at hm
      exact (Expr.mentions_eq_false.mp hm).1
  · rcases hat.2 with hno | hall
    · exact .inr (hb.rows s hs hno)
    · exact .inl (List.all_eq_true.mp hall)
  · simp only [Expr.rowsHold, hop, Bool.or_eq_false_iff] at hrows
    exact ⟨hrows.1, fun s hs => hb.rows s hs hrows.2⟩

theorem bound_call (hbind : Binds H bind) (hr : Ready H n (.call .queryable method none args t))
    (h : Yields (Binding.bindCall bind method args t) n r m) :
    Bound H (.call .queryable method none args t) n r m := by
  unfold Binding.bindCall at h
  split at h
  · exact absurd h BindM.yields_throw
  · rename_i start rest
    obtain ⟨source, k, hsource, hrest⟩ := yields_bind.mp h
    have hb := hbind start n source k (hr.child (by simp [Expr.children])) hsource
    split at hrest
    · rename_i op hop
      exact (Calling.of_bound hop hr hb).bindOperator hbind hrest
    · exact absurd hrest BindM.yields_throw

/-- A table is bound to a select with a new scope. -/
theorem bound_table {name : String} {element : Ty} :
    Bound H (.table name element) n (.select (.ofTable ⟨n⟩ name element)) (n + 1) where
  toWithin := by
    refine .select (.ofTable (.inr ⟨Nat.le_refl n, Nat.lt_succ_self n⟩)) rfl ?_
    rintro ⟨ht, -⟩
    cases ht
  le := Nat.le_succ n
  rows s hs _ := by
    cases hs
    refine ⟨rfl, ?_, ?_⟩
    · rintro y ⟨v, hv, hy⟩
      obtain rfl := List.mem_singleton.mp hv
      cases hy
    · rintro u ⟨v, hv, hu⟩
      obtain rfl := List.mem_singleton.mp hv
      cases hu
  root s hs := by
    cases hs
    exact .inr ⟨Nat.le_refl n, fun key hk => by cases hk⟩

theorem bound_children {cs cs' : List Expr}
    (h : Along (fun c k c' k' => Ready H k c → Bound H c k c' k') cs n cs' m)
    (hr : ∀ c ∈ cs, Ready H n c) : n ≤ m ∧ List.Forall₂ (fun c c' => Within c n m c') cs cs' := by
  induction h with
  | nil => exact ⟨Nat.le_refl _, .nil⟩
  | cons hhead _ ih =>
    have hb := hhead (hr _ (by simp))
    obtain ⟨hle, htail⟩ := ih fun c hc => (hr c (by simp [hc])).mono hb.le
    refine ⟨Nat.le_trans hb.le hle, .cons (hb.toWithin.mono (Nat.le_refl _) hle) ?_⟩
    exact htail.imp fun _ _ hw => hw.mono hb.le (Nat.le_refl _)

/-- A node that stays is made of its bound children. -/
theorem within_withChildren {cs : List Expr} (hk : ∀ k : Mark, k.of e = false)
    (he : ∀ u ∈ e.selects true, u.Proper)
    (h : List.Forall₂ (fun c c' => Within c n m c') e.children cs) :
    Within e n m (e.withChildren cs) := by
  have hkids := Expr.children_withChildren h.length_eq.symm
  cases hq : e.select? with
  | some s =>
    -- A select that is left in place has no children, so it is the one that was there.
    have hleaf : e.children = [] := by cases e <;> first | rfl | cases hq
    have hsame : e.withChildren cs = e := by
      rw [hleaf] at h
      cases h
      rw [← hleaf]
      exact Expr.withChildren_children e
    rw [hsame]
    have hs : s.Settled (Known e n m) := by
      intro u hu
      have hu : u ∈ e.selects true := by
        rw [Expr.selects_eq, hq]
        exact hu
      exact ⟨he u hu, .inl ⟨u, hu, rfl⟩⟩
    refine ⟨hs.expr hq, fun _ => id, fun _ => id⟩
  | none =>
    refine ⟨.node (fun k => ?_) ?_ fun c' hc' => ?_, fun y hy => ?_, fun ht hu => ?_⟩
    · rw [Expr.of_withChildren]
      exact hk k
    · rw [Expr.select?_withChildren]
      exact hq
    · rw [hkids] at hc'
      obtain ⟨c, hc, hw⟩ := List.exists_of_forall₂_right h hc'
      exact hw.settled.mono fun a ha => ha.mono (Nat.le_refl n) (Nat.le_refl m)
        fun u hu => Expr.mem_selects_of_child hc hu
    · rcases Expr.mem_freeNames.mp hy with hy | ⟨hs, c', hc', hy⟩
      · rw [Expr.isParameter_withChildren] at hy
        exact Expr.mem_freeNames_of_isParameter hy
      · rw [hkids] at hc'
        rw [Expr.shadows_withChildren] at hs
        obtain ⟨c, hc, hw⟩ := List.exists_of_forall₂_right h hc'
        exact Expr.mem_freeNames_of_child hc hs (hw.names y hy)
    · rw [Expr.selects_eq, Expr.select?_withChildren, hq, List.flatMap_eq_nil_iff, hkids]
      intro c' hc'
      obtain ⟨c, hc, hw⟩ := List.exists_of_forall₂_right h hc'
      refine hw.plain ?_ ?_
      · exact Expr.has_eq_false_of_node (Expr.mem_nodes_of_child hc (Expr.mem_nodes_self c)) ht
      · rw [List.eq_nil_iff_forall_not_mem] at hu ⊢
        exact fun u huc => hu u (Expr.mem_selects_of_child hc huc)

theorem binds_replaceM (hbind : Binds H bind) :
    Binds H fun e => e.replaceM (Binding.bindNode bind) := by
  intro e n r m hr h
  refine yields_replaceM (T := fun e n r m => Ready H n e → Bound H e n r m) ?_ ?_ h hr
  · intro e n r m h hr
    rcases Binding.yields_bindNode_some h with
      ⟨name, element, rfl, rfl, rfl⟩ | ⟨method, args, t, rfl, hcall⟩
    · exact bound_table
    · exact bound_call hbind hr hcall
  · intro e n k cs m hnone hcs hr
    have hraw : Mark.raw.of e = false := by
      rw [Bool.eq_false_iff]
      exact fun h => Bool.eq_false_iff.mp hr.raw (Expr.has_iff.mpr (.inl h))
    obtain ⟨rfl, hop, htable⟩ := Binding.yields_bindNode_none hnone
    have hmarks : ∀ k : Mark, k.of e = false := by
      intro k
      cases k with
      | operator => exact hop
      | table => exact htable hraw
      | raw => exact hraw
    obtain ⟨hle, hkids⟩ := bound_children hcs fun c hc => hr.child hc
    refine ⟨within_withChildren hmarks (fun u hu => (hr.selects u hu).1) hkids, hle, ?_, ?_⟩
    all_goals
      -- Only a select stays a select, and it is one that a variable was filled in with.
      intro s hs
      have hq : e.select? = some s := by rw [← Expr.select?_withChildren e cs, hs]; rfl
      have heq : e = .select s := by
        cases e <;> simp_all [Expr.select?, Expr.withChildren]
      rw [heq]
    · exact fun hrows => by cases hrows
    · exact .inl rfl

theorem binds_bindWith (fuel : Nat) : Binds H (Binding.bindWith fuel) := by
  induction fuel with
  | zero => exact fun e n r m _ h => absurd h BindM.yields_throw
  | succ fuel ih => exact binds_replaceM ih

end

/-! ## From the tree a caller makes -/

theorem Expr.select?_eq_none_of_isWritten {e : Expr} (h : e.isWritten = true) :
    e.select? = none := by
  cases e <;> first | rfl | cases h

theorem Expr.Written.selects_eq_nil {e : Expr} (h : e.Written) (memory : Bool) :
    e.selects memory = [] := by
  induction e using childrenInduction with
  | step e ih =>
    have hq := select?_eq_none_of_isWritten (h e (mem_nodes_self e))
    rw [selects_eq, hq, List.flatMap_eq_nil_iff]
    exact fun c hc => ih c hc (h.child hc)

section
variable {H : String → Bool} {t tree : Expr} {params params' : Params}

/-- `nameCaptures` fills in tables and names, and leaves nothing to name. -/
theorem filledApart_nameCaptures (h : Yields t.nameCaptures params tree params') :
    Expr.FilledApart H "" (fun _ => False) (fun _ => False) t tree ∧ tree.has .raw = false := by
  refine yields_replaceM (T := fun e _ r _ =>
    Expr.FilledApart H "" (fun _ => False) (fun _ => False) e r ∧ r.has .raw = false) ?_ ?_ h
  · intro e p r p' hr
    rcases nameNode_some hr with ⟨s, rfl, -, rfl | ⟨x, t, rfl⟩⟩ | ⟨x, v, t, name, rfl, rfl, -⟩
    all_goals
      refine ⟨⟨⟨nofun, nofun, fun k hk => ?_⟩, nofun, ?_, nofun, nofun,
        fun _ => Expr.apart_of_has rfl⟩, rfl⟩
    · cases k <;> first | rfl | cases hk
    · exact nofun
    · cases k <;> first | rfl | cases hk
    · exact nofun
    · cases k <;> first | rfl | cases hk
    · exact fun _ => rfl
  · intro e p u cs p' hnone hcs
    obtain ⟨-, hraw⟩ := nameNode_none hnone
    have hall : List.Forall₂ (fun c r => Expr.FilledApart H "" (fun _ => False) (fun _ => False)
        c r ∧
          r.has .raw = false) e.children cs := hcs.forall₂
    refine ⟨.node (.inr (.inl ⟨nofun, nofun⟩)) (fun _ => ⟨nofun, nofun⟩)
      (hall.imp fun _ _ h => h.1), ?_⟩
    rw [Bool.eq_false_iff]
    intro h
    rcases Expr.has_iff.mp h with h | ⟨c, hc, h⟩
    · rw [Expr.of_withChildren, hraw] at h
      cases h
    · rw [Expr.children_withChildren hall.length_eq.symm] at hc
      obtain ⟨c₀, -, hf⟩ := List.exists_of_forall₂_right hall hc
      rw [hf.2] at h
      cases h

/-- A named tree is `Ready` to be bound. -/
theorem ready_of_nameCaptures (hw : t.Written) (hH : t.Apart H)
    (h : Yields t.nameCaptures params tree params') : Ready H 0 tree := by
  obtain ⟨hf, hraw⟩ := filledApart_nameCaptures (H := H) h
  refine ⟨hf.apart hH, hraw, fun u hu => ?_⟩
  rcases hf.selects u hu with hu | ⟨-, hu⟩
  · rw [hw.selects_eq_nil true] at hu
    cases hu
  · exact hu.elim

end

/-- Selects of `bound` each of which is inside the one before it. -/
structure NestedSelects (bound : Expr) (path : List Select) : Prop where
  start : ∀ s ∈ path.head?, s ∈ bound.selects false
  nested : path.IsChain fun s u => u ∈ s.nested false

theorem NestedSelects.pairwise {bound : Expr} {path : List Select} (h : NestedSelects bound path) :
    path.Pairwise fun s u => u ∈ s.nested false := by
  have : IsTrans Select fun s u => u ∈ s.nested false :=
    ⟨fun s u v hu hv => Select.nested_trans hu (by
      rw [Select.withNested_eq]
      exact List.mem_cons_of_mem _ hv)⟩
  exact List.isChain_iff_pairwise.mp h.nested

theorem NestedSelects.mem_selects {bound : Expr} {path : List Select}
    (h : NestedSelects bound path) : ∀ s ∈ path, s ∈ bound.selects false := by
  cases path with
  | nil => exact nofun
  | cons s path =>
    have hs := h.start s rfl
    intro u hu
    rcases List.mem_cons.mp hu with rfl | hu
    · exact hs
    · have hnested := (List.pairwise_cons.mp h.pairwise).1 u hu
      refine (selects_trans false).1 bound s hs ?_
      rw [Select.withNested_eq]
      exact List.mem_cons_of_mem _ hnested

/-- If queries are kept `Apart` in `t`, no select of the bound tree is inside another with the same
scope. So inside nested selects the way to the row of each is another one. -/
theorem nested_scopes_apart {o : Options} {H : String → Bool} {t tree bound : Expr}
    {params : Params} {n : Nat} (hw : t.Written) (hH : t.Apart H)
    (hname : Yields t.nameCaptures (.empty o) tree params) (hbind : Yields tree.bind 0 bound n) :
    (∀ s ∈ bound.selects false, ∀ u ∈ s.nested false, u.scope ≠ s.scope) ∧
      ∀ path : List Select, NestedSelects bound path → ∀ (params : Params) (start : Nesting),
        path.Pairwise fun s u => ∃ there here : List Surql.Part,
          let state : LowerState := ⟨params, start.within (path.map (·.scope))⟩
          Yields (LowerM.rowPath s.scope) state there state ∧
            Yields (LowerM.rowPath u.scope) state here state ∧ there ≠ here := by
  have hbound := binds_bindWith _ tree 0 bound n (ready_of_nameCaptures hw hH hname) hbind
  have hscopes : ∀ s ∈ bound.selects false, ∀ u ∈ s.nested false, u.scope ≠ s.scope := by
    intro s hs u hu
    exact (hbound.settled.selects s (selects_subset.1 bound hs)).1.inside u (s.nested_subset hu)
  refine ⟨hscopes, fun path hpath params start => ?_⟩
  have hmem : ∀ s ∈ path, s ∈ bound.selects false := hpath.mem_selects
  -- Scopes that are all different have different depths, and ways of different length are
  -- different.
  have hnodup : (path.map (·.scope)).Nodup := by
    rw [List.Nodup, List.pairwise_map]
    exact hpath.pairwise.imp_of_mem fun hs _ hu => (hscopes _ (hmem _ hs) _ hu).symm
  have hdepth := (start.depth_within hnodup).2
  rw [List.pairwise_map] at hdepth
  refine hdepth.imp fun h => ?_
  obtain ⟨d, d', hd, hd', hlt⟩ := h
  obtain ⟨there, hthere, hlen⟩ := LowerM.yields_rowPath (s := ⟨params, _⟩) hd
  obtain ⟨here, hhere, hlen'⟩ := LowerM.yields_rowPath (s := ⟨params, _⟩) hd'
  refine ⟨there, here, hthere, hhere, ?_⟩
  rintro rfl
  omega

/-- Whether `t` can be named and bound, and the bound tree passes `test`. -/
def Expr.bindsTo (o : Options) (test : Expr → Bool) (t : Expr) : Bool :=
  match t.nameCaptures.run (.empty o) with
  | .ok (tree, _) =>
    match (tree.bind.run.run 0).1 with
    | .ok bound => test bound
    | .error _ => false
  | .error _ => false

theorem Expr.exists_of_bindsTo {o : Options} {test : Expr → Bool} {t : Expr}
    (h : t.bindsTo o test = true) : ∃ tree params bound n,
      Yields t.nameCaptures (.empty o) tree params ∧ Yields tree.bind 0 bound n ∧
        test bound = true := by
  unfold bindsTo at h
  split at h
  · rename_i tree params hname
    cases hrun : (tree.bind.run.run 0 : Except Error Expr × Nat) with
    | mk result n =>
      rw [hrun] at h
      cases result with
      | ok bound => exact ⟨tree, params, bound, n, hname, hrun, h⟩
      | error e => cases h
  · cases h

namespace Sample

/-- The posts of each user, where one of them passes a test whose variable holds a query that it
does not mention. -/
def postsOfUsers : Expr :=
  on (on (rows "user") "Select"
      [fn "u" (on (rows "post") "Where" [fn "p" ((col "p" "author").eq (col "u" "id"))])])
    "Where" [fn "ps" (on (var "ps") "Any" [fn "p" ((col "p" "x").eq (col "p" "y"))])]

/-- The posts for each user, where one has the same column as another. The variable in the outer
test holds a query, and the test mentions it. -/
def pairsOfPosts : Expr :=
  on (on (rows "user") "Select" [fn "u" (rows "post")]) "Where"
    [fn "ps" (on (var "ps") "Any"
      [fn "q" (on (var "ps") "Any" [fn "r" ((col "r" "x").eq (col "q" "x"))])])]

end Sample

section
open Sample

theorem nested_scopes_apart_postsOfUsers :
    postsOfUsers.Written ∧ postsOfUsers.Apart (· == "ps") ∧ ∃ tree params bound n,
      Yields postsOfUsers.nameCaptures (.empty .standard) tree params ∧ Yields tree.bind 0 bound n ∧
        (bound.selects false).length = 3 ∧
        ∀ s ∈ bound.selects false, ∀ u ∈ s.nested false, u.scope ≠ s.scope := by
  have hw : postsOfUsers.Written := by decide +kernel
  have hH : postsOfUsers.Apart (· == "ps") := by decide +kernel
  have hrun : postsOfUsers.bindsTo .standard (fun b => (b.selects false).length == 3) = true := by
    decide +kernel
  obtain ⟨tree, params, bound, n, hname, hbind, hlen⟩ := Expr.exists_of_bindsTo hrun
  exact ⟨hw, hH, tree, params, bound, n, hname, hbind, by simpa using hlen,
    (nested_scopes_apart hw hH hname hbind).1⟩

/-- In `pairsOfPosts` queries are not kept apart, and a select is inside another with the same
scope. -/
theorem pairsOfPosts_scopes_clash :
    pairsOfPosts.Written ∧ ∃ tree params bound n,
      Yields pairsOfPosts.nameCaptures (.empty .standard) tree params ∧ Yields tree.bind 0 bound n ∧
        ∃ s ∈ bound.selects false, ∃ u ∈ s.nested false, u.scope = s.scope := by
  have hrun : pairsOfPosts.bindsTo .standard (fun b => (b.selects false).any fun s =>
      (s.nested false).any fun u => u.scope == s.scope) = true := by
    decide +kernel
  obtain ⟨tree, params, bound, n, hname, hbind, hclash⟩ := Expr.exists_of_bindsTo hrun
  refine ⟨by decide +kernel, tree, params, bound, n, hname, hbind, ?_⟩
  simpa using hclash

end

end QueryTree
