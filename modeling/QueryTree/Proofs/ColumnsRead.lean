import QueryTree.Proofs.Discipline
import QueryTree.Proofs.OutputColumns

/-!
# Columns that are read back

A select that reads another one looks for members under the columns their type names, while the
other one puts objects out under the names of their members. For types made up by the language these
are the same; a type of the caller can name another column. `columnsKept` compares the two, and the
notes taken when scopes are given out carry it to where columns are read.
-/

namespace QueryTree

open Lowering (isComputed isNullable)
open Binding

/-! ## Objects and their columns -/

/-- Whether the members of an object are read under names of its members. -/
def Expr.keepsColumns : Expr → Bool
  | .newObject t members => members.all fun m =>
    isComputed t m.1 || (members.map (·.1)).contains (t.columnName m.1)
  | _ => true

/-- Whether the objects that are put out for rows are read under names of their members. -/
def Projection.keepsColumns : Projection → Bool
  | .expr e => e.keepsColumns
  | _ => true

/-- `keepsColumns` of the objects that an operator groups by, or looks at in a window. -/
def columnsKept (op : QueryOp) (source : Expr) (args : List Expr) (r : Expr) : Bool :=
  match op, source, r with
  | .groupBy, _, .select s => s.groupKey.all (·.inner.keepsColumns)
  | op, .select s, _ =>
    !s.isWindowed || !(op == .count && !args.isEmpty || op.aggregate?.isSome) ||
      s.projection.keepsColumns
  | _, _, _ => true

theorem keepsColumns_of_columnsKept {s : Select} {op : QueryOp} {args : List Expr} {r : Expr}
    (hop : op = .count ∧ args ≠ [] ∨ op.aggregate?.isSome = true) (hwindow : s.isWindowed = true)
    (h : columnsKept op (.select s) args r = true) : s.projection.keepsColumns = true := by
  unfold columnsKept at h
  split at h
  · rcases hop with ⟨hop, -⟩ | hop <;> cases hop
  · rename_i heq _
    cases heq
    rcases hop with ⟨rfl, hargs⟩ | hop
    · simpa [hwindow, hargs] using h
    · simpa [hwindow, hop] using h
  · rename_i hother
    exact absurd rfl (hother s)

theorem Expr.mem_names_of_keepsColumns {t : Ty} {members : List (String × Expr)}
    (h : (Expr.newObject t members).keepsColumns = true) {name : String}
    (hname : name ∈ members.map (·.1)) (hstored : isComputed t name = false) :
    t.columnName name ∈ members.map (·.1) := by
  obtain ⟨m, hm, rfl⟩ := List.mem_map.mp hname
  have htest := List.all_eq_true.mp h m hm
  rw [hstored, Bool.false_or, List.contains_iff_mem] at htest
  exact htest

/-- The members of the rows of `s` are read under the columns that it puts out. -/
theorem Select.columnName_of_keepsColumns {s : Select} (h : s.projection.keepsColumns = true)
    {name : String} (hname : name ∈ s.memberNames)
    (hstored : isComputed s.projectedType name = false) :
    s.projectedType.columnName name ∈ s.columnNames := by
  obtain ⟨scope, element, source, projection, filter, group, orderings, take, skip,
    single, key⟩ := s
  rw [projectedType] at hstored ⊢
  unfold memberNames at hname
  unfold columnNames
  split at hname
  · rename_i t members hp
    cases hp
    exact Expr.mem_names_of_keepsColumns h hname hstored
  · rename_i fields hp
    cases hp
    exact Select.memberNames_subset ⟨scope, element, source, .fields fields, filter, group,
      orderings, take, skip, single, key⟩ hname
  · cases hname

/-! ## The columns of a key -/

namespace GroupKey

section
variable {e n inner : Expr} {source target : ScopeId}

/-- A path after `rebase` starts with its first column. -/
theorem nodes_rebase (hpath : e.isRowPath source = true) (hn : n ∈ (e.rebase source target).nodes) :
    (n.isMember = false → n.children = []) ∧ ∀ scope t name u, n = .member (.row scope t) name u →
      scope = target ∧
      (isComputed t name = false → e.columnPath.head? = some (t.columnName name)) := by
  induction e using Expr.childrenInduction with
  | step e ih =>
    obtain ⟨base, name, u, rfl, hbase⟩ := Expr.isRowPath_cases hpath
    have hrecord := Expr.isRecordType_of_isRowPath hpath
    rw [Expr.rebase_member] at hn
    -- Only the innermost member of a path is a member of the row; the others do not change the
    -- first column.
    rcases hbase with ⟨t, rfl⟩ | hbase
    · rw [Expr.rebase_row] at hn
      rcases Expr.mem_nodes_iff.mp hn with rfl | ⟨c, hc, hn⟩
      · refine ⟨by rintro ⟨⟩, ?_⟩
        rintro _ _ _ _ ⟨⟩
        refine ⟨rfl, fun hstored => ?_⟩
        have hvalue : (isNullable (Expr.row source t).ty && name == "Value") = false :=
          (Lowering.isComputed_of_isRecordType hrecord name).symm.trans hstored
        rw [Expr.columnPath, if_neg (Bool.eq_false_iff.mp hvalue)]
        rfl
      · obtain rfl := List.mem_singleton.mp hc
        obtain rfl := List.mem_singleton.mp hn
        exact ⟨fun _ => rfl, by rintro _ _ _ _ ⟨⟩⟩
    · rcases Expr.mem_nodes_iff.mp hn with rfl | ⟨c, hc, hn⟩
      · refine ⟨by rintro ⟨⟩, fun scope t name' u' heq => ?_⟩
        obtain ⟨base', name'', u'', rfl, -⟩ := Expr.isRowPath_cases hbase
        rw [Expr.rebase_member] at heq
        cases heq
      · obtain rfl := List.mem_singleton.mp hc
        obtain ⟨hchildren, hreads⟩ := ih base (by simp [Expr.children]) hbase hn
        refine ⟨hchildren, fun scope t name' u' heq => ?_⟩
        obtain ⟨hscope, hhead⟩ := hreads scope t name' u' heq
        refine ⟨hscope, fun hstored => ?_⟩
        rw [Expr.columnPath]
        split
        · exact hhead hstored
        · rw [List.head?_append, hhead hstored]
          rfl

/-- The expression of `columns` reads a key back under columns of the grouped select, never as a
whole row. -/
theorem nodes_columns (hkeep : inner.keepsColumns = true)
    (hn : n ∈ (columns inner source target).2.nodes) :
    (n.isMember = false → ∀ c ∈ n.children, ∀ scope t, c ≠ .row scope t) ∧
      ∀ scope t name u, n = .member (.row scope t) name u → scope = target ∧
        (isComputed t name = false →
        t.columnName name = name ∨ t.columnName name ∈ (columns inner source target).1.filterMap
          (·.place.head?)) := by
  have hrow : ∀ {t : Ty} {name : String} {u : Ty}, n ∈ (Expr.rowMember target t name u).nodes →
      n = Expr.rowMember target t name u ∨ n = .row target t := by
    intro t name u hn
    rcases Expr.mem_nodes_iff.mp hn with rfl | ⟨c, hc, hn⟩
    · exact .inl rfl
    · obtain rfl := List.mem_singleton.mp hc
      exact .inr (List.mem_singleton.mp hn)
  -- A key is an object, which is put together from its members, or a path, or a single value under
  -- a name of its own.
  unfold columns at hn ⊢
  split at hn
  · rename_i t m members
    rcases Expr.mem_nodes_iff.mp hn with rfl | ⟨c, hc, hn⟩
    · refine ⟨fun _ c hc scope t' heq => ?_, by rintro _ _ _ _ ⟨⟩⟩
      obtain ⟨m', hm', rfl⟩ := List.mem_map.mp hc
      obtain ⟨m'', -, rfl⟩ := List.mem_map.mp hm'
      cases heq
    · obtain ⟨m', hm', rfl⟩ := List.mem_map.mp hc
      obtain ⟨m'', hm'', rfl⟩ := List.mem_map.mp hm'
      rcases hrow hn with rfl | rfl
      · refine ⟨by rintro ⟨⟩, ?_⟩
        rintro _ _ _ _ ⟨⟩
        refine ⟨rfl, fun hstored => .inr ?_⟩
        have hname := Expr.mem_names_of_keepsColumns hkeep (List.mem_map_of_mem hm'') hstored
        rw [List.filterMap_map]
        simpa [OutputField.place, Function.comp_def] using hname
      · exact ⟨fun _ c hc => absurd hc List.not_mem_nil, by rintro _ _ _ _ ⟨⟩⟩
  · split at hn
    · rename_i hpath
      obtain ⟨hchildren, hreads⟩ := nodes_rebase hpath hn
      refine ⟨fun hmember c hc => ?_, fun scope t name u heq => ?_⟩
      · rw [hchildren hmember] at hc
        cases hc
      · obtain ⟨hscope, hhead⟩ := hreads scope t name u heq
        refine ⟨hscope, fun hstored => .inr ?_⟩
        rw [if_pos hpath]
        simp [OutputField.place, hhead hstored]
    · rcases hrow hn with rfl | rfl
      · refine ⟨by rintro ⟨⟩, ?_⟩
        rintro _ _ _ _ ⟨⟩
        exact ⟨rfl, fun _ => .inl rfl⟩
      · exact ⟨fun _ c hc => absurd hc List.not_mem_nil, by rintro _ _ _ _ ⟨⟩⟩

end

end GroupKey

/-! ## Notes -/

/-- `s` finds what `reads` says of its rows in its source. -/
structure Select.Answers (s : Select) (reads : Ty → String → Prop) : Prop extends s.Keyed where
  anonymous : ∀ ts name, reads (.anonymous ts) name
  element : s.projection = .all → ∀ name, reads s.element name
  columns : ∀ inner, s.source = .subquery inner → ∀ t name, reads t name →
    isComputed t name = false → name ∈ inner.memberNames → t.columnName name ∈ inner.columnNames
  /-- Over groups columns are found even if labels are added. -/
  groups : ∀ key inner, s.groupKey = some key → s.source = .subquery inner → ∀ t name,
    reads t name → isComputed t name = false → t.columnName name = name ∨
    t.columnName name ∈ inner.columnNames

/-- A member of the rows of `scope` is read as noted in `w`. -/
def ReadsAsNoted (w : List (Ty → String → Prop)) (scope : ScopeId) (t : Ty) (name : String) :
    Prop :=
  ∃ reads, w[scope.index]? = some reads ∧ reads t name

/-- For each scope it is noted which members of its rows are read, by the type that they have there.
-/
def columnsRead : Discipline (Ty → String → Prop) where
  row w scope t := ∀ name, ReadsAsNoted w scope t name
  node w e :=
    (e.isMember = false → ∀ c ∈ e.children, ∀ scope t, c = .row scope t → ∀ name,
      ReadsAsNoted w scope t name) ∧ ∀ scope t name u, e = .member (.row scope t) name u →
      ReadsAsNoted w scope t name
  select w s := ∃ reads, w[s.scope.index]? = some reads ∧ s.Answers reads

theorem note_append {w v : List (Ty → String → Prop)} {reads : Ty → String → Prop} {i : Nat}
    (h : w[i]? = some reads) : (w ++ v)[i]? = some reads := by
  rw [List.getElem?_append_left (List.getElem?_eq_some_iff.mp h).1, h]

theorem ReadsAsNoted.mono {w v : List (Ty → String → Prop)} {scope : ScopeId} {t : Ty}
    {name : String} (h : ReadsAsNoted w scope t name) : ReadsAsNoted (w ++ v) scope t name := by
  obtain ⟨reads, hnote, hreads⟩ := h
  exact ⟨reads, note_append hnote, hreads⟩

namespace Select.Answers

section
variable {s s' grouped inner : Select} {reads : Ty → String → Prop} {key : GroupKey} {e c : Expr}

/-- Rows that are put out whole have members of `projectedType`. -/
theorem wholeRow (h : s.Answers reads) (hexpr : ∀ e, s.projection ≠ .expr e)
    (hfields : ∀ fields, s.projection ≠ .fields fields) (name : String) :
    reads s.projectedType name := by
  have helement := fun hall => h.element hall name
  have hanonymous := fun ts => h.anonymous ts name
  clear h
  obtain ⟨scope, element, source, projection, filter, group, orderings, take, skip,
    single, key⟩ := s
  cases projection with
  | all => exact helement rfl
  | expr e => exact absurd rfl (hexpr e)
  | fields fields => exact absurd rfl (hfields fields)
  | count predicate => exact hanonymous _
  | aggregation kind selector label => exact hanonymous _

theorem update (h : s.Answers reads) (hsource : s'.source = s.source)
    (helement : s'.element = s.element) (hkey : s'.groupKey = none ∨ s'.groupKey = s.groupKey)
    (hall : s'.projection = .all → s.projection = .all) (hkeyed : s'.Keyed) : s'.Answers reads where
  toKeyed := hkeyed
  anonymous := h.anonymous
  element hp := helement ▸ h.element (hall hp)
  columns inner hinner := h.columns inner (hsource ▸ hinner)
  groups key inner hk hinner := by
    rcases hkey with hnone | hsame
    · rw [hnone] at hk
      cases hk
    · exact h.groups key inner (hsame ▸ hk) (hsource ▸ hinner)

/-- The rows of a table can be read in any way. -/
theorem ofTable (scope : ScopeId) (name : String) (element : Ty) :
    (Select.ofTable scope name element).Answers fun _ _ => True where
  toKeyed := Select.keyed_ofSource _ _ _
  anonymous _ _ := trivial
  element _ _ := trivial
  columns := by rintro _ ⟨⟩
  groups := by rintro _ _ ⟨⟩

/-- A select that reads `s` finds the members of its rows where `s` puts them out. -/
theorem reading (s' : Select) (hs' : s'.Keyed) (hsource : s'.source = .subquery s)
    (hkey : s'.groupKey = none)
    (h : s'.projection = .all → s'.element = s.projectedType ∧ s.projection.keepsColumns = true) :
    s'.Answers fun t name =>
      isComputed t name = false → name ∈ s.memberNames → t.columnName name ∈ s.columnNames where
  toKeyed := hs'
  anonymous _ _ _ hname := s.memberNames_subset hname
  element hall name hstored hname := by
    obtain ⟨helement, hkeep⟩ := h hall
    rw [helement] at hstored ⊢
    exact Select.columnName_of_keepsColumns hkeep hname hstored
  columns inner hinner t name hreads hstored hname := by
    cases hsource.symm.trans hinner
    exact hreads hstored hname
  groups := by
    intro _ _ hk
    cases hkey.symm.trans hk

/-- Groups are read under the columns of `groupedBy`, or under labels that are added later. -/
theorem ofGroups (s : Select) (inner : Expr) (scope : ScopeId) :
    (s.groups inner scope).Answers fun t name =>
    isComputed t name = false → t.columnName name = name ∨
      t.columnName name ∈ (s.groupedBy inner scope).columnNames where
  toKeyed := .groups s inner scope
  anonymous _ _ _ := .inl rfl
  element _ _ _ := .inl rfl
  columns inner hinner t name hreads hstored hname := by
    cases hinner
    rcases hreads hstored with heq | hmem
    · rw [heq]
      exact Select.memberNames_subset _ hname
    · exact hmem
  groups key inner _ hinner t name hreads hstored := by
    cases hinner
    exact hreads hstored

/-- `withMerged` adds labels to the columns of a key. -/
theorem columnNames_withMerged {fields : List OutputField}
    (hp : grouped.projection = .fields fields) (scope : ScopeId) (c : Expr) :
    grouped.columnNames ⊆ (grouped.withMerged scope c).columnNames := by
  intro name hname
  unfold columnNames at hname
  rw [hp] at hname
  unfold Select.withMerged columnNames
  simp only [Select.project, hp, List.filterMap_append]
  exact List.mem_append_left _ hname

theorem readingMerged (h : s.Answers reads) (hk : s.groupKey = some key)
    (hsource : s.source = .subquery grouped) (c : Expr) :
    (s.readingMerged grouped c).Answers reads where
  toKeyed := .readingMerged s grouped c
  anonymous := h.anonymous
  element _ := h.anonymous _
  columns inner hinner t name hreads hstored hname := by
    cases hinner
    rcases h.groups key grouped hk hsource t name hreads hstored with heq | hmem
    · rw [heq]
      exact Select.memberNames_subset _ hname
    · exact columnNames_withMerged (h.grouped key grouped hk hsource) s.scope c hmem
  groups := by rintro _ _ ⟨⟩

end

end Select.Answers

/-! ## Binding -/

theorem Expr.isMember_withChildren (e : Expr) (cs : List Expr) :
    (e.withChildren cs).isMember = e.isMember :=
  withChildren_congr (f := Expr.isMember) (fun h => by cases h <;> rfl) e cs

/-- A member of a row was one before `withChildren`, or its base is a row now. -/
theorem Expr.eq_member_of_withChildren {e : Expr} {cs : List Expr}
    (hlen : cs.length = e.children.length) {base : Expr} {name : String} {u : Ty}
    (h : e.withChildren cs = .member base name u) :
    ∃ base', e = .member base' name u ∧ cs = [base] := by
  have hchildren := children_withChildren hlen
  rw [h] at hchildren
  have hsame := e.sameNode_withChildren cs
  rw [h] at hsame
  cases hsame <;> exact ⟨_, rfl, hchildren.symm⟩

section
variable {w : List (Ty → String → Prop)} {e : Expr} {cs : List Expr}

theorem columnsRead_rebuild (h : columnsRead.node w e)
    (hcs : List.Forall₂ (fun c c' => c' = c ∨ columnsRead.Exposes w c') e.children cs) :
    columnsRead.node w (e.withChildren cs) := by
  have hlen : cs.length = e.children.length := hcs.length_eq.symm
  refine ⟨fun hmember c' hc' => ?_, fun scope t name u heq => ?_⟩
  · rw [Expr.isMember_withChildren] at hmember
    rw [Expr.children_withChildren hlen] at hc'
    obtain ⟨c, hc, rfl | hx⟩ := List.exists_of_forall₂_right hcs hc'
    · exact h.1 hmember c' hc
    · exact hx
  · obtain ⟨base, rfl, rfl⟩ := Expr.eq_member_of_withChildren hlen heq
    obtain ⟨hsame | hx, -⟩ := List.forall₂_cons.mp hcs
    · exact h.2 scope t name u (by rw [hsame])
    · exact hx scope t rfl name

/-- `columnsRead` is kept as long as `columnsKept`. -/
theorem columnsRead_kept : columnsRead.Kept columnsKept where
  row_mono h name := (h name).mono
  node_mono h := ⟨fun hmember c hc scope t heq name => (h.1 hmember c hc scope t heq name).mono,
    fun scope t name u heq => (h.2 scope t name u heq).mono⟩
  select_mono h := by
    obtain ⟨reads, hnote, hs⟩ := h
    exact ⟨reads, note_append hnote, hs⟩
  child {w e c} h hc := by
    cases hmember : e.isMember with
    | false => exact .inl (h.1 hmember c hc)
    | true => exact .inr rfl
  rebuild h hcs := columnsRead_rebuild h hcs
  assemble h := by
    refine ⟨fun _ c hc => h c hc, ?_⟩
    rintro scope t name u rfl
    exact h _ (List.mem_singleton_self _) scope t rfl name
  label h := by
    obtain ⟨reads, hnote, hs⟩ := h
    refine ⟨by rintro ⟨⟩, ?_⟩
    rintro _ _ _ _ ⟨⟩
    exact ⟨reads, hnote, hs.anonymous _ _⟩
  wholeRow h hexpr hfields name := by
    obtain ⟨reads, hnote, hs⟩ := h
    exact ⟨reads, hnote, hs.wholeRow hexpr hfields name⟩
  update h hscope helement hsource hkey _ hall hfields := by
    obtain ⟨reads, hnote, hs⟩ := h
    refine ⟨reads, hscope ▸ hnote, hs.update hsource helement hkey hall ?_⟩
    refine hs.toKeyed.update hscope hsource hkey fun fields hp => ?_
    rw [hscope]
    exact hs.fields fields (hfields fields hp)
  ofTable w name element := ⟨_, _, List.getElem?_concat_length, .ofTable _ name element⟩
  ofSelect _ hop hwindow hok := ⟨_, _, List.getElem?_concat_length,
    .reading _ (Select.keyed_ofSource _ _ _) rfl rfl fun _ =>
      ⟨rfl, keepsColumns_of_columnsKept hop hwindow hok⟩⟩
  counted {w s r} _ _ _ := by
    refine ⟨_, _, List.getElem?_concat_length, .reading (s := s) _ ?_ rfl rfl (by rintro ⟨⟩)⟩
    exact (Select.keyed_ofSource ⟨w.length⟩ (.subquery s) s.projectedType).update rfl rfl (.inl rfl)
      (by rintro _ ⟨⟩)
  groups {w s inner args} hs _ hok := by
    obtain ⟨reads, hnote, hself⟩ := hs.self
    refine ⟨_, ⟨_, List.getElem?_concat_length, .ofGroups s inner _⟩,
      ⟨reads, note_append hnote, ?_⟩, fun n hn => ?_⟩
    · exact hself.update rfl rfl (.inr rfl) (by rintro ⟨⟩) (hself.toKeyed.groupedBy inner _)
    · obtain ⟨hwhole, hreads⟩ := GroupKey.nodes_columns hok hn
      refine ⟨fun hmember c hc scope t heq => absurd heq (hwhole hmember c hc scope t),
        fun scope t name u heq => ?_⟩
      obtain ⟨rfl, hcolumn⟩ := hreads scope t name u heq
      exact ⟨_, List.getElem?_concat_length, hcolumn⟩
  merged {w s grouped key selector body merged c p fuel n k m} hs hk _ hsource _ _ _ _ _ := by
    obtain ⟨reads, hnote, hself⟩ := hs.self
    obtain ⟨reads', hnote', hgrouped⟩ := (hs.source hsource).self
    refine ⟨⟨reads, hnote, hself.readingMerged hk hsource c⟩, reads', hnote', ?_⟩
    exact hgrouped.update rfl rfl (.inr rfl) (by rintro ⟨⟩) (hgrouped.toKeyed.withMerged s.scope c)

end

theorem Expr.mem_selects_of_source {e : Expr} {s inner : Select} (hs : s ∈ e.selects true)
    (hsource : s.source = .subquery inner) : inner ∈ e.selects true := by
  apply (selects_trans true).1 e s hs
  rw [Select.withNested_eq]
  refine List.mem_cons_of_mem _
    (Select.mem_nested.mpr (.inr ⟨inner, ?_, inner.mem_withNested_self true⟩))
  simp [Select.inputs, hsource, RowSource.select?]

/-- If `columnsKept` holds of every operator, what a select reads of its own row is put out by its
source: a member of an object, or a label, is read under a column, and the statement of the source
has that column. -/
theorem columns_read_are_put_out {o : Options} {t tree bound : Expr} {params : Params} {n : Nat}
    (hw : t.Written) (hname : Yields t.nameCaptures (.empty o) tree params)
    (hbind : Yields tree.bind 0 bound n) (hcolumns : tree.Passes columnsKept) :
    ∀ s ∈ bound.selects true, ∀ inner, s.source = .subquery inner →
      ∀ c ∈ s.clauses true, ∀ t name u, Expr.member (.row s.scope t) name u ∈ c.nodes →
        name ∈ inner.memberNames → isComputed t name = false → ∃ column,
          (∀ state : LowerState, state.nesting.depth s.scope = .ok 0 →
            Yields (Expr.member (.row s.scope t) name u).lower state (.path [.field column])
              state) ∧
          ∀ state st state', Yields inner.lower state st state' →
            ∃ columns, st.columns = .list columns ∧ column ∈ columns.filterMap (·.place.head?) := by
  obtain ⟨w, hbound⟩ := columnsRead_kept.of_passes hw hname hbind hcolumns
  intro s hs inner hsource c hc t name u hread hmember hstored
  obtain ⟨⟨⟨reads, hnote, hself⟩, -⟩, hnodes⟩ := hbound.throughout.selects s hs
  have hinner : inner.Keyed := by
    obtain ⟨⟨⟨_, -, hinner⟩, -⟩, -⟩ :=
      hbound.throughout.selects inner (Expr.mem_selects_of_source hs hsource)
    exact hinner.toKeyed
  obtain ⟨reads', hnote', hreads⟩ := (hnodes c hc _ hread).1.2 s.scope t name u rfl
  cases hnote.symm.trans hnote'
  have hcolumn := hself.columns inner hsource t name hreads hstored hmember
  refine ⟨t.columnName name, fun state hdepth => Expr.yields_lower_own hdepth hstored,
    fun state st state' hl => ?_⟩
  obtain ⟨columns, hlist, hcolumns⟩ := Select.columns_of_lower hinner (List.ne_nil_of_mem hcolumn)
    hl
  exact ⟨columns, hlist, hcolumns ▸ hcolumn⟩

/-- Whether `s` reads a member of its own row from another select, so that `test` is passed. -/
def Select.anyRead (test : Select → Ty → String → Bool) (s : Select) : Bool :=
  match s.source with
  | .subquery inner => (s.clauses true).any fun c => c.nodes.any fun n => match n with
    | .member (.row scope t) name _ => scope == s.scope && test inner t name
    | _ => false
  | .table _ => false

theorem Select.exists_of_anyRead {test : Select → Ty → String → Bool} {s : Select}
    (h : s.anyRead test = true) :
    ∃ inner, s.source = .subquery inner ∧ ∃ c ∈ s.clauses true, ∃ t name u,
      Expr.member (.row s.scope t) name u ∈ c.nodes ∧ test inner t name = true := by
  unfold anyRead at h
  split at h
  · rename_i inner hsource
    obtain ⟨c, hc, h⟩ := List.any_eq_true.mp h
    obtain ⟨e, he, h⟩ := List.any_eq_true.mp h
    split at h
    · rename_i scope t name u
      rw [Bool.and_eq_true, beq_iff_eq] at h
      exact ⟨inner, hsource, c, hc, t, name, u, h.1 ▸ he, h.2⟩
    · cases h
  · cases h

namespace Sample

/-- How many of five posts have a title, a member of an object of type `t`. -/
def countNamed (t : Ty) : Expr :=
  on (on (on (rows "post") "Select" [fn "p" (.newObject t [("Name", col "p" "title")])]) "Take"
    [.constant (.int 5) .int32])
      "Count" [fn "u" ((col "u" "Name").eq (.constant (.string "x") .string))]

/-- Users, whose names are stored in `column`, or under their own name. -/
def userType (column : Option String) : Ty := .entity "User" [⟨"Name", column, .string⟩]

end Sample

section
open Sample

theorem columns_read_are_put_out_countNamed :
    (countNamed (userType none)).Written ∧ ∃ tree params bound n,
      Yields (countNamed (userType none)).nameCaptures (.empty .standard) tree params ∧
        Yields tree.bind 0 bound n ∧
        tree.Passes columnsKept ∧ ∃ s ∈ bound.selects true, ∃ inner, s.source = .subquery inner ∧
          ∃ c ∈ s.clauses true, ∃ t name u, Expr.member (.row s.scope t) name u ∈ c.nodes ∧
            name ∈ inner.memberNames ∧ isComputed t name = false ∧ ∃ column,
              (∀ state : LowerState, state.nesting.depth s.scope = .ok 0 →
                Yields (Expr.member (.row s.scope t) name u).lower state (.path [.field column])
                  state) ∧
              ∀ state st state', Yields inner.lower state st state' → ∃ columns,
                st.columns = .list columns ∧ column ∈ columns.filterMap (·.place.head?) := by
  have hw : (countNamed (userType none)).Written := by decide +kernel
  have hrun : (countNamed (userType none)).bindsTo .standard (fun b => (b.selects true).any fun s =>
      s.anyRead fun inner t name => inner.memberNames.contains name &&
        !isComputed t name) = true := by
    decide +kernel
  have hcolumns : ((countNamed (userType none)).nameCaptures.run (.empty .standard)).toOption.all
      (fun named => named.1.Passes columnsKept) = true := by
    decide +kernel
  obtain ⟨tree, params, bound, n, hname, hbind, hread⟩ := Expr.exists_of_bindsTo hrun
  rw [show _ = _ from hname] at hcolumns
  have hcolumns : tree.Passes columnsKept := of_decide_eq_true hcolumns
  obtain ⟨s, hs, hread⟩ := List.any_eq_true.mp hread
  obtain ⟨inner, hsource, c, hc, t, name, u, hnode, hread⟩ := Select.exists_of_anyRead hread
  simp only [Bool.and_eq_true, List.contains_iff_mem, Bool.not_eq_true'] at hread
  exact ⟨hw, tree, params, bound, n, hname, hbind, hcolumns, s, hs, inner, hsource, c, hc, t, name,
    u, hnode, hread.1, hread.2, columns_read_are_put_out hw hname hbind hcolumns s hs inner hsource
    c hc t name u hnode hread.1 hread.2⟩

/-- With another column for `Name`, the member that is put out under its name is looked for
elsewhere. -/
theorem countNamed_reads_other_column :
    (countNamed (userType (some "name"))).Written ∧ ∃ tree params bound n,
      Yields (countNamed (userType (some "name"))).nameCaptures (.empty .standard) tree params ∧
        Yields tree.bind 0 bound n ∧ ∃ s ∈ bound.selects true, ∃ inner, s.source = .subquery inner ∧
          ∃ c ∈ s.clauses true, ∃ t name u, Expr.member (.row s.scope t) name u ∈ c.nodes ∧
            name ∈ inner.memberNames ∧ isComputed t name = false ∧
              t.columnName name ∉ inner.columnNames := by
  have hrun : (countNamed (userType (some "name"))).bindsTo .standard
      (fun b => (b.selects true).any fun s =>
        s.anyRead fun inner t name => inner.memberNames.contains name && !isComputed t name &&
          !inner.columnNames.contains (t.columnName name)) = true := by
    decide +kernel
  obtain ⟨tree, params, bound, n, hname, hbind, hread⟩ := Expr.exists_of_bindsTo hrun
  obtain ⟨s, hs, hread⟩ := List.any_eq_true.mp hread
  obtain ⟨inner, hsource, c, hc, t, name, u, hnode, hread⟩ := Select.exists_of_anyRead hread
  simp only [Bool.and_eq_true, List.contains_iff_mem, Bool.not_eq_true', and_assoc] at hread
  refine ⟨by decide +kernel, tree, params, bound, n, hname, hbind, s, hs, inner, hsource, c, hc,
    t, name, u, hnode, hread.1, hread.2.1, ?_⟩
  simpa using hread.2.2

end

end QueryTree
