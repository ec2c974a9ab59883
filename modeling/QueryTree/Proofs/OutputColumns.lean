import QueryTree.Proofs.KeyColumns
import QueryTree.Proofs.Tracked

/-!
# The columns that a select puts out

A field of a row is stored under its label, or else under its path (`OutputField.place`), and the
statement of a select has the same columns in the same order. What is stored at a place is read from
there, unless something is stored around it or inside it.
-/

namespace QueryTree

open Lowering (isComputed isNullable)

/-! ## Places -/

/-- The columns on the path from a row to a value. What may be missing has its value in its own
place. -/
def Expr.columnPath : Expr → List String
  | .member base name _ =>
    if isNullable base.ty && name == "Value" then base.columnPath
    else base.columnPath ++ [base.ty.columnName name]
  | _ => []
termination_by structural e => e

/-- The columns under which `f` is stored. -/
def OutputField.place (f : OutputField) : List String :=
  match f.label with
  | some label => [label]
  | none => f.expr.columnPath

/-- The columns that a term goes through. -/
def Surql.Term.fieldNames : Surql.Term → List String
  | .path parts => parts.filterMap fun part => match part with
    | .field name => some name
    | _ => none
  | _ => []

/-- The columns under which `c` is stored. -/
def Surql.Column.place (c : Surql.Column) : List String :=
  match c.label with
  | some label => [label]
  | none => c.term.fieldNames

/-- `f` is stored under a label, or is a path of the row. -/
def OutputField.Placed (scope : ScopeId) (f : OutputField) : Prop :=
  f.label = none → f.expr.isRowPath scope = true

/-- The members that `s` puts out, as far as they have names of their own. -/
def Select.memberNames (s : Select) : List String :=
  match s.projection with
  | .expr (.newObject _ members) => members.map (·.1)
  | .fields fields => fields.filterMap (·.label)
  | _ => []

/-- The columns that `s` puts out by name. -/
def Select.columnNames (s : Select) : List String :=
  match s.projection with
  | .expr (.newObject _ members) => members.map (·.1)
  | .fields fields => fields.filterMap (·.place.head?)
  | _ => []

theorem Select.memberNames_subset (s : Select) : s.memberNames ⊆ s.columnNames := by
  intro name h
  unfold memberNames at h
  unfold columnNames
  split at h
  · exact h
  · obtain ⟨f, hf, hlabel⟩ := List.mem_filterMap.mp h
    exact List.mem_filterMap.mpr ⟨f, hf, by simp [OutputField.place, hlabel]⟩
  · cases h

/-! ## Fields of groups -/

/-- The fields of `s` are stored somewhere, and a select over groups reads one whose fields are the
columns of the key. -/
structure Select.Keyed (s : Select) : Prop where
  fields : ∀ fields, s.projection = .fields fields → ∀ f ∈ fields, f.Placed s.scope
  grouped : ∀ key grouped, s.groupKey = some key → s.source = .subquery grouped →
    grouped.projection = .fields (GroupKey.columns key.inner key.source.scope s.scope).1

theorem GroupKey.placed_columns (inner : Expr) (source target : ScopeId) :
    ∀ f ∈ (GroupKey.columns inner source target).1, f.Placed source := by
  unfold GroupKey.columns
  split
  · intro f hf hlabel
    obtain ⟨m, -, rfl⟩ := List.mem_map.mp hf
    cases hlabel
  · split
    · rename_i hpath
      intro f hf _
      rw [List.mem_singleton.mp hf]
      exact hpath
    · intro f hf hlabel
      rw [List.mem_singleton.mp hf] at hlabel
      cases hlabel

namespace Select

section
variable {s s' grouped : Select} {scope : ScopeId} {c : Expr}

theorem keyed_ofSource (scope : ScopeId) (source : RowSource) (element : Ty) :
    (ofSource scope source element).Keyed where
  fields := by rintro _ ⟨⟩
  grouped := by rintro _ _ ⟨⟩

namespace Keyed

theorem update (h : s.Keyed) (hscope : s'.scope = s.scope) (hsource : s'.source = s.source)
    (hkey : s'.groupKey = none ∨ s'.groupKey = s.groupKey)
    (hfields : ∀ fields, s'.projection = .fields fields → ∀ f ∈ fields, f.Placed s'.scope) :
    s'.Keyed where
  fields := hfields
  grouped key grouped hk hg := by
    rcases hkey with hnone | hsame
    · rw [hnone] at hk
      cases hk
    · rw [hscope]
      exact h.grouped key grouped (hsame ▸ hk) (hsource ▸ hg)

theorem groupedBy (h : s.Keyed) (inner : Expr) (scope : ScopeId) :
    (s.groupedBy inner scope).Keyed := by
  refine h.update rfl rfl (.inr rfl) fun fields hp f hf => ?_
  cases hp
  exact GroupKey.placed_columns inner s.scope scope f hf

theorem groups (s : Select) (inner : Expr) (scope : ScopeId) : (s.groups inner scope).Keyed where
  fields fields hp f hf hlabel := by
    cases hp
    rcases List.mem_cons.mp hf with rfl | hf
    · cases hlabel
    · rw [List.mem_singleton.mp hf] at hlabel
      cases hlabel
  grouped key grouped hk hg := by
    cases hk
    cases hg
    rfl

theorem readingMerged (s grouped : Select) (c : Expr) : (s.readingMerged grouped c).Keyed where
  fields := by rintro _ ⟨⟩
  grouped := by rintro _ _ ⟨⟩

theorem withMerged (h : grouped.Keyed) (scope : ScopeId) (c : Expr) :
    (grouped.withMerged scope c).Keyed := by
  refine h.update rfl rfl (.inr rfl) fun fields hp f hf hlabel => ?_
  cases hp
  rcases List.mem_append.mp hf with hf | hf
  · split at hf
    · rename_i fields hp
      exact h.fields fields hp f hf hlabel
    · cases hf
  · unfold Binding.readBack at hf
    split at hf
    · obtain ⟨m, -, rfl⟩ := List.mem_map.mp hf
      cases hlabel
    · rw [List.mem_singleton.mp hf] at hlabel
      cases hlabel

end Keyed

end

end Select

/-! ## Columns of statements -/

namespace Lowering

variable {t : Ty} {base : Operand} {members : List (String × Operand)}
  {items : List (LowerM Surql.Term)}

theorem unwrap_of_isRecordType (h : Expr.isRecordType t = true) :
    (t.unwrap == .string) = false ∧ (t.unwrap == .prim .dateTime) = false ∧
      t.unwrap.isSpan = false ∧ t.unwrap.isVector = false ∧ knowsLength t.unwrap = false := by
  unfold Expr.isRecordType at h
  generalize t.unwrap = u at h
  split at h
  case h_5 => cases h
  all_goals exact ⟨rfl, rfl, rfl, rfl, rfl⟩

/-- The members of a record are stored, but for `Value` of one that may be missing. -/
theorem isComputed_of_isRecordType (h : Expr.isRecordType t = true) (name : String) :
    isComputed t name = (isNullable t && name == "Value") := by
  obtain ⟨hstring, hinstant, hspan, hvector, hlength⟩ := unwrap_of_isRecordType h
  simp [isComputed, hstring, hinstant, hspan, hvector, hlength]

theorem member_of_value (h : Expr.isRecordType base.expr.ty = true) {name : String}
    (hvalue : (isNullable base.expr.ty && name == "Value") = true) :
    member base members items name = base.lowered := by
  obtain ⟨hstring, hinstant, hspan, hvector, hlength⟩ := unwrap_of_isRecordType h
  simp only [member, hstring, hinstant, hspan, hvector, hlength, hvalue, Bool.false_and,
    Bool.false_eq_true, if_false, if_true]

end Lowering

section
variable {scope : ScopeId} {e : Expr} {state state' : LowerState} {fields : List OutputField}
  {s : Select}

theorem LowerM.yields_rowPath_self (h : state.nesting.depth scope = .ok 0) :
    Yields (LowerM.rowPath scope) state [] state := by
  obtain ⟨parts, hparts, hlen⟩ := LowerM.yields_rowPath h
  rw [List.length_eq_zero_iff.mp hlen] at hparts
  exact hparts

/-- A member of the row with `depth` 0 is a column. -/
theorem Expr.yields_lower_own (h : state.nesting.depth scope = .ok 0) {t u : Ty} {name : String}
    (hstored : isComputed t name = false) :
    Yields (Expr.member (.row scope t) name u).lower state (.path [.field (t.columnName name)])
      state := by
  have hmember : (Expr.member (.row scope t) name u).lower =
      Lowering.storedMember ⟨.row scope t, (Expr.row scope t).lower⟩ [] name :=
    Lowering.member_of_stored hstored
  rw [hmember]
  exact yields_bind.mpr ⟨[], state, LowerM.yields_rowPath_self h, yields_pure.mpr ⟨rfl, rfl⟩⟩

theorem Surql.Term.fieldNames_step (term : Surql.Term) (name : String) :
    (term.step (.field name)).fieldNames = term.fieldNames ++ [name] := by
  cases term <;> simp [step, fieldNames]

theorem Expr.isRecordType_of_isRowPath {base : Expr} {name : String} {t : Ty}
    (h : (Expr.member base name t).isRowPath scope = true) : isRecordType base.ty = true := by
  cases base <;> simp only [isRowPath, Bool.and_eq_true] at h <;> first | exact h.2 | exact h.1

/-- A path of the current row goes through `columnPath`. -/
theorem Expr.yields_lower_rowPath (h : state.nesting.depth scope = .ok 0)
    (hpath : e.isRowPath scope = true) :
    ∃ term, Yields e.lower state term state ∧ term.fieldNames = e.columnPath := by
  induction e using Expr.childrenInduction with
  | step e ih =>
    obtain ⟨base, name, t, rfl, hbase⟩ := Expr.isRowPath_cases hpath
    have hrecord := Expr.isRecordType_of_isRowPath hpath
    -- The value of something that may be missing adds no column to the path.
    by_cases hvalue : (isNullable base.ty && name == "Value") = true
    · have hlower : (Expr.member base name t).lower = base.lower :=
        @Lowering.member_of_value ⟨base, base.lower⟩ _ _ hrecord name hvalue
      rw [hlower, columnPath, if_pos hvalue]
      rcases hbase with ⟨t', rfl⟩ | hbase
      · refine ⟨.param "this", ?_, rfl⟩
        exact yields_bind.mpr ⟨[], state, LowerM.yields_rowPath_self h, yields_pure.mpr ⟨rfl, rfl⟩⟩
      · exact ih base (by simp [children]) hbase
    · have hstored : isComputed base.ty name = false := by
        rw [Lowering.isComputed_of_isRecordType hrecord]
        simpa using hvalue
      rw [columnPath, if_neg hvalue]
      rcases hbase with ⟨t', rfl⟩ | hbase
      · exact ⟨_, Expr.yields_lower_own h hstored, rfl⟩
      · obtain ⟨term, hterm, hnames⟩ := ih base (by simp [children]) hbase
        obtain ⟨base', name', t', rfl, -⟩ := Expr.isRowPath_cases hbase
        have hlower : (Expr.member (.member base' name' t') name t).lower = Lowering.storedMember
            ⟨.member base' name' t', (Expr.member base' name' t').lower⟩ [] name :=
          Lowering.member_of_stored hstored
        refine ⟨term.step (.field (t'.columnName name)), ?_, ?_⟩
        · rw [hlower]
          exact yields_bind.mpr ⟨term, state, hterm, yields_pure.mpr ⟨rfl, rfl⟩⟩
        · exact (Surql.Term.fieldNames_step term _).trans
            (congrArg (· ++ [t'.columnName name]) hnames)

/-- `lower` leaves the nesting as it was. -/
theorem Expr.nesting_of_lower {term : Surql.Term} (h : Yields e.lower state term state') :
    state'.nesting = state.nesting := by
  have hexpr := (lowers_alike (N := fun _ => True) (E := fun _ => True)
    hereditary_true trivial trivial (fun _ _ _ => trivial) trivial fun _ _ _ _ => trivial).1
  have hframe := (hexpr e trivial).lower.frame state
  have hrun : e.lower.run.run state = (.ok term, state') := h
  exact (congrArg (fun r => r.2.nesting) hrun).symm.trans hframe

theorem RowSource.nesting_of_lower {source : RowSource} {target : Surql.Target}
    (h : Yields source.lower state target state') : state'.nesting = state.nesting := by
  cases source with
  | table name => rw [(yields_pure.mp h).2]
  | subquery s =>
    obtain ⟨st, u, hst, hrest⟩ := yields_bind.mp h
    have hterm : Yields (Expr.subquery s).lower state (.subquery st) u :=
      yields_bind.mpr ⟨st, u, hst, yields_pure.mpr ⟨rfl, rfl⟩⟩
    rw [(yields_pure.mp hrest).2, Expr.nesting_of_lower hterm]

/-- The columns of fields are stored at their `place`. -/
theorem OutputField.places_of_lower (hfields : ∀ f ∈ fields, f.Placed scope)
    {columns : List Surql.Column} (h : state.nesting.depth scope = .ok 0)
    (hl : Yields (OutputField.lower fields) state columns state') :
    columns.map (·.place) = fields.map (·.place) := by
  induction fields generalizing state state' columns with
  | nil => rw [(yields_pure.mp hl).1]; rfl
  | cons f fields ih =>
    obtain ⟨e, label⟩ := f
    obtain ⟨term, u, hterm, hl⟩ := yields_bind.mp hl
    obtain ⟨rest, v, hrest, hl⟩ := yields_bind.mp hl
    obtain ⟨rfl, rfl⟩ := yields_pure.mp hl
    have hu : u.nesting.depth scope = .ok 0 := by rw [Expr.nesting_of_lower hterm, h]
    rw [List.map_cons, List.map_cons, ih (fun f hf => hfields f (List.mem_cons_of_mem _ hf))
      hu hrest]
    congr 1
    cases label with
    | some label => rfl
    | none =>
      -- A field without a label is a path, so there is only one term that it can be lowered to.
      obtain ⟨term', hterm', hnames⟩ :=
        Expr.yields_lower_rowPath h (hfields ⟨e, none⟩ List.mem_cons_self rfl)
      cases hterm.symm.trans hterm'
      exact hnames

theorem Expr.places_of_lowerColumns {members : List (String × Expr)} {columns : List Surql.Column}
    (h : Yields (Expr.lowerColumns members) state columns state') :
    columns.map (·.place) = members.map fun m => [m.1] := by
  induction members generalizing state state' columns with
  | nil => rw [(yields_pure.mp h).1]; rfl
  | cons m members ih =>
    obtain ⟨name, e⟩ := m
    obtain ⟨term, u, -, h⟩ := yields_bind.mp h
    obtain ⟨rest, v, hrest, h⟩ := yields_bind.mp h
    rw [(yields_pure.mp h).1, List.map_cons, List.map_cons, ih hrest]
    rfl

theorem LowerM.yields_withScope {α : Type} {x : LowerM α} {a : α}
    (h : Yields (LowerM.withScope scope x) state a state') :
    ∃ u, Yields x { state with nesting := (state.nesting.bind scope).2 } a u :=
  ⟨_, Prod.ext (Prod.mk.inj ((LowerM.run_withScope scope x state).symm.trans h)).1 rfl⟩

/-- `Select.lower` puts out what is lowered at its own level. -/
theorem Select.yields_lower {st : Surql.Statement} (h : Yields s.lower state st state') :
    ∃ u v, u.nesting.depth s.scope = .ok 0 ∧ Yields (s.projection.lower s.scope)
      u st.columns v := by
  obtain ⟨scope, element, source, projection, filter, group, orderings, take, skip,
    single, key⟩ := s
  rw [Select.lower] at h
  obtain ⟨w, h⟩ := LowerM.yields_withScope h
  obtain ⟨target, u, hsource, hrest⟩ := yields_bind.mp h
  obtain ⟨columns, v, hcolumns, hrest⟩ := yields_bind.mp hrest
  refine ⟨u, v, ?_, ?_⟩
  · rw [RowSource.nesting_of_lower hsource]
    exact Nesting.depth_bind_self state.nesting scope
  · obtain ⟨cond, v1, -, hrest⟩ := yields_bind.mp hrest
    obtain ⟨group', v2, -, hrest⟩ := yields_bind.mp hrest
    obtain ⟨order, v3, -, hrest⟩ := yields_bind.mp hrest
    obtain ⟨limit, v4, -, hrest⟩ := yields_bind.mp hrest
    obtain ⟨start, v5, -, hrest⟩ := yields_bind.mp hrest
    rw [(yields_pure.mp hrest).1]
    exact hcolumns

/-- The statement of a select with fields has a column for each field, at its `place`. -/
theorem Select.columns_of_fields {st : Surql.Statement} (hs : s.Keyed)
    (hp : s.projection = .fields fields) (h : Yields s.lower state st state') :
    ∃ columns, st.columns = .list columns ∧ columns.map (·.place) = fields.map (·.place) := by
  obtain ⟨u, v, hu, hcolumns⟩ := Select.yields_lower h
  rw [hp] at hcolumns
  obtain ⟨columns, w, hlist, hcolumns⟩ := yields_bind.mp hcolumns
  exact ⟨columns, (yields_pure.mp hcolumns).1, OutputField.places_of_lower (hs.fields fields hp)
    hu hlist⟩

/-- The statement of a select puts out its `columnNames`. -/
theorem Select.columns_of_lower {st : Surql.Statement} (hs : s.Keyed) (hnames : s.columnNames ≠ [])
    (h : Yields s.lower state st state') :
    ∃ columns, st.columns = .list columns ∧ columns.filterMap (·.place.head?) = s.columnNames := by
  have hhead : ∀ columns : List Surql.Column, columns.filterMap (·.place.head?) =
      (columns.map (·.place)).filterMap List.head? := fun columns => by rw [List.filterMap_map]; rfl
  -- Objects and fields are put out column by column; a select that puts out anything else names
  -- none.
  unfold columnNames at hnames ⊢
  split at hnames
  · rename_i t members hp
    obtain ⟨u, v, -, hcolumns⟩ := Select.yields_lower h
    rw [hp] at hcolumns
    cases members with
    | nil => exact absurd rfl hnames
    | cons m members =>
      obtain ⟨columns, w, hlist, hcolumns⟩ := yields_bind.mp hcolumns
      refine ⟨columns, (yields_pure.mp hcolumns).1, ?_⟩
      rw [hhead, Expr.places_of_lowerColumns hlist, List.filterMap_map]
      simp [Function.comp_def]
  · rename_i fields hp
    obtain ⟨columns, hlist, hplaces⟩ := Select.columns_of_fields hs hp h
    refine ⟨columns, hlist, ?_⟩
    rw [hhead, hplaces, List.filterMap_map]
    rfl
  · exact absurd rfl hnames

end

/-! ## Reading what is stored -/

namespace Semantics

section
variable {V : Type} (M : Semantics V)

/-- What is stored in `o` at the end of `path`. -/
def readAt (o : V) (path : List String) : V := path.foldl M.get o

theorem readAt_store_self (o : V) (path : List String) (v : V) :
    M.readAt (M.store o path v) path = v := by
  show path.foldl (fun o name => M.node (.member .hole name .unknown) [o]) _ = v
  have h := M.read_store (path.map fun name => (name, Ty.unknown)) o v
  simpa only [List.map_map, Function.comp_def, List.map_id', List.foldl_map] using h

/-- `store` does not matter to paths that are neither around `p` nor inside it. -/
theorem readAt_store_of_apart {p q : List String} (hpq : ¬ p <+: q) (hqp : ¬ q <+: p) (o v : V) :
    M.readAt (M.store o p v) q = M.readAt o q := by
  induction p generalizing q o with
  | nil => exact absurd q.nil_prefix hpq
  | cons name p ih =>
    cases q with
    | nil => exact absurd (List.nil_prefix) hqp
    | cons other q =>
      show M.readAt (M.get (M.set o name _) other) q = M.readAt (M.get o other) q
      by_cases hname : other = name
      · subst hname
        rw [get, M.member_set]
        exact ih (fun h => hpq (List.cons_prefix_cons.mpr ⟨rfl, h⟩))
          (fun h => hqp (List.cons_prefix_cons.mpr ⟨rfl, h⟩)) _
      · rw [get, M.member_set_of_ne _ _ _ _ _ hname]
        rfl

variable [DecidableEq V]

/-- The row with these `fields`, each stored in its place. -/
def putOut (σ : Scene V) (fields : List OutputField) : V :=
  fields.foldl (fun o f => M.store o f.place (M.value σ f.expr)) M.empty

/-- A field is read from its `place`, if what is stored there besides it is the same, and nothing
else is stored around it or inside it. -/
theorem readAt_putOut {σ : Scene V} {fields : List OutputField} {f : OutputField} (hf : f ∈ fields)
    (hother : ∀ g ∈ fields, g.place = f.place ∧ M.value σ g.expr = M.value σ f.expr ∨
      ¬ g.place <+: f.place ∧ ¬ f.place <+: g.place) :
    M.readAt (M.putOut σ fields) f.place = M.value σ f.expr := by
  -- Once the field is stored, it stays in its place.
  have hkeep : ∀ (gs : List OutputField) (o : V), gs ⊆ fields →
      (M.readAt o f.place = M.value σ f.expr ∨ f ∈ gs) →
        M.readAt (gs.foldl (fun o f => M.store o f.place (M.value σ f.expr)) o)
          f.place = M.value σ f.expr := by
    intro gs
    induction gs with
    | nil => exact fun o _ h => h.resolve_right List.not_mem_nil
    | cons g gs ih =>
      intro o hgs h
      obtain ⟨hg, hgs⟩ := List.cons_subset.mp hgs
      refine ih _ hgs ?_
      show M.readAt (M.store o g.place (M.value σ g.expr)) f.place = _ ∨ _
      rcases hother g hg with ⟨hplace, hvalue⟩ | ⟨haround, hinside⟩
      · rw [hplace, hvalue]
        exact .inl (M.readAt_store_self _ _ _)
      · refine h.imp (fun h => ?_) fun h => ?_
        · rw [M.readAt_store_of_apart haround hinside, h]
        · rcases List.mem_cons.mp h with rfl | h
          · exact absurd (List.prefix_refl _) haround
          · exact h
  exact hkeep fields M.empty (List.Subset.refl _) (.inr hf)

end

end Semantics

end QueryTree
