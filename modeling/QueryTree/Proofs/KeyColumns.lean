import QueryTree.Proofs.Composed
import QueryTree.Proofs.Meaning

/-!
# The columns of a key

A key is computed for the rows that are grouped, stored in the rows of the grouped select and read
back from there. Whether it is an object, a path or anything else, what is read back was computed,
and rows are in one group if their keys are equal (`Semantics.KeysAgree`).
-/

namespace QueryTree

/-! ## Objects -/

namespace Semantics

section
variable {V : Type} (M : Semantics V)

/-- Members `set` under other names do not matter. -/
theorem member_foldl_set {name : String} {members : List (String × V)}
    (h : name ∉ members.map (·.1)) (t : Ty) (o : V) :
    M.node (.member .hole name t) [members.foldl (fun o m => M.set o m.1 m.2) o] =
      M.node (.member .hole name t) [o] := by
  induction members generalizing o with
  | nil => rfl
  | cons m members ih =>
    simp only [List.map_cons, List.mem_cons, not_or] at h
    rw [List.foldl_cons, ih h.2, M.member_set_of_ne _ _ _ _ _ h.1]

/-- A member of a `record` is what it was made with, if the names are different. -/
theorem member_record {members : List (String × V)} (hnames : (members.map (·.1)).Nodup)
    {name : String} {v : V} (h : (name, v) ∈ members) (t : Ty) :
    M.node (.member .hole name t) [M.record members] = v := by
  have hfold : ∀ o, M.node (.member .hole name t)
      [members.foldl (fun o m => M.set o m.1 m.2) o] = v := by
    induction members with
    | nil => cases h
    | cons m members ih =>
      intro o
      rw [List.map_cons, List.nodup_cons] at hnames
      rw [List.foldl_cons]
      rcases List.mem_cons.mp h with rfl | h
      · rw [M.member_foldl_set hnames.1, M.member_set]
      · exact ih hnames.2 h _
  exact hfold M.empty

theorem member_record_map {α : Type} {items : List α} {name : α → String} (f : α → V)
    (hnames : (items.map name).Nodup) {a : α} (ha : a ∈ items) (t : Ty) :
    M.node (.member .hole (name a) t) [M.record (items.map fun a => (name a, f a))] = f a := by
  refine M.member_record ?_ (List.mem_map.mpr ⟨a, ha, rfl⟩) t
  rw [List.map_map]
  exact hnames

/-- Two `record`s with the same names are equal if all members are. -/
theorem record_eq_iff {α : Type} {items : List α} {name : α → String} {f g : α → V}
    (hnames : (items.map name).Nodup) :
    M.record (items.map fun a => (name a, f a)) = M.record (items.map fun a => (name a, g a)) ↔
      ∀ a ∈ items, f a = g a := by
  constructor
  · intro h a ha
    rw [← M.member_record_map f hnames ha .unknown, h, M.member_record_map g hnames ha]
  · intro h
    congr 1
    refine List.map_congr_left fun a ha => ?_
    rw [h a ha]

/-- What was stored at the end of `path` is read from there. -/
theorem read_store (path : List (String × Ty)) (o v : V) :
    path.foldl (fun o m => M.node (.member .hole m.1 m.2) [o]) (M.store o (path.map (·.1)) v) =
      v := by
  induction path generalizing o with
  | nil => rfl
  | cons m path ih =>
    rw [List.map_cons, store, List.foldl_cons, M.member_set]
    exact ih _

end

end Semantics

/-! ## Paths -/

section
variable {scope : ScopeId} {e : Expr}

theorem Expr.memberPath_ne_nil (h : e.isRowPath scope = true) : e.memberPath ≠ [] := by
  obtain ⟨base, name, t, rfl, -⟩ := isRowPath_cases h
  simp [memberPath]

/-- A path with `isRowPath` reads its members one after the other. -/
theorem Semantics.value_rowPath {V : Type} [DecidableEq V] (M : Semantics V) (σ : Scene V)
    (h : e.isRowPath scope = true) : M.value σ e =
      e.memberPath.foldl (fun o m => M.node (.member .hole m.1 m.2) [o]) (σ.rows scope) := by
  induction e using Expr.childrenInduction with
  | step e ih =>
    obtain ⟨base, name, t, rfl, hbase⟩ := Expr.isRowPath_cases h
    rw [Expr.memberPath, List.foldl_append]
    rcases hbase with ⟨t', rfl⟩ | hbase
    · rfl
    · rw [← ih base (by simp [Expr.children]) hbase]
      rfl

/-- A path with the rows of `target` reads the same members from there. -/
theorem Semantics.value_rebase {V : Type} [DecidableEq V] (M : Semantics V) (σ : Scene V)
    (target : ScopeId) (h : e.isRowPath scope = true) : M.value σ (e.rebase scope target) =
      e.memberPath.foldl (fun o m => M.node (.member .hole m.1 m.2) [o]) (σ.rows target) := by
  induction e using Expr.childrenInduction with
  | step e ih =>
    obtain ⟨base, name, t, rfl, hbase⟩ := Expr.isRowPath_cases h
    rw [Expr.rebase_member, Expr.memberPath, List.foldl_append]
    rcases hbase with ⟨t', rfl⟩ | hbase
    · rw [Expr.rebase_row]
      rfl
    · rw [← ih base (by simp [Expr.children]) hbase]
      rfl

end

/-! ## Keys -/

namespace Semantics

section
variable {V : Type} [DecidableEq V] (M : Semantics V) (σ : Scene V) (inner : Expr)
  (source groups : ScopeId)

/-- The key of `row`. -/
def keyOf (row : V) : V := M.value (σ.enter source [row]) inner

/-- What the grouped select puts out for `row`. -/
def keyRecord (row : V) : V :=
  M.output (σ.enter source [row]) (.fields (GroupKey.columns inner source groups).1)

/-- The tuple by which `row` is grouped. -/
def keyTuple (row : V) : List V :=
  M.valueList (σ.enter source [M.keyRecord σ inner source groups row])
    (GroupKey.terms (GroupKey.columns inner source groups).1 source)

/-- The three forms of a key say the same. -/
structure KeysAgree : Prop where
  /-- Rows are grouped by their keys. -/
  tuple : ∀ row row', M.keyTuple σ inner source groups row = M.keyTuple σ inner source groups row' ↔
    M.keyOf σ inner source row = M.keyOf σ inner source row'
  /-- The key that is read back is the one of the row. -/
  outer : ∀ (τ : Scene V) row, τ.rows groups = M.keyRecord σ inner source groups row →
    M.value τ (GroupKey.columns inner source groups).2 = M.keyOf σ inner source row
  /-- The condition on the rows of a group holds for the rows with its key. -/
  equality : ∀ row row', M.holds (M.value
      ((σ.enter groups [M.keyRecord σ inner source groups row]).enter source [row'])
      (GroupKey.equality inner (GroupKey.columns inner source groups).2)) = true ↔
    M.keyOf σ inner source row' = M.keyOf σ inner source row

variable {inner source groups}

/-- A `Plain` expression does not depend on a row that it does not mention. -/
theorem value_enter_other {e : Expr} (hplain : e.Plain) (hrow : ∀ t, Expr.row groups t ∉ e.nodes)
    (others : List V) (row : V) :
    M.value ((σ.enter groups others).enter source [row]) e = M.value (σ.enter source [row]) e := by
  rw [M.value_of_plain hplain, M.value_of_plain hplain]
  refine Interpretation.value_congr _ (fun _ _ => rfl) fun c t hc => ?_
  have hne : c ≠ groups := by
    rintro rfl
    exact hrow t hc
  by_cases hsource : c = source
  · simp [Scene.enter, hsource]
  · simp [Scene.enter, hsource, hne]

theorem value_rowMember (τ : Scene V) (scope : ScopeId) (rowType : Ty) (name : String) (t : Ty) :
    M.value τ (Expr.rowMember scope rowType name t) =
      M.node (.member .hole name t) [τ.rows scope] :=
  rfl

theorem holds_value_eq (τ : Scene V) (a b : Expr) :
    M.holds (M.value τ (a.eq b)) = true ↔ M.value τ a = M.value τ b := by
  rw [Expr.eq, Expr.combine, M.value_eq rfl rfl]
  exact M.holds_equal _ _ _

theorem KeysAgree.of_single (hplain : inner.Plain) (hrow : ∀ t, Expr.row groups t ∉ inner.nodes)
    (hequality : GroupKey.equality inner (GroupKey.columns inner source groups).2 =
      inner.eq (GroupKey.columns inner source groups).2)
    (htuple : ∀ row, M.keyTuple σ inner source groups row = [M.keyOf σ inner source row])
    (houter : ∀ (τ : Scene V) row, τ.rows groups = M.keyRecord σ inner source groups row →
      M.value τ (GroupKey.columns inner source groups).2 = M.keyOf σ inner source row)
    (hne : source ≠ groups) : M.KeysAgree σ inner source groups where
  tuple row row' := by
    rw [htuple, htuple, List.cons.injEq]
    simp
  outer := houter
  equality row row' := by
    rw [hequality, M.holds_value_eq, M.value_enter_other σ hplain hrow]
    have hback : ((σ.enter groups [M.keyRecord σ inner source groups row]).enter source [row']).rows
        groups = M.keyRecord σ inner source groups row := by
      simp [Scene.enter, hne.symm]
    rw [houter _ row hback]
    rfl

/-- A key with `isRowPath` is stored under the path. -/
theorem KeysAgree.of_rowPath (hplain : inner.Plain) (hrow : ∀ t, Expr.row groups t ∉ inner.nodes)
    (hne : source ≠ groups) (hpath : inner.isRowPath source = true) :
    M.KeysAgree σ inner source groups := by
  obtain ⟨base, name, t, hmember, -⟩ := Expr.isRowPath_cases hpath
  have hcolumns : GroupKey.columns inner source
      groups = ([⟨inner, none⟩], inner.rebase source groups) := by
    subst hmember
    simp [GroupKey.columns, hpath]
  have hrecord : ∀ row, M.keyRecord σ inner source groups row =
      M.store M.empty (inner.memberPath.map (·.1)) (M.keyOf σ inner source row) := by
    intro row
    -- A path has a member, so the field is stored under it and not under a label.
    have hstored : OutputField.path ⟨inner, none⟩ = inner.memberPath.map (·.1) := by
      unfold OutputField.path
      split
      · rename_i hlabel
        cases hlabel
      · rename_i hnil
        exact absurd hnil (Expr.memberPath_ne_nil hpath)
      · rfl
    rw [keyRecord, hcolumns, output, fieldValues, fieldValues, hstored]
    rfl
  refine .of_single M σ hplain hrow ?_ (fun row => ?_) (fun τ row hτ => ?_) hne
  · rw [hcolumns, hmember]
    rfl
  · have hterms : GroupKey.terms (GroupKey.columns inner source groups).1 source = [inner] := by
      rw [hcolumns]
      rfl
    rw [keyTuple, hterms, valueList, valueList, M.value_rowPath _ hpath]
    rw [Scene.rows_enter_self, hrecord, M.read_store]
  · rw [hcolumns, M.value_rebase _ _ hpath, hτ, hrecord]
    exact M.read_store _ _ _

/-- A key that is neither an object nor a path is stored under a name of its own. -/
theorem KeysAgree.of_computed (hplain : inner.Plain) (hrow : ∀ t, Expr.row groups t ∉ inner.nodes)
    (hne : source ≠ groups) {rowType : Ty} (hcolumns : GroupKey.columns inner source groups =
      ([⟨inner, some "Key"⟩], Expr.rowMember groups rowType "Key" inner.ty)) :
    M.KeysAgree σ inner source groups := by
  have hrecord : ∀ row, M.keyRecord σ inner source groups row =
      M.set M.empty "Key" (M.keyOf σ inner source row) := by
    intro row
    rw [keyRecord, hcolumns]
    rfl
  refine .of_single M σ hplain hrow ?_ (fun row => ?_) (fun τ row hτ => ?_) hne
  · rw [hcolumns]
    cases inner <;> rfl
  · rw [keyTuple, hcolumns]
    show [M.value _ (Expr.rowMember source _ "Key" inner.ty)] = _
    rw [M.value_rowMember, Scene.rows_enter_self, hrecord, M.member_set]
  · rw [hcolumns, M.value_rowMember, hτ, hrecord, M.member_set]

/-- A `foldl` of `Expr.and` holds if all conditions do. -/
theorem holds_foldl_and (τ : Scene V) (first : Expr) (rest : List Expr) :
    M.holds (M.value τ (rest.foldl Expr.and first)) = true ↔
      ∀ c ∈ first :: rest, M.holds (M.value τ c) = true := by
  induction rest generalizing first with
  | nil => simp
  | cons c rest ih =>
    have hand : M.holds (M.value τ (first.and c)) =
        (M.holds (M.value τ first) && M.holds (M.value τ c)) := by
      rw [Expr.and, Expr.combine, M.value_eq rfl rfl]
      exact M.holds_and _ _ _
    rw [List.foldl_cons, ih]
    simp [hand, and_assoc]

theorem value_newObject (τ : Scene V) (t : Ty) (members : List (String × Expr)) :
    M.value τ (.newObject t members) = M.record (members.map fun m => (m.1, M.value τ m.2)) := by
  have hvalues : (Expr.newObject t members).children.map (M.value τ) =
      members.map fun m => M.value τ m.2 := by
    simp [Expr.children]
  rw [M.value_eq rfl rfl, hvalues, M.node_object _ _ _ (by simp), List.zip_map']
  rfl

/-- `equality` compares two objects member by member, here one with the members of a row. -/
theorem holds_equality_object (τ : Scene V) {t : Ty} {members : List (String × Expr)}
    (hmembers : members ≠ []) : M.holds (M.value τ (GroupKey.equality (.newObject t members)
      (.newObject t (members.map fun m => (m.1, Expr.rowMember groups t m.1 m.2.ty))))) = true ↔
        ∀ m ∈ members, M.value τ m.2 = M.node (.member .hole m.1 m.2.ty) [τ.rows groups] := by
  have hzip : List.zipWith (fun (a b : String × Expr) => a.2.eq b.2) members
      (members.map fun m => (m.1, Expr.rowMember groups t m.1 m.2.ty)) =
        members.map fun m => m.2.eq (Expr.rowMember groups t m.1 m.2.ty) := by
    rw [List.zipWith_map_right, List.zipWith_self]
  cases members with
  | nil => exact absurd rfl hmembers
  | cons m members =>
    rw [GroupKey.equality, hzip, List.map_cons]
    simp only [M.holds_foldl_and, List.forall_mem_cons, List.forall_mem_map, M.holds_value_eq,
      M.value_rowMember]

/-- A key that is an object is stored member by member. -/
theorem KeysAgree.of_object {t : Ty} {members : List (String × Expr)}
    (hplain : (Expr.newObject t members).Plain)
    (hrow : ∀ t', Expr.row groups t' ∉ (Expr.newObject t members).nodes) (hne : source ≠ groups)
    (hnames : (members.map (·.1)).Nodup) (hmembers : members ≠ []) :
    M.KeysAgree σ (.newObject t members) source groups := by
  -- A key without members is written like a single value, which is why there has to be one.
  have hcolumns : GroupKey.columns (.newObject t members) source groups =
      (members.map fun m => ⟨m.2, some m.1⟩,
        .newObject t (members.map fun m => (m.1, Expr.rowMember groups t m.1 m.2.ty))) := by
    cases members with
    | nil => exact absurd rfl hmembers
    | cons m members => rfl
  have hkey : ∀ row, M.keyOf σ (.newObject t members) source row =
      M.record (members.map fun m => (m.1, M.keyOf σ m.2 source row)) :=
    fun row => M.value_newObject _ t members
  have hrecord : ∀ row, M.keyRecord σ (.newObject t members) source groups row =
      M.record (members.map fun m => (m.1, M.keyOf σ m.2 source row)) := by
    intro row
    rw [keyRecord, hcolumns, output, M.fieldValues_eq, List.map_map, List.foldl_map, record,
      List.foldl_map]
    rfl
  have htuple : ∀ row, M.keyTuple σ (.newObject t members) source groups row =
      members.map fun m => M.keyOf σ m.2 source row := by
    intro row
    rw [keyTuple, M.valueList_eq, hcolumns, hrecord, GroupKey.terms, List.map_map, List.map_map]
    refine List.map_congr_left fun m hm => ?_
    show M.value _ (Expr.rowMember source _ m.1 m.2.ty) = _
    rw [M.value_rowMember, Scene.rows_enter_self]
    exact M.member_record_map (fun m => M.keyOf σ m.2 source row) hnames hm m.2.ty
  have hiff : ∀ row row', M.keyOf σ (.newObject t members) source row =
      M.keyOf σ (.newObject t members) source row' ↔
        ∀ m ∈ members, M.keyOf σ m.2 source row = M.keyOf σ m.2 source row' := by
    intro row row'
    rw [hkey, hkey, M.record_eq_iff hnames]
  -- The three forms of the key: the tuple that is grouped by, the object that is read back, and the
  -- condition.
  constructor
  · intro row row'
    rw [htuple, htuple, hiff, List.map_inj_left]
  · intro τ row hτ
    rw [hcolumns, M.value_newObject, List.map_map, hkey]
    congr 1
    refine List.map_congr_left fun m hm => Prod.ext rfl ?_
    show M.value τ (Expr.rowMember groups t m.1 m.2.ty) = _
    rw [M.value_rowMember, hτ, hrecord]
    exact M.member_record_map (fun m => M.keyOf σ m.2 source row) hnames hm m.2.ty
  · intro row row'
    rw [hcolumns, hiff]
    rw [M.holds_equality_object _ hmembers]
    refine forall₂_congr fun m hm => ?_
    have hchild : m.2 ∈ (Expr.newObject t members).children := List.mem_map_of_mem hm
    rw [M.value_enter_other σ (fun n hn => hplain n (Expr.mem_nodes_of_child hchild hn))
      (fun t' ht' => hrow t' (Expr.mem_nodes_of_child hchild ht')),
      Scene.rows_enter_of_ne _ hne.symm, Scene.rows_enter_self, hrecord,
      M.member_record_map (fun m => M.keyOf σ m.2 source row) hnames hm]
    rfl

/-- Whatever `inner` is, its forms agree, if the members of an object have different names. -/
theorem keysAgree (hplain : inner.Plain) (hrow : ∀ t, Expr.row groups t ∉ inner.nodes)
    (hne : source ≠ groups)
    (hnames : ∀ t members, inner = .newObject t members → (members.map (·.1)).Nodup) :
    M.KeysAgree σ inner source groups := by
  by_cases hpath : inner.isRowPath source = true
  · exact .of_rowPath M σ hplain hrow hne hpath
  · by_cases hobject : ∃ t members, inner = .newObject t members ∧ members ≠ []
    · obtain ⟨t, members, rfl, hmembers⟩ := hobject
      exact .of_object M σ hplain hrow hne (hnames t members rfl) hmembers
    · have hcolumns : GroupKey.columns inner source groups = ([⟨inner, some "Key"⟩],
          Expr.rowMember groups (.anonymous [("Key", inner.ty)]) "Key" inner.ty) := by
        unfold GroupKey.columns
        split
        · rename_i t m members
          exact absurd ⟨t, m :: members, rfl, nofun⟩ hobject
        · rw [if_neg hpath]
      exact .of_computed M σ hplain hrow hne hcolumns

end

end Semantics

end QueryTree
