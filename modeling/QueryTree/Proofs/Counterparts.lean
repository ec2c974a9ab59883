import QueryTree.Proofs.Lockstep

/-!
# Selects of parts that are alike

Parts that are `Expr.Alike` make values, selects, keys and what is read back of keys alike. Types
are worked out from the parts, so these have to be alike strictly.
-/

namespace QueryTree

section
variable {B Γ : Pairing} {strict : Bool} {e e' a a' b b' c c' : Expr} {s s' : Select} {t : Ty}

/-! ## Expressions -/

namespace Expr.Alike

theorem member (name : String) (t : Ty) (h : Expr.Alike B true Γ e e') :
    Expr.Alike B strict Γ (.member e name t) (.member e' name t) :=
  of_children (e := .member e name t) rfl (.cons h .nil)

theorem unary (op : UnaryOp) (t : Ty) (h : Expr.Alike B true Γ e e') :
    Expr.Alike B strict Γ (.unary op e t) (.unary op e' t) :=
  of_children (e := .unary op e t) rfl (.cons h .nil)

theorem binary (op : BinaryOp) (t : Ty) (ha : Expr.Alike B false Γ a a')
    (hb : Expr.Alike B false Γ b b') :
    Expr.Alike B strict Γ (.binary op a b t) (.binary op a' b' t) :=
  of_children (e := .binary op a b t) rfl (.cons ha (.cons hb .nil))

theorem custom (t : Ty) (h : Expr.Alike B false Γ e e') :
    Expr.Alike B strict Γ (.custom e t) (.custom e' t) :=
  of_children (e := .custom e t) rfl (.cons h .nil)

theorem staticCall (surface : Surface) (method : String) {args args' : List Expr} (t : Ty)
    (h : List.Forall₂ (Expr.Alike B false Γ) args args') :
    Expr.Alike B strict Γ (.staticCall surface method args t)
      (.staticCall surface method args' t) :=
  of_children (e := .staticCall surface method args t) rfl h

theorem groupAggregate (kind : AggregateKind) {o o' : Option Expr} (t : Ty)
    (h : Option.Rel (Expr.Alike B true Γ) o o') :
    Expr.Alike B strict Γ (.groupAggregate kind o t) (.groupAggregate kind o' t) := by
  cases h with
  | none => exact leaf rfl rfl
  | some h => exact of_children (e := .groupAggregate kind (some _) t) rfl (.cons h .nil)

theorem newObject (t : Ty) {ms ms' : List (String × Expr)}
    (h : List.Forall₂ (fun m m' => m.1 = m'.1 ∧ Expr.Alike B true Γ m.2 m'.2) ms ms') :
    Expr.Alike B strict Γ (.newObject t ms) (.newObject t ms') := by
  have hnames : ms.map (·.1) = ms'.map (·.1) := by
    rw [← List.forall₂_eq_eq_eq, List.forall₂_map_left_iff, List.forall₂_map_right_iff]
    exact h.imp fun _ _ hm => hm.1
  have hkids : List.Forall₂ (Expr.Alike B true Γ) (ms.map (·.2)) (ms'.map (·.2)) := by
    rw [List.forall₂_map_left_iff, List.forall₂_map_right_iff]
    exact h.imp fun _ _ hm => hm.2
  have hnode : Expr.Alike B strict Γ (.newObject t ms)
      ((Expr.newObject t ms).withChildren (ms'.map (·.2))) :=
    of_children rfl hkids
  rwa [Expr.withChildren, hnames, ← List.zip_of_prod rfl rfl] at hnode

theorem row (scope : ScopeId) (t : Ty) : Expr.Alike B strict Γ (.row scope t) (.row scope t) :=
  leaf rfl rfl

theorem constant (v : Value) (t : Ty) : Expr.Alike B strict Γ (.constant v t) (.constant v t) :=
  leaf rfl rfl

theorem rowMember (scope : ScopeId) (rowType : Ty) (name : String) (t : Ty) :
    Expr.Alike B strict Γ (.rowMember scope rowType name t) (.rowMember scope rowType name t) :=
  member name t (row scope rowType)

theorem combine (op : BinaryOp) (ha : Expr.Alike B true Γ a a') (hb : Expr.Alike B true Γ b b') :
    Expr.Alike B strict Γ (.combine op a b) (.combine op a' b') := by
  have htype : binaryType op a b = binaryType op a' b' := by
    cases op <;> simp [binaryType, ha.ty_eq, hb.ty_eq]
  rw [Expr.combine, Expr.combine, htype]
  exact binary op _ ha.loose hb.loose

theorem not (h : Expr.Alike B true Γ e e') : Expr.Alike B strict Γ e.not e'.not := by
  rw [Expr.not, Expr.not, h.ty_eq]
  exact unary .not _ h

/-- `index` has the type that its sequence gives it, unless it has no term. -/
theorem index (ha : Expr.Alike B false Γ a a') (hb : Expr.Alike B false Γ b b') :
    Expr.Alike B false Γ (a.index b) (a'.index b') := by
  rcases ha.ty_eq_or with hty | hdead
  · rw [Expr.index, Expr.index, Expr.combine, Expr.combine, binaryType, binaryType, hty]
    exact binary .arrayIndex _ ha hb
  · exact .indexed hdead ha hb

theorem orDefault (wanted : Bool) (t : Ty) (h : Expr.Alike B false Γ e e') :
    Expr.Alike B false Γ (Binding.orDefault wanted e t) (Binding.orDefault wanted e' t) := by
  cases wanted with
  | false => exact h
  | true => exact binary .coalesce _ h (constant _ _)

theorem memberTypes_eq {ms ms' : List (String × Expr)}
    (h : List.Forall₂ (fun m m' => m.1 = m'.1 ∧ Expr.Alike B true Γ m.2 m'.2) ms ms') :
    memberTypes ms = memberTypes ms' := by
  unfold memberTypes
  rw [← List.forall₂_eq_eq_eq, List.forall₂_map_left_iff, List.forall₂_map_right_iff]
  exact h.imp fun _ _ hm => Prod.ext hm.1 hm.2.ty_eq

theorem objectOf {ms ms' : List (String × Expr)}
    (h : List.Forall₂ (fun m m' => m.1 = m'.1 ∧ Expr.Alike B true Γ m.2 m'.2) ms ms') :
    Expr.Alike B strict Γ (.objectOf ms) (.objectOf ms') := by
  rw [Expr.objectOf, Expr.objectOf, memberTypes_eq h]
  exact newObject _ h

theorem existsTest (h : Expr.Alike B false Γ e e') :
    Expr.Alike B false Γ (Binding.existsTest e) (Binding.existsTest e') := by
  have hother : ∀ {e : Expr}, (∀ s, e ≠ .subquery s) →
      Binding.existsTest e = .staticCall .enumerable "Any" [e] .bool := by
    intro e he
    unfold Binding.existsTest
    split
    · exact absurd rfl (he _)
    · rfl
  by_cases he : ∃ s, e = .subquery s
  · obtain ⟨s, rfl⟩ := he
    obtain ⟨s', rfl, hs⟩ := h.of_subquery
    exact combine .greaterThan (staticCall .enumerable "Count" .int32 (.cons (.subquery hs) .nil))
      (constant _ _)
  · have he' : ∀ s', e' ≠ .subquery s' := by
      intro s' hs'
      obtain ⟨s, hs, -⟩ := h.subquery_right hs'
      exact he ⟨s, hs⟩
    rw [hother (not_exists.mp he), hother he']
    exact staticCall .enumerable "Any" .bool (.cons h .nil)

end Expr.Alike

/-! ## Selects -/

namespace Select.Alike

theorem groupKey (h : s.Alike B s') : Option.Rel (GroupKey.Alike B) s.groupKey s'.groupKey := by
  cases h
  assumption

theorem source (h : s.Alike B s') : s.source.Alike B s'.source := by
  cases h
  assumption

theorem projection (h : s.Alike B s') : s.projection.Alike B s'.projection := by
  cases h
  assumption

theorem scope_eq (h : s.Alike B s') : s.scope = s'.scope := by
  cases h
  assumption

theorem rowValue (h : s.Alike B s') : s.rowValue.Alike B true B s'.rowValue := by
  have hrow : Expr.Alike B true B (.row s.scope s.projectedType)
      (.row s'.scope s'.projectedType) := by
    rw [h.scope_eq, h.projectedType_eq]
    exact .row _ _
  have hprojection := h.projection
  unfold Select.rowValue
  generalize s.projection = p at hprojection ⊢
  generalize s'.projection = p' at hprojection ⊢
  cases hprojection with
  | expr he => exact he
  | fields hfs =>
    apply Expr.Alike.objectOf
    rw [List.forall₂_map_left_iff, List.forall₂_map_right_iff]
    refine hfs.imp fun f f' hf => ?_
    cases hf with
    | mk he => exact ⟨he.fieldName_eq _, he⟩
  | _ => exact hrow

theorem ofSource (scope : ScopeId) {source source' : RowSource} (element : Ty)
    (h : source.Alike B source') :
    (Select.ofSource scope source element).Alike B (.ofSource scope source' element) :=
  .mk rfl rfl rfl h .all .none .none .nil .none .none .none

theorem ofTable (scope : ScopeId) (name : String) (element : Ty) :
    (Select.ofTable scope name element).Alike B (.ofTable scope name element) :=
  ofSource scope element (.table name)

theorem ofSelect (scope : ScopeId) (h : s.Alike B s') :
    (Select.ofSelect scope s).Alike B (.ofSelect scope s') := by
  rw [Select.ofSelect, Select.ofSelect, h.projectedType_eq]
  exact ofSource scope _ (.subquery h)

theorem filterBy (h : s.Alike B s') (hc : c.Alike B true B c') :
    (s.filterBy c).Alike B (s'.filterBy c') := by
  obtain ⟨hscope, helement, hsingle, hsource, hprojection, hfilter, hgroup, horder, htake,
    hskip, hkey⟩ := h
  refine .mk hscope helement hsingle hsource hprojection (.some ?_) hgroup horder htake hskip hkey
  generalize s.filter = f at hfilter ⊢
  generalize s'.filter = f' at hfilter ⊢
  cases hfilter with
  | none => exact hc
  | some he => exact .combine .andAlso he hc

theorem orderBy (h : s.Alike B s') (hc : c.Alike B true B c') (descending : Bool) :
    (s.orderBy c descending).Alike B (s'.orderBy c' descending) := by
  obtain ⟨hscope, helement, hsingle, hsource, hprojection, hfilter, hgroup, -, htake,
    hskip, hkey⟩ := h
  exact .mk hscope helement hsingle hsource hprojection hfilter hgroup (.cons (.mk hc) .nil)
    htake hskip hkey

theorem thenBy (h : s.Alike B s') (hc : c.Alike B true B c') (descending : Bool) :
    (s.thenBy c descending).Alike B (s'.thenBy c' descending) := by
  obtain ⟨hscope, helement, hsingle, hsource, hprojection, hfilter, hgroup, horder, htake,
    hskip, hkey⟩ := h
  refine .mk hscope helement hsingle hsource hprojection hfilter hgroup ?_ htake hskip hkey
  exact List.rel_append horder (.cons (.mk hc) .nil)

theorem project (h : s.Alike B s') {p p' : Projection} (hp : p.Alike B p') :
    (s.project p).Alike B (s'.project p') := by
  obtain ⟨hscope, helement, hsingle, hsource, -, hfilter, hgroup, horder, htake, hskip, hkey⟩ := h
  exact .mk hscope helement hsingle hsource hp hfilter hgroup horder htake hskip hkey

theorem groupAll (h : s.Alike B s') : s.groupAll.Alike B s'.groupAll := by
  obtain ⟨hscope, helement, hsingle, hsource, hprojection, hfilter, -, horder, htake,
    hskip, hkey⟩ := h
  exact .mk hscope helement hsingle hsource hprojection hfilter (.some .all) horder htake hskip hkey

theorem take (h : s.Alike B s') (hc : c.Alike B false B c') :
    Select.Alike B { s with take := some c } { s' with take := some c' } := by
  obtain ⟨hscope, helement, hsingle, hsource, hprojection, hfilter, hgroup, horder, -,
    hskip, hkey⟩ := h
  exact .mk hscope helement hsingle hsource hprojection hfilter hgroup horder (.some hc) hskip hkey

theorem skip (h : s.Alike B s') (hc : c.Alike B false B c') :
    Select.Alike B { s with skip := some c } { s' with skip := some c' } := by
  obtain ⟨hscope, helement, hsingle, hsource, hprojection, hfilter, hgroup, horder, htake,
    -, hkey⟩ := h
  exact .mk hscope helement hsingle hsource hprojection hfilter hgroup horder htake (.some hc) hkey

theorem single (h : s.Alike B s') :
    Select.Alike B { s with single := true } { s' with single := true } := by
  obtain ⟨hscope, helement, -, hsource, hprojection, hfilter, hgroup, horder, htake,
    hskip, hkey⟩ := h
  exact .mk hscope helement rfl hsource hprojection hfilter hgroup horder htake hskip hkey

theorem ungrouped (h : s.Alike B s') :
    Select.Alike B { s with groupKey := none } { s' with groupKey := none } := by
  obtain ⟨hscope, helement, hsingle, hsource, hprojection, hfilter, hgroup, horder, htake,
    hskip, -⟩ := h
  exact .mk hscope helement hsingle hsource hprojection hfilter hgroup horder htake hskip .none

theorem isWindowed_eq (h : s.Alike B s') : s.isWindowed = s'.isWindowed := by
  have hsome : ∀ {α : Type} {R : α → α → Prop} {o o' : Option α}, Option.Rel R o o' →
      o.isSome = o'.isSome := by
    intro α R o o' ho
    cases ho <;> rfl
  obtain ⟨-, -, hsingle, -, -, -, -, -, htake, hskip, hkey⟩ := h
  rw [isWindowed, isWindowed, hsome htake, hsome hskip, hsingle, hsome hkey]

theorem aggregated (h : s.Alike B s') {p p' : Projection} (hp : p.Alike B p') (label : String)
    (t : Ty) :
    Expr.Alike B strict B (Binding.aggregated s p label t) (Binding.aggregated s' p' label t) := by
  have hs := (h.project hp).groupAll
  unfold Binding.aggregated Expr.onlyRowMember
  rw [hs.projectedType_eq]
  exact .custom t (.member label t (.binary .arrayIndex _ (.subquery hs) (.constant _ _)))

end Select.Alike

/-! ## Keys of groups -/

namespace Expr.Alike

theorem of_row {scope : ScopeId} (h : Expr.Alike B true Γ (.row scope t) e') :
    e' = .row scope t := by
  obtain ⟨cs, rfl, hkids⟩ := h.node_of_isPlain rfl
  cases hkids
  rfl

theorem row_right {scope : ScopeId} (h : Expr.Alike B true Γ e (.row scope t)) :
    e = .row scope t := by
  cases h.node_right rfl
  rfl

theorem member_right {name : String} (h : Expr.Alike B true Γ e (.member b' name t)) :
    ∃ b, e = .member b name t := by
  cases h.node_right rfl <;> exact ⟨_, rfl⟩

theorem newObject_right {ms : List (String × Expr)} (h : Expr.Alike B true Γ e (.newObject t ms)) :
    ∃ ms, e = .newObject t ms := by
  cases h.node_right rfl <;> exact ⟨_, rfl⟩

theorem isRowPath_eq (h : Expr.Alike B true Γ e e') (scope : ScopeId) :
    e.isRowPath scope = e'.isRowPath scope := by
  induction e using Expr.isRowPath.induct generalizing e' with
  | case1 r u name t =>
    obtain ⟨b', rfl, hb⟩ := h.of_member
    rw [hb.of_row]
  -- The base is no row in the first tree, and so is none in the second.
  | case2 base name t hrow ih =>
    obtain ⟨b', rfl, hb⟩ := h.of_member
    have hrow' : ∀ r u, b' ≠ .row r u := by
      rintro r u rfl
      exact hrow r u hb.row_right
    rw [Expr.isRowPath, Expr.isRowPath, hb.ty_eq, ih hb]
    · exact hrow'
    · exact hrow
  | case3 e hbase hmember =>
    have hmember' : ∀ b name u, e' ≠ .member b name u := by
      rintro b name u rfl
      obtain ⟨c, rfl⟩ := h.member_right
      exact hmember c name u rfl
    rw [Expr.isRowPath, Expr.isRowPath]
    · exact fun r u name t => hmember' (.row r u) name t
    · exact hmember'
    · exact hbase
    · exact hmember

end Expr.Alike

namespace Expr

/-- What becomes of a node when the rows of `target` take the place of those of `source`. -/
def rowNode (source target : ScopeId) : Expr → Option Expr
  | .row s t => if s == source then some (.row target t) else none
  | _ => none

theorem rebase_eq (e : Expr) (source target : ScopeId) :
    e.rebase source target = e.replace (rowNode source target) := rfl

theorem rowNode_withChildren (source target : ScopeId) (e : Expr) (cs : List Expr) :
    rowNode source target (e.withChildren cs) = rowNode source target e :=
  withChildren_congr (f := rowNode source target) (fun h => by cases h <;> rfl) e cs

theorem rowNode_eq_some {source target : ScopeId} {r : Expr}
    (h : rowNode source target e = some r) : ∃ t, r = .row target t := by
  unfold rowNode at h
  split at h
  · split at h
    · cases h
      exact ⟨_, rfl⟩
    · cases h
  · cases h

theorem Alike.rebase (h : Expr.Alike B strict Γ e e') (hB : B.Below Γ) (source target : ScopeId) :
    Expr.Alike B strict Γ (e.rebase source target) (e'.rebase source target) := by
  have hstep : Lockstep B (fun Δ Γ => Δ = Γ ∧ B.Below Γ)
      (fun n => (pure (rowNode source target n) : BindM (Option Expr))) fun n =>
        pure (rowNode source target n) := by
    refine .of_nodes id (fun hB hps => (hps.mono hB).base) ?_ ?_
    · intro e he
      have hnone : rowNode source target e = none := by
        cases e with
        | row scope t => rcases he with he | he <;> cases he
        | _ => rfl
      rw [hnone]
      exact ⟨rfl, rfl⟩
    · intro strict Γ e cs _ _ _
      rw [rowNode_withChildren]
      cases hr : rowNode source target e with
      | none => exact .inl ⟨rfl, rfl⟩
      | some r =>
        right
        rw [replaceM_pure, replaceM_pure, replace_eq, replace_eq, rowNode_withChildren, hr]
        obtain ⟨t, rfl⟩ := rowNode_eq_some hr
        exact .pure (.row target t)
  have hall := hstep.replaceM ⟨rfl, hB⟩ h
  rw [replaceM_pure, replaceM_pure, ← rebase_eq, ← rebase_eq] at hall
  exact hall.of_pure 0

end Expr

theorem OutputField.alike_of_members {ms ms' : List (String × Expr)}
    (h : List.Forall₂ (fun m m' => m.1 = m'.1 ∧ Expr.Alike B true B m.2 m'.2) ms ms') :
    List.Forall₂ (OutputField.Alike B) (ms.map fun m => ⟨m.2, some m.1⟩)
      (ms'.map fun m => ⟨m.2, some m.1⟩) := by
  rw [List.forall₂_map_left_iff, List.forall₂_map_right_iff]
  refine h.imp fun m m' hm => ?_
  rw [hm.1]
  exact .mk hm.2

theorem Expr.Alike.readMembers {ms ms' : List (String × Expr)}
    (h : List.Forall₂ (fun m m' => m.1 = m'.1 ∧ Expr.Alike B true B m.2 m'.2) ms ms')
    (scope : ScopeId) (rowType t : Ty) :
    Expr.Alike B strict Γ
      (.newObject t (ms.map fun m => (m.1, Expr.rowMember scope rowType m.1 m.2.ty)))
      (.newObject t (ms'.map fun m => (m.1, Expr.rowMember scope rowType m.1 m.2.ty))) := by
  apply newObject
  rw [List.forall₂_map_left_iff, List.forall₂_map_right_iff]
  refine h.imp fun m m' hm => ⟨hm.1, ?_⟩
  rw [hm.1, hm.2.ty_eq]
  exact rowMember _ _ _ _

namespace GroupKey

/-- The `columns` of a key that is no object: its path, or one with a name. -/
theorem columns_of_ne {inner : Expr} (h : ∀ t m ms, inner ≠ .newObject t (m :: ms))
    (source outer : ScopeId) :
    columns inner source outer = if inner.isRowPath source then ([⟨inner, none⟩],
      inner.rebase source outer)
      else ([⟨inner, some "Key"⟩], Expr.rowMember outer (.anonymous [("Key", inner.ty)])
        "Key" inner.ty) := by
  unfold columns
  split
  · exact absurd rfl (h _ _ _)
  · rfl

/-- `columns` of keys that are alike are alike. -/
theorem columns_alike {inner inner' : Expr} (h : inner.Alike B true B inner')
    (source outer : ScopeId) :
    List.Forall₂ (OutputField.Alike B) (columns inner source outer).1
      (columns inner' source outer).1 ∧
      (columns inner source outer).2.Alike B true B (columns inner' source outer).2 := by
  by_cases hobject : ∃ t m ms, inner = .newObject t (m :: ms)
  · obtain ⟨t, m, ms, rfl⟩ := hobject
    obtain ⟨ms', rfl, hms⟩ := h.of_newObject
    cases hms with
    | cons hm hms =>
      exact ⟨OutputField.alike_of_members (.cons hm hms), .readMembers (.cons hm hms) outer t t⟩
  -- An object without members is put out like any other value.
  · have hne : ∀ t m ms, inner ≠ .newObject t (m :: ms) := fun t m ms he => hobject ⟨t, m, ms, he⟩
    have hne' : ∀ t m ms, inner' ≠ .newObject t (m :: ms) := by
      rintro t m' ms' rfl
      obtain ⟨ms, rfl⟩ := h.newObject_right
      obtain ⟨ms₂, heq, hms⟩ := h.of_newObject
      cases heq
      cases hms with
      | cons _ _ => exact hne t _ _ rfl
    rw [columns_of_ne hne, columns_of_ne hne', h.isRowPath_eq, h.ty_eq]
    split
    · exact ⟨.cons (.mk h) .nil, h.rebase (fun _ _ hB => hB) source outer⟩
    · exact ⟨.cons (.mk h) .nil, .rowMember _ _ _ _⟩

theorem terms_alike {fs fs' : List OutputField} (h : List.Forall₂ (OutputField.Alike B) fs fs')
    (source : ScopeId) :
    List.Forall₂ (Expr.Alike B true B) (terms fs source) (terms fs' source) := by
  have htypes : fs.filterMap (fun f => f.label.map fun label => (label, f.expr.ty)) =
      fs'.filterMap fun f => f.label.map fun label => (label, f.expr.ty) := by
    induction h with
    | nil => rfl
    | cons hf _ ih =>
      cases hf with
      | mk he => rw [List.filterMap_cons, List.filterMap_cons, ih, he.ty_eq]
  unfold terms
  rw [htypes, List.forall₂_map_left_iff, List.forall₂_map_right_iff]
  refine h.imp fun f f' hf => ?_
  cases hf with
  | @mk e e' label he =>
    cases label with
    | none => exact he
    | some label =>
      simp only [he.ty_eq]
      exact .rowMember _ _ _ _

/-- `equality` of two keys, one of which is no object. -/
theorem equality_of_ne {inner outer : Expr}
    (h : ∀ t as u bs, inner = .newObject t as → outer ≠ .newObject u bs) :
    equality inner outer = inner.eq outer := by
  unfold equality
  split
  · exact absurd rfl (h _ _ _ _ rfl)
  · rfl

theorem equality_alike {inner inner' outer outer' : Expr} (h : inner.Alike B true B inner')
    (ho : outer.Alike B true B outer') :
    (equality inner outer).Alike B true B (equality inner' outer') := by
  by_cases hobjects : ∃ t as u bs, inner = .newObject t as ∧ outer = .newObject u bs
  · obtain ⟨t, as, u, bs, rfl, rfl⟩ := hobjects
    obtain ⟨as', rfl, has⟩ := h.of_newObject
    obtain ⟨bs', rfl, hbs⟩ := ho.of_newObject
    have hparts : List.Forall₂ (Expr.Alike B true B) (List.zipWith (fun a b => a.2.eq b.2) as bs)
        (List.zipWith (fun a b => a.2.eq b.2) as' bs') := by
      -- The lists need not have the same length: what is left over of one is dropped.
      clear h ho
      induction has generalizing bs bs' with
      | nil => exact .nil
      | cons ha _ ih =>
        cases hbs with
        | nil => exact .nil
        | cons hb hbs => exact .cons (.combine .equal ha.2 hb.2) (ih _ _ hbs)
    simp only [equality]
    generalize List.zipWith (fun a b => Expr.eq a.2 b.2) as bs = es at hparts ⊢
    generalize List.zipWith (fun a b => Expr.eq a.2 b.2) as' bs' = es' at hparts ⊢
    cases hparts with
    | nil => exact .constant _ _
    | @cons a a' es es' ha hes =>
      simp only
      clear has hbs
      induction hes generalizing a a' with
      | nil => exact ha
      | cons hc _ ih => exact ih (.combine .andAlso ha hc)
  · rw [equality_of_ne, equality_of_ne]
    · exact .combine .equal h ho
    · rintro t as' u bs' rfl rfl
      obtain ⟨as, rfl⟩ := h.newObject_right
      obtain ⟨bs, rfl⟩ := ho.newObject_right
      exact hobjects ⟨t, as, u, bs, rfl, rfl⟩
    · rintro t as u bs rfl rfl
      exact hobjects ⟨t, as, u, bs, rfl, rfl⟩

end GroupKey

namespace Select.Alike

variable {inner inner' value value' : Expr} {grouped grouped' : Select}

theorem groupRows (h : s.Alike B s') (hi : inner.Alike B true B inner') (scope : ScopeId) :
    (s.groupRows inner scope).Alike B (s'.groupRows inner' scope) := by
  unfold Select.groupRows
  rw [h.scope_eq]
  exact h.filterBy (GroupKey.equality_alike hi (GroupKey.columns_alike hi _ scope).2)

theorem groupedBy (h : s.Alike B s') (hi : inner.Alike B true B inner') (scope : ScopeId) :
    (s.groupedBy inner scope).Alike B (s'.groupedBy inner' scope) := by
  unfold Select.groupedBy
  rw [h.scope_eq]
  have hfields := (GroupKey.columns_alike hi s'.scope scope).1
  obtain ⟨hscope, helement, hsingle, hsource, -, hfilter, -, -, htake, hskip, hkey⟩ := h
  exact .mk hscope helement hsingle hsource (.fields hfields)
    hfilter (.some (.keys (GroupKey.terms_alike hfields _))) .nil htake hskip hkey

theorem groups (h : s.Alike B s') (hi : inner.Alike B true B inner') (scope : ScopeId) :
    (s.groups inner scope).Alike B (s'.groups inner' scope) := by
  have houter := (GroupKey.columns_alike hi s'.scope scope).2
  have hrows := h.groupRows hi scope
  have hgrouped := h.groupedBy hi scope
  unfold Select.groups
  rw [h.scope_eq, Select.ofSelect, Select.ofSelect, hgrouped.projectedType_eq]
  exact .mk rfl rfl rfl (.subquery hgrouped)
    (.fields (.cons (.mk houter) (.cons (.mk (.subquery hrows)) .nil))) .none
    .none .nil .none .none (.some (.mk hi houter h (.subquery hrows)))

theorem readBack (hv : value.Alike B true B value') (scope : ScopeId) :
    List.Forall₂ (OutputField.Alike B) (Binding.readBack scope value).1
      (Binding.readBack scope value').1 ∧
      (Binding.readBack scope value).2.Alike B true B (Binding.readBack scope value').2 := by
  have hother : ∀ {value : Expr}, (∀ t ms, value ≠ .newObject t ms) → Binding.readBack scope value =
      ([⟨value, some "Value"⟩], Expr.rowMember scope (.anonymous [("Value", value.ty)])
        "Value" value.ty) := by
    intro value hne
    unfold Binding.readBack
    split
    · exact absurd rfl (hne _ _)
    · rfl
  by_cases hobject : ∃ t ms, value = .newObject t ms
  · obtain ⟨t, ms, rfl⟩ := hobject
    obtain ⟨ms', rfl, hms⟩ := hv.of_newObject
    simp only [Binding.readBack, Expr.Alike.memberTypes_eq hms]
    exact ⟨OutputField.alike_of_members hms, .readMembers hms scope _ _⟩
  · rw [hother fun t ms he => hobject ⟨t, ms, he⟩, hother, hv.ty_eq]
    · exact ⟨.cons (.mk hv) .nil, .rowMember _ _ _ _⟩
    · rintro t ms' rfl
      obtain ⟨ms, rfl⟩ := hv.newObject_right
      exact hobject ⟨t, ms, rfl⟩

theorem withMerged (h : grouped.Alike B grouped') (hv : value.Alike B true B value')
    (scope : ScopeId) :
    (grouped.withMerged scope value).Alike B (grouped'.withMerged scope value') := by
  refine h.project (.fields (List.rel_append ?_ (readBack hv scope).1))
  have hprojection := h.projection
  generalize grouped.projection = p at hprojection ⊢
  generalize grouped'.projection = p' at hprojection ⊢
  cases hprojection with
  | fields hfs => exact hfs
  | _ => exact .nil

theorem readingMerged (h : s.Alike B s') (hg : grouped.Alike B grouped')
    (hv : value.Alike B true B value') :
    (s.readingMerged grouped value).Alike B (s'.readingMerged grouped' value') := by
  have hread := (readBack hv s'.scope).2
  have hmerged := hg.withMerged hv s'.scope
  unfold Select.readingMerged
  rw [h.scope_eq]
  obtain ⟨-, -, hsingle, -, -, hfilter, hgroup, horder, htake, hskip, -⟩ := h
  exact .mk rfl hmerged.projectedType_eq hsingle (.subquery hmerged) (.expr hread)
    hfilter hgroup horder htake hskip .none

end Select.Alike

end

end QueryTree
