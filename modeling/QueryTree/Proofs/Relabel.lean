import QueryTree.Proofs.Grouped
import QueryTree.Proofs.Selects

/-!
# Relabeling trees

A `Relabeling` changes the values of constants, captured variables and the names of parameters, also
inside selects. Binding looks at none of them, so a tree may be relabeled before it is bound or
afterwards.
-/

namespace QueryTree

/-- What values, captures and names are changed to. The values that binding puts into trees stay as
they are. -/
structure Relabeling where
  value : Value → Value
  capture : Capture → Capture
  name : String → String
  value_bool : ∀ b, value (.bool b) = .bool b
  value_default : ∀ t : Ty, value t.defaultValue = t.defaultValue

mutual

/-- The expression with the values and names of `φ`. -/
def Expr.relabel (φ : Relabeling) : Expr → Expr
  | .constant v t => .constant (φ.value v) t
  | .captured name c t => .captured name (φ.capture c) t
  | .source s => .source s
  | .parameter name t => .parameter name t
  | .member base name t => .member (base.relabel φ) name t
  | .static surface name t => .static surface name t
  | .call surface method receiver args t =>
    .call surface method (Expr.relabelOption φ receiver) (Expr.relabelList φ args) t
  | .unary op operand t => .unary op (operand.relabel φ) t
  | .binary op left right t => .binary op (left.relabel φ) (right.relabel φ) t
  | .lambda params body => .lambda params (body.relabel φ)
  | .newObject t members => .newObject t (Expr.relabelMembers φ members)
  | .newArray t items => .newArray t (Expr.relabelList φ items)
  | .construct t args => .construct t (Expr.relabelList φ args)
  | .table name element => .table name element
  | .named name t => .named (φ.name name) t
  | .row scope t => .row scope t
  | .select s => .select (s.relabel φ)
  | .subquery s => .subquery (s.relabel φ)
  | .custom inner t => .custom (inner.relabel φ) t
  | .groupAggregate kind selector t => .groupAggregate kind (Expr.relabelOption φ selector) t
termination_by structural e => e

def Expr.relabelOption (φ : Relabeling) : Option Expr → Option Expr
  | none => none
  | some e => some (e.relabel φ)
termination_by structural e => e

def Expr.relabelList (φ : Relabeling) : List Expr → List Expr
  | [] => []
  | e :: es => e.relabel φ :: Expr.relabelList φ es
termination_by structural es => es

def Expr.relabelMembers (φ : Relabeling) : List (String × Expr) → List (String × Expr)
  | [] => []
  | (name, e) :: es => (name, e.relabel φ) :: Expr.relabelMembers φ es
termination_by structural es => es

/-- The select with the values and names of `φ`. -/
def Select.relabel (φ : Relabeling) : Select → Select
  | ⟨scope, element, source, projection, filter, group, orderings, take, skip, single, groupKey⟩ =>
    ⟨scope, element, source.relabel φ, projection.relabel φ, Expr.relabelOption φ filter,
      RowGroup.relabel φ group, SortKey.relabel φ orderings, Expr.relabelOption φ take,
      Expr.relabelOption φ skip, single, GroupKey.relabelOption φ groupKey⟩
termination_by structural s => s

def RowSource.relabel (φ : Relabeling) : RowSource → RowSource
  | .table name => .table name
  | .subquery s => .subquery (s.relabel φ)
termination_by structural s => s

def Projection.relabel (φ : Relabeling) : Projection → Projection
  | .all => .all
  | .expr e => .expr (e.relabel φ)
  | .fields fields => .fields (OutputField.relabelList φ fields)
  | .count predicate => .count (Expr.relabelOption φ predicate)
  | .aggregation kind selector label => .aggregation kind (selector.relabel φ) label
termination_by structural p => p

def OutputField.relabelList (φ : Relabeling) : List OutputField → List OutputField
  | [] => []
  | ⟨e, label⟩ :: fields => ⟨e.relabel φ, label⟩ :: OutputField.relabelList φ fields
termination_by structural fields => fields

def RowGroup.relabel (φ : Relabeling) : Option RowGroup → Option RowGroup
  | none => none
  | some .all => some .all
  | some (.keys keys) => some (.keys (Expr.relabelList φ keys))
termination_by structural g => g

def SortKey.relabel (φ : Relabeling) : List SortKey → List SortKey
  | [] => []
  | ⟨e, descending⟩ :: keys => ⟨e.relabel φ, descending⟩ :: SortKey.relabel φ keys
termination_by structural keys => keys

def GroupKey.relabelOption (φ : Relabeling) : Option GroupKey → Option GroupKey
  | none => none
  | some ⟨inner, outer, source, values⟩ =>
    some ⟨inner.relabel φ, outer.relabel φ, source.relabel φ, values.relabel φ⟩
termination_by structural k => k

end

def OutputField.relabel (φ : Relabeling) (f : OutputField) : OutputField :=
  ⟨f.expr.relabel φ, f.label⟩

def GroupKey.relabel (φ : Relabeling) (k : GroupKey) : GroupKey :=
  ⟨k.inner.relabel φ, k.outer.relabel φ, k.source.relabel φ, k.values.relabel φ⟩

section
variable (φ : Relabeling)

/-! ## One level at a time -/

namespace Expr

@[simp] theorem relabelOption_eq (e : Option Expr) : relabelOption φ e = e.map (relabel φ) := by
  cases e <;> rfl

@[simp] theorem relabelList_eq (es : List Expr) : relabelList φ es = es.map (relabel φ) := by
  induction es with
  | nil => rfl
  | cons e es ih => simp [relabelList, ih]

@[simp] theorem relabelMembers_eq (es : List (String × Expr)) :
    relabelMembers φ es = es.map fun m => (m.1, m.2.relabel φ) := by
  induction es with
  | nil => rfl
  | cons e es ih => obtain ⟨name, e⟩ := e; simp [relabelMembers, ih]

theorem children_relabel (e : Expr) : (e.relabel φ).children = e.children.map (relabel φ) := by
  cases e with
  | call surface method receiver args t => cases receiver <;> simp [relabel, children]
  | groupAggregate kind selector t => cases selector <;> simp [relabel, children]
  | newObject t members => simp [relabel, children]
  | _ => simp [relabel, children]

theorem relabel_withChildren (e : Expr) (cs : List Expr) :
    (e.withChildren cs).relabel φ = (e.relabel φ).withChildren (cs.map (relabel φ)) := by
  cases e with
  | call surface method receiver args t =>
    rcases receiver with _ | r <;> rcases cs with _ | ⟨c, cs⟩ <;> simp [relabel, withChildren]
  | groupAggregate kind selector t =>
    rcases selector with _ | s <;> rcases cs with _ | ⟨c, _ | ⟨d, cs⟩⟩ <;>
      simp [relabel, withChildren]
  | binary op l r t =>
    rcases cs with _ | ⟨c, _ | ⟨d, _ | ⟨y, cs⟩⟩⟩ <;> simp [relabel, withChildren]
  | newObject t members =>
    simp only [relabel, withChildren, relabelMembers_eq, List.map_map]
    congr 1
    rw [List.zip_map_right]
    rfl
  | _ => rcases cs with _ | ⟨c, _ | ⟨d, cs⟩⟩ <;> simp [relabel, withChildren]

end Expr

@[simp] theorem OutputField.expr_relabel (f : OutputField) :
    (f.relabel φ).expr = f.expr.relabel φ :=
  rfl

@[simp] theorem OutputField.label_relabel (f : OutputField) : (f.relabel φ).label = f.label := rfl

@[simp] theorem OutputField.relabelList_eq (fields : List OutputField) :
    relabelList φ fields = fields.map (relabel φ) := by
  induction fields with
  | nil => rfl
  | cons f fields ih => obtain ⟨e, label⟩ := f; simp [relabelList, relabel, ih]

@[simp] theorem SortKey.relabel_eq (keys : List SortKey) :
    relabel φ keys = keys.map fun k => ⟨k.expr.relabel φ, k.descending⟩ := by
  induction keys with
  | nil => rfl
  | cons k keys ih => obtain ⟨e, descending⟩ := k; simp [relabel, ih]

@[simp] theorem GroupKey.relabelOption_eq (k : Option GroupKey) :
    relabelOption φ k = k.map (relabel φ) := by
  rcases k with _ | ⟨inner, outer, source, values⟩ <;> rfl

namespace Select

@[simp] theorem scope_relabel (s : Select) : (s.relabel φ).scope = s.scope := by
  obtain ⟨⟩ := s
  rfl

@[simp] theorem element_relabel (s : Select) : (s.relabel φ).element = s.element := by
  obtain ⟨⟩ := s
  rfl

@[simp] theorem source_relabel (s : Select) : (s.relabel φ).source = s.source.relabel φ := by
  obtain ⟨⟩ := s
  rfl

@[simp] theorem projection_relabel (s : Select) :
    (s.relabel φ).projection = s.projection.relabel φ := by
  obtain ⟨⟩ := s
  rfl

@[simp] theorem filter_relabel (s : Select) :
    (s.relabel φ).filter = s.filter.map (Expr.relabel φ) := by
  obtain ⟨⟩ := s
  exact Expr.relabelOption_eq φ _

@[simp] theorem group_relabel (s : Select) : (s.relabel φ).group = RowGroup.relabel φ s.group := by
  obtain ⟨⟩ := s
  rfl

@[simp] theorem orderings_relabel (s : Select) :
    (s.relabel φ).orderings = s.orderings.map fun k => ⟨k.expr.relabel φ, k.descending⟩ := by
  obtain ⟨⟩ := s
  exact SortKey.relabel_eq φ _

@[simp] theorem take_relabel (s : Select) : (s.relabel φ).take = s.take.map (Expr.relabel φ) := by
  obtain ⟨⟩ := s
  exact Expr.relabelOption_eq φ _

@[simp] theorem skip_relabel (s : Select) : (s.relabel φ).skip = s.skip.map (Expr.relabel φ) := by
  obtain ⟨⟩ := s
  exact Expr.relabelOption_eq φ _

@[simp] theorem single_relabel (s : Select) : (s.relabel φ).single = s.single := by
  obtain ⟨⟩ := s
  rfl

@[simp] theorem groupKey_relabel (s : Select) :
    (s.relabel φ).groupKey = s.groupKey.map (GroupKey.relabel φ) := by
  obtain ⟨⟩ := s
  exact GroupKey.relabelOption_eq φ _

end Select

theorem Select.clauses_relabel (memory : Bool) (s : Select) :
    (s.relabel φ).clauses memory = (s.clauses memory).map (Expr.relabel φ) := by
  obtain ⟨scope, element, source, projection, filter, group, orderings, take, skip,
    single, key⟩ := s
  have hprojection : (projection.relabel φ).exprs = projection.exprs.map (Expr.relabel φ) := by
    cases projection <;> simp [Projection.relabel, Projection.exprs, Option.toList_map]
  have hgroup : (RowGroup.relabel φ group).toList.flatMap RowGroup.exprs =
      (group.toList.flatMap RowGroup.exprs).map (Expr.relabel φ) := by
    rcases group with _ | _ | keys <;> simp [RowGroup.relabel, RowGroup.exprs]
  have hkey : (key.toList.map (GroupKey.relabel φ)).flatMap GroupKey.exprs =
      (key.toList.flatMap GroupKey.exprs).map (Expr.relabel φ) := by
    cases key <;> simp [GroupKey.relabel, GroupKey.exprs]
  cases memory <;>
    simp [relabel, clauses, hprojection, hgroup, hkey, Option.toList_map, Function.comp_def]

theorem Select.inputs_relabel (memory : Bool) (s : Select) :
    (s.relabel φ).inputs memory = (s.inputs memory).map (relabel φ) := by
  obtain ⟨scope, element, source, projection, filter, group, orderings, take, skip,
    single, key⟩ := s
  have hsource : (source.relabel φ).select? = source.select?.map (relabel φ) := by
    cases source <;> rfl
  cases memory <;> simp [relabel, inputs, hsource, GroupKey.relabel, Option.toList_map]

/-- What `φ` leaves as it is, it leaves so in all parts. -/
theorem hereditary_fixed : Hereditary (fun e => e.relabel φ = e) fun s => s.relabel φ = s where
  child {e c} he hc := by
    have hkids := e.children_relabel φ
    rw [he] at hkids
    exact List.map_inj_left.mp (hkids.symm.trans (List.map_id _).symm) c hc
  select {e s} he hs := by
    cases e <;> cases hs
    · exact Expr.select.inj he
    · exact Expr.subquery.inj he
  clause {s c} hs hc := by
    have hclauses := s.clauses_relabel φ true
    rw [hs] at hclauses
    exact List.map_inj_left.mp (hclauses.symm.trans (List.map_id _).symm) c hc
  input {s v} hs hv := by
    have hinputs := s.inputs_relabel φ true
    rw [hs] at hinputs
    exact List.map_inj_left.mp (hinputs.symm.trans (List.map_id _).symm) v hv

/-! ## Types -/

theorem OutputField.types_eq (fields : List OutputField) :
    types fields = fields.map fun f => (f.name, f.expr.ty) := by
  induction fields with
  | nil => rfl
  | cons f fields ih => obtain ⟨e, label⟩ := f; simp [types, ih]

@[simp] theorem OutputField.name_relabel (f : OutputField) : (f.relabel φ).name = f.name := by
  obtain ⟨e, _ | label⟩ := f
  · cases e <;> rfl
  · rfl

/-- `relabel` keeps types. -/
theorem ty_relabel : (∀ e : Expr, (e.relabel φ).ty = e.ty) ∧
    ∀ s : Select, (s.relabel φ).projectedType = s.projectedType := by
  apply deepInduction
  · intro e hc hs
    cases e with
    | lambda params body => exact hc body (by simp [Expr.children])
    | select s => simp [Expr.relabel, Expr.ty, hs s rfl]
    | subquery s => simp [Expr.relabel, Expr.ty, hs s rfl]
    | _ => rfl
  · rintro ⟨scope, element, source, projection, filter, group, orderings, take, skip, single, key⟩
      hc -
    have hp : ∀ e ∈ projection.exprs, (e.relabel φ).ty = e.ty := by
      intro e he
      exact hc e (by simp [Select.clauses, he])
    simp only [Select.relabel, Select.projectedType]
    cases projection with
    | all => rfl
    | expr e => exact hp e (by simp [Projection.exprs])
    | count predicate => rfl
    | aggregation kind selector label =>
      simp [Projection.relabel, Projection.ty, hp selector (by simp [Projection.exprs])]
    | fields fields =>
      simp only [Projection.relabel, Projection.ty, OutputField.relabelList_eq,
        OutputField.types_eq, List.map_map]
      congr 1
      refine List.map_congr_left fun f hf => ?_
      have hf' := hp f.expr (List.mem_map.mpr ⟨f, hf, rfl⟩)
      simp only [Function.comp_apply, OutputField.name_relabel]
      exact congrArg (f.name, ·) hf'

@[simp] theorem Expr.ty_relabel (e : Expr) : (e.relabel φ).ty = e.ty := (QueryTree.ty_relabel φ).1 e

@[simp] theorem Select.projectedType_relabel (s : Select) :
    (s.relabel φ).projectedType = s.projectedType :=
  (QueryTree.ty_relabel φ).2 s

/-! ## What binding asks of nodes -/

namespace Expr

@[simp] theorem isParameter_relabel (name : String) (e : Expr) :
    (e.relabel φ).isParameter name = e.isParameter name := by
  cases e <;> rfl

@[simp] theorem shadows_relabel (name : String) (e : Expr) :
    (e.relabel φ).shadows name = e.shadows name := by
  cases e <;> rfl

@[simp] theorem isLambda_relabel (e : Expr) : (e.relabel φ).isLambda = e.isLambda := by
  cases e <;> rfl

theorem unquote_relabel (e : Expr) : (e.relabel φ).unquote = e.unquote.relabel φ := by
  induction e using childrenInduction with
  | step e ih =>
    cases e with
    | unary op operand t =>
      cases op with
      | quote => exact ih operand (by simp [children])
      | _ => rfl
    | _ => rfl

theorem asLambda_relabel (method : String) (e : Expr) :
    (e.relabel φ).asLambda method = (e.asLambda method).map fun p => (p.1, p.2.relabel φ) := by
  unfold asLambda
  rw [unquote_relabel]
  cases e.unquote with
  | lambda params body => rcases params with _ | ⟨p, _ | ⟨q, ps⟩⟩ <;> rfl
  | _ => rfl

@[simp] theorem isKeyOf_relabel (name : String) (e : Expr) :
    (e.relabel φ).isKeyOf name = e.isKeyOf name := by
  cases e with
  | member base n t =>
    by_cases h : n = "Key"
    · subst h
      exact isParameter_relabel φ name base
    · simp [relabel, isKeyOf, h]
  | _ => rfl

theorem aggregateOf?_relabel (name : String) (e : Expr) :
    (e.relabel φ).aggregateOf? name =
      (e.aggregateOf? name).map fun p => (p.1, p.2.1, p.2.2.1.map (relabel φ), p.2.2.2) := by
  cases e with
  | call surface method receiver args t =>
    rcases receiver with _ | r <;> rcases args with _ | ⟨a, args⟩ <;> cases surface <;>
      simp [relabel, aggregateOf?]
    split
    · cases AggregateKind.ofMethod? method <;> rfl
    · rfl
  | _ => rfl

@[simp] theorem isRowPath_relabel (scope : ScopeId) (e : Expr) :
    (e.relabel φ).isRowPath scope = e.isRowPath scope := by
  induction e using childrenInduction with
  | step e ih =>
    cases e with
    | member base name t =>
      have hbase := ih base (by simp [children])
      have hty := base.ty_relabel φ
      cases base <;> simp_all [relabel, isRowPath]
    | _ => rfl

theorem walk_relabel {d d' : Expr → Bool} (h : ∀ e, d (e.relabel φ) = d' e) (e : Expr) :
    (e.relabel φ).walk d = (e.walk d').map (relabel φ) := by
  induction e using childrenInduction with
  | step e ih =>
    rw [walk_eq, walk_eq d', h, children_relabel, List.map_cons, List.flatMap_map]
    congr 1
    split
    · rw [List.map_flatMap, List.flatMap_def, List.flatMap_def]
      exact congrArg List.flatten (List.map_congr_left fun c hc => ih c hc)
    · rfl

end Expr

theorem GroupUses.of_relabel (body : Expr) (name : String) :
    GroupUses.of (body.relabel φ) name = GroupUses.of body name := by
  have hwalk : (body.relabel φ).walk (fun e => !e.shadows name) =
      (body.walk fun e => !e.shadows name).map (Expr.relabel φ) :=
    Expr.walk_relabel φ (fun e => by simp) body
  unfold GroupUses.of
  rw [hwalk]
  simp only [List.countP_map, Function.comp_def, Expr.isParameter_relabel, Expr.isKeyOf_relabel,
    Expr.aggregateOf?_relabel, Option.isSome_map]

theorem Binding.operatorCount_relabel (e : Expr) :
    operatorCount (e.relabel φ) = operatorCount e := by
  unfold operatorCount
  rw [Expr.walk_relabel φ (fun _ => rfl), List.countP_map]
  congr 1
  funext n
  cases n with
  | call surface method receiver args t => cases surface <;> cases receiver <;> rfl
  | _ => rfl

/-! ## Replacing -/

namespace Expr

/-- `relabel` goes through a replacement that it goes through at each node. -/
theorem replaceM_relabel {m : Type → Type} [Monad m] [LawfulMonad m] {f g : Expr → m (Option Expr)}
    (h : ∀ e, g (e.relabel φ) = Option.map (relabel φ) <$> f e) (e : Expr) :
    (e.relabel φ).replaceM g = relabel φ <$> e.replaceM f := by
  induction e using childrenInduction with
  | step e ih =>
    -- For lists of children, so that the induction on lists has something to start with.
    have hkids : ∀ cs : List Expr, (∀ c ∈ cs, c ∈ e.children) →
        (cs.map (relabel φ)).mapM (replaceM g) = List.map (relabel φ) <$> cs.mapM (replaceM f) := by
      intro cs hcs
      induction cs with
      | nil => simp
      | cons c cs ihcs =>
        simp only [List.map_cons, List.mapM_cons, ih c (hcs c (by simp)),
          ihcs fun d hd => hcs d (by simp [hd]), bind_map_left, map_bind, map_pure]
    rw [replaceM_eq, replaceM_eq, h, bind_map_left, map_bind]
    refine bind_congr fun r => ?_
    cases r with
    | some r => simp
    | none =>
      simp only [Option.map_none, children_relabel, hkids e.children fun _ => id, Functor.map_map]
      congr 1
      funext cs
      exact (relabel_withChildren φ e cs).symm

theorem replace_relabel {f g : Expr → Option Expr}
    (h : ∀ e, g (e.relabel φ) = (f e).map (relabel φ)) (e : Expr) :
    (e.relabel φ).replace g = (e.replace f).relabel φ :=
  replaceM_relabel (m := Id) φ h e

theorem substitute_relabel (e : Expr) (name : String) (v : Expr) :
    (e.relabel φ).substitute name (v.relabel φ) = (e.substitute name v).relabel φ := by
  refine replace_relabel φ (fun n => ?_) e
  simp only [substituteNode, isParameter_relabel, shadows_relabel]
  split
  · rfl
  · split <;> rfl

theorem substituteGroup_relabel (e : Expr) (name : String) (key : GroupKey) :
    (e.relabel φ).substituteGroup name (key.relabel φ) =
      (e.substituteGroup name key).relabel φ := by
  refine replace_relabel φ (fun n => ?_) e
  simp only [isKeyOf_relabel, isParameter_relabel, shadows_relabel]
  split
  · rfl
  · split
    · rfl
    · split <;> rfl

theorem rebase_relabel (e : Expr) (source target : ScopeId) :
    (e.relabel φ).rebase source target = (e.rebase source target).relabel φ := by
  refine replace_relabel φ (fun n => ?_) e
  cases n with
  | row s t =>
    simp only [relabel]
    split <;> rfl
  | _ => rfl

end Expr

/-! ## Binding -/

theorem Select.rowValue_relabel (s : Select) : (s.relabel φ).rowValue = s.rowValue.relabel φ := by
  unfold Select.rowValue
  rw [projection_relabel]
  cases s.projection with
  | fields fields =>
    simp [Projection.relabel, Expr.relabel, Expr.objectOf, Expr.memberTypes]
  | _ => simp [Projection.relabel, Expr.relabel]

theorem Select.filterBy_relabel (s : Select) (c : Expr) :
    (s.relabel φ).filterBy (c.relabel φ) = (s.filterBy c).relabel φ := by
  obtain ⟨scope, element, source, projection, filter, group, orderings, take, skip,
    single, key⟩ := s
  cases filter <;> simp [Select.filterBy, relabel, Expr.and, Expr.combine, Expr.relabel,
    Expr.binaryType]

theorem Select.project_relabel (s : Select) (p : Projection) :
    (s.relabel φ).project (p.relabel φ) = (s.project p).relabel φ := by
  obtain ⟨⟩ := s
  simp [Select.project, relabel]

theorem Select.isWindowed_relabel (s : Select) : (s.relabel φ).isWindowed = s.isWindowed := by
  simp [Select.isWindowed]

theorem Select.ofSelect_relabel (scope : ScopeId) (s : Select) :
    Select.ofSelect scope (s.relabel φ) = (Select.ofSelect scope s).relabel φ := by
  simp [Select.ofSelect, Select.ofSource, relabel, RowSource.relabel, Projection.relabel,
    RowGroup.relabel]

theorem Select.ofTable_relabel (scope : ScopeId) (name : String) (element : Ty) :
    (Select.ofTable scope name element).relabel φ = Select.ofTable scope name element := by
  simp [Select.ofTable, Select.ofSource, relabel, RowSource.relabel, Projection.relabel,
    RowGroup.relabel]

theorem Select.orderBy_relabel (s : Select) (key : Expr) (descending : Bool) :
    (s.relabel φ).orderBy (key.relabel φ) descending = (s.orderBy key descending).relabel φ := by
  obtain ⟨⟩ := s
  simp [Select.orderBy, relabel]

theorem Select.thenBy_relabel (s : Select) (key : Expr) (descending : Bool) :
    (s.relabel φ).thenBy (key.relabel φ) descending = (s.thenBy key descending).relabel φ := by
  obtain ⟨⟩ := s
  simp [Select.thenBy, relabel]

theorem Select.take_some_relabel (s : Select) (count : Expr) :
    { s.relabel φ with take := some (count.relabel φ) } =
      { s with take := some count : Select }.relabel φ := by
  obtain ⟨⟩ := s
  rfl

theorem Select.skip_some_relabel (s : Select) (count : Expr) :
    { s.relabel φ with skip := some (count.relabel φ) } =
      { s with skip := some count : Select }.relabel φ := by
  obtain ⟨⟩ := s
  rfl

theorem Select.single_true_relabel (s : Select) :
    { s.relabel φ with single := true } = { s with single := true : Select }.relabel φ := by
  obtain ⟨⟩ := s
  rfl

theorem Expr.eq_relabel (a b : Expr) : (a.relabel φ).eq (b.relabel φ) = (a.eq b).relabel φ := rfl

theorem Expr.staticCall_relabel (surface : Surface) (method : String) (args : List Expr) (t : Ty) :
    Expr.staticCall surface method (args.map (relabel φ)) t =
      (Expr.staticCall surface method args t).relabel φ := by
  simp [Expr.staticCall, relabel]

theorem Expr.int32_zero_relabel : (Expr.int32 0).relabel φ = Expr.int32 0 := by
  have h := φ.value_default .int32
  exact congrArg (Expr.constant · .int32) h

theorem Expr.index_relabel (e i : Expr) :
    (e.relabel φ).index (i.relabel φ) = (e.index i).relabel φ := by
  simp [Expr.index, Expr.combine, Expr.relabel, Expr.binaryType]

namespace Binding

theorem aggregated_relabel (s : Select) (p : Projection) (label : String) (t : Ty) :
    aggregated (s.relabel φ) (p.relabel φ) label t = (aggregated s p label t).relabel φ := by
  have hgroup : ∀ u : Select, (u.relabel φ).groupAll = u.groupAll.relabel φ := by
    rintro ⟨⟩
    simp [Select.groupAll, Select.relabel, RowGroup.relabel]
  simp only [aggregated, Expr.onlyRowMember, Expr.relabel, Select.project_relabel, hgroup,
    Select.projectedType_relabel]
  rw [Expr.int32_zero_relabel]

theorem orDefault_relabel (wanted : Bool) (e : Expr) (t : Ty) :
    orDefault wanted (e.relabel φ) t = (orDefault wanted e t).relabel φ := by
  cases wanted with
  | false => rfl
  | true =>
    simp [orDefault, Expr.coalesce, Expr.combine, Expr.relabel, Expr.binaryType, φ.value_default,
    Expr.ty]

theorem existsTest_relabel (e : Expr) : existsTest (e.relabel φ) = (existsTest e).relabel φ := by
  cases e with
  | subquery s =>
    simp only [Expr.relabel, existsTest, Expr.combine, Expr.staticCall, Expr.relabelOption_eq,
      Expr.relabelList_eq, Option.map_none, List.map_cons, List.map_nil, Expr.int32_zero_relabel]
    rfl
  | _ => simp [Expr.relabel, existsTest, Expr.staticCall]

theorem expectSelect_relabel (method : String) (e : Expr) :
    expectSelect method (e.relabel φ) = Select.relabel φ <$> expectSelect method e := by
  cases e <;> rfl

theorem aggregateSource_relabel (s : Select) :
    aggregateSource (s.relabel φ) = Select.relabel φ <$> aggregateSource s := by
  unfold aggregateSource
  rw [Select.isWindowed_relabel]
  split
  · simp [Select.ofSelect_relabel]
  · simp

end Binding

namespace GroupKey

theorem columns_relabel (inner : Expr) (source outer : ScopeId) :
    columns (inner.relabel φ) source outer =
      ((columns inner source outer).1.map (OutputField.relabel φ),
        (columns inner source outer).2.relabel φ) := by
  -- A key is an object with members, a path of the row, or any other expression.
  have hother : ∀ e : Expr, (∀ t m members, e ≠ .newObject t (m :: members)) →
      columns e source outer =
        if e.isRowPath source then ([⟨e, none⟩], e.rebase source outer)
        else ([⟨e, some "Key"⟩], Expr.rowMember outer (.anonymous [("Key", e.ty)]) "Key" e.ty) := by
    intro e he
    unfold columns
    split
    · rename_i t m members
      exact absurd rfl (he t m members)
    · rfl
  by_cases hobject : ∃ t m members, inner = .newObject t (m :: members)
  · obtain ⟨t, m, members, rfl⟩ := hobject
    simp [Expr.relabel, columns, OutputField.relabel, Expr.rowMember]
  · have hself : ∀ t m members, inner ≠ .newObject t (m :: members) :=
      fun t m members he => hobject ⟨t, m, members, he⟩
    have hrelabel : ∀ t m members, inner.relabel φ ≠ .newObject t (m :: members) := by
      intro t m members he
      cases inner with
      | newObject t' ms =>
        rcases ms with _ | ⟨m', ms⟩
        · simp [Expr.relabel] at he
        · exact hself t' m' ms rfl
      | _ => simp [Expr.relabel] at he
    rw [hother _ hself, hother _ hrelabel, Expr.isRowPath_relabel, Expr.rebase_relabel,
      Expr.ty_relabel]
    split <;> rfl

theorem terms_relabel (fields : List OutputField) (source : ScopeId) :
    terms (fields.map (OutputField.relabel φ)) source =
      (terms fields source).map (Expr.relabel φ) := by
  simp only [terms, List.filterMap_map, List.map_map, Function.comp_def, OutputField.label_relabel,
    OutputField.expr_relabel, Expr.ty_relabel]
  refine List.map_congr_left fun f _ => ?_
  cases f.label <;> rfl

theorem equality_relabel (inner outer : Expr) :
    equality (inner.relabel φ) (outer.relabel φ) = (equality inner outer).relabel φ := by
  -- The conditions on the members are joined from left to right.
  have hand : ∀ (rest : List Expr) (first : Expr),
      (rest.map (Expr.relabel φ)).foldl Expr.and (first.relabel φ) =
        (rest.foldl Expr.and first).relabel φ := by
    intro rest
    induction rest with
    | nil => exact fun _ => rfl
    | cons r rest ih => exact fun first => ih (first.and r)
  have hzip : ∀ as bs : List (String × Expr),
      List.zipWith (fun a b => a.2.eq b.2) (as.map fun m => (m.1, m.2.relabel φ))
        (bs.map fun m => (m.1, m.2.relabel φ)) =
      (List.zipWith (fun a b => a.2.eq b.2) as bs).map (Expr.relabel φ) := by
    intro as bs
    rw [List.zipWith_map, List.map_zipWith]
    rfl
  cases inner with
  | newObject t as =>
    cases outer with
    | newObject t' bs =>
      simp only [Expr.relabel, Expr.relabelMembers_eq, equality, hzip]
      cases List.zipWith (fun a b => a.2.eq b.2) as bs with
      | nil => simp [Expr.relabel, φ.value_bool]
      | cons first rest => exact hand rest first
    | _ => rfl
  | _ => rfl

end GroupKey

/-! ## Groups -/

theorem Select.groupRows_relabel (s : Select) (inner : Expr) (scope : ScopeId) :
    (s.relabel φ).groupRows (inner.relabel φ) scope = (s.groupRows inner scope).relabel φ := by
  simp only [Select.groupRows, scope_relabel, GroupKey.columns_relabel, GroupKey.equality_relabel,
    filterBy_relabel]

theorem Select.groupedBy_relabel (s : Select) (inner : Expr) (scope : ScopeId) :
    (s.relabel φ).groupedBy (inner.relabel φ) scope = (s.groupedBy inner scope).relabel φ := by
  obtain ⟨⟩ := s
  simp [Select.groupedBy, Select.project, relabel, Projection.relabel, RowGroup.relabel,
    GroupKey.columns_relabel, GroupKey.terms_relabel]

theorem Select.groups_relabel (s : Select) (inner : Expr) (scope : ScopeId) :
    (s.relabel φ).groups (inner.relabel φ) scope = (s.groups inner scope).relabel φ := by
  simp only [Select.groups, groupedBy_relabel, groupRows_relabel, ofSelect_relabel, scope_relabel,
    GroupKey.columns_relabel]
  simp [Select.project, relabel, Projection.relabel, OutputField.relabel, GroupKey.relabel,
    Expr.relabel]

theorem Binding.readBack_relabel (scope : ScopeId) (value : Expr) :
    readBack scope (value.relabel φ) =
      ((readBack scope value).1.map (OutputField.relabel φ),
        (readBack scope value).2.relabel φ) := by
  cases value with
  | newObject t members =>
    simp [Expr.relabel, readBack, OutputField.relabel, Expr.rowMember, Expr.memberTypes]
  | _ => simp [Expr.relabel, readBack, OutputField.relabel, Expr.rowMember, Expr.ty]

theorem Select.withMerged_relabel (grouped : Select) (scope : ScopeId) (value : Expr) :
    (grouped.relabel φ).withMerged scope (value.relabel φ) =
      (grouped.withMerged scope value).relabel φ := by
  simp only [Select.withMerged, Binding.readBack_relabel, projection_relabel]
  cases grouped.projection <;> simp [Projection.relabel, ← project_relabel]

theorem Select.readingMerged_relabel (groups grouped : Select) (value : Expr) :
    (groups.relabel φ).readingMerged (grouped.relabel φ) (value.relabel φ) =
      (groups.readingMerged grouped value).relabel φ := by
  simp only [Select.readingMerged, withMerged_relabel, scope_relabel, Binding.readBack_relabel]
  obtain ⟨⟩ := groups
  simp [relabel, RowSource.relabel, Projection.relabel]

/-! ## Operators -/

namespace Binding

section
variable {bind : Expr → BindM Expr} (hbind : ∀ e, bind (e.relabel φ) = Expr.relabel φ <$> bind e)
include hbind

theorem applyLambda_relabel (s : Select) (method : String) (lambda : Expr) :
    applyLambda bind (s.relabel φ) method (lambda.relabel φ) =
      Expr.relabel φ <$> applyLambda bind s method lambda := by
  unfold applyLambda
  rw [Expr.asLambda_relabel, Select.groupKey_relabel]
  cases lambda.asLambda method with
  | error e => rfl
  | ok p =>
    cases s.groupKey with
    | none =>
      show bind ((p.2.relabel φ).substitute p.1.name (s.relabel φ).rowValue) = _
      rw [Select.rowValue_relabel, Expr.substitute_relabel, hbind]
      rfl
    | some key =>
      show bind ((p.2.relabel φ).substituteGroup p.1.name (key.relabel φ)) = _
      rw [Expr.substituteGroup_relabel, hbind]
      rfl

theorem applyOptional_relabel (s : Select) (method : String) (lambda : Option Expr) :
    applyOptional bind (s.relabel φ) method (lambda.map (Expr.relabel φ)) =
      Option.map (Expr.relabel φ) <$> applyOptional bind s method lambda := by
  cases lambda with
  | none => simp [applyOptional]
  | some lambda => simp [applyOptional, applyLambda_relabel φ hbind]

theorem restricted_relabel (s : Select) (method : String) (predicate : Option Expr) :
    restricted bind (s.relabel φ) method (predicate.map (Expr.relabel φ)) =
      Select.relabel φ <$> restricted bind s method predicate := by
  simp only [restricted, applyOptional_relabel φ hbind, bind_map_left, map_bind]
  refine bind_congr fun c => ?_
  cases c with
  | none => simp
  | some c => simp [Select.filterBy_relabel]

theorem sequence_relabel (method : String) (source : Expr) (predicate : Option Expr) :
    sequence bind method (source.relabel φ) (predicate.map (Expr.relabel φ)) =
      Expr.relabel φ <$> sequence bind method source predicate := by
  cases source with
  | select s =>
    simp only [Expr.relabel, sequence, restricted_relabel φ hbind, bind_map_left,
      map_bind, map_pure]
  | _ => cases predicate <;> rfl

theorem bindProjection_relabel (s : Select) (selector : Expr) :
    bindProjection bind (s.relabel φ) (selector.relabel φ) =
      Expr.relabel φ <$> bindProjection bind s selector := by
  simp only [bindProjection, applyLambda_relabel φ hbind, bind_map_left, map_bind]
  refine bind_congr fun body => ?_
  have hproject : (s.relabel φ).project (.expr (body.relabel φ)) = (s.project (.expr body)).relabel
      φ :=
    Select.project_relabel φ s (.expr body)
  cases body with
  | row scope t =>
    simp only [Expr.relabel] at hproject ⊢
    rw [Select.scope_relabel]
    split <;> simp [Expr.relabel, hproject]
  | _ => exact congrArg (fun u => (pure (.select u) : BindM Expr)) hproject

theorem bindCount_relabel (method : String) (source : Expr) (predicate : Option Expr) (t : Ty) :
    bindCount bind method (source.relabel φ) (predicate.map (Expr.relabel φ)) t =
      Expr.relabel φ <$> bindCount bind method source predicate t := by
  cases source with
  | select s =>
    simp only [Expr.relabel, bindCount, aggregateSource_relabel, bind_map_left, map_bind,
      applyOptional_relabel φ hbind, map_pure]
    refine bind_congr fun s => bind_congr fun p => ?_
    rw [← aggregated_relabel, Projection.relabel, Expr.relabelOption_eq]
  | _ => cases predicate <;> rfl

theorem bindAggregate_relabel (kind : AggregateKind) (method : String) (source : Expr)
    (selector : Option Expr) (t : Ty) :
    bindAggregate bind kind method (source.relabel φ) (selector.map (Expr.relabel φ)) t =
      Expr.relabel φ <$> bindAggregate bind kind method source selector t := by
  simp only [bindAggregate, expectSelect_relabel, aggregateSource_relabel, bind_map_left, map_bind,
    applyOptional_relabel φ hbind, map_pure]
  refine bind_congr fun s => bind_congr fun s => bind_congr fun value => ?_
  rw [← aggregated_relabel, Select.rowValue_relabel, Projection.relabel]
  cases value <;> rfl

theorem bindGroupBy_relabel (source : Select) (key : Expr) :
    bindGroupBy bind (source.relabel φ) (key.relabel φ) =
      Expr.relabel φ <$> bindGroupBy bind source key := by
  simp only [bindGroupBy_eq, applyLambda_relabel φ hbind, bind_map_left, map_bind, map_pure,
    Expr.relabel, Select.groups_relabel]

theorem mergeNode_relabel (name : String) (key : GroupKey) (node : Expr) :
    mergeNode bind name (key.relabel φ) (node.relabel φ) =
      Option.map (Expr.relabel φ) <$> mergeNode bind name key node := by
  unfold mergeNode
  rw [Expr.isKeyOf_relabel, Expr.aggregateOf?_relabel, Expr.shadows_relabel]
  cases node.isKeyOf name with
  | true => rfl
  | false =>
    cases node.aggregateOf? name with
    | none => cases node.shadows name <;> rfl
    | some p =>
      obtain ⟨kind, method, rest, t⟩ := p
      cases rest with
      | nil =>
        have hrow := Select.rowValue_relabel φ key.source
        cases kind <;> simp [GroupKey.relabel, hrow, Expr.relabel]
      | cons lambda rest =>
        have hl := applyLambda_relabel φ hbind key.source method lambda
        cases kind <;> simp [GroupKey.relabel, hl, Expr.relabel]

theorem bindGroupedProjection_relabel (groups : Select) (key : GroupKey) (selector : Expr) :
    bindGroupedProjection bind (groups.relabel φ) (key.relabel φ) (selector.relabel φ) =
      Expr.relabel φ <$> bindGroupedProjection bind groups key selector := by
  rw [bindGroupedProjection_eq, bindGroupedProjection_eq, Expr.asLambda_relabel]
  cases selector.asLambda "Select" with
  | error e => rfl
  | ok p =>
    obtain ⟨param, body⟩ := p
    have hfirst : ∀ q : LambdaParam × Expr,
        (BindM.ofExcept (.ok q) : BindM (LambdaParam × Expr)) = pure q :=
      fun _ => rfl
    have hrow : ∀ value : Expr,
        Select.project { groups.relabel φ with groupKey := none } (.expr (value.relabel φ)) =
          (Select.project { groups with groupKey := none } (.expr value)).relabel φ := by
      intro value
      obtain ⟨⟩ := groups
      rfl
    simp only [Except.map, hfirst, pure_bind, GroupUses.of_relabel, Expr.substituteGroup_relabel,
      hbind, Expr.replaceM_relabel φ (mergeNode_relabel φ hbind param.name key)]
    split
    · simp only [bind_map_left, map_bind, map_pure]
      exact bind_congr fun value => congrArg (fun u => (pure (.select u) : BindM Expr)) (hrow value)
    · simp only [bind_map_left, map_bind, hbind]
      refine bind_congr fun merged => bind_congr fun value => ?_
      rw [Select.source_relabel]
      cases groups.source with
      | table name => rfl
      | subquery grouped => simp [RowSource.relabel, Select.readingMerged_relabel, Expr.relabel]

theorem bindOperator_relabel_nil (op : QueryOp) (method : String) (source : Expr) (t : Ty) :
    bindOperator bind op method (source.relabel φ) [] t =
      Expr.relabel φ <$> bindOperator bind op method source [] t := by
  have hrows := sequence_relabel φ hbind method source none
  rw [Option.map_none] at hrows
  cases op with
  | count => exact bindCount_relabel φ hbind method source none t
  | aggregate kind => exact bindAggregate_relabel φ hbind kind method source none t
  | distinct => exact bindAggregate_relabel φ hbind .distinct method source none t
  | any =>
    simp only [bindOperator, hrows, bind_map_left, map_bind, map_pure, existsTest_relabel,
      Expr.relabel]
  | first default =>
    simp only [bindOperator, hrows, bind_map_left, map_bind, map_pure, Expr.relabel,
      ← orDefault_relabel, ← Expr.index_relabel, Expr.int32_zero_relabel]
  | last default =>
    simp only [bindOperator, hrows, bind_map_left, map_bind, map_pure, Expr.relabel,
      ← orDefault_relabel, ← Expr.staticCall_relabel, List.map_cons, List.map_nil]
  | single =>
    simp only [bindOperator, expectSelect_relabel, bind_map_left, map_bind, map_pure, Expr.relabel,
      Select.single_true_relabel]
  | _ => rfl

theorem bindOperator_relabel_one (op : QueryOp) (method : String) (source arg : Expr) (t : Ty) :
    bindOperator bind op method (source.relabel φ) [arg.relabel φ] t =
      Expr.relabel φ <$> bindOperator bind op method source [arg] t := by
  have hrows := sequence_relabel φ hbind method source none
  have hsome := sequence_relabel φ hbind method source (some arg)
  rw [Option.map_none] at hrows
  rw [Option.map_some] at hsome
  cases op with
  | filter =>
    simp only [bindOperator, expectSelect_relabel, bind_map_left, map_bind, map_pure,
      applyLambda_relabel φ hbind, Select.filterBy_relabel, Expr.relabel]
  | select =>
    simp only [bindOperator, expectSelect_relabel, bind_map_left, map_bind, Select.groupKey_relabel]
    refine bind_congr fun s => ?_
    cases s.groupKey with
    | some key => exact bindGroupedProjection_relabel φ hbind s key arg
    | none => exact bindProjection_relabel φ hbind s arg
  | selectMany => exact bindAggregate_relabel φ hbind .flatten method source (some arg) t
  | groupBy =>
    simp only [bindOperator, expectSelect_relabel, bind_map_left, map_bind,
      bindGroupBy_relabel φ hbind]
  | orderBy descending =>
    simp only [bindOperator, expectSelect_relabel, bind_map_left, map_bind, map_pure,
      applyLambda_relabel φ hbind, Select.orderBy_relabel, Expr.relabel]
  | thenBy descending =>
    simp only [bindOperator, expectSelect_relabel, bind_map_left, map_bind, map_pure,
      applyLambda_relabel φ hbind, Select.thenBy_relabel, Expr.relabel]
  | take =>
    simp only [bindOperator, expectSelect_relabel, bind_map_left, map_bind, map_pure, hbind,
      Select.take_some_relabel, Expr.relabel]
  | skip =>
    simp only [bindOperator, expectSelect_relabel, bind_map_left, map_bind, map_pure, hbind,
      Select.skip_some_relabel, Expr.relabel]
  | count => exact bindCount_relabel φ hbind method source (some arg) t
  | aggregate kind => exact bindAggregate_relabel φ hbind kind method source (some arg) t
  | all =>
    simp only [bindOperator, expectSelect_relabel, bind_map_left, map_bind, map_pure,
      applyLambda_relabel φ hbind, Expr.relabel]
    refine bind_congr fun s => bind_congr fun c => ?_
    have hnot : (c.relabel φ).not = c.not.relabel φ := by simp [Expr.not, Expr.relabel]
    rw [hnot, Select.filterBy_relabel, ← Expr.eq_relabel, ← Expr.staticCall_relabel,
      Expr.int32_zero_relabel]
    rfl
  | any =>
    simp only [bindOperator, hsome, bind_map_left, map_bind, map_pure, existsTest_relabel,
      Expr.relabel]
  | contains =>
    simp only [bindOperator, hrows, bind_map_left, map_bind, map_pure, hbind, Expr.relabel,
      ← Expr.staticCall_relabel, List.map_cons, List.map_nil]
  | first default =>
    simp only [bindOperator, hsome, bind_map_left, map_bind, map_pure, Expr.relabel,
      ← orDefault_relabel, ← Expr.index_relabel, Expr.int32_zero_relabel]
  | last default =>
    simp only [bindOperator, hsome, bind_map_left, map_bind, map_pure, Expr.relabel,
      ← orDefault_relabel, ← Expr.staticCall_relabel, List.map_cons, List.map_nil]
  | elementAt default =>
    simp only [bindOperator, hrows, bind_map_left, map_bind, map_pure, hbind, Expr.relabel,
      ← orDefault_relabel, ← Expr.index_relabel]
  | single =>
    have hrestricted := fun s => restricted_relabel φ hbind s method (some arg)
    simp only [Option.map_some] at hrestricted
    simp only [bindOperator, expectSelect_relabel, bind_map_left, map_bind, map_pure, hrestricted,
      Expr.relabel, Select.single_true_relabel]
  | distinct => rfl

/-- `relabel` goes through the binding of each operator. -/
theorem bindOperator_relabel (op : QueryOp) (method : String) (source : Expr) (args : List Expr)
    (t : Ty) :
    bindOperator bind op method (source.relabel φ) (args.map (Expr.relabel φ)) t =
      Expr.relabel φ <$> bindOperator bind op method source args t := by
  rcases args with _ | ⟨a, _ | ⟨b, args⟩⟩
  · exact bindOperator_relabel_nil φ hbind op method source t
  · exact bindOperator_relabel_one φ hbind op method source a t
  · cases op <;> rfl

theorem bindNode_relabel (e : Expr) :
    bindNode bind (e.relabel φ) = Option.map (Expr.relabel φ) <$> bindNode bind e := by
  cases e with
  | table name element => simp [Expr.relabel, bindNode, Select.ofTable_relabel]
  | call surface method receiver args t =>
    have hcall : bindCall bind method (args.map (Expr.relabel φ)) t =
        Expr.relabel φ <$> bindCall bind method args t := by
      cases args with
      | nil => rfl
      | cons source rest =>
        simp only [bindCall, List.map_cons, hbind, bind_map_left, map_bind]
        refine bind_congr fun source => ?_
        cases QueryOp.ofMethod? method with
        | none => rfl
        | some op => exact bindOperator_relabel φ hbind op method source rest t
    cases surface <;> cases receiver <;> simp [Expr.relabel, bindNode, hcall]
  | _ => rfl

end

/-- `relabel` goes through `bindWith`. -/
theorem bindWith_relabel (fuel : Nat) (e : Expr) :
    bindWith fuel (e.relabel φ) = Expr.relabel φ <$> bindWith fuel e := by
  induction fuel generalizing e with
  | zero => rfl
  | succ fuel ih => exact Expr.replaceM_relabel φ (bindNode_relabel φ ih) e

end Binding

theorem Expr.bind_relabel (e : Expr) : (e.relabel φ).bind = relabel φ <$> e.bind := by
  unfold Expr.bind
  rw [Binding.operatorCount_relabel]
  exact Binding.bindWith_relabel φ _ e

end

end QueryTree
