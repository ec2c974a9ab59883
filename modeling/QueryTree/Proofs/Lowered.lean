import QueryTree.Proofs.Surfaces

/-!
# Lowering does not see values

A bound tree and the same tree without captured values and record ids lower to the same query. The
terms in it have each property that a `Grammar` keeps, if the parameters have it.
-/

namespace QueryTree

open Surql (Term Grammar RowTerms)
open LowerM (Agree)

section
variable {C : LowerM.Correspondence} {N : String → Prop} {E : Error → Prop} {P : Term → Prop}
  {x y x' y' : Operand} {xs ys : List Operand} {r q : Option Operand}

namespace Lowering

section
variable [Grammar C.terms]

/-! ## Nodes over operands -/

theorem instantStatic?_terms {name : String} {t : Term} (h : instantStatic? name = some t) :
    C.terms t := by
  have hnow : C.terms now := Grammar.call (by decide) (List.forall_mem_nil _)
  unfold instantStatic? at h
  split at h <;> cases h
  · exact hnow
  · exact hnow
  · exact Grammar.call (by decide) (List.forall_mem_singleton.mpr (Grammar.literal rfl))
  · exact startOfDay_terms hnow
  · exact Grammar.literal rfl
  · exact Grammar.literal rfl

theorem spanStatic?_terms {name : String} {t : Term} (h : spanStatic? name = some t) :
    C.terms t := by
  unfold spanStatic? at h
  split at h <;> cases h <;> exact Grammar.literal rfl

theorem vectorOf_terms (size : Nat) (component : Nat → Float32) :
    C.terms (vectorOf size component) := by
  refine Grammar.array.mpr fun t ht => ?_
  obtain ⟨i, -, rfl⟩ := List.mem_map.mp ht
  exact Grammar.literal rfl

theorem vectorStatic?_terms {surface : Surface} {name : String} {t : Term}
    (h : vectorStatic? surface name = some t) : C.terms t := by
  unfold vectorStatic? at h
  simp only at h
  split at h
  · cases h
    exact vectorOf_terms _ _
  · cases h
    exact vectorOf_terms _ _
  · split at h
    · split at h
      · cases h
        exact vectorOf_terms _ _
      · cases h
    · cases h

theorem static_agree (surface : Surface) (name : String) :
    Agree C C.terms (static surface name) (static surface name) := by
  have hconstant : ∀ (c? : Option Surql.Constant) {t : Term}, c?.map .constant = some t →
      C.terms t := by
    intro c? t h
    obtain ⟨c, -, rfl⟩ := Option.map_eq_some_iff.mp h
    exact Grammar.literal rfl
  unfold static
  simp only
  split
  · rename_i t ht
    refine .pure ?_
    cases surface with
    | math | float32 | float64 => exact hconstant _ ht
    | dateTime => exact instantStatic?_terms ht
    | timeSpan => exact spanStatic?_terms ht
    | vector2 | vector3 | vector4 => exact vectorStatic?_terms ht
    | string =>
      simp only at ht
      split at ht <;> cases ht
      exact Grammar.literal rfl
    | _ => cases ht
  · exact .refuse rfl

omit [Grammar C.terms] in
theorem row_agree (hC : C.Level) (hrows : RowTerms C.terms) (hscope : C.faults .rowOutOfScope)
    (scope : ScopeId) : Agree C C.terms (row scope) (row scope) := by
  refine (Agree.rowPath hC hscope scope).bind fun parts => ?_
  split
  · exact .pure fun _ => hrows.this
  · rename_i hparts
    refine .pure fun hway => ?_
    obtain ⟨n, rfl⟩ := hway.resolve_left (hparts ·)
    exact hrows.parents n

theorem objectCall_agree (hr : Option.Rel (Operand.Agree C) r q)
    (h : List.Forall₂ (Operand.Agree C) xs ys) (method : String) :
    Agree C C.terms (objectCall method r xs) (objectCall method q ys) := by
  have hall := allOperands_agree hr h
  unfold objectCall
  generalize allOperands r xs = us at hall
  generalize allOperands q ys = vs at hall
  simp only
  split
  · rcases hall with _ | ⟨h₁, _ | ⟨h₂, ⟨⟩⟩⟩
    exact h₁.combine h₂ _ _
  · rcases hall with _ | ⟨h₁, ⟨⟩⟩
    refine (h₁.argument _ 0).bind fun t => ?_
    split
    · exact .pure id
    · exact .pure id
    · exact .pure Grammar.cast
  · split <;> first | exact .refuse rfl | simp_all [List.forall₂_cons_right_iff]

theorem call_agree (hr : Option.Rel (Operand.Agree C) r q)
    (h : List.Forall₂ (Operand.Agree C) xs ys) (surface : Surface) (method : String) :
    Agree C C.terms (call surface method r xs) (call surface method q ys) := by
  cases surface with
  | string => exact textCall_agree hr h method
  | math => exact mathCall_agree h method
  | dateTime => exact instantCall_agree hr h method
  | timeSpan => exact spanCall_agree hr h method
  | enumerable => exact sequenceCall_agree hr h method
  | regex => exact patternCall_agree hr h method
  | vector2 | vector3 | vector4 => exact vectorCall_agree hr h _ method
  | object => exact objectCall_agree hr h method
  | queryable | float32 | float64 => exact .refuse rfl

/-- A missing `castKind` is no fault of the tree. -/
theorem castKind_kind {source target : Ty} {e : Error} (h : source.castKind target = .error e) :
    e.kind ≠ .invalidTree := by
  unfold Ty.castKind at h
  split at h
  · cases h
  · cases h
    rintro ⟨⟩

theorem unary_agree (h : x.Agree C y) (hty : y.expr.ty = x.expr.ty) (op : UnaryOp) (t : Ty) :
    Agree C C.terms (unary op x t) (unary op y t) := by
  cases op with
  | quote => exact h.lowered
  | unaryPlus => exact h.lowered
  | not =>
    simp only [unary, hty]
    split
    · exact .refuse rfl
    · exact h.lowered.bind fun t => .pure Grammar.unary
  | negate => exact h.lowered.bind fun t => .pure Grammar.neg
  | arrayLength => exact h.lowered.call (by decide)
  | convert =>
    simp only [unary, hty]
    refine (Agree.ofExcept (x.expr.ty.castKind t) (fun _ => trivial) fun _ he => ?_).bind
      fun kind => ?_
    · exact castKind_kind he
    cases kind with
    | none => exact h.lowered.imp fun _ ht _ => ht
    | some kind => exact h.lowered.bind fun t => .pure fun ht _ => Grammar.cast ht

theorem index_agree (h : x.Agree C y) (h' : x'.Agree C y') :
    Agree C C.terms (index x x') (index y y') := by
  unfold index
  rw [h'.constantIndex?]
  refine h.lowered.bind fun t => ?_
  cases x'.expr.constantIndex? with
  | some n => exact .pure fun ht => Grammar.step ht rfl
  | none => exact h'.lowered.bind fun u => .pure fun hu ht => Grammar.item ht hu

theorem binary_agree (h : x.Agree C y) (h' : x'.Agree C y') (op : BinaryOp) :
    Agree C C.terms (binary op x x') (binary op y y') := by
  unfold binary
  cases operator? op with
  | some operator => exact h.lowered.binary h'.lowered operator
  | none =>
    simp only
    split
    · exact index_agree h h'
    · exact .refuse rfl

theorem construct_agree (h : List.Forall₂ (Operand.Agree C) xs ys) (t : Ty) :
    Agree C C.terms (construct t xs) (construct t ys) := by
  unfold construct
  split
  · exact newSpan_agree h
  · split
    · exact newInstant_agree h
    · split
      · exact (Operand.all_agree h).bind fun ts => .pure fun hts => Grammar.array.mpr hts.1
      · exact .refuse rfl

end

/-- Two members of one name that agree. -/
def MemberAgree (C : LowerM.Correspondence) (m m' : String × Operand) : Prop :=
  m.1 = m'.1 ∧ m.2.Agree C m'.2

section
variable [Grammar C.terms] {ms ms' : List (String × Operand)} {items items' : List (LowerM Term)}

theorem storedMember_eq (base : Operand) (members : List (String × Operand)) (name : String) :
    storedMember base members name = match base.expr.holder with
      | .row scope t => do return .path ((← LowerM.rowPath scope) ++ [.field (t.columnName name)])
      | .object => match members.lookup name with
        | some x => x.lowered
        | none => throw (.memberUnsupported name)
      | .value => do return (← base.lowered).step (.field (base.expr.ty.columnName name)) := by
  unfold storedMember
  cases base.expr <;> rfl

theorem storedMember_agree_of_value (h : x.Agree C y) (hty : y.expr.ty = x.expr.ty)
    (hrow : ∀ scope t, x.expr.holder ≠ .row scope t) (hms : List.Forall₂ (MemberAgree C) ms ms')
    (name : String) : Agree C C.terms (storedMember x ms name) (storedMember y ms' name) := by
  have hlookup := lookup_rel hms name
  rw [storedMember_eq, storedMember_eq, h.reads.holder, hty]
  cases hholder : x.expr.holder with
  | row scope t => exact absurd hholder (hrow scope t)
  | object =>
    generalize ms.lookup name = m at hlookup ⊢
    generalize ms'.lookup name = m' at hlookup ⊢
    cases hlookup with
    | some h => exact h.lowered
    | none => exact .refuse rfl
  | value => exact h.lowered.bind fun t => .pure fun ht => Grammar.step ht rfl

theorem storedMember_agree (hC : C.Level) (hrows : RowTerms C.terms)
    (hscope : C.faults .rowOutOfScope) (h : x.Agree C y) (hty : y.expr.ty = x.expr.ty)
    (hms : List.Forall₂ (MemberAgree C) ms ms') (name : String) :
    Agree C C.terms (storedMember x ms name) (storedMember y ms' name) := by
  by_cases hrow : ∃ scope t, x.expr.holder = .row scope t
  · obtain ⟨scope, t, hx⟩ := hrow
    rw [storedMember_eq, storedMember_eq, h.reads.holder, hx]
    refine (Agree.rowPath hC hscope scope).bind fun parts => .pure fun hparts => ?_
    rcases hparts with rfl | ⟨n, rfl⟩
    · exact Grammar.field _
    · exact Grammar.step (p := .field _) (hrows.parents n) rfl
  · exact storedMember_agree_of_value h hty (fun scope t hx => hrow ⟨scope, t, hx⟩) hms name

/-- Whether the member `name` of a value of type `t` is computed, and not stored. -/
def isComputed (t : Ty) (name : String) : Bool :=
  t.unwrap == .string || t.unwrap == .prim .dateTime || t.unwrap.isSpan || t.unwrap.isVector ||
    (knowsLength t.unwrap && (name == "Length" || name == "Count")) ||
      (isNullable t && name == "Value")

theorem member_of_stored {base : Operand} {name : String}
    (h : isComputed base.expr.ty name = false) :
    member base ms items name = storedMember base ms name := by
  simp only [isComputed, Bool.or_eq_false_iff] at h
  obtain ⟨⟨⟨⟨⟨hstring, hinstant⟩, hspan⟩, hvector⟩, hlength⟩, hvalue⟩ := h
  simp [member, hstring, hinstant, hspan, hvector, hlength, hvalue]

theorem member_agree (h : x.Agree C y) (hty : y.expr.ty = x.expr.ty)
    (hitems : List.Forall₂ (Agree C C.terms) items items') {name : String}
    (hstored : isComputed x.expr.ty name = false → Agree C C.terms (storedMember x ms name)
      (storedMember y ms' name)) :
    Agree C C.terms (member x ms items name) (member y ms' items' name) := by
  cases hcomputed : isComputed x.expr.ty name with
  | false =>
    rw [member_of_stored hcomputed, member_of_stored (hty ▸ hcomputed)]
    exact hstored hcomputed
  | true =>
    unfold member
    simp only [hty]
    split
    · exact textMember_agree h name
    · split
      · exact instantMember_agree h name
      · split
        · exact spanMember_agree h name
        · split
          · exact vectorMember_agree h hty hitems name
          · split
            · exact h.lowered.call (by decide)
            · split
              · exact h.lowered
              · simp_all [isComputed]

end

end Lowering

/-! ## Trees -/

/-- Two expressions that lower alike, as do their items and members if they are made on the spot. -/
structure Expr.LowersLike (C : LowerM.Correspondence) (e e' : Expr) : Prop where
  operand : Operand.Agree C ⟨e, e.lower⟩ ⟨e', e'.lower⟩
  items : List.Forall₂ (Agree C C.terms) e.knownItems e'.knownItems
  members : List.Forall₂ (Lowering.MemberAgree C) e.memberOperands e'.memberOperands

namespace Expr

/-- The fault of a node that has no term wherever it stands. -/
def fault? : Expr → Option Error
  | .parameter name _ => some (.unboundParameter name)
  | .source s => some (.unexpectedNode (Expr.source s).kind)
  | .captured name c t => some (.unexpectedNode (Expr.captured name c t).kind)
  | .table name element => some (.unexpectedNode (Expr.table name element).kind)
  | _ => none

/-- Whether the term of a node is made of those of its children. -/
def isCompound : Expr → Bool
  | .member _ _ _ | .call _ _ _ _ _ | .unary _ _ _ | .binary _ _ _ _ | .newObject _
    _ | .newArray _ _
  | .construct _ _ | .custom _ _ | .groupAggregate _ _ _ => true
  | _ => false

/-- Whether the type of its child decides what a node is lowered to. -/
def readsType : Expr → Bool
  | .member _ _ _ | .unary _ _ _ => true
  | _ => false

section
variable {e e' : Expr} {es es' cs : List Expr} {o o' : Option Expr} {ms ms' : List (String × Expr)}

theorem LowersLike.lower (h : e.LowersLike C e') : Agree C C.terms e.lower e'.lower :=
  h.operand.lowered

theorem operand_toList_agree (h : Option.Rel (LowersLike C) o o') :
    List.Forall₂ (Operand.Agree C) (operand o).toList (operand o').toList := by
  cases h with
  | none => exact .nil
  | some h => exact .cons h.operand .nil

theorem operands_agree (h : List.Forall₂ (LowersLike C) es es') :
    List.Forall₂ (Operand.Agree C) (operands es) (operands es') := by
  induction h with
  | nil => exact .nil
  | cons h _ ih => exact .cons h.operand ih

theorem lowered_agree (h : List.Forall₂ (LowersLike C) es es') :
    List.Forall₂ (Agree C C.terms) ((operands es).map (·.lowered))
      ((operands es').map (·.lowered)) := by
  rw [List.forall₂_map_left_iff, List.forall₂_map_right_iff]
  exact (operands_agree h).imp fun _ _ h => h.lowered

theorem namedOperands_agree (h : List.Forall₂ (LowersLike C) (ms.map (·.2)) cs) :
    List.Forall₂ (Lowering.MemberAgree C) (namedOperands ms)
      (namedOperands ((ms.map (·.1)).zip cs)) := by
  induction ms generalizing cs with
  | nil => exact .nil
  | cons m ms ih =>
    cases h with
    | cons h hrest => exact .cons ⟨rfl, h.operand⟩ (ih hrest)

theorem lowerMembers_agree (h : List.Forall₂ (LowersLike C) (ms.map (·.2)) cs) :
    Agree C (fun ts => ∀ t ∈ ts, C.terms t.2) (lowerMembers ms)
      (lowerMembers ((ms.map (·.1)).zip cs)) := by
  induction ms generalizing cs with
  | nil => exact .pure (List.forall_mem_nil _)
  | cons m ms ih =>
    cases h with
    | cons h hrest =>
      refine h.lower.bind fun t => (ih hrest).bind fun ts => .pure fun hts ht => ?_
      exact List.forall_mem_cons.mpr ⟨ht, hts⟩

theorem lowerOption_agree (h : Option.Rel (LowersLike C) o o') :
    Agree C (fun t => ∀ u ∈ t, C.terms u) (lowerOption o) (lowerOption o') := by
  cases h with
  | none => exact .pure nofun
  | some h => exact h.lower.bind fun t => .pure fun ht u hu => Option.some.inj hu ▸ ht

/-- A node is lowered alike by `lower` if its children are. -/
theorem lower_agree_of_children [Grammar C.terms] (hC : C.Level) (hrows : RowTerms C.terms)
    (hscope : C.faults .rowOutOfScope) (hcompound : e.isCompound = true)
    (h : List.Forall₂ (LowersLike C) e.children cs)
    (hty : e.readsType = true → List.Forall₂ (fun c c' : Expr => c'.ty = c.ty) e.children cs) :
    Agree C C.terms e.lower (e.withChildren cs).lower := by
  -- Which children a node has is known from its kind, and so is which of them are read by their
  -- types.
  cases e with
  | member base name t =>
    rcases h with _ | ⟨hbase, ⟨⟩⟩
    rcases hty rfl with _ | ⟨hty, ⟨⟩⟩
    exact Lowering.member_agree hbase.operand hty hbase.items fun _ =>
      Lowering.storedMember_agree hC hrows hscope hbase.operand hty hbase.members name
  | call surface method receiver args t =>
    cases receiver with
    | none => exact Lowering.call_agree .none (operands_agree h) surface method
    | some receiver =>
      rcases h with _ | ⟨hreceiver, hargs⟩
      exact Lowering.call_agree (.some hreceiver.operand) (operands_agree hargs) surface method
  | unary op operand t =>
    rcases h with _ | ⟨hoperand, ⟨⟩⟩
    rcases hty rfl with _ | ⟨hty, ⟨⟩⟩
    exact Lowering.unary_agree hoperand.operand hty op t
  | binary op left right t =>
    rcases h with _ | ⟨hleft, _ | ⟨hright, ⟨⟩⟩⟩
    exact Lowering.binary_agree hleft.operand hright.operand op
  | newObject t members =>
    exact (lowerMembers_agree h).bind fun ts => .pure Grammar.object
  | newArray t items =>
    exact (Operand.all_agree (operands_agree h)).bind fun ts => .pure fun hts =>
      Grammar.array.mpr hts.1
  | construct t args => exact Lowering.construct_agree (operands_agree h) t
  | custom inner t =>
    rcases h with _ | ⟨hinner, ⟨⟩⟩
    exact hinner.lower
  | groupAggregate kind selector t =>
    have hselector : ∀ {o : Option Expr}, Option.Rel (LowersLike C) selector o →
        Agree C C.terms (groupAggregate kind selector t).lower (groupAggregate kind o t).lower :=
      fun h => (Operand.all_agree (operand_toList_agree h)).bind fun ts => .pure fun hts =>
        Grammar.call (Lowering.begins_aggregate true kind) hts.1
    cases selector with
    | none => exact hselector .none
    | some e =>
      rcases h with _ | ⟨h, ⟨⟩⟩
      exact hselector (.some h)
  | _ => cases hcompound

theorem knownItems_agree_of_children (hcompound : e.isCompound = true)
    (h : List.Forall₂ (LowersLike C) e.children cs) :
    List.Forall₂ (Agree C C.terms) e.knownItems (e.withChildren cs).knownItems := by
  have hsame := e.sameNode_withChildren cs
  cases e with
  | unary op operand t =>
    rcases h with _ | ⟨hoperand, ⟨⟩⟩
    cases op with
    | quote => exact hoperand.items
    | _ => exact .nil
  | newArray t items => exact lowered_agree h
  | construct t args => exact lowered_agree h
  | constant => cases hcompound
  | _ =>
    generalize Expr.withChildren _ cs = e' at hsame ⊢
    cases hsame <;> exact .nil

theorem memberOperands_agree_of_children (h : List.Forall₂ (LowersLike C) e.children cs) :
    List.Forall₂ (Lowering.MemberAgree C) e.memberOperands (e.withChildren cs).memberOperands := by
  have hsame := e.sameNode_withChildren cs
  cases e with
  | newObject t members => exact namedOperands_agree h
  | _ =>
    generalize Expr.withChildren _ cs = e' at hsame ⊢
    cases hsame <;> exact .nil

end

end Expr

/-! ## Selects -/

section
variable {R : Expr → Expr → Prop} {S : Select → Select → Prop}

/-- Two projections of one kind, of expressions related by `R`. -/
inductive Projection.Related (R : Expr → Expr → Prop) : Projection → Projection → Prop
  | all : Projection.Related R .all .all
  | expr {e e' : Expr} : R e e' → Projection.Related R (.expr e) (.expr e')
  | fields {fs fs' : List OutputField} :
    List.Forall₂ (fun f f' => f.label = f'.label ∧ R f.expr f'.expr) fs fs' →
    Projection.Related R (.fields fs) (.fields fs')
  | count {o o' : Option Expr} : Option.Rel R o o' → Projection.Related R (.count o) (.count o')
  | aggregation {kind : AggregateKind} {e e' : Expr} {label : String} : R e e' →
    Projection.Related R (.aggregation kind e label) (.aggregation kind e' label)

/-- Two ways to take rows together by keys related by `R`. -/
inductive RowGroup.Related (R : Expr → Expr → Prop) : RowGroup → RowGroup → Prop
  | all : RowGroup.Related R .all .all
  | keys {es es' : List Expr} : List.Forall₂ R es es' → RowGroup.Related R (.keys es) (.keys es')

/-- The same table, or selects related by `S`. -/
inductive RowSource.Related (S : Select → Select → Prop) : RowSource → RowSource → Prop
  | table (name : String) : RowSource.Related S (.table name) (.table name)
  | subquery {s s' : Select} : S s s' → RowSource.Related S (.subquery s) (.subquery s')

/-- Two selects that are made in the same way of what is related by `R` and `S`. -/
structure Select.Related (R : Expr → Expr → Prop) (S : Select → Select → Prop) (s s' : Select) :
    Prop where
  scope : s.scope = s'.scope
  single : s.single = s'.single
  source : s.source.Related S s'.source
  projection : s.projection.Related R s'.projection
  filter : Option.Rel R s.filter s'.filter
  group : Option.Rel (RowGroup.Related R) s.group s'.group
  orderings : List.Forall₂ (fun k k' => k.descending = k'.descending ∧ R k.expr k'.expr)
    s.orderings s'.orderings
  take : Option.Rel R s.take s'.take
  skip : Option.Rel R s.skip s'.skip

section
variable {R' : Expr → Expr → Prop} {S' : Select → Select → Prop} {s s' : Select}

theorem Projection.Related.imp {p p' : Projection} (h : p.Related R p')
    (hR : ∀ c ∈ p.exprs, ∀ c', R c c' → R' c c') : p.Related R' p' := by
  cases h with
  | all => exact .all
  | expr h => exact .expr (hR _ (by simp [Projection.exprs]) _ h)
  | @fields fs fs' h =>
    rw [List.forall₂_iff_zip] at h
    refine .fields (List.forall₂_iff_zip.mpr ⟨h.1, fun {f f'} hp => ⟨(h.2 hp).1, ?_⟩⟩)
    exact hR _ (List.mem_map.mpr ⟨f, (List.of_mem_zip hp).1, rfl⟩) _ (h.2 hp).2
  | count h =>
    cases h with
    | none => exact .count .none
    | some h => exact .count (.some (hR _ (by simp [Projection.exprs]) _ h))
  | aggregation h => exact .aggregation (hR _ (by simp [Projection.exprs]) _ h)

theorem RowGroup.Related.imp {g g' : RowGroup} (h : g.Related R g')
    (hR : ∀ c ∈ g.exprs, ∀ c', R c c' → R' c c') : g.Related R' g' := by
  cases h with
  | all => exact .all
  | keys h =>
    rw [List.forall₂_iff_zip] at h
    exact .keys (List.forall₂_iff_zip.mpr ⟨h.1, fun hp => hR _ (List.of_mem_zip hp).1 _ (h.2 hp)⟩)

/-- Only the clauses of `s` and what it reads have to be related otherwise. -/
theorem Select.Related.imp (h : s.Related R S s')
    (hR : ∀ c ∈ s.clauses true, ∀ c', R c c' → R' c c')
    (hS : ∀ v ∈ s.inputs true, ∀ v', S v v' → S' v v') : s.Related R' S' s' := by
  obtain ⟨hscope, hsingle, hsource, hprojection, hfilter, hgroup, horderings, htake, hskip⟩ := h
  have hoption : ∀ {o o' : Option Expr}, Option.Rel R o o' → (∀ c ∈ o, c ∈ s.clauses true) →
      Option.Rel R' o o' := by
    intro o o' h ho
    cases h with
    | none => exact .none
    | some h => exact .some (hR _ (ho _ rfl) _ h)
  constructor
  · exact hscope
  · exact hsingle
  · have hmem : ∀ v, s.source = .subquery v → v ∈ s.inputs true := by
      intro v hv
      simp [inputs, hv, RowSource.select?]
    generalize s.source = source, s'.source = source' at hsource hmem
    cases hsource with
    | table name => exact .table name
    | subquery hv => exact .subquery (hS _ (hmem _ rfl) _ hv)
  · exact hprojection.imp fun c hc => hR c (by simp [clauses, hc])
  · exact hoption hfilter fun c hc => by simp [clauses, Option.mem_def.mp hc]
  · have hmem : ∀ g, s.group = some g → ∀ c ∈ g.exprs, c ∈ s.clauses true := by
      intro g hg c hc
      simp [clauses, hg, hc]
    generalize s.group = g, s'.group = g' at hgroup hmem
    cases hgroup with
    | none => exact .none
    | some hg => exact .some (hg.imp fun c hc => hR c (hmem _ rfl c hc))
  · rw [List.forall₂_iff_zip] at horderings ⊢
    refine ⟨horderings.1, fun {k k'} hp => ⟨(horderings.2 hp).1, hR _ ?_ _ (horderings.2 hp).2⟩⟩
    simp only [clauses, List.mem_append]
    exact .inl (.inl (.inl (.inr (List.mem_map.mpr ⟨k, (List.of_mem_zip hp).1, rfl⟩))))
  · exact hoption htake fun c hc => by simp [clauses, Option.mem_def.mp hc]
  · exact hoption hskip fun c hc => by simp [clauses, Option.mem_def.mp hc]

end

end

open Surql (Columns)

theorem Expr.lowerColumns_agree {ms ms' : List (String × Expr)}
    (h : List.Forall₂ (Lowering.MemberAgree C) (namedOperands ms) (namedOperands ms')) :
    Agree C (fun columns => (∀ c ∈ columns, C.terms c.term) ∧ (ms ≠ [] → columns ≠ []))
      (lowerColumns ms) (lowerColumns ms') := by
  induction ms generalizing ms' with
  | nil =>
    cases ms' with
    | nil => exact .pure ⟨nofun, (absurd rfl ·)⟩
    | cons m ms' => cases h
  | cons m ms ih =>
    cases ms' with
    | nil => cases h
    | cons m' ms' =>
      obtain ⟨name, e⟩ := m
      obtain ⟨name', e'⟩ := m'
      obtain ⟨⟨hname, he⟩, hms⟩ := List.forall₂_cons.mp h
      obtain rfl : name = name' := hname
      refine he.lowered.bind fun t => (ih hms).bind fun ts => .pure fun hts ht =>
        ⟨?_, fun _ => nofun⟩
      exact List.forall_mem_cons.mpr ⟨ht, hts.1⟩

theorem OutputField.lower_agree {fields fields' : List OutputField}
    (h : List.Forall₂ (fun f f' => f.label = f'.label ∧ f.expr.LowersLike C f'.expr)
    fields fields') :
    Agree C (fun columns => (∀ c ∈ columns, C.terms c.term) ∧ (fields ≠ [] → columns ≠ []))
      (lower fields) (lower fields') := by
  induction h with
  | nil => exact .pure ⟨nofun, (absurd rfl ·)⟩
  | @cons f f' fields fields' h _ ih =>
    obtain ⟨e, label⟩ := f
    obtain ⟨e', label'⟩ := f'
    obtain ⟨rfl, he⟩ : label = label' ∧ _ := h
    refine he.lower.bind fun t => ih.bind fun ts => .pure fun hts ht => ⟨?_, fun _ => nofun⟩
    exact List.forall_mem_cons.mpr ⟨ht, hts.1⟩

theorem SortKey.lower_agree {keys keys' : List SortKey}
    (h : List.Forall₂ (fun k k' => k.descending = k'.descending ∧ k.expr.LowersLike C k'.expr)
      keys keys') :
    Agree C (fun order => ∀ k ∈ order, C.terms k.term) (lower keys) (lower keys') := by
  induction h with
  | nil => exact .pure nofun
  | @cons k k' keys keys' h _ ih =>
    obtain ⟨e, descending⟩ := k
    obtain ⟨e', descending'⟩ := k'
    obtain ⟨rfl, he⟩ : descending = descending' ∧ _ := h
    refine he.lower.bind fun t => ih.bind fun ts => .pure fun hts ht => ?_
    exact List.forall_mem_cons.mpr ⟨ht, hts⟩

section
variable {listed : Prop}

theorem RowGroup.lower_agree {g g' : Option RowGroup}
    (h : Option.Rel (RowGroup.Related (Expr.LowersLike C)) g g')
    (hlisted : listed → ∀ keys, g = some (.keys keys) → keys ≠ []) :
    Agree C (Surql.GroupBy.Made C.terms listed) (lower g) (lower g') := by
  rcases h with ⟨⟨⟩ | @⟨es, es', hkeys⟩⟩ | _
  · exact .pure ⟨nofun, fun _ => nofun⟩
  · refine (Operand.all_agree (Expr.operands_agree hkeys)).bind fun ts => .pure fun hts =>
      ⟨hts.1, fun hl => ?_⟩
    have hne : Expr.operands es ≠ [] := by
      have hes := hlisted hl es rfl
      cases es with
      | nil => exact absurd rfl hes
      | cons e es => exact nofun
    simpa using hts.2 hne
  · exact .pure ⟨nofun, fun _ => nofun⟩

theorem RowSource.lower_agree (hC : C.Level) {source source' : RowSource}
    (h : source.Related (fun s s' => Agree C C.statements s.lower s'.lower) source') :
    Agree C (fun target => ∀ u, target = .subquery u → C.statements u)
      source.lower source'.lower := by
  cases h with
  | table name => exact .pure nofun
  | subquery h =>
    refine (h.nested hC).bind fun u => .pure fun hu => ?_
    rintro _ ⟨⟩
    exact hu

/-- Whether an expression is put out as all columns of the row, as columns by name or as a value is
seen from its `holder`. -/
theorem Projection.lower_expr_agree {e e' : Expr} (scope : ScopeId) (h : e.LowersLike C e') :
    Agree C (Columns.Made C.terms listed) ((Projection.expr e).lower scope)
      ((Projection.expr e').lower scope) := by
  have hvalue : Agree C (Columns.Made C.terms listed) (do return .value (← e.lower))
      (do return .value (← e'.lower)) :=
    h.lower.bind fun t => .pure fun ht => ⟨List.forall_mem_singleton.mpr ht, fun _ => nofun⟩
  -- The two forms that are not values are told apart by it, so both expressions have the same one.
  have hholder := h.operand.reads.holder
  cases e with
  | row s t =>
    obtain rfl : e' = .row s t := by cases e' <;> simp_all [Expr.holder]
    simp only [lower]
    split
    · exact .pure ⟨nofun, fun _ => nofun⟩
    · exact hvalue
  | newObject t ms =>
    obtain ⟨t', ms', rfl⟩ : ∃ t' ms', e' = .newObject t' ms' := by
      cases e' <;> simp_all [Expr.holder]
    have hmembers : List.Forall₂ (Lowering.MemberAgree C) (Expr.namedOperands ms)
        (Expr.namedOperands ms') :=
      h.members
    cases ms with
    | nil =>
      cases ms' with
      | nil => exact hvalue
      | cons m' ms' => cases hmembers
    | cons m ms =>
      cases ms' with
      | nil => cases hmembers
      | cons m' ms' =>
        refine (Expr.lowerColumns_agree hmembers).bind fun cs => .pure fun hcs => ⟨?_, fun _ => ?_⟩
        · exact List.forall_mem_map.mpr hcs.1
        · simpa using hcs.2 (List.cons_ne_nil m ms)
  | _ => cases e' <;> first | exact hvalue | cases hholder

theorem Projection.lower_agree [Grammar C.terms] {p p' : Projection} (scope : ScopeId)
    (h : p.Related (Expr.LowersLike C) p')
    (hlisted : listed → ∀ fields, p = .fields fields → fields ≠ []) :
    Agree C (Columns.Made C.terms listed) (p.lower scope) (p'.lower scope) := by
  cases h with
  | all => exact .pure ⟨nofun, fun _ => nofun⟩
  | expr h => exact lower_expr_agree scope h
  | fields h =>
    refine (OutputField.lower_agree h).bind fun cs => .pure fun hcs =>
      ⟨List.forall_mem_map.mpr hcs.1, fun hl => ?_⟩
    simpa using hcs.2 (hlisted hl _ rfl)
  | count h =>
    refine (Operand.all_agree (Expr.operand_toList_agree h)).bind fun ts => .pure fun hts =>
      ⟨?_, fun _ => nofun⟩
    exact List.forall_mem_singleton.mpr (Grammar.call (Lowering.begins_aggregate false .count)
      hts.1)
  | @aggregation kind _ _ _ h =>
    refine h.lower.bind fun t => .pure fun ht => ⟨?_, fun _ => nofun⟩
    exact List.forall_mem_singleton.mpr (Grammar.call (Lowering.begins_aggregate false kind)
      (by simpa using ht))

end

/-- A field wherever `s` has a list of fields, and a key wherever it has a list of keys. -/
structure Select.Lists (s : Select) : Prop where
  fields : ∀ fields, s.projection = .fields fields → fields ≠ []
  keys : ∀ keys, s.group = some (.keys keys) → keys ≠ []

/-- `Select.lower` does the same if it does so to clauses and sources. -/
theorem Select.lower_agree [Grammar C.terms] (hC : C.Level) {s s' : Select}
    (h : s.Related (Expr.LowersLike C) (fun v v' => Agree C C.statements v.lower v'.lower) s') :
    Agree C (Surql.Statement.Made C.terms s.Lists) s.lower s'.lower := by
  obtain ⟨scope, element, source, projection, filter, group, orderings, take, skip,
    single, key⟩ := s
  obtain ⟨scope', element', source', projection', filter', group', orderings', take', skip',
    single', key'⟩ := s'
  obtain ⟨rfl, rfl, hsource, hprojection, hfilter, hgroup, horderings, htake, hskip⟩ := h
  refine .withScope hC scope ?_
  refine (RowSource.lower_agree hC hsource).bind fun target => ?_
  refine (Projection.lower_agree scope hprojection Select.Lists.fields).bind fun columns => ?_
  refine (Expr.lowerOption_agree hfilter).bind fun cond => ?_
  refine (RowGroup.lower_agree hgroup Select.Lists.keys).bind fun group => ?_
  refine (SortKey.lower_agree horderings).bind fun order => ?_
  refine (Expr.lowerOption_agree htake).bind fun limit => ?_
  refine (Expr.lowerOption_agree hskip).bind fun start => ?_
  exact .pure fun hstart hlimit horder hgroup hcond hcolumns htarget =>
    ⟨hcolumns, htarget, hcond, hgroup, horder, hlimit, hstart⟩

/-! ## Without values -/

/-- A node with `isCompound` has nothing to hide itself. -/
theorem Expr.hidden_of_isCompound {e : Expr} (h : e.isCompound = true) :
    e.hidden = e.withChildren (e.children.map hidden) := by
  cases e with
  | call surface method receiver args t =>
    cases receiver <;> simp [hidden, relabel, children, withChildren]
  | groupAggregate kind selector t =>
    cases selector <;> simp [hidden, relabel, children, withChildren]
  | newObject t members =>
    simp only [hidden, relabel, relabelMembers_eq, children, withChildren, List.map_map]
    rw [List.zip_map', Function.comp_def]
  | member | unary | binary | newArray | construct | custom =>
    simp [hidden, relabel, children, withChildren]
  | _ => cases h

section
variable {R : Expr → Expr → Prop} {S : Select → Select → Prop} {φ : Relabeling}

theorem Projection.related_relabel {p : Projection} (h : ∀ c ∈ p.exprs, R c (c.relabel φ)) :
    p.Related R (p.relabel φ) := by
  cases p with
  | all => exact .all
  | expr e => exact .expr (h e (by simp [exprs]))
  | fields fields =>
    simp only [relabel, OutputField.relabelList_eq]
    refine .fields (List.forall₂_map_right_iff.mpr (List.forall₂_same.mpr fun f hf => ⟨rfl, ?_⟩))
    exact h f.expr (List.mem_map.mpr ⟨f, hf, rfl⟩)
  | count predicate =>
    simp only [relabel, Expr.relabelOption_eq]
    cases predicate with
    | none => exact .count .none
    | some e => exact .count (.some (h e (by simp [exprs])))
  | aggregation kind selector label => exact .aggregation (h selector (by simp [exprs]))

theorem RowGroup.related_relabel {g : Option RowGroup}
    (h : ∀ c ∈ g.toList.flatMap exprs, R c (c.relabel φ)) :
    Option.Rel (RowGroup.Related R) g (relabel φ g) := by
  rcases g with _ | _ | keys
  · exact .none
  · exact .some .all
  · simp only [relabel, Expr.relabelList_eq]
    refine .some (.keys (List.forall₂_map_right_iff.mpr (List.forall₂_same.mpr ?_)))
    simpa [exprs] using h

theorem Select.related_relabel {s : Select} (hc : ∀ c ∈ s.clauses true, R c (c.relabel φ))
    (hi : ∀ v ∈ s.inputs true, S v (v.relabel φ)) : s.Related R S (s.relabel φ) := by
  have hoption : ∀ {o : Option Expr}, (∀ c ∈ o, R c (c.relabel φ)) →
      Option.Rel R o (o.map (Expr.relabel φ)) := by
    intro o ho
    cases o with
    | none => exact .none
    | some c => exact .some (ho c rfl)
  constructor
  · rw [scope_relabel]
  · rw [single_relabel]
  · rw [source_relabel]
    cases hsource : s.source with
    | table name => exact .table name
    | subquery v => exact .subquery (hi v (by simp [inputs, hsource, RowSource.select?]))
  · rw [projection_relabel]
    exact Projection.related_relabel fun c hp => hc c (by simp [clauses, hp])
  · rw [filter_relabel]
    exact hoption fun c hf => hc c (by simp [clauses, Option.mem_def.mp hf])
  · rw [group_relabel]
    refine RowGroup.related_relabel fun c hg => hc c ?_
    simp only [clauses, List.mem_append]
    exact .inl (.inl (.inl (.inl (.inr hg))))
  · rw [orderings_relabel]
    refine List.forall₂_map_right_iff.mpr (List.forall₂_same.mpr fun k hk => ⟨rfl, hc k.expr ?_⟩)
    simp only [clauses, List.mem_append]
    exact .inl (.inl (.inl (.inr (List.mem_map.mpr ⟨k, hk, rfl⟩))))
  · rw [take_relabel]
    exact hoption fun c ht => hc c (by simp [clauses, Option.mem_def.mp ht])
  · rw [skip_relabel]
    exact hoption fun c hs => hc c (by simp [clauses, Option.mem_def.mp hs])

end

section
variable {A : Expr → Prop} {B : Select → Prop}

/-- A node that is not `isCompound` lowers alike without captured values and record ids if the
select it is does. -/
theorem Expr.lower_agree_of_leaf [Grammar P] (hrows : RowTerms P) (hN : ∀ n, N n → P (.param n))
    (hscope : E .rowOutOfScope) {e : Expr} (hleaf : e.isCompound = false)
    (hfault : ∀ err, e.fault? = some err → E err) (hname : ∀ name t, e = .named name t → N name)
    (hs : ∀ s, e.select? = some s →
      Agree (.hiding N E P) (fun u => P (.subquery u)) s.lower (s.relabel .hiding).lower) :
    Agree (.hiding N E P) P e.lower e.hidden.lower := by
  cases e with
  | constant v t => exact v.lower_agree hN
  | named name t => exact .pure (hN name (hname name t rfl))
  | row scope t =>
    exact Lowering.row_agree (C := .hiding N E P) (LowerM.level_hiding N E P) hrows hscope scope
  | static surface name t => exact Lowering.static_agree (C := .hiding N E P) surface name
  | select s => exact ((hs s rfl).nested (LowerM.level_hiding N E P)).bind fun u => .pure id
  | subquery s => exact ((hs s rfl).nested (LowerM.level_hiding N E P)).bind fun u => .pure id
  | lambda params body => exact .refuse rfl
  | parameter name t => exact .throw _ fun _ => hfault _ rfl
  | source s => exact .throw _ fun _ => hfault _ rfl
  | captured name c t => exact .throw _ fun _ => hfault _ rfl
  | table name element => exact .throw _ fun _ => hfault _ rfl
  | _ => cases hleaf

theorem Expr.knownItems_agree_of_leaf [Grammar P] (hN : ∀ n, N n → P (.param n)) {e : Expr}
    (hleaf : e.isCompound = false) :
    List.Forall₂ (Agree (.hiding N E P) P) e.knownItems e.hidden.knownItems := by
  cases e with
  | constant v t =>
    cases v with
    | array items =>
      simp only [hidden, relabel, Relabeling.hiding, Value.hidden, knownItems, Value.hiddenItems_eq,
        List.map_map]
      rw [List.forall₂_map_left_iff, List.forall₂_map_right_iff]
      exact List.forall₂_same.mpr fun v _ => v.lower_agree hN
    | _ => exact .nil
  | unary | newArray | construct => cases hleaf
  | _ => exact .nil

/-- What has no parameters but those in `N` and no faults but those in `E` lowers alike without
captured values and record ids, however deep, and to terms that have `P`. -/
theorem lowers_alike_of [Grammar P] (hAB : Hereditary A B) (hrows : RowTerms P)
    (hN : ∀ n, N n → P (.param n)) (hmade : ∀ s u, B s → u.Made P s.Lists → P (.subquery u))
    (hname : ∀ name t, A (.named name t) → N name) (hscope : E .rowOutOfScope)
    (hfault : ∀ e err, A e → e.fault? = some err → E err) :
    (∀ e, A e → e.LowersLike (.hiding N E P) e.hidden) ∧
      ∀ s, B s → Agree (.hiding N E P) (fun u => P (.subquery u))
        s.lower (s.relabel .hiding).lower := by
  have hlevel : (LowerM.Correspondence.hiding N E P).Level := LowerM.level_hiding N E P
  apply deepInduction
  · intro e hc hs he
    have hkids : List.Forall₂ (Expr.LowersLike (.hiding N E P))
        e.children (e.children.map Expr.hidden) :=
      List.forall₂_map_right_iff.mpr (List.forall₂_same.mpr fun c hce =>
        hc c hce (hAB.child he hce))
    -- Nodes over others have nothing to hide themselves; in the others it is hidden, and nothing is
    -- below.
    cases hcompound : e.isCompound with
    | true =>
      have hlower : Agree (.hiding N E P) P e.lower e.hidden.lower := by
        rw [Expr.hidden_of_isCompound hcompound]
        refine Expr.lower_agree_of_children hlevel hrows hscope hcompound hkids fun _ => ?_
        exact List.forall₂_map_right_iff.mpr (List.forall₂_same.mpr fun c _ => c.ty_relabel _)
      refine ⟨⟨e.readsLike_hidden, .inl (e.ty_relabel _), hlower⟩, ?_, ?_⟩ <;>
        rw [Expr.hidden_of_isCompound hcompound]
      · exact Expr.knownItems_agree_of_children hcompound hkids
      · exact Expr.memberOperands_agree_of_children hkids
    | false =>
      refine ⟨⟨e.readsLike_hidden, .inl (e.ty_relabel _), ?_⟩, Expr.knownItems_agree_of_leaf hN
        hcompound, ?_⟩
      · exact Expr.lower_agree_of_leaf hrows hN hscope hcompound (fun err h => hfault e err he h)
          (fun name t h => hname name t (h ▸ he)) fun s hes => hs s hes (hAB.select he hes)
      · cases e <;> first | exact .nil | cases hcompound
  · intro s hc hi hs
    refine (Select.lower_agree hlevel (Select.related_relabel (fun c hcs => ?_) fun v hv => ?_)).imp
      fun u hu => hmade s u hs hu
    · exact hc c hcs (hAB.clause hs hcs)
    · exact hi v hv (hAB.input hs hv)

/-! ## Queries -/

/-- `lowerRoot` makes a query of its own of a select. -/
theorem Expr.lowerRoot_agree_of {e e' : Expr} (hterm : Agree C C.terms e.lower e'.lower)
    (hselect : ∀ s, e = .select s → ∃ s', e' = .select s' ∧ Agree C C.statements s.lower s'.lower)
    (hright : ∀ s', e' = .select s' → ∃ s, e = .select s) :
    Agree C (fun query => C.terms query.asTerm) e.lowerRoot e'.lowerRoot := by
  have hvalue : Agree C (fun query : Surql.Query => C.terms query.asTerm)
      (do return .term (← e.lower)) (do return .term (← e'.lower)) :=
    hterm.bind fun t => .pure id
  cases e with
  | select s =>
    obtain ⟨s', rfl, hs⟩ := hselect s rfl
    exact hs.bind fun u => .pure id
  | _ =>
    cases e' with
    | select s' =>
      obtain ⟨s, hs⟩ := hright s' rfl
      cases hs
    | _ => exact hvalue

theorem Expr.lowerRoot_agree_of_hidden {e : Expr} (hterm : e.LowersLike C e.hidden)
    (hselect : ∀ s, e.select? = some s → Agree C C.statements s.lower (s.relabel .hiding).lower) :
    Agree C (fun query => C.terms query.asTerm) e.lowerRoot e.hidden.lowerRoot := by
  refine Expr.lowerRoot_agree_of hterm.lower ?_ ?_
  · rintro s rfl
    exact ⟨_, rfl, hselect s rfl⟩
  · intro s' hs'
    cases e <;> first | exact ⟨_, rfl⟩ | cases hs'

/-! ## Parameters -/

/-- The parameters that terms mention are those of the tree, those given to record ids, and `this`
and `parent`. -/
theorem lowers_alike (hAB : Hereditary A B) (hthis : N "this") (hparent : N "parent")
    (hname : ∀ name t, A (.named name t) → N name) (hscope : E .rowOutOfScope)
    (hfault : ∀ e err, A e → e.fault? = some err → E err) :
    (∀ e, A e → e.LowersLike (.hiding N E (Term.Over N)) e.hidden) ∧
      ∀ s, B s → Agree (.hiding N E (Term.Over N)) (Surql.Statement.Over N)
        s.lower (s.relabel .hiding).lower :=
  lowers_alike_of hAB (.over hthis hparent) (fun _ h => Term.over_param.mpr h)
    (fun _ _ _ h => h.over) hname hscope hfault

theorem Expr.lowerRoot_agree (hAB : Hereditary A B) (hthis : N "this") (hparent : N "parent")
    (hname : ∀ name t, A (.named name t) → N name) (hscope : E .rowOutOfScope)
    (hfault : ∀ e err, A e → e.fault? = some err → E err) {e : Expr} (he : A e) :
    Agree (.hiding N E (Term.Over N)) (fun query => ∀ n ∈ query.mentions, N n)
      e.lowerRoot e.hidden.lowerRoot := by
  obtain ⟨hexpr, hselect⟩ := lowers_alike hAB hthis hparent hname hscope hfault
  have hroot := Expr.lowerRoot_agree_of_hidden (hexpr e he) fun s hs => hselect s (hAB.select he hs)
  exact hroot.imp fun query hquery => Surql.Query.over_asTerm.mp hquery

end

end

theorem hereditary_true : Hereditary (fun _ => True) fun _ => True :=
  ⟨fun _ _ => trivial, fun _ _ => trivial, fun _ _ => trivial, fun _ _ => trivial⟩

/-- `lowerRoot` does the same with and without captured values and record ids. -/
theorem Expr.lowerRoot_hidden (e : Expr) :
    Agree (.hiding (fun _ => True) (fun _ => True) (Term.Over fun _ => True))
      (fun query => ∀ n ∈ query.mentions, True) e.lowerRoot e.hidden.lowerRoot :=
  Expr.lowerRoot_agree hereditary_true trivial trivial (fun _ _ _ => trivial) trivial
    (fun _ _ _ _ => trivial) trivial

/-! ## The same run -/

section
variable {C : LowerM.Correspondence} {P : Term → Prop} {α : Type} {G : α → Prop} {x y : LowerM α}

/-- What keeps the table and the nesting agrees with itself in `C`. -/
theorem LowerM.Agree.self (hstates : C.states = Eq) (hfaults : ∀ err, C.faults err)
    (h : Agree (.hiding (fun _ => True) (fun _ => True) P) G x y) : Agree C G x x where
  alike s t hst := by
    rw [hstates] at hst ⊢
    cases hst
    exact .inr ⟨rfl, rfl⟩
  keeps := h.keeps
  frame := h.frame
  fails _ _ err _ _ _ := hfaults err
  gives s a t ha _ := h.gives s a t ha fun _ _ => trivial

/-- A node that is not `isCompound` lowers to the same from the same state. -/
theorem Expr.lowersLike_self (hstates : C.states = Eq) (hfaults : ∀ err, C.faults err)
    (hterms : ∀ t, C.terms t) {e : Expr} (hleaf : e.isCompound = false) : e.LowersLike C e := by
  have hagree := (lowers_alike (N := fun _ => True) (E := fun _ => True)
    hereditary_true trivial trivial (fun _ _ _ => trivial) trivial fun _ _ _ _ => trivial).1 e
    trivial
  refine ⟨⟨.refl e, .inl rfl, (hagree.lower.self hstates hfaults).imp fun t _ => hterms t⟩, ?_, ?_⟩
  · refine List.forall₂_same.mpr fun x hx => ?_
    obtain ⟨i, hi, rfl⟩ := List.getElem_of_mem hx
    exact ((hagree.items.get hi (hagree.items.length_eq ▸ hi)).self hstates hfaults).imp fun t
      _ => hterms t
  · cases e <;> first | exact .nil | cases hleaf

end

end QueryTree
