import QueryTree.Proofs.Clauses
import QueryTree.Proofs.Lexical

/-!
# Levels count the selects around

A nesting `Reads` as a list of scopes if it counts the same steps as the selects around. Entering a
select puts its scope in front of the list, also one that is there already, and leaving it takes it
away. So lowering does the same with levels as without.
-/

namespace QueryTree

open Surql (Term)
open LowerM (Agree)

/-! ## What a nesting reads as -/

namespace LowerM

theorem distance_self (around : List ScopeId) (scope : ScopeId) :
    distance (scope :: around) scope = .ok 0 := by
  simp [distance, List.idxOf?_cons]

theorem distance_of_ne {scope other : ScopeId} (h : other ≠ scope) (around : List ScopeId) :
    distance (scope :: around) other = (distance around other).map (· + 1) := by
  have hne : (scope == other) = false := by simpa using Ne.symm h
  unfold distance
  rw [List.idxOf?_cons, hne]
  cases around.idxOf? other <;> rfl

/-- `distance` is to the first select around that has the scope. -/
theorem distance_append {front : List ScopeId} {scope : ScopeId} (h : scope ∉ front)
    (back : List ScopeId) : distance (front ++ scope :: back) scope = .ok front.length := by
  induction front with
  | nil => exact distance_self back scope
  | cons first front ih =>
    obtain ⟨hne, hfront⟩ := not_or.mp (fun hor => h (List.mem_cons.mpr hor))
    rw [List.cons_append, distance_of_ne hne, ih hfront]
    rfl

theorem distance_error {around : List ScopeId} {scope : ScopeId} {e : Error}
    (h : distance around scope = .error e) : scope ∉ around ∧ e = .rowOutOfScope := by
  unfold distance at h
  split at h
  · cases h
  · rename_i hnone
    cases h
    exact ⟨List.idxOf?_eq_none_iff.mp hnone, rfl⟩

end LowerM

namespace Nesting

/-- `n` counts steps as the selects with the scopes `around` do, the innermost first, and no scope
is further in than the level. -/
structure Reads (n : Nesting) (around : List ScopeId) : Prop where
  level : ∀ x ∈ n.scopes, x.2 ≤ n.level
  depth : ∀ scope, n.depth scope = LowerM.distance around scope

theorem reads_empty : empty.Reads [] where
  level _ hx := by cases hx
  depth _ := rfl

theorem mem_put {scope : ScopeId} {level : Nat} {scopes : List (ScopeId × Nat)} {x : ScopeId × Nat}
    (h : x ∈ put scope level scopes) : x ∈ scopes ∨ x.2 = level := by
  induction scopes with
  | nil =>
    obtain rfl := List.mem_singleton.mp h
    exact .inr rfl
  | cons y scopes ih =>
    obtain ⟨s, l⟩ := y
    unfold put at h
    split at h
    · rcases List.mem_cons.mp h with rfl | h
      · exact .inr rfl
      · exact .inl (List.mem_cons_of_mem _ h)
    · rcases List.mem_cons.mp h with rfl | h
      · exact .inl List.mem_cons_self
      · exact (ih h).imp (List.mem_cons_of_mem _) id

theorem depth_bind_self (n : Nesting) (scope : ScopeId) : (n.bind scope).2.depth scope = .ok 0 := by
  simp [bind, depth, lookup_put_self]

theorem depth_bind_of_ne {scope other : ScopeId} (n : Nesting) (h : other ≠ scope) :
    (n.bind scope).2.depth other = n.depth other := by
  unfold depth
  rw [show (n.bind scope).2.scopes.lookup other = n.scopes.lookup other from lookup_put_of_ne h _ _]
  rfl

/-- `enter` puts what is not further in than the level one step further away. -/
theorem depth_enter {n : Nesting} (h : ∀ x ∈ n.scopes, x.2 ≤ n.level) (scope : ScopeId) :
    n.enter.depth scope = (n.depth scope).map (· + 1) := by
  unfold depth enter
  cases hl : n.scopes.lookup scope with
  | none => rfl
  | some level =>
    have hle : level ≤ n.level := by
      obtain ⟨front, back, hscopes, -⟩ := List.lookup_eq_some_iff.mp hl
      exact h (scope, level) (by simp [hscopes])
    simp only [if_pos hle, if_pos (Nat.le_succ_of_le hle), Except.map, Except.ok.injEq]
    omega

/-- `bind` puts a scope in front, if what is counted of the others is right already. -/
theorem reads_bind {n : Nesting} {around : List ScopeId} {scope : ScopeId}
    (hlevel : ∀ x ∈ n.scopes, x.2 ≤ n.level)
    (hdepth : ∀ other, other ≠ scope → n.depth other = LowerM.distance (scope :: around) other) :
    (n.bind scope).2.Reads (scope :: around) where
  level x hx := by
    rcases mem_put hx with hx | hx
    · exact hlevel x hx
    · exact Nat.le_of_eq hx
  depth other := by
    by_cases h : other = scope
    · subst h
      rw [depth_bind_self, LowerM.distance_self]
    · rw [depth_bind_of_ne n h, hdepth other h]

/-- `enter` and `bind` make a select the innermost one. -/
theorem Reads.into {n : Nesting} {around : List ScopeId} (h : n.Reads around) (scope : ScopeId) :
    (n.enter.bind scope).2.Reads (scope :: around) := by
  refine reads_bind (fun x hx => Nat.le_succ_of_le (h.level x hx)) fun other hne => ?_
  rw [depth_enter h.level, h.depth, LowerM.distance_of_ne hne]

/-- The select that a query is starts at the level of `empty`. -/
theorem reads_root (scope : ScopeId) : (empty.bind scope).2.Reads [scope] := by
  refine reads_bind (fun x hx => by cases hx) fun other hne => ?_
  rw [LowerM.distance_of_ne hne]
  rfl

end Nesting

/-! ## Rules -/

namespace LowerM

/-- Runs of which the first is at the nesting `n`, and the second at `outside`, which it does not
look at. -/
abbrev Correspondence.within (n outside : Nesting) (E : Error → Prop) : Correspondence where
  states s t := s.nesting = n ∧ t.nesting = outside ∧ s.params = t.params
  names _ := True
  faults := E
  terms _ := True

section
variable {n outside : Nesting} {E : Error → Prop} {α : Type} {G : α → Prop} {x y : LowerM α}

theorem run_pathAt (around : List ScopeId) (scope : ScopeId) (s : LowerState) :
    (pathAt around scope).run.run s = ((distance around scope).map parents, s) := by
  show ((pathAt around scope).run.run s : Except Error (List Surql.Part) × LowerState) = _
  unfold pathAt
  rw [run_bind]
  cases h : distance around scope <;> rfl

theorem run_rowPath_of_reads {around : List ScopeId} (scope : ScopeId) {s : LowerState}
    (h : s.nesting.Reads around) :
    (rowPath scope).run.run s = ((distance around scope).map parents, s) := by
  rw [run_rowPath, h.depth]
  cases distance around scope with
  | error e => rfl
  | ok d => cases d <;> rfl

namespace Agree

/-- `pathAt` goes to the first select around that has the scope. -/
theorem pathAt {around : List ScopeId} {scope : ScopeId} (hn : n.Reads around)
    (hscope : scope ∉ around → E .rowOutOfScope) :
    Agree (.within n outside E) (fun _ => True) (LowerM.rowPath scope)
      (LowerM.pathAt around scope) where
  alike s t hst := by
    rw [run_rowPath_of_reads scope (hst.1 ▸ hn), run_pathAt]
    exact .inr ⟨rfl, hst⟩
  keeps I _ s hs := by
    rw [run_rowPath]
    exact hs
  frame s := by rw [run_rowPath]
  fails s t e hst he _ := by
    rw [run_rowPath_of_reads scope (hst.1 ▸ hn)] at he
    cases hd : distance around scope with
    | ok d =>
      rw [hd] at he
      cases he
    | error e' =>
      rw [hd] at he
      cases he
      obtain ⟨hnot, rfl⟩ := distance_error hd
      exact hscope hnot
  gives _ _ _ _ _ := trivial

theorem recordIdWithin (v : Value) :
    Agree (.within n outside E) (fun _ => True) (LowerM.recordId v) (LowerM.recordId v) where
  alike s t hst := by
    obtain ⟨hs, ht, hparams⟩ := hst
    refine .inr ⟨?_, hs, ht, ?_⟩
    · show Except.ok (s.params.recordId v).1 = Except.ok (t.params.recordId v).1
      rw [hparams]
    · show (s.params.recordId v).2 = (t.params.recordId v).2
      rw [hparams]
  keeps _ hI s hs := hI s.params v hs
  frame _ := rfl
  fails _ _ _ _ he := by cases he
  gives _ _ _ _ _ := trivial

/-- `nested` enters a level and leaves it again. -/
theorem nestedWithin (h : Agree (.within n.enter outside E) G x y) :
    Agree (.within n outside E) G (LowerM.nested x) y where
  alike s t hst := by
    obtain ⟨hr, hs, ht, hparams⟩ := h.same rfl (s := { s with nesting := s.nesting.enter }) (t := t)
      ⟨congrArg Nesting.enter hst.1, hst.2⟩
    exact .inr ⟨hr, congrArg Nesting.exit hs, ht, hparams⟩
  keeps I hI s hs := h.keeps I hI { s with nesting := s.nesting.enter } hs
  frame s := by
    rw [run_nested]
    exact congrArg Nesting.exit (h.frame { s with nesting := s.nesting.enter })
  fails s t e hst he := h.fails { s with nesting := s.nesting.enter } t e
    ⟨congrArg Nesting.enter hst.1, hst.2⟩ he
  gives s a t hx hN := by
    obtain ⟨hr, rfl⟩ := Prod.mk.inj ((run_nested x s).symm.trans hx)
    exact h.gives _ a _ (Prod.ext hr rfl) hN

/-- `withScope` binds a scope and puts it back. -/
theorem withScopeWithin {scope : ScopeId} (h : Agree (.within (n.bind scope).2 outside E) G x y) :
    Agree (.within n outside E) G (LowerM.withScope scope x) y where
  alike s t hst := by
    obtain ⟨rfl, hst⟩ := hst
    obtain ⟨hr, hs, ht, hparams⟩ :=
      h.same rfl (s := { s with nesting := (s.nesting.bind scope).2 }) (t := t) ⟨rfl, hst⟩
    refine .inr ⟨hr, ?_, ht, hparams⟩
    rw [run_withScope]
    exact (congrArg (Nesting.restore · scope _) hs).trans (s.nesting.restore_bind scope)
  keeps I hI s hs := h.keeps I hI { s with nesting := (s.nesting.bind scope).2 } hs
  frame s := by
    rw [run_withScope]
    show Nesting.restore _ scope _ = s.nesting
    rw [h.frame { s with nesting := (s.nesting.bind scope).2 }]
    exact s.nesting.restore_bind scope
  fails s t e hst he := h.fails { s with nesting := (s.nesting.bind scope).2 } t e
    ⟨by rw [hst.1], hst.2⟩ he
  gives s a t hx hN := by
    obtain ⟨hr, rfl⟩ := Prod.mk.inj ((run_withScope scope x s).symm.trans hx)
    exact h.gives _ a _ (Prod.ext hr rfl) hN

end Agree

end

end LowerM

/-! ## Constants -/

section
variable {n outside : Nesting} {E : Error → Prop}

mutual

theorem Value.lower_within : ∀ v : Value,
    Agree (.within n outside E) (fun _ => True) v.lower v.lower
  | .recordId _ => (Agree.recordIdWithin _).bind fun _ => .pure id
  | .array items => (Value.lowerItems_within items).bind fun _ => .pure id
  | .object members => (Value.lowerMembers_within members).bind fun _ => .pure id
  | .null | .absent | .bool _ | .int _ | .uint _ | .float32 _ | .float _ | .decimal
    _ | .string _ | .char _
  | .dateTime _ | .guid _ | .duration _ | .regex _ | .enum _ | .point _ _ => .pure trivial
termination_by structural v => v

theorem Value.lowerItems_within : ∀ vs : List Value,
    Agree (.within n outside E) (fun _ => True) (Value.lowerItems vs) (Value.lowerItems vs)
  | [] => .pure trivial
  | v :: vs =>
    v.lower_within.bind fun _ => (Value.lowerItems_within vs).bind fun _ => .pure fun _ _ => trivial
termination_by structural vs => vs

theorem Value.lowerMembers_within : ∀ vs : List (String × Value),
    Agree (.within n outside E) (fun _ => True) (Value.lowerMembers vs) (Value.lowerMembers vs)
  | [] => .pure trivial
  | (_, v) :: vs =>
    v.lower_within.bind fun _ => (Value.lowerMembers_within vs).bind fun _ =>
      .pure fun _ _ => trivial
termination_by structural vs => vs

end

end

/-! ## Expressions -/

/-- `e` lowers alike with levels and by the selects `around`, as do its items and members if it is
made on the spot. -/
structure Expr.LowersAt (C : LowerM.Correspondence) (around : List ScopeId) (e : Expr) : Prop where
  lower : Agree C C.terms e.lower (e.lowerAt around)
  items : List.Forall₂ (Agree C C.terms) e.knownItems (e.knownItemsAt around)
  members : List.Forall₂ (Lowering.MemberAgree C) e.memberOperands (e.memberOperandsAt around)

section
variable {C : LowerM.Correspondence} {n outside : Nesting} {E : Error → Prop}
  {around : List ScopeId}

namespace Expr

theorem LowersAt.operand {e : Expr} (h : e.LowersAt C around) :
    Operand.Agree C ⟨e, e.lower⟩ ⟨e, e.lowerAt around⟩ :=
  ⟨.refl e, .inl rfl, h.lower⟩

theorem operandAt_agree {e : Option Expr} (h : ∀ c ∈ e, c.LowersAt C around) :
    Option.Rel (Operand.Agree C) (operand e) (operandAt around e) := by
  cases e with
  | none => exact .none
  | some e => exact .some (h e rfl).operand

theorem operandAt_toList_agree {e : Option Expr} (h : ∀ c ∈ e, c.LowersAt C around) :
    List.Forall₂ (Operand.Agree C) (operand e).toList (operandAt around e).toList := by
  cases e with
  | none => exact .nil
  | some e => exact .cons (h e rfl).operand .nil

theorem operandsAt_agree {es : List Expr} (h : ∀ c ∈ es, c.LowersAt C around) :
    List.Forall₂ (Operand.Agree C) (operands es) (operandsAt around es) := by
  induction es with
  | nil => exact .nil
  | cons e es ih =>
    obtain ⟨he, hes⟩ := List.forall_mem_cons.mp h
    exact .cons he.operand (ih hes)

theorem loweredAt_agree {es : List Expr} (h : ∀ c ∈ es, c.LowersAt C around) :
    List.Forall₂ (Agree C C.terms) ((operands es).map (·.lowered))
      ((operandsAt around es).map (·.lowered)) := by
  rw [List.forall₂_map_left_iff, List.forall₂_map_right_iff]
  exact (operandsAt_agree h).imp fun _ _ h => h.lowered

theorem namedOperandsAt_agree {ms : List (String × Expr)} (h : ∀ m ∈ ms, m.2.LowersAt C around) :
    List.Forall₂ (Lowering.MemberAgree C) (namedOperands ms) (namedOperandsAt around ms) := by
  induction ms with
  | nil => exact .nil
  | cons m ms ih =>
    obtain ⟨hm, hms⟩ := List.forall_mem_cons.mp h
    exact .cons ⟨rfl, hm.operand⟩ (ih hms)

theorem lowerMembersAt_agree {ms : List (String × Expr)} (h : ∀ m ∈ ms, m.2.LowersAt C around) :
    Agree C (fun ts => ∀ t ∈ ts, C.terms t.2) (lowerMembers ms) (lowerMembersAt around ms) := by
  induction ms with
  | nil => exact .pure (List.forall_mem_nil _)
  | cons m ms ih =>
    obtain ⟨hm, hms⟩ := List.forall_mem_cons.mp h
    refine hm.lower.bind fun t => (ih hms).bind fun ts => .pure fun hts ht => ?_
    exact List.forall_mem_cons.mpr ⟨ht, hts⟩

theorem lowerOptionAt_agree {e : Option Expr} (h : ∀ c ∈ e, c.LowersAt C around) :
    Agree C (fun _ => True) (lowerOption e) (lowerOptionAt around e) := by
  cases e with
  | none => exact .pure trivial
  | some e => exact (h e rfl).lower.bind fun t => .pure fun _ => trivial

theorem memberAt_agree {e : Expr} (hn : n.Reads around)
    (hrow : ∀ scope t, e = .row scope t → scope ∉ around → E .rowOutOfScope)
    (h : e.LowersAt (.within n outside E) around) (name : String) :
    Agree (.within n outside E) (fun _ => True)
      (Lowering.member ⟨e, e.lower⟩ e.memberOperands e.knownItems name)
      (Lowering.memberAt around ⟨e, e.lowerAt around⟩ (e.memberOperandsAt around)
        (e.knownItemsAt around) name) := by
  -- Only the member of a row is found by the way to the row; all others are found in the term of
  -- their base.
  cases e with
  | row scope t =>
    unfold Lowering.memberAt
    simp only
    split
    · rename_i hcomputed
      refine Lowering.member_agree h.operand rfl h.items fun hstored => ?_
      rw [show Lowering.isComputed (Expr.row scope t).ty name = true from hcomputed] at hstored
      cases hstored
    · rename_i hstored
      have hmember : Lowering.member ⟨.row scope t, (Expr.row scope t).lower⟩ [] [] name =
          Lowering.storedMember ⟨.row scope t, (Expr.row scope t).lower⟩ [] name :=
        Lowering.member_of_stored (by simpa [Expr.ty] using hstored)
      refine hmember ▸ ?_
      exact (Agree.pathAt hn (hrow scope t rfl)).bind fun parts => .pure fun _ => trivial
  | _ =>
    exact Lowering.member_agree h.operand rfl h.items fun _ =>
      Lowering.storedMember_agree_of_value h.operand rfl (by rintro _ _ ⟨⟩) h.members name

/-- `lowerAt` agrees on a node if it does on its children and the select it is. -/
theorem lowerAt_agree_of_children {e : Expr} (hn : n.Reads around)
    (hrow : ∀ c ∈ e :: e.children, ∀ scope t, c = .row scope t → scope ∉ around → E .rowOutOfScope)
    (hfault : ∀ err, e.fault? = some err → E err)
    (hc : ∀ c ∈ e.children, c.LowersAt (.within n outside E) around) (hs : ∀ s, e.select? = some s →
      Agree (.within n.enter outside E) (fun _ => True) s.lower (s.lowerAt around)) :
    Agree (.within n outside E) (fun _ => True) e.lower (e.lowerAt around) := by
  have hquery : ∀ s, e.select? = some s → Agree (.within n outside E) (fun _ => True)
      (do return Term.subquery (← LowerM.nested s.lower))
        (do return .subquery (← s.lowerAt around)) :=
    fun s hes => (hs s hes).nestedWithin.bind fun u => .pure fun _ => trivial
  cases e with
  | constant v t => exact v.lower_within
  | named name t => exact .pure trivial
  | row scope t =>
    refine (Agree.pathAt hn (hrow _ List.mem_cons_self scope t rfl)).bind fun parts => ?_
    cases parts with
    | nil => exact .pure fun _ => trivial
    | cons part parts => exact .pure fun _ => trivial
  | member base name t =>
    have hbase : base ∈ (Expr.member base name t).children := by simp [children]
    exact memberAt_agree hn (hrow base (List.mem_cons_of_mem _ hbase)) (hc base hbase) name
  | static surface name t => exact Lowering.static_agree surface name
  | call surface method receiver args t =>
    refine Lowering.call_agree (operandAt_agree fun c hr => hc c ?_)
      (operandsAt_agree fun c ha => hc c (List.mem_append_right _ ha)) surface method
    exact List.mem_append_left _ (Option.mem_toList.mpr hr)
  | unary op operand t =>
    exact Lowering.unary_agree (hc operand (by simp [children])).operand rfl op t
  | binary op left right t =>
    exact Lowering.binary_agree (hc left (by simp [children])).operand
      (hc right (by simp [children])).operand op
  | newObject t members =>
    refine (lowerMembersAt_agree fun m hm => hc m.2 ?_).bind fun ts => .pure fun _ => trivial
    exact List.mem_map.mpr ⟨m, hm, rfl⟩
  | newArray t items =>
    exact (Operand.all_agree (operandsAt_agree hc)).bind fun ts => .pure fun _ => trivial
  | construct t args => exact Lowering.construct_agree (operandsAt_agree hc) t
  | select s => exact hquery s rfl
  | subquery s => exact hquery s rfl
  | custom inner t => exact (hc inner (by simp [children])).lower
  | groupAggregate kind selector t =>
    refine (Operand.all_agree (operandAt_toList_agree fun c hsel => hc c ?_)).bind fun ts => ?_
    · exact Option.mem_toList.mpr hsel
    · exact .pure fun _ => trivial
  | lambda params body => exact .refuse rfl
  | parameter name t => exact .throw _ fun _ => hfault _ rfl
  | source s => exact .throw _ fun _ => hfault _ rfl
  | captured name c t => exact .throw _ fun _ => hfault _ rfl
  | table name element => exact .throw _ fun _ => hfault _ rfl

theorem knownItemsAt_agree_of_children {e : Expr}
    (hc : ∀ c ∈ e.children, c.LowersAt (.within n outside E) around) :
    List.Forall₂ (Agree (.within n outside E) (fun _ => True)) e.knownItems
      (e.knownItemsAt around) := by
  cases e with
  | constant v t =>
    cases v with
    | array items =>
      simp only [knownItems, knownItemsAt]
      rw [List.forall₂_map_left_iff, List.forall₂_map_right_iff]
      exact List.forall₂_same.mpr fun v _ => v.lower_within
    | _ => exact .nil
  | unary op operand t =>
    cases op with
    | quote => exact (hc operand (by simp [children])).items
    | _ => exact .nil
  | newArray t items => exact loweredAt_agree hc
  | construct t args => exact loweredAt_agree hc
  | _ => exact .nil

theorem memberOperandsAt_agree_of_children {e : Expr} (hc : ∀ c ∈ e.children, c.LowersAt C around) :
    List.Forall₂ (Lowering.MemberAgree C) e.memberOperands (e.memberOperandsAt around) := by
  cases e with
  | newObject t members =>
    exact namedOperandsAt_agree fun m hm => hc m.2 (List.mem_map.mpr ⟨m, hm, rfl⟩)
  | _ => exact .nil

end Expr

/-! ## Selects -/

theorem Expr.lowerColumnsAt_agree {ms : List (String × Expr)}
    (h : List.Forall₂ (Lowering.MemberAgree C) (namedOperands ms) (namedOperandsAt around ms)) :
    Agree C (fun _ => True) (lowerColumns ms) (lowerColumnsAt around ms) := by
  induction ms with
  | nil => exact .pure trivial
  | cons m ms ih =>
    obtain ⟨name, e⟩ := m
    obtain ⟨⟨-, he⟩, hms⟩ := List.forall₂_cons.mp h
    exact he.lowered.bind fun t => (ih hms).bind fun ts => .pure fun _ _ => trivial

theorem OutputField.lowerAt_agree {fields : List OutputField}
    (h : ∀ f ∈ fields, f.expr.LowersAt C around) :
    Agree C (fun _ => True) (lower fields) (lowerAt around fields) := by
  induction fields with
  | nil => exact .pure trivial
  | cons f fields ih =>
    obtain ⟨e, label⟩ := f
    obtain ⟨he, hfields⟩ := List.forall_mem_cons.mp h
    exact he.lower.bind fun t => (ih hfields).bind fun ts => .pure fun _ _ => trivial

theorem SortKey.lowerAt_agree {keys : List SortKey} (h : ∀ k ∈ keys, k.expr.LowersAt C around) :
    Agree C (fun _ => True) (lower keys) (lowerAt around keys) := by
  induction keys with
  | nil => exact .pure trivial
  | cons k keys ih =>
    obtain ⟨e, descending⟩ := k
    obtain ⟨he, hkeys⟩ := List.forall_mem_cons.mp h
    exact he.lower.bind fun t => (ih hkeys).bind fun ts => .pure fun _ _ => trivial

theorem RowGroup.lowerAt_agree {g : Option RowGroup}
    (h : ∀ c ∈ g.toList.flatMap exprs, c.LowersAt C around) :
    Agree C (fun _ => True) (lower g) (lowerAt around g) := by
  rcases g with _ | _ | keys
  · exact .pure trivial
  · exact .pure trivial
  · have hkeys : ∀ c ∈ keys, c.LowersAt C around := by simpa [exprs] using h
    exact (Operand.all_agree (Expr.operandsAt_agree hkeys)).bind fun ts => .pure fun _ => trivial

theorem RowSource.lowerAt_agree {source : RowSource} (h : ∀ s ∈ source.select?,
      Agree (.within n.enter outside E) (fun _ => True) s.lower (s.lowerAt around)) :
    Agree (.within n outside E) (fun _ => True) source.lower (source.lowerAt around) := by
  cases source with
  | table name => exact .pure trivial
  | subquery s => exact (h s rfl).nestedWithin.bind fun u => .pure fun _ => trivial

theorem Projection.lowerAt_agree {p : Projection} (scope : ScopeId)
    (h : ∀ c ∈ p.exprs, c.LowersAt C around) :
    Agree C (fun _ => True) (p.lower scope) (p.lowerAt scope around) := by
  cases p with
  | all => exact .pure trivial
  | expr e =>
    have he := h e (by simp [exprs])
    have hvalue : Agree C (fun _ => True) (do return Surql.Columns.value (← e.lower))
        (do return .value (← e.lowerAt around)) :=
      he.lower.bind fun t => .pure fun _ => trivial
    cases e with
    | row s t =>
      simp only [lower, lowerAt]
      split
      · exact .pure trivial
      · exact hvalue
    | newObject t members =>
      cases members with
      | nil => exact hvalue
      | cons m ms =>
        exact (Expr.lowerColumnsAt_agree he.members).bind fun cs => .pure fun _ => trivial
    | _ => exact hvalue
  | fields fields =>
    have hfields : ∀ f ∈ fields, f.expr.LowersAt C around :=
      fun f hf => h f.expr (List.mem_map.mpr ⟨f, hf, rfl⟩)
    exact (OutputField.lowerAt_agree hfields).bind fun cs => .pure fun _ => trivial
  | count predicate =>
    refine (Operand.all_agree (Expr.operandAt_toList_agree fun c hp => h c ?_)).bind fun ts => ?_
    · exact Option.mem_toList.mpr hp
    · exact .pure fun _ => trivial
  | aggregation kind selector label =>
    exact (h selector (by simp [exprs])).lower.bind fun t => .pure fun _ => trivial

/-- `lowerAt` agrees on a select if, inside it, it does on its clauses and sources. -/
theorem Select.lowerAt_agree_of_clauses {s : Select}
    (hc : ∀ c ∈ s.clauses false, c.LowersAt (.within (n.bind s.scope).2 outside E)
      (s.scope :: around))
    (hi : ∀ v ∈ s.inputs false, Agree (.within (n.bind s.scope).2.enter outside E) (fun _ => True)
      v.lower (v.lowerAt (s.scope :: around))) :
    Agree (.within n outside E) (fun _ => True) s.lower (s.lowerAt around) := by
  obtain ⟨scope, element, source, projection, filter, group, orderings, take, skip,
    single, key⟩ := s
  refine .withScopeWithin ?_
  refine (RowSource.lowerAt_agree fun v hv => hi v ?_).bind fun target => ?_
  · simp [inputs, Option.mem_def.mp hv]
  refine (Projection.lowerAt_agree scope fun c hp => hc c ?_).bind fun columns => ?_
  · exact mem_clauses_of_projection hp
  refine (Expr.lowerOptionAt_agree fun c hf => hc c ?_).bind fun cond => ?_
  · exact mem_clauses_of_filter hf
  refine (RowGroup.lowerAt_agree fun c hg => hc c ?_).bind fun group => ?_
  · exact mem_clauses.mpr (.inr (.inr (.inl hg)))
  refine (SortKey.lowerAt_agree fun k hk => hc k.expr ?_).bind fun order => ?_
  · exact mem_clauses_of_ordering hk
  refine (Expr.lowerOptionAt_agree fun c ht => hc c ?_).bind fun limit => ?_
  · exact mem_clauses.mpr (.inr (.inr (.inr (.inr (.inl ht)))))
  refine (Expr.lowerOptionAt_agree fun c hs => hc c ?_).bind fun start => ?_
  · exact mem_clauses.mpr (.inr (.inr (.inr (.inr (.inr (.inl hs))))))
  exact .pure fun _ _ _ _ _ _ _ => trivial

end

/-! ## Trees -/

/-- `A` of expressions and `B` of selects, inside selects with the given scopes, go down to all
parts but the bodies of lambdas. -/
structure Descending (A : List ScopeId → Expr → Prop) (B : List ScopeId → Select → Prop) :
    Prop where
  child : ∀ {around : List ScopeId} {e c : Expr}, (∀ ps body, e ≠ .lambda ps body) → A around e →
    c ∈ e.children → A around c
  select : ∀ {around : List ScopeId} {e : Expr} {s : Select}, A around e → e.select? = some s →
    B around s
  clause : ∀ {around : List ScopeId} {s : Select} {c : Expr}, B around s → c ∈ s.clauses false →
    A (s.scope :: around) c
  input : ∀ {around : List ScopeId} {s v : Select}, B around s → v ∈ s.inputs false →
    B (s.scope :: around) v

section
variable {E : Error → Prop} {A : List ScopeId → Expr → Prop} {B : List ScopeId → Select → Prop}

/-- Wherever the nesting reads as the selects around, `lower` and `lowerAt` do the same, however
deep. -/
theorem lowers_within (hAB : Descending A B) (outside : Nesting)
    (hrow : ∀ around scope t, A around (.row scope t) → scope ∉ around → E .rowOutOfScope)
    (hfault : ∀ around e err, A around e → e.fault? = some err → E err) :
    (∀ (e : Expr) (around : List ScopeId) (n : Nesting), A around e → n.Reads around →
      e.LowersAt (.within n outside E) around) ∧
    ∀ (s : Select) (around : List ScopeId) (n : Nesting), B around s →
      (n.bind s.scope).2.Reads (s.scope :: around) →
      Agree (.within n outside E) (fun _ => True) s.lower (s.lowerAt around) := by
  apply deepInduction
  · intro e hc hs around n he hn
    -- Nothing is lowered inside a lambda.
    by_cases hlambda : ∃ ps body, e = .lambda ps body
    · obtain ⟨ps, body, rfl⟩ := hlambda
      exact ⟨.refuse rfl, .nil, .nil⟩
    have hlambda : ∀ ps body, e ≠ .lambda ps body := fun ps body h => hlambda ⟨ps, body, h⟩
    have hkids : ∀ c ∈ e.children, c.LowersAt (.within n outside E) around :=
      fun c hce => hc c hce around n (hAB.child hlambda he hce) hn
    refine ⟨?_, Expr.knownItemsAt_agree_of_children hkids,
      Expr.memberOperandsAt_agree_of_children hkids⟩
    refine Expr.lowerAt_agree_of_children hn ?_ (fun err => hfault around e err he)
      hkids fun s hes =>
      hs s hes around n.enter (hAB.select he hes) (hn.into s.scope)
    rintro c hce scope t rfl
    rcases List.mem_cons.mp hce with heq | hce
    · exact hrow around scope t (heq ▸ he)
    · exact hrow around scope t (hAB.child hlambda he hce)
  · intro s hc hi around n hs hn
    refine Select.lowerAt_agree_of_clauses (fun c hcs => ?_) fun v hv => ?_
    · exact hc c (s.clauses_subset hcs) _ _ (hAB.clause hs hcs) hn
    · exact hi v (s.inputs_subset hv) _ _ (hAB.input hs hv) (hn.into v.scope)

theorem Expr.lowerRoot_within (hAB : Descending A B) (outside : Nesting)
    (hrow : ∀ around scope t, A around (.row scope t) → scope ∉ around → E .rowOutOfScope)
    (hfault : ∀ around e err, A around e → e.fault? = some err → E err) {e : Expr} (he : A [] e) :
    Agree (.within .empty outside E) (fun _ => True) e.lowerRoot e.lowerRootAt := by
  obtain ⟨hexpr, hselect⟩ := lowers_within hAB outside hrow hfault
  have hterm : Agree (.within .empty outside E) (fun _ => True)
      (do return Surql.Query.term (← e.lower))
        (do return .term (← e.lowerAt [])) :=
    (hexpr e [] .empty he Nesting.reads_empty).lower.bind fun t => .pure fun _ => trivial
  cases e with
  | select s =>
    have hs := hselect s [] .empty (hAB.select he rfl) (Nesting.reads_root s.scope)
    exact hs.bind fun u => .pure fun _ => trivial
  | _ => exact hterm

end

/-! ## Results -/

theorem descending_true : Descending (fun _ _ => True) fun _ _ => True :=
  ⟨fun _ _ _ => trivial, fun _ _ => trivial, fun _ _ => trivial, fun _ _ => trivial⟩

theorem LowerM.Agree.run_eq {α : Type} {E : Error → Prop} {G : α → Prop} {x y : LowerM α}
    {s : LowerState} (h : Agree (.within s.nesting s.nesting E) G x y) :
    x.run.run s = y.run.run s := by
  obtain ⟨hresult, hs, ht, hparams⟩ := h.same rfl (s := s) (t := s) ⟨rfl, rfl, rfl⟩
  refine Prod.ext hresult ?_
  show (x.run.run s).2 = (y.run.run s).2
  rw [show (x.run.run s).2 = ⟨_, _⟩ from rfl, show (y.run.run s).2 = ⟨_, _⟩ from rfl, hs,
    ht, hparams]

theorem Expr.lower_eq_lowerAt (e : Expr) {around : List ScopeId} {s : LowerState}
    (h : s.nesting.Reads around) : e.lower.run.run s = (e.lowerAt around).run.run s :=
  have hall := (lowers_within (E := fun _ => True) descending_true s.nesting
    (fun _ _ _ _ _ => trivial) fun _ _ _ _ _ => trivial).1
  (hall e around s.nesting trivial h).lower.run_eq

theorem Expr.lowerRoot_eq_lowerRootAt (e : Expr) (p : Params) :
    e.lowerRoot.run.run ⟨p, .empty⟩ = e.lowerRootAt.run.run ⟨p, .empty⟩ :=
  LowerM.Agree.run_eq (s := ⟨p, .empty⟩)
    (Expr.lowerRoot_within (E := fun _ => True) descending_true .empty
    (fun _ _ _ _ _ => trivial) (fun _ _ _ _ _ => trivial) trivial)

section
variable {front back : List ScopeId} {scope : ScopeId} {s : LowerState}

theorem LowerM.yields_parents (hfront : scope ∉ front)
    (hs : s.nesting.Reads (front ++ scope :: back)) :
    Yields (rowPath scope) s (parents front.length) s := by
  show (rowPath scope).run.run s = _
  rw [run_rowPath_of_reads scope hs, distance_append hfront]
  rfl

theorem Expr.yields_lower_row (hfront : scope ∉ front)
    (hs : s.nesting.Reads (front ++ scope :: back)) (t : Ty) :
    Yields (Expr.row scope t).lower s
      (if front = [] then .param "this" else .path (LowerM.parents front.length)) s := by
  refine yields_bind.mpr ⟨_, s, LowerM.yields_parents hfront hs, ?_⟩
  cases front <;> exact yields_pure.mpr ⟨rfl, rfl⟩

theorem Expr.yields_lower_column (hfront : scope ∉ front)
    (hs : s.nesting.Reads (front ++ scope :: back)) {t : Ty} {name : String}
    (hstored : Lowering.isComputed t name = false) (u : Ty) :
    Yields (Expr.member (.row scope t) name u).lower s
      (.path (LowerM.parents front.length ++ [.field (t.columnName name)])) s := by
  have hmember : (Expr.member (.row scope t) name u).lower =
      Lowering.storedMember ⟨.row scope t, (Expr.row scope t).lower⟩ [] name :=
    Lowering.member_of_stored hstored
  rw [hmember]
  exact yields_bind.mpr ⟨_, s, LowerM.yields_parents hfront hs, yields_pure.mpr ⟨rfl, rfl⟩⟩

end

/-- In every tree, at every position, `lower` goes by the selects around, as `lowerAt` does: the row
of a scope is that of the innermost select that has it, and takes as many steps to the parent as
there are selects further in. -/
theorem parent_steps_count_selects :
    (∀ (e : Expr) (around : List ScopeId) (s : LowerState), s.nesting.Reads around →
      e.lower.run.run s = (e.lowerAt around).run.run s) ∧
    (∀ (e : Expr) (p : Params),
      e.lowerRoot.run.run ⟨p, .empty⟩ = e.lowerRootAt.run.run ⟨p, .empty⟩) ∧
    ∀ (front back : List ScopeId) (scope : ScopeId) (t : Ty) (s : LowerState), scope ∉ front →
      s.nesting.Reads (front ++ scope :: back) →
      Yields (Expr.row scope t).lower s
        (if front = [] then .param "this" else .path (LowerM.parents front.length)) s ∧
      ∀ (name : String) (u : Ty), Lowering.isComputed t name = false →
        Yields (Expr.member (.row scope t) name u).lower s
          (.path (LowerM.parents front.length ++ [.field (t.columnName name)])) s := by
  refine ⟨fun e around s h => e.lower_eq_lowerAt h, fun e p => e.lowerRoot_eq_lowerRootAt p, ?_⟩
  intro front back scope t s hfront hs
  exact ⟨Expr.yields_lower_row hfront hs t, fun name u hstored =>
    Expr.yields_lower_column hfront hs hstored u⟩

namespace Sample

/-- Inside three selects, of which the innermost has `scope`. -/
def inThree (scope : ScopeId) : LowerState :=
  ⟨.empty .standard, ((Nesting.empty.bind ⟨0⟩).2.into ⟨1⟩).into scope⟩

/-- The posts with the number of the outermost row. -/
def sameNumber : Expr :=
  .subquery ((Select.ofTable ⟨3⟩ "post" .unknown).filterBy
    ((Expr.rowMember ⟨3⟩ .unknown "x" .unknown).eq (Expr.rowMember ⟨0⟩ .unknown "x" .unknown)))

theorem reads_inThree (scope : ScopeId) : (inThree scope).nesting.Reads [scope, ⟨1⟩, ⟨0⟩] :=
  ((Nesting.reads_root ⟨0⟩).into ⟨1⟩).into scope

end Sample

section
open Sample

/-- The outermost row is two steps up, and none if the innermost select has its scope. -/
theorem parent_steps_count_selects_inThree :
    sameNumber.lower.run.run (inThree ⟨2⟩) =
      (sameNumber.lowerAt [⟨2⟩, ⟨1⟩, ⟨0⟩]).run.run (inThree ⟨2⟩) ∧
    (⟨0⟩ : ScopeId) ∉ ([⟨2⟩, ⟨1⟩] : List ScopeId) ∧
    (inThree ⟨2⟩).nesting.Reads ([⟨2⟩, ⟨1⟩] ++ ⟨0⟩ :: []) ∧
    Lowering.isComputed .unknown "x" = false ∧
    Yields (Expr.rowMember ⟨0⟩ .unknown "x" .unknown).lower (inThree ⟨2⟩)
      (.path [.start (.param "parent"), .parent, .field (Ty.columnName .unknown "x")])
        (inThree ⟨2⟩) ∧
    Yields (Expr.row ⟨0⟩ .unknown).lower (inThree ⟨0⟩) (.param "this") (inThree ⟨0⟩) := by
  obtain ⟨htree, -, hrow⟩ := parent_steps_count_selects
  have hfront : (⟨0⟩ : ScopeId) ∉ ([⟨2⟩, ⟨1⟩] : List ScopeId) := by decide
  have hstored : Lowering.isComputed .unknown "x" = false := by decide
  refine ⟨htree _ _ _ (reads_inThree ⟨2⟩), hfront, reads_inThree ⟨2⟩, hstored, ?_, ?_⟩
  · exact (hrow [⟨2⟩, ⟨1⟩] [] ⟨0⟩ .unknown _ hfront (reads_inThree ⟨2⟩)).2 "x" .unknown hstored
  · exact (hrow [] [⟨1⟩, ⟨0⟩] ⟨0⟩ .unknown _ List.not_mem_nil (reads_inThree ⟨0⟩)).1

end

/-- Lowering leaves the `nesting` as it was, the level and the level of every scope, whether it
succeeds or fails, and wherever it fails. -/
theorem lowering_restores_nesting (s : LowerState) :
    (∀ e : Expr, (e.lower.run.run s).2.nesting = s.nesting) ∧
      ∀ u : Select, (u.lower.run.run s).2.nesting = s.nesting := by
  obtain ⟨hexpr, hselect⟩ := lowers_alike (N := fun _ => True) (E := fun _ => True)
    hereditary_true trivial trivial (fun _ _ _ => trivial) trivial fun _ _ _ _ => trivial
  exact ⟨fun e => (hexpr e trivial).lower.frame s, fun u => (hselect u trivial).frame s⟩

end QueryTree
