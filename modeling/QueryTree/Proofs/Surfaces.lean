import QueryTree.Proofs.Hidden

/-!
# Calls and members side by side

Whatever a call or a member is lowered to, operands that lower alike make it lower alike: none of
the surfaces looks at captured values or record ids.
-/

namespace QueryTree

open Surql (Term Grammar begins)
open LowerM (Agree)

/-! ## What is read off an expression -/

/-- Where a stored member is found: among the columns of a row, the members of an object made on the
spot, or the fields of a value. -/
inductive Holder where
  | row (scope : ScopeId) (t : Ty)
  | object
  | value

/-- Where the stored members of an expression are found. -/
def Expr.holder : Expr → Holder
  | .row scope t => .row scope t
  | .newObject _ _ => .object
  | _ => .value

/-- Two expressions of which lowering sees the same, apart from their types, before it lowers them.
-/
structure Expr.ReadsLike (e e' : Expr) : Prop where
  isLambda : e'.unquote.isLambda = e.unquote.isLambda
  constantNumber? : e'.constantNumber? = e.constantNumber?
  constantIndex? : e'.constantIndex? = e.constantIndex?
  isDefaultSplit : Lowering.isDefaultSplit e' = Lowering.isDefaultSplit e
  holder : e'.holder = e.holder

namespace Expr

theorem ReadsLike.refl (e : Expr) : e.ReadsLike e := ⟨rfl, rfl, rfl, rfl, rfl⟩

theorem readsLike_hidden (e : Expr) : e.ReadsLike e.hidden where
  isLambda := by rw [hidden, unquote_relabel, isLambda_relabel]
  constantNumber? := e.constantNumber?_hidden
  constantIndex? := e.constantIndex?_hidden
  isDefaultSplit := e.isDefaultSplit_hidden
  holder := by cases e <;> rfl

end Expr

/-- Two operands that lower alike. They are of the same type, unless the first has no term and `C`
pardons that. -/
structure Operand.Agree (C : LowerM.Correspondence) (x y : Operand) : Prop where
  reads : x.expr.ReadsLike y.expr
  ty : y.expr.ty = x.expr.ty ∨ C.lenient = true ∧ Fruitless x.lowered
  lowered : LowerM.Agree C C.terms x.lowered y.lowered

section
variable {C : LowerM.Correspondence} {x y x' y' : Operand} {xs ys : List Operand}
  {r q : Option Operand}

namespace Operand

theorem Agree.constantNumber? (h : x.Agree C y) : y.expr.constantNumber? = x.expr.constantNumber? :=
  h.reads.constantNumber?

theorem Agree.constantIndex? (h : x.Agree C y) : y.expr.constantIndex? = x.expr.constantIndex? :=
  h.reads.constantIndex?

/-- `Agree` does not ask for another type. -/
theorem Agree.own (h : x.Agree C y) : x.Agree C ⟨x.expr, y.lowered⟩ :=
  ⟨.refl _, .inl rfl, h.lowered⟩

/-- Operands that `Agree` are of the same types, unless one has no term. -/
theorem types_eq_or (h : List.Forall₂ (Agree C) xs ys) :
    List.Forall₂ (fun x y : Operand => y.expr.ty = x.expr.ty) xs ys ∨
      C.lenient = true ∧ ∃ x ∈ xs, Fruitless x.lowered := by
  induction h with
  | nil => exact .inl .nil
  | @cons x y xs ys h _ ih =>
    rcases h.ty with hty | ⟨hC, hx⟩
    · rcases ih with hrest | ⟨hC, u, hu, hfruitless⟩
      · exact .inl (.cons hty hrest)
      · exact .inr ⟨hC, u, List.mem_cons_of_mem x hu, hfruitless⟩
    · exact .inr ⟨hC, x, List.mem_cons_self, hx⟩

theorem exists_own (h : List.Forall₂ (Agree C) xs ys) : ∃ zs, List.Forall₂ (Agree C) xs zs ∧
    List.Forall₂ (fun x y : Operand => y.expr.ty = x.expr.ty) xs zs := by
  induction h with
  | nil => exact ⟨[], .nil, .nil⟩
  | cons h _ ih =>
    obtain ⟨zs, hzs, hty⟩ := ih
    exact ⟨_ :: zs, .cons h.own hzs, .cons rfl hty⟩

theorem fruitless_argument (h : Fruitless x.lowered) (method : String) (position : Nat) :
    Fruitless (x.argument method position) := by
  unfold argument
  split
  · exact LowerM.fruitless_throw _
  · exact h

theorem fruitless_arguments (h : ∃ x ∈ xs, Fruitless x.lowered) (method : String) (position : Nat) :
    Fruitless (arguments method position xs) := by
  induction xs generalizing position with
  | nil =>
    obtain ⟨x, hx, -⟩ := h
    cases hx
  | cons x xs ih =>
    obtain ⟨u, hu, hfruitless⟩ := h
    rcases List.mem_cons.mp hu with rfl | hu
    · exact (fruitless_argument hfruitless method position).bind _
    · exact .after _ fun _ => (ih ⟨u, hu, hfruitless⟩ _).bind _

theorem Agree.argument (h : x.Agree C y) (method : String) (position : Nat) :
    LowerM.Agree C C.terms (x.argument method position) (y.argument method position) := by
  unfold Operand.argument
  rw [h.reads.isLambda]
  split
  · exact .refuse rfl
  · exact h.lowered

theorem arguments_agree (h : List.Forall₂ (Agree C) xs ys) (method : String) (position : Nat) :
    LowerM.Agree C (fun ts => ∀ t ∈ ts, C.terms t) (arguments method position xs)
      (arguments method position ys) := by
  induction h generalizing position with
  | nil => exact .pure (List.forall_mem_nil _)
  | cons h _ ih =>
    refine (h.argument method position).bind fun t => (ih (position + 1)).bind fun ts => ?_
    exact .pure fun hts ht => List.forall_mem_cons.mpr ⟨ht, hts⟩

theorem all_agree (h : List.Forall₂ (Agree C) xs ys) :
    LowerM.Agree C (fun ts => (∀ t ∈ ts, C.terms t) ∧ (xs ≠ [] → ts ≠ [])) (all xs) (all ys) := by
  induction h with
  | nil => exact .pure ⟨List.forall_mem_nil _, (absurd rfl ·)⟩
  | cons h _ ih =>
    refine h.lowered.bind fun t => ih.bind fun ts => .pure fun hts ht =>
      ⟨?_, fun _ => List.cons_ne_nil t ts⟩
    exact List.forall_mem_cons.mpr ⟨ht, hts.1⟩

theorem callWith_agree [Grammar C.terms] (h : List.Forall₂ (Agree C) xs ys) {function : String}
    (hfunction : begins Char.isAlpha function = true) (method : String) :
    LowerM.Agree C C.terms (callWith function method xs) (callWith function method ys) :=
  (arguments_agree h method 0).bind fun _ => .pure (Grammar.call hfunction)

theorem Agree.combine [Grammar C.terms] (h : x.Agree C y) (h' : x'.Agree C y') (method : String)
    (op : Surql.BinaryOp) :
    LowerM.Agree C C.terms (combine method op x x') (combine method op y y') :=
  (h.argument method 0).binary (h'.argument method 1) op

end Operand

theorem allOperands_agree (hr : Option.Rel (Operand.Agree C) r q)
    (h : List.Forall₂ (Operand.Agree C) xs ys) :
    List.Forall₂ (Operand.Agree C) (allOperands r xs) (allOperands q ys) := by
  cases hr with
  | none => exact h
  | some hr => exact .cons hr h

namespace Lowering

variable {ps qs : List (Operand × TimeUnit)}

/-! ## What is read off operands -/

theorem sequenceTerm?_agree (h : List.Forall₂ (Operand.Agree C) xs ys) (method : String)
    (ts : List Term) : sequenceTerm? method xs ts = sequenceTerm? method ys ts := by
  have hindex : ∀ u i : Term, xs[1]?.map (fun index => u.step (itemStep index.expr i)) =
      ys[1]?.map fun index => u.step (itemStep index.expr i) := by
    intro u i
    rcases h with _ | ⟨-, _ | ⟨h₂, -⟩⟩
    · rfl
    · rfl
    · simp [itemStep, h₂.constantIndex?]
  unfold sequenceTerm?
  split <;> first | rfl | exact hindex _ _

/-- Two parts of a span with amounts that `Agree` and the same unit. -/
def PartAgree (C : LowerM.Correspondence) (p q : Operand × TimeUnit) : Prop :=
  p.1.Agree C q.1 ∧ p.2 = q.2

theorem zip_agree (h : List.Forall₂ (Operand.Agree C) xs ys) (units : List TimeUnit) :
    List.Forall₂ (PartAgree C) (xs.zip units) (ys.zip units) := by
  induction h generalizing units with
  | nil => exact .nil
  | cons h _ ih =>
    cases units with
    | nil => exact .nil
    | cons unit units => exact .cons ⟨h, rfl⟩ (ih units)

theorem constantSpan?_agree (h : List.Forall₂ (PartAgree C) ps qs) :
    constantSpan? ps = constantSpan? qs := by
  have hamounts : ∀ f : Operand × TimeUnit → Option Float, (∀ p q, PartAgree C p q → f p = f q) →
      ps.mapM f = qs.mapM f := by
    intro f hf
    induction h with
    | nil => rfl
    | cons h _ ih => rw [List.mapM_cons, List.mapM_cons, ih, hf _ _ h]
  unfold constantSpan?
  rw [hamounts _ fun p q h => by simp only [h.1.constantNumber?, h.2]]

theorem isNothing_agree (h : x.Agree C y) : isNothing x = isNothing y := by
  unfold isNothing
  rw [h.constantNumber?]

/-! ## Names of functions -/

theorem begins_mathFunction {method function : String} {n : Nat}
    (h : mathFunction? method n = some function) : begins Char.isAlpha function = true := by
  unfold mathFunction? at h
  split at h <;> cases h <;> decide

theorem begins_textFunction {method function : String} {n : Nat}
    (h : textFunction? method n = some function) : begins Char.isAlpha function = true := by
  unfold textFunction? at h
  split at h <;> cases h <;> decide

theorem begins_sequenceFunction {method function : String} {n : Nat}
    (h : sequenceFunction? method n = some function) : begins Char.isAlpha function = true := by
  unfold sequenceFunction? at h
  split at h <;> cases h <;> decide

theorem begins_vectorFunction {method function : String} {n : Nat}
    (h : vectorFunction? method n = some function) : begins Char.isAlpha function = true := by
  unfold vectorFunction? at h
  split at h <;> cases h <;> decide

theorem begins_spanFunction {name function : String} (h : spanFunction? name = some function) :
    begins Char.isAlpha function = true := by
  unfold spanFunction? at h
  split at h <;> cases h <;> decide

theorem begins_timeUnit (unit : TimeUnit) : begins Char.isAlpha unit.function = true := by
  cases unit <;> decide

theorem begins_aggregate (grouped : Bool) (kind : AggregateKind) :
    begins Char.isAlpha (kind.function grouped) = true := by
  cases kind <;> cases grouped <;> decide

variable [Grammar C.terms]

/-! ## Text and patterns -/

theorem textMethod_agree (hr : x.Agree C y) (h : List.Forall₂ (Operand.Agree C) xs ys)
    (method : String) : Agree C C.terms (textMethod method x xs) (textMethod method y ys) := by
  unfold textMethod
  rw [← h.length_eq]
  cases hfunction : textFunction? method xs.length with
  | some function =>
    refine hr.lowered.bind fun t => (Operand.arguments_agree h _ 0).bind fun ts =>
      .pure fun hts ht => ?_
    exact Grammar.call (begins_textFunction hfunction) (List.forall_mem_cons.mpr ⟨ht, hts⟩)
  | none =>
    simp only
    split
    · rename_i separator options
      rcases h with _ | ⟨h₁, _ | ⟨h₂, ⟨⟩⟩⟩
      -- The options are not lowered, only looked at.
      simp only [h₂.reads.isDefaultSplit]
      split
      · refine hr.lowered.bind fun t => (h₁.argument _ 0).bind fun u => .pure fun hu ht => ?_
        exact Grammar.call (by decide) (by simp [hu, ht])
      · exact .refuse rfl
    · rcases h with _ | ⟨h₁, ⟨⟩⟩
      exact hr.lowered.binary (h₁.argument _ 0) _
    · rcases h with ⟨⟩
      exact hr.lowered
    · split <;> first | exact .refuse rfl | simp_all [List.forall₂_cons_right_iff]

theorem textStatic_agree (h : List.Forall₂ (Operand.Agree C) xs ys) (method : String) :
    Agree C C.terms (textStatic method xs) (textStatic method ys) := by
  unfold textStatic
  split
  · refine (Operand.arguments_agree h _ 0).bind fun ts => ?_
    split
    · exact .pure fun hts => Grammar.call (by decide) (Grammar.array.mp (hts _ List.mem_cons_self))
    · exact .pure (Grammar.call (by decide))
  · rcases h with _ | ⟨h₁, _ | ⟨h₂, ⟨⟩⟩⟩
    refine (h₁.argument _ 0).bind fun t => (h₂.argument _ 1).bind fun u => .pure fun hu ht => ?_
    exact Grammar.call (by decide) (by simp [hu, ht])
  · rename_i hne
    rcases h with _ | ⟨h₁, _ | ⟨h₂, _ | ⟨h₃, h⟩⟩⟩
    · exact absurd rfl hne
    · refine (h₁.argument _ 0).bind fun t => ?_
      refine (Operand.arguments_agree (.cons h₂ (.cons h₃ h)) _ 1).bind fun us =>
        .pure fun hus ht => ?_
      exact Grammar.call (by decide) (by simpa [ht] using Grammar.array.mpr hus)
  · rcases h with _ | ⟨h₁, ⟨⟩⟩
    exact (h₁.argument _ 0).bind fun t => .pure Grammar.unary
  · rcases h with _ | ⟨h₁, ⟨⟩⟩
    refine (h₁.argument _ 0).bind fun t => .pure fun ht => Grammar.binary (Grammar.unary ht)
      (Grammar.unary ?_)
    exact Grammar.call (by decide) (by simpa using ht)
  · rcases h with _ | ⟨h₁, _ | ⟨h₂, ⟨⟩⟩⟩
    exact h₁.combine h₂ _ _
  · split <;> first | exact .refuse rfl | simp_all [List.forall₂_cons_right_iff]

theorem textCall_agree (hr : Option.Rel (Operand.Agree C) r q)
    (h : List.Forall₂ (Operand.Agree C) xs ys) (method : String) :
    Agree C C.terms (textCall method r xs) (textCall method q ys) := by
  cases hr with
  | none => exact textStatic_agree h method
  | some hr => exact textMethod_agree hr h method

theorem textMember_agree (h : x.Agree C y) (name : String) :
    Agree C C.terms (textMember x name) (textMember y name) := by
  unfold textMember
  split
  · exact h.lowered.call (by decide)
  · exact .refuse rfl

theorem pattern_agree (h : x.Agree C y) (method : String) (position : Nat) :
    Agree C C.terms (pattern method position x) (pattern method position y) := by
  have htyped : ∀ {y : Operand}, x.Agree C y → y.expr.ty = x.expr.ty →
      Agree C C.terms (pattern method position x) (pattern method position y) := by
    intro y h hty
    unfold pattern
    rw [hty]
    refine (h.argument method position).bind fun t => ?_
    split
    · exact .pure id
    · split
      · exact .pure id
      · exact .pure Grammar.cast
  rcases h.ty with hty | ⟨hC, hx⟩
  · exact htyped h hty
  · refine (htyped h.own rfl).of_fruitless hC ?_ _
    exact (Operand.fruitless_argument hx method position).bind _

theorem matching_agree (h : List.Forall₂ (Operand.Agree C) xs ys) (method : String)
    (input regex : Term) (position : Nat) :
    Agree C (fun t => C.terms input → C.terms regex → C.terms t)
      (matching method input regex xs position) (matching method input regex ys position) := by
  unfold matching
  split
  · rcases h with ⟨⟩
    exact .pure fun hi hr => Grammar.call (by decide) (by simp [hi, hr])
  · rcases h with _ | ⟨h₁, ⟨⟩⟩
    refine (h₁.argument _ _).bind fun t => .pure fun ht hi hr => ?_
    exact Grammar.call (by decide) (by simp [ht, hi, hr])
  · split <;> first | exact .refuse rfl | simp_all [List.forall₂_cons_right_iff]

theorem patternCall_agree (hr : Option.Rel (Operand.Agree C) r q)
    (h : List.Forall₂ (Operand.Agree C) xs ys) (method : String) :
    Agree C C.terms (patternCall method r xs) (patternCall method q ys) := by
  unfold patternCall
  rcases hr with hr | _
  · rcases h with _ | ⟨h₁, h⟩
    · exact .refuse rfl
    · refine (h₁.argument _ 0).bind fun t => (pattern_agree hr _ 0).bind fun u => ?_
      exact (matching_agree h method t u 1).imp fun _ hout hu ht => hout ht hu
  · rcases h with _ | ⟨h₁, _ | ⟨h₂, h⟩⟩
    · exact .refuse rfl
    · exact .refuse rfl
    · refine (h₁.argument _ 0).bind fun t => (pattern_agree h₂ _ 1).bind fun u => ?_
      exact (matching_agree h method t u 2).imp fun _ hout hu ht => hout ht hu

/-! ## Numbers -/

theorem mathFunctionCall_agree (h : List.Forall₂ (Operand.Agree C) xs ys) (method : String) :
    Agree C C.terms (mathFunctionCall method xs) (mathFunctionCall method ys) := by
  unfold mathFunctionCall
  rw [← h.length_eq]
  cases hfunction : mathFunction? method xs.length with
  | some function => exact Operand.callWith_agree h (begins_mathFunction hfunction) _
  | none => exact .refuse rfl

theorem mathCall_agree (h : List.Forall₂ (Operand.Agree C) xs ys) (method : String) :
    Agree C C.terms (mathCall method xs) (mathCall method ys) := by
  have hfunction := mathFunctionCall_agree h method
  unfold mathCall
  split
  · rcases h with _ | ⟨h₁, _ | ⟨h₂, ⟨⟩⟩⟩
    simp only [h₁.constantNumber?]
    split
    · exact h₁.combine h₂ _ _
    · exact hfunction
  · split
    · simp_all [List.forall₂_cons_right_iff]
    · exact hfunction

/-! ## Sequences and vectors -/

theorem sequenceTerm?_terms {method : String} {ts : List Term} {t : Term}
    (ht : sequenceTerm? method xs ts = some t) (hts : ∀ u ∈ ts, C.terms u) : C.terms t := by
  unfold sequenceTerm? at ht
  split at ht
  -- An item is a step of a path; what else is made of operands is made of their terms.
  case h_4 =>
    rename_i u i
    obtain ⟨index, -, rfl⟩ := Option.map_eq_some_iff.mp ht
    unfold itemStep
    split
    · exact Grammar.step (hts u (by simp)) rfl
    · exact Grammar.item (hts u (by simp)) (hts i (by simp))
  all_goals cases ht
  · exact Grammar.array.mpr (List.forall_mem_nil _)
  · exact Grammar.unary (Grammar.call (by decide) hts)
  · exact Grammar.binary (hts _ (by simp)) (hts _ (by simp))
  · exact Grammar.range (hts _ (by simp)) (Grammar.binary (hts _ (by simp)) (hts _ (by simp)))
  · refine Grammar.call (by decide) ?_
    simpa [Grammar.literal (P := C.terms) (t := Term.int 0) rfl] using hts
  · exact hts _ (by simp)
  · exact hts _ (by simp)
  · exact Grammar.cast (hts _ (by simp))

theorem sequenceCall_agree (hr : Option.Rel (Operand.Agree C) r q)
    (h : List.Forall₂ (Operand.Agree C) xs ys) (method : String) :
    Agree C C.terms (sequenceCall method r xs) (sequenceCall method q ys) := by
  have hall := allOperands_agree hr h
  unfold sequenceCall
  refine (Operand.arguments_agree hall _ 0).bind fun ts => ?_
  cases hfunction : sequenceFunction? method ts.length with
  | some function => exact .pure (Grammar.call (begins_sequenceFunction hfunction))
  | none =>
    simp only [← sequenceTerm?_agree hall]
    cases ht : sequenceTerm? method (allOperands r xs) ts with
    | some t => exact .pure (sequenceTerm?_terms ht)
    | none => exact .refuse rfl

theorem componentOf_terms {t : Term} (ht : C.terms t) (index : Nat) :
    C.terms (componentOf index t) := by
  unfold componentOf
  split
  · split
    · rename_i hitem
      exact Grammar.array.mp ht _ (List.mem_of_getElem? hitem)
    · exact Grammar.step ht rfl
  · exact Grammar.step ht rfl

theorem vectorMember_agree (h : x.Agree C y) (hty : y.expr.ty = x.expr.ty)
    {items items' : List (LowerM Term)} (hitems : List.Forall₂ (Agree C C.terms) items items')
    (name : String) : Agree C C.terms (vectorMember x items name) (vectorMember y items' name) := by
  unfold vectorMember
  rw [hty]
  split
  · exact h.lowered.call (by decide)
  · cases component? name with
    | none => exact .refuse rfl
    | some index =>
      by_cases hwidth : x.expr.ty.vectorWidth.getD 4 ≤ index
      · simp only [hwidth, if_true]
        exact .refuse rfl
      · simp only [hwidth, if_false]
        -- Of a vector that is made on the spot the item is taken, and nothing else of it is
        -- lowered.
        rcases Nat.lt_or_ge index items.length with hlt | hge
        · have hlt' : index < items'.length := hitems.length_eq ▸ hlt
          rw [List.getElem?_eq_getElem hlt, List.getElem?_eq_getElem hlt']
          exact hitems.get hlt hlt'
        · rw [List.getElem?_eq_none hge, List.getElem?_eq_none (hitems.length_eq ▸ hge)]
          exact h.lowered.bind fun t => .pure fun ht => componentOf_terms ht index

theorem vectorFunctionCall_agree (h : List.Forall₂ (Operand.Agree C) xs ys)
    (qualified method : String) :
    Agree C C.terms (vectorFunctionCall qualified method xs)
      (vectorFunctionCall qualified method ys) := by
  unfold vectorFunctionCall
  rw [← h.length_eq]
  cases hfunction : vectorFunction? method xs.length with
  | some function => exact Operand.callWith_agree h (begins_vectorFunction hfunction) _
  | none => exact .refuse rfl

theorem scaled_agree (h : x.Agree C y) (h' : x'.Agree C y') (qualified : String) (i j : Nat) :
    Agree C C.terms (scaled qualified x x' i j) (scaled qualified y y' i j) :=
  (h.argument qualified i).bind fun _ => (h'.argument qualified j).bind fun _ =>
    .pure fun hu ht => Grammar.call (by decide) (by simp [hu, ht])

theorem fruitless_vectorFunctionCall (h : ∃ x ∈ xs, Fruitless x.lowered)
    (qualified method : String) : Fruitless (vectorFunctionCall qualified method xs) := by
  unfold vectorFunctionCall
  cases vectorFunction? method xs.length with
  | some function => exact (Operand.fruitless_arguments h qualified 0).bind _
  | none => exact LowerM.fruitless_throw _

/-- `vectorCall` has no term where an operand has none, whichever operands are taken for vectors. -/
theorem fruitless_vectorCall (h : ∃ x ∈ xs, Fruitless x.lowered) (surface : Surface)
    (method : String) : Fruitless (vectorCall surface method none xs) := by
  have hfunction := fruitless_vectorFunctionCall h (surface.qualify method) method
  have hscaled : ∀ {x x' : Operand} (i j : Nat), Fruitless x.lowered ∨ Fruitless x'.lowered →
      Fruitless (scaled (surface.qualify method) x x' i j) := by
    intro x x' i j hx
    rcases hx with hx | hx
    · exact (Operand.fruitless_argument hx _ i).bind _
    · exact .after _ fun _ => (Operand.fruitless_argument hx _ j).bind _
  unfold vectorCall
  simp only [allOperands, Option.toList, List.nil_append]
  split
  · rename_i left right
    have hone : Fruitless left.lowered ∨ Fruitless right.lowered := by simpa using h
    split
    · exact hscaled 0 1 hone
    · exact hscaled 1 0 hone.symm
    · exact hfunction
  · exact hfunction

theorem vectorCall_agree_of_types (h : List.Forall₂ (Operand.Agree C) xs ys)
    (hty : List.Forall₂ (fun x y : Operand => y.expr.ty = x.expr.ty) xs ys) (surface : Surface)
    (method : String) :
    Agree C C.terms (vectorCall surface method none xs) (vectorCall surface method none ys) := by
  have hfunction := vectorFunctionCall_agree h (surface.qualify method) method
  unfold vectorCall
  simp only [allOperands, Option.toList, List.nil_append]
  split
  · rcases h with _ | ⟨h₁, _ | ⟨h₂, ⟨⟩⟩⟩
    rcases hty with _ | ⟨hty₁, _ | ⟨hty₂, ⟨⟩⟩⟩
    simp only [hty₁, hty₂]
    split
    · exact scaled_agree h₁ h₂ _ 0 1
    · exact scaled_agree h₂ h₁ _ 1 0
    · exact hfunction
  · split
    · simp_all [List.forall₂_cons_right_iff]
    · exact hfunction

theorem vectorCall_agree (hr : Option.Rel (Operand.Agree C) r q)
    (h : List.Forall₂ (Operand.Agree C) xs ys) (surface : Surface) (method : String) :
    Agree C C.terms (vectorCall surface method r xs) (vectorCall surface method q ys) := by
  have hall := allOperands_agree hr h
  show Agree C _ (vectorCall surface method none (allOperands r xs))
    (vectorCall surface method none (allOperands q ys))
  generalize allOperands r xs = us at hall ⊢
  generalize allOperands q ys = vs at hall ⊢
  rcases Operand.types_eq_or hall with hty | ⟨hC, hfruitless⟩
  · exact vectorCall_agree_of_types hall hty surface method
  · obtain ⟨ws, hown, hty⟩ := Operand.exists_own hall
    exact (vectorCall_agree_of_types hown hty surface method).of_fruitless hC
      (fruitless_vectorCall hfruitless surface method) _

/-! ## Points and spans of time -/

theorem span_agree (h : x.Agree C y) (method : String) (unit : TimeUnit) :
    Agree C C.terms (span method unit x) (span method unit y) := by
  unfold span
  rw [h.constantNumber?]
  cases x.expr.constantNumber?.bind fun amount => Duration.ofUnits? amount unit.nanos with
  | some d => exact .pure (Grammar.literal rfl)
  | none => exact (h.argument method 0).call (begins_timeUnit unit)

theorem spanSum_agree (h : List.Forall₂ (PartAgree C) ps qs) (method : String) (sum : Option Term) :
    Agree C (fun out => (∀ t ∈ sum, C.terms t) → ∀ t ∈ out, C.terms t) (spanSum method sum ps)
      (spanSum method sum qs) := by
  induction h generalizing sum with
  | nil => exact .pure id
  | @cons p q ps qs h _ ih =>
    obtain ⟨x, unit⟩ := p
    obtain ⟨y, unit'⟩ := q
    obtain ⟨h, rfl⟩ : x.Agree C y ∧ unit = unit' := h
    rw [spanSum, spanSum, ← isNothing_agree h]
    split
    · exact ih sum
    · refine (span_agree h method unit).bind fun t => ?_
      -- What has been summed up so far is a term already.
      refine (ih _).imp fun out hout ht hsum => hout fun u hu => ?_
      cases sum with
      | none =>
        obtain rfl : t = u := by simpa using hu
        exact ht
      | some first =>
        obtain rfl : first.binary .add t = u := by simpa using hu
        exact Grammar.binary (hsum first rfl) ht

theorem ticks_agree (h : x.Agree C y) (method : String) :
    Agree C C.terms (ticks method x) (ticks method y) :=
  (h.argument method 0).bind fun t => .pure fun ht => Grammar.call (by decide)
    (List.forall_mem_singleton.mpr (Grammar.binary (Grammar.literal rfl) ht))

theorem millisAndMicros_agree (h : x.Agree C y) (h' : x'.Agree C y') (method : String) :
    Agree C C.terms (millisAndMicros method x x') (millisAndMicros method y y') := by
  have hparts : constantSpan? [(x, .milliseconds), (x', .microseconds)] =
      constantSpan? [(y, .milliseconds), (y', .microseconds)] :=
    constantSpan?_agree (.cons ⟨h, rfl⟩ (.cons ⟨h', rfl⟩ .nil))
  unfold millisAndMicros
  rw [← hparts, ← isNothing_agree h']
  split
  · exact .pure (Grammar.literal rfl)
  · refine (span_agree h method .milliseconds).bind fun t => ?_
    split
    · exact .pure id
    · exact (span_agree h' method .microseconds).bind fun u => .pure fun hu ht =>
        Grammar.binary ht hu

theorem spanCall_agree (hr : Option.Rel (Operand.Agree C) r q)
    (h : List.Forall₂ (Operand.Agree C) xs ys) (method : String) :
    Agree C C.terms (spanCall method r xs) (spanCall method q ys) := by
  unfold spanCall
  rcases hr with hr | _
  · rcases h with _ | ⟨h₁, _ | ⟨h₂, h⟩⟩
    · exact .refuse rfl
    · simp only
      cases spanOperator? method with
      | none => exact .refuse rfl
      | some op => exact hr.lowered.binary (h₁.argument _ 0) op
    · exact .refuse rfl
  · rcases h with _ | ⟨h₁, _ | ⟨h₂, _ | ⟨h₃, h⟩⟩⟩
    · exact .refuse rfl
    · simp only
      split
      · exact ticks_agree h₁ _
      · cases TimeUnit.ofMethod? "From" method with
        | none => exact .refuse rfl
        | some unit => exact span_agree h₁ _ unit
    · simp only
      split
      · exact millisAndMicros_agree h₁ h₂ _
      · exact .refuse rfl
    · exact .refuse rfl

/-- A new span whose arguments are given in `units`. -/
def spanOf (args : List Operand) (units : List TimeUnit) : LowerM Term :=
  match constantSpan? (args.zip units) with
  | some d => return .duration d
  | none => do
    let sum ← spanSum (Surface.timeSpan.qualify "ctor") none (args.zip units)
    return sum.getD (.duration Duration.zero)

theorem newSpan_eq {args : List Operand} (h : args.length ≠ 1) :
    newSpan args = match spanUnits? args.length with
      | none => throw (.constructorUnsupported "TimeSpan")
      | some units => spanOf args units := by
  unfold newSpan
  split
  · exact absurd rfl h
  · rfl

theorem spanOf_agree (h : List.Forall₂ (Operand.Agree C) xs ys) (units : List TimeUnit) :
    Agree C C.terms (spanOf xs units) (spanOf ys units) := by
  have hzip := zip_agree h units
  unfold spanOf
  rw [← constantSpan?_agree hzip]
  split
  · exact .pure (Grammar.literal rfl)
  · refine (spanSum_agree hzip _ none).bind fun sum => .pure fun hsum => ?_
    cases sum with
    | none => exact Grammar.literal rfl
    | some t => exact hsum nofun t rfl

theorem newSpan_agree (h : List.Forall₂ (Operand.Agree C) xs ys) :
    Agree C C.terms (newSpan xs) (newSpan ys) := by
  by_cases hone : xs.length = 1
  · obtain ⟨x, rfl⟩ := List.length_eq_one_iff.mp hone
    rcases h with _ | ⟨h₁, ⟨⟩⟩
    unfold newSpan
    simp only [h₁.constantNumber?]
    split
    · exact .pure (Grammar.literal rfl)
    · exact ticks_agree h₁ _
  · rw [newSpan_eq hone, newSpan_eq (h.length_eq ▸ hone), ← h.length_eq]
    split
    · exact .refuse rfl
    · exact spanOf_agree h _

theorem spanMember_agree (h : x.Agree C y) (name : String) :
    Agree C C.terms (spanMember x name) (spanMember y name) := by
  unfold spanMember
  cases hfunction : spanFunction? name with
  | none => exact .refuse rfl
  | some function => exact h.lowered.call (begins_spanFunction hfunction)

theorem startOfDay_terms {t : Term} (ht : C.terms t) : C.terms (startOfDay t) := by
  refine Grammar.call (by decide) ?_
  simpa [Grammar.literal (P := C.terms) (t := .duration _) rfl] using ht

theorem instantMember_agree (h : x.Agree C y) (name : String) :
    Agree C C.terms (instantMember x name) (instantMember y name) := by
  unfold instantMember
  split
  · exact h.lowered.bind fun t => .pure startOfDay_terms
  · cases instantMethod? name with
    | none => exact .refuse rfl
    | some method => exact h.lowered.bind fun t => .pure fun ht => Grammar.step ht rfl

theorem instantCall_agree (hr : Option.Rel (Operand.Agree C) r q)
    (h : List.Forall₂ (Operand.Agree C) xs ys) (method : String) :
    Agree C C.terms (instantCall method r xs) (instantCall method q ys) := by
  unfold instantCall
  rcases hr with hr | _
  · rcases h with _ | ⟨h₁, _ | ⟨h₂, h⟩⟩
    · exact .refuse rfl
    · simp only
      split
      · exact hr.lowered.binary (h₁.argument _ 0) .add
      · exact hr.lowered.binary (h₁.argument _ 0) .sub
      · cases TimeUnit.ofMethod? "Add" method with
        | none => exact .refuse rfl
        | some unit => exact hr.lowered.binary (span_agree h₁ _ unit) .add
    · exact .refuse rfl
  · exact .refuse rfl

theorem instantOf_kind {year month day hour minute second millis : Int} {e : Error}
    (h : instantOf year month day hour minute second millis = .error e) :
    e.kind ≠ .invalidTree := by
  unfold instantOf at h
  simp only at h
  split at h
  · cases h
    decide
  · split at h
    · cases h
      rintro ⟨⟩
    · split at h
      · cases h
        decide
      · cases h

theorem newInstant_agree (h : List.Forall₂ (Operand.Agree C) xs ys) :
    Agree C C.terms (newInstant xs) (newInstant ys) := by
  have hnumbers : xs.mapM wholeNumber? = ys.mapM wholeNumber? := by
    induction h with
    | nil => rfl
    | cons h _ ih =>
      rw [List.mapM_cons, List.mapM_cons, ih, wholeNumber?, wholeNumber?, h.constantNumber?]
  have hinstant : ∀ y m d h mi s ms : Int,
      Agree C C.terms (do return .dateTime (← LowerM.ofExcept (instantOf y m d h mi s ms)))
        (do return .dateTime (← LowerM.ofExcept (instantOf y m d h mi s ms))) := by
    intro y m d h mi s ms
    refine (Agree.ofExcept _ (fun _ => trivial) fun _ he => instantOf_kind he).bind fun _ => ?_
    exact .pure fun _ => Grammar.literal rfl
  unfold newInstant
  rw [← hnumbers]
  split
  · exact hinstant _ _ _ _ _ _ _
  · exact hinstant _ _ _ _ _ _ _
  · exact hinstant _ _ _ _ _ _ _
  · exact .refuse rfl

end Lowering

end

end QueryTree
