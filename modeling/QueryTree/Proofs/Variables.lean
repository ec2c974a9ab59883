import QueryTree.Proofs.GroupUses
import QueryTree.Proofs.Lockstep

/-!
# Variables of trees that are alike

A variable is filled in by its name: for a row, for a group, or for the group of a merged selector.
In an alike tree it may have another name, and lambdas may declare the one name again and not the
other; then there is nothing to fill in below them.
-/

namespace QueryTree

/-! ## Pairings without a variable -/

namespace Pairing

/-- What is left of a pairing when `x` and `x'`, which are paired with each other only, have been
filled in. -/
def Fills (x x' : String) (Δ Γ : Pairing) : Prop :=
  ∀ y y', Δ y y' → y = x ∧ y' = x' ∨ y ≠ x ∧ y' ≠ x' ∧ Γ y y'

section
variable {B Δ Γ : Pairing} {x x' : String} {ps ps' : List LambdaParam}

/-- `Fills` the parameters of two lambdas. -/
theorem fills_under (Γ : Pairing) (p p' : LambdaParam) :
    Fills p.name p'.name (Γ.under [p] [p']) Γ := by
  intro y y' h
  rcases under_iff.mp h with ⟨i, hi, hi'⟩ | ⟨hy, hy', hΓ⟩
  · have hp : [p].any (·.name == y) = true := by rw [← List.findIdx?_isSome, hi]; rfl
    have hp' : [p'].any (·.name == y') = true := by rw [← List.findIdx?_isSome, hi']; rfl
    simp only [List.any_cons, List.any_nil, Bool.or_false, beq_iff_eq] at hp hp'
    exact .inl ⟨hp.symm, hp'.symm⟩
  · simp only [List.any_cons, List.any_nil, Bool.or_false, beq_eq_false_iff_ne] at hy hy'
    exact .inr ⟨hy.symm, hy'.symm, hΓ⟩

theorem Fills.under (h : Fills x x' Δ Γ) (hx : ps.any (·.name == x) = false)
    (hx' : ps'.any (·.name == x') = false) : Fills x x' (Δ.under ps ps') (Γ.under ps ps') := by
  intro y y' hyy'
  rcases under_iff.mp hyy' with ⟨i, hi, hi'⟩ | ⟨hy, hy', hΔ⟩
  · refine .inr ⟨?_, ?_, under_iff.mpr (.inl ⟨i, hi, hi'⟩)⟩
    · rintro rfl
      rw [← List.findIdx?_isSome, hi] at hx
      cases hx
    · rintro rfl
      rw [← List.findIdx?_isSome, hi'] at hx'
      cases hx'
  · refine (h y y' hΔ).imp id ?_
    rintro ⟨hne, hne', hΓ⟩
    exact ⟨hne, hne', under_iff.mpr (.inr ⟨hy, hy', hΓ⟩)⟩

end

end Pairing

section
variable {B Δ Γ : Pairing} {strict : Bool} {x x' : String} {e e' body body' v v' : Expr}
  {cs : List Expr} {ps ps' : List LambdaParam}

namespace Expr.Alike

/-- `Fills` keeps where a variable is found. -/
theorem isParameter_eq (h : Expr.Alike B strict Δ e e') (hx : Pairing.Fills x x' Δ Γ) :
    e.isParameter x = e'.isParameter x' := by
  cases h with
  | node hplain _ _ =>
    rw [isParameter_withChildren, isParameter_of_isPlain hplain, isParameter_of_isPlain hplain]
  | @parameter _ _ y y' t hy =>
    rcases hx y y' hy with ⟨rfl, rfl⟩ | ⟨hne, hne', -⟩
    · simp [isParameter]
    · simp [isParameter, hne, hne']
  | quoted he he' _ _ =>
    rw [isParameter_of_unquote (isLambda_of_eq he), isParameter_of_unquote (isLambda_of_eq he')]
  | _ => rfl

/-- Below lambdas of which one declares `x` again there is nothing to fill in. -/
theorem not_mem_of_declared (hbody : Expr.Alike B true (Δ.under ps ps') body body')
    (hx : Pairing.Fills x x' Δ Γ)
    (hdeclared : ps.any (·.name == x) = true ∨ ps'.any (·.name == x') = true) :
    x ∉ (Expr.lambda ps body).freeNames ∧ x' ∉ (Expr.lambda ps' body').freeNames := by
  constructor
  · intro hfree
    obtain ⟨hfree, hps⟩ := mem_freeNames_body rfl hfree
    obtain ⟨y', hy'⟩ := hbody.exists_right hfree
    rcases hx x y' (Pairing.of_under hy' hps) with ⟨-, rfl⟩ | ⟨hne, -, -⟩
    · rw [← Pairing.under_declared hy', or_self, hps] at hdeclared
      cases hdeclared
    · exact hne rfl
  · intro hfree
    obtain ⟨hfree, hps⟩ := mem_freeNames_body rfl hfree
    obtain ⟨y, hy⟩ := hbody.exists_left hfree
    rcases hx y x' (Pairing.of_under_right hy hps) with ⟨rfl, -⟩ | ⟨-, hne, -⟩
    · rw [Pairing.under_declared hy, or_self, hps] at hdeclared
      cases hdeclared
    · exact hne rfl

theorem body_of_declared (hbody : Expr.Alike B true (Δ.under ps ps') body body')
    (hx : Pairing.Fills x x' Δ Γ) (hps : B.Declares Γ ps ps')
    (hdeclared : ps.any (·.name == x) = true ∨ ps'.any (·.name == x') = true) :
    Expr.Alike B true (Γ.under ps ps') body body' := by
  refine hbody.weaken hps.base fun y _ y' hyy' => Pairing.under_imp hyy' fun hy hy' hΔ => ?_
  rcases hx y y' hΔ with ⟨rfl, rfl⟩ | ⟨-, -, hΓ⟩
  · rw [hy, hy'] at hdeclared
    rcases hdeclared with hdeclared | hdeclared <;> cases hdeclared
  · exact hΓ

end Expr.Alike

/-! ## Filling in -/

section
variable {m : Type → Type} {σ : Type} [Monad m] [LawfulMonad m] [Yielding m σ]

/-- `f` is about the variable `x`: lambdas that do not declare it are entered, and what does not use
it is left as it is. -/
structure AboutVariable (x : String) (f : Expr → m (Option Expr)) : Prop where
  inert : ∀ {e}, e.isFixed = true → f e = pure none
  enter : ∀ {ps body}, ps.any (·.name == x) = false → f (.lambda ps body) = pure none
  unused : ∀ {n : Expr}, x ∉ n.freeNames → f n = pure (some n) ∨ f n = pure none ∧
    n.shadows x = false

theorem AboutVariable.replaceM_eq {f : Expr → m (Option Expr)} (h : AboutVariable x f)
    (he : x ∉ e.freeNames) : e.replaceM f = pure e := by
  induction e using Expr.childrenInduction with
  | step e ih =>
    rw [Expr.replaceM_eq]
    rcases h.unused he with hf | ⟨hf, hshadows⟩
    · rw [hf, pure_bind]
    · have hkids : ∀ c ∈ e.children, c.replaceM f = pure (id c) := fun c hc =>
        ih c hc fun hx => he (Expr.mem_freeNames_of_child hc hshadows hx)
      rw [hf, pure_bind]
      simp only [Expr.mapM_eq_pure hkids, List.map_id, map_pure, Expr.withChildren_children]

/-- Replacing `AboutVariable` is in step if it is so at the variable and at single nodes. -/
theorem Lockstep.of_variable {T : Pairing → Pairing → Prop} {f g : Expr → m (Option Expr)}
    (hf : AboutVariable x f) (hg : AboutVariable x' g) (base : ∀ {Δ Γ}, T Δ Γ → B.Below Γ)
    (fills : ∀ {Δ Γ}, T Δ Γ → ∃ Γ', Pairing.Fills x x' Δ Γ')
    (enter : ∀ {Δ Γ ps ps'}, T Δ Γ → B.Declares Δ ps ps' → ps.any (·.name == x) = false →
      ps'.any (·.name == x') = false → T (Δ.under ps ps') (Γ.under ps ps'))
    (leave : ∀ {Δ Γ ps ps' body body'}, T Δ Γ → B.Declares Δ ps ps' → ps.any (·.name == x) = true ∨
      ps'.any (·.name == x') = true → Expr.Alike B true (Δ.under ps ps') body body' →
      Expr.Alike B true (Γ.under ps ps') body body')
    (parameter : ∀ {strict} {Δ Γ : Pairing} {y y' t}, T Δ Γ → Δ y y' →
      Simulates (Expr.Alike B strict Γ) ((Expr.parameter y t).replaceM f)
      ((Expr.parameter y' t).replaceM g))
    (node : ∀ {strict Δ Γ e cs}, T Δ Γ → e.isPlain = true → List.Forall₂ (Expr.Alike B e.isStrict Δ)
      e.children cs → f e = pure none ∧ g (e.withChildren cs) = pure none ∨
      Simulates (Expr.Alike B strict Γ) (e.replaceM f) ((e.withChildren cs).replaceM g)) :
    Lockstep B T f g where
  base := base
  inert h := ⟨hf.inert h, hg.inert h⟩
  parameter := parameter
  node := node
  lambda := by
    intro Δ Γ ps ps' body body' hT hps hbody
    -- Where one of the two lambdas declares the variable again, nothing is replaced below both.
    by_cases hdeclared : ps.any (·.name == x) = true ∨ ps'.any (·.name == x') = true
    · obtain ⟨Γ', hx⟩ := fills hT
      obtain ⟨hfree, hfree'⟩ := hbody.not_mem_of_declared hx hdeclared
      exact .inr ⟨hf.replaceM_eq hfree, hg.replaceM_eq hfree', leave hT hps hdeclared hbody⟩
    · obtain ⟨hx, hx'⟩ := not_or.mp hdeclared
      rw [Bool.not_eq_true] at hx hx'
      exact .inl ⟨hf.enter hx, hg.enter hx', enter hT hps hx hx'⟩

/-- Filling in a variable of two trees is in `Lockstep`. -/
theorem Lockstep.of_filling {f g : Expr → m (Option Expr)} (hf : AboutVariable x f)
    (hg : AboutVariable x' g)
    (parameter : ∀ {strict} {Δ Γ : Pairing} {y y' t}, Pairing.Fills x x' Δ Γ → B.Below Γ → Δ y y' →
      Simulates (Expr.Alike B strict Γ) ((Expr.parameter y t).replaceM f)
      ((Expr.parameter y' t).replaceM g))
    (node : ∀ {strict Δ Γ e cs}, Pairing.Fills x x' Δ Γ → B.Below Γ → e.isPlain = true →
      List.Forall₂ (Expr.Alike B e.isStrict Δ) e.children cs → f e = pure none ∧
      g (e.withChildren cs) = pure none ∨ Simulates (Expr.Alike B strict Γ) (e.replaceM f)
      ((e.withChildren cs).replaceM g)) :
    Lockstep B (fun Δ Γ => Pairing.Fills x x' Δ Γ ∧ B.Below Γ) f g := by
  refine .of_variable hf hg (fun h => h.2) (fun h => ⟨_, h.1⟩) ?_ ?_ (fun h => parameter h.1 h.2)
    fun h => node h.1 h.2
  · exact fun h hps hx hx' => ⟨h.1.under hx hx', (hps.mono h.2).base⟩
  · exact fun h hps hdeclared hbody => hbody.body_of_declared h.1 (hps.mono h.2) hdeclared

end

/-! ## Rows and groups -/

namespace Expr

theorem isKeyOf_eq_false (h : x ∉ e.freeNames) : e.isKeyOf x = false := by
  rw [Bool.eq_false_iff]
  exact fun hkey => h (mem_freeNames_of_isKeyOf hkey)

theorem isParameter_eq_false (h : x ∉ e.freeNames) : e.isParameter x = false := by
  rw [Bool.eq_false_iff]
  exact fun hparam => h (mem_freeNames_of_isParameter hparam)

theorem aggregateOf?_eq_none (h : x ∉ e.freeNames) : e.aggregateOf? x = none := by
  cases hagg : e.aggregateOf? x with
  | none => rfl
  | some aggregate =>
    obtain ⟨kind, method, rest, t⟩ := aggregate
    obtain ⟨group, rfl, hgroup⟩ := aggregateOf?_eq_some hagg
    exact absurd (mem_freeNames_of_child (c := group) (by simp [children]) rfl
      (mem_freeNames_of_isParameter hgroup)) h

theorem substituteNode_of_isPlain (h : e.isPlain = true) : substituteNode x v e = none := by
  simp [substituteNode, isParameter_of_isPlain h, shadows_of_isPlain h]

theorem substituteNode_parameter (y : String) (t : Ty) :
    substituteNode x v (.parameter y t) = if y = x then some v else none := by
  simp [substituteNode, isParameter, shadows]

theorem aboutVariable_substituteNode (x : String) (v : Expr) :
    AboutVariable x fun n => (pure (substituteNode x v n) : BindM (Option Expr)) where
  inert {e} h := by cases e <;> first | rfl | cases h
  enter h := by simp [substituteNode, isParameter, shadows, h]
  unused {n} h := by
    by_cases hs : n.shadows x = true
    · exact .inl (by simp [substituteNode, isParameter_eq_false h, hs])
    · exact .inr ⟨by simp [substituteNode, isParameter_eq_false h, hs], by simpa using hs⟩

theorem Alike.substitute (h : Expr.Alike B strict Δ e e') (hx : Pairing.Fills x x' Δ Γ)
    (hB : B.Below Γ) (hv : Expr.Alike B true B v v') :
    Expr.Alike B strict Γ (e.substitute x v) (e'.substitute x' v') := by
  have hstep : Lockstep B (fun Δ Γ => Pairing.Fills x x' Δ Γ ∧ B.Below Γ)
      (fun n => (pure (substituteNode x v n) : BindM (Option Expr))) fun n =>
        pure (substituteNode x' v' n) := by
    refine .of_filling (aboutVariable_substituteNode x v) (aboutVariable_substituteNode x' v') ?_ ?_
    · intro strict Δ Γ y y' t hx hB hy
      rw [replaceM_pure, replaceM_pure, replace_eq, replace_eq, substituteNode_parameter,
        substituteNode_parameter]
      rcases hx y y' hy with ⟨rfl, rfl⟩ | ⟨hne, hne', hΓ⟩
      · rw [if_pos rfl, if_pos rfl]
        exact .pure (hv.mono hB hB).loose
      · rw [if_neg hne, if_neg hne']
        exact .pure (.parameter hΓ)
    · intro strict Δ Γ e cs _ _ hplain _
      refine .inl ⟨congrArg pure (substituteNode_of_isPlain hplain),
        congrArg pure (substituteNode_of_isPlain ?_)⟩
      rw [isPlain_withChildren, hplain]
  have hall := hstep.replaceM ⟨hx, hB⟩ h
  rw [replaceM_pure, replaceM_pure] at hall
  exact hall.of_pure 0

theorem Alike.isKeyOf_eq (hkids : List.Forall₂ (Expr.Alike B e.isStrict Δ) e.children cs)
    (hx : Pairing.Fills x x' Δ Γ) : e.isKeyOf x = (e.withChildren cs).isKeyOf x' := by
  have hsame := e.sameNode_withChildren cs
  cases e with
  | member b name t =>
    cases hkids with
    | cons hb hnil =>
      cases hnil
      by_cases hname : name = "Key"
      · subst hname
        exact hb.isParameter_eq hx
      · simp [isKeyOf, Expr.withChildren, hname]
  | _ =>
    generalize Expr.withChildren _ cs = e' at hsame ⊢
    cases hsame <;> rfl

/-- The aggregates over a group are found at the same places, and are of functions that are `Alike`.
-/
theorem Alike.aggregateOf?_rel (hkids : List.Forall₂ (Expr.Alike B e.isStrict Δ) e.children cs)
    (hx : Pairing.Fills x x' Δ Γ) :
    Option.Rel (fun a b => a.1 = b.1 ∧ a.2.1 = b.2.1 ∧ List.Forall₂ (Expr.Alike B false Δ)
      a.2.2.1 b.2.2.1 ∧
      a.2.2.2 = b.2.2.2) (e.aggregateOf? x) ((e.withChildren cs).aggregateOf? x') := by
  have hsame := e.sameNode_withChildren cs
  cases e with
  | call surface method receiver args t =>
    cases receiver with
    | some r =>
      cases hkids with
      | cons hr hrest => cases surface <;> exact .none
    | none =>
      cases surface with
      | enumerable =>
        cases hkids with
        | nil => exact .none
        | cons hg hrest =>
          simp only [Expr.withChildren, aggregateOf?, hg.isParameter_eq hx]
          split
          · cases AggregateKind.ofMethod? method with
            | none => exact .none
            | some kind => exact .some ⟨rfl, rfl, hrest, rfl⟩
          · exact .none
      | _ => exact .none
  | _ =>
    generalize Expr.withChildren _ cs = e' at hsame ⊢
    cases hsame <;> exact .none

/-- What becomes of a node when a group is filled in for the variable `name`. -/
def groupNode (name : String) (key : GroupKey) (node : Expr) : Option Expr :=
  if node.isKeyOf name then some key.outer
  else if node.isParameter name then some key.values
  else if node.shadows name then some node
  else none

theorem aboutVariable_groupNode (x : String) (key : GroupKey) :
    AboutVariable x fun n => (pure (groupNode x key n) : BindM (Option Expr)) where
  inert {e} h := by cases e <;> first | rfl | cases h
  enter h := by simp [groupNode, isKeyOf, isParameter, shadows, h]
  unused {n} h := by
    by_cases hs : n.shadows x = true
    · exact .inl (by simp [groupNode, isKeyOf_eq_false h, isParameter_eq_false h, hs])
    · exact .inr
        ⟨by simp [groupNode, isKeyOf_eq_false h, isParameter_eq_false h, hs], by simpa using hs⟩

theorem groupNode_parameter (key : GroupKey) (y : String) (t : Ty) :
    groupNode x key (.parameter y t) = if y = x then some key.values else none := by
  simp [groupNode, isKeyOf, isParameter, shadows]

theorem groupNode_of_isPlain (key : GroupKey) (h : e.isPlain = true) :
    groupNode x key e = if e.isKeyOf x then some key.outer else none := by
  simp [groupNode, isParameter_of_isPlain h, shadows_of_isPlain h]

theorem Alike.substituteGroup {key key' : GroupKey} (h : Expr.Alike B strict Δ e e')
    (hx : Pairing.Fills x x' Δ Γ) (hB : B.Below Γ) (hkey : key.Alike B key') :
    Expr.Alike B strict Γ (e.substituteGroup x key) (e'.substituteGroup x' key') := by
  have hstep : Lockstep B (fun Δ Γ => Pairing.Fills x x' Δ Γ ∧ B.Below Γ)
      (fun n => (pure (groupNode x key n) : BindM (Option Expr))) fun n =>
        pure (groupNode x' key' n) := by
    refine .of_filling (aboutVariable_groupNode x key) (aboutVariable_groupNode x' key') ?_ ?_
    · intro strict Δ Γ y y' t hx hB hy
      rw [replaceM_pure, replaceM_pure, replace_eq, replace_eq, groupNode_parameter,
        groupNode_parameter]
      rcases hx y y' hy with ⟨rfl, rfl⟩ | ⟨hne, hne', hΓ⟩
      · rw [if_pos rfl, if_pos rfl]
        exact .pure (hkey.values.mono hB hB).loose
      · rw [if_neg hne, if_neg hne']
        exact .pure (.parameter hΓ)
    · intro strict Δ Γ e cs hx hB hplain hkids
      have hplain' : (e.withChildren cs).isPlain = true := (isPlain_withChildren e cs).trans hplain
      have hsame := isKeyOf_eq hkids hx
      simp only [groupNode_of_isPlain _ hplain, groupNode_of_isPlain _ hplain', ← hsame]
      by_cases hk : e.isKeyOf x = true
      · right
        rw [replaceM_pure, replaceM_pure, replace_eq, replace_eq, groupNode_of_isPlain _ hplain,
          groupNode_of_isPlain _ hplain', ← hsame, if_pos hk, if_pos hk]
        exact .pure (hkey.outer.mono hB hB).loose
      · simp [hk]
  have hall := hstep.replaceM ⟨hx, hB⟩ h
  rw [replaceM_pure, replaceM_pure] at hall
  exact hall.of_pure 0

end Expr

/-! ## Counting -/

namespace GroupUses

/-- A variable that is not free has no `GroupUses`. -/
theorem of_not_mem_freeNames (h : x ∉ e.freeNames) : of e x = ⟨0, 0, 0⟩ := by
  induction e using Expr.childrenInduction with
  | step e ih =>
    by_cases hshadows : e.shadows x = true
    · exact of_shadows hshadows
    · have hs : e.shadows x = false := by simpa using hshadows
      have hkids : ∀ c ∈ e.children, of c x = ⟨0, 0, 0⟩ := fun c hc =>
        ih c hc fun hx => h (Expr.mem_freeNames_of_child hc hs hx)
      have hzero : ∀ f : GroupUses → Nat, f ⟨0, 0, 0⟩ = 0 →
          (e.children.map fun c => f (of c x)).sum = 0 := by
        intro f hf
        refine List.sum_eq_zero fun n hn => ?_
        obtain ⟨c, hc, rfl⟩ := List.mem_map.mp hn
        rw [hkids c hc, hf]
      rw [of_eq hs, hzero (·.total) rfl, hzero (·.key) rfl, hzero (·.aggregates) rfl,
        Expr.isParameter_eq_false h, Expr.isKeyOf_eq_false h, Expr.aggregateOf?_eq_none h]
      rfl

theorem of_unquote (e : Expr) (x : String) : of e.unquote x = of e x := by
  induction e using Expr.unquote.induct with
  | case1 operand t ih =>
    rw [Expr.unquote, ih, of_eq (e := .unary .quote operand t) rfl]
    simp [Expr.children, Expr.isParameter, Expr.isKeyOf, Expr.aggregateOf?]
  | case2 e hquote =>
    rw [Expr.unquote]
    exact hquote

theorem of_lambda (h : ps.any (·.name == x) = false) : of (.lambda ps body) x = of body x := by
  rw [of_eq (e := .lambda ps body) h]
  simp [Expr.children, Expr.isParameter, Expr.isKeyOf, Expr.aggregateOf?]

theorem of_lambda_alike (hbody : Expr.Alike B true (Δ.under ps ps') body body')
    (hx : Pairing.Fills x x' Δ Γ)
    (ih : ∀ {Γ}, Pairing.Fills x x' (Δ.under ps ps') Γ → of body x = of body' x') :
    of (.lambda ps body) x = of (.lambda ps' body') x' := by
  by_cases hdeclared : ps.any (·.name == x) = true ∨ ps'.any (·.name == x') = true
  · obtain ⟨hfree, hfree'⟩ := hbody.not_mem_of_declared hx hdeclared
    rw [of_not_mem_freeNames hfree, of_not_mem_freeNames hfree']
  · obtain ⟨hx₁, hx₁'⟩ := not_or.mp hdeclared
    rw [Bool.not_eq_true] at hx₁ hx₁'
    rw [of_lambda hx₁, of_lambda hx₁', ih (hx.under hx₁ hx₁')]

theorem of_alike (h : Expr.Alike B strict Δ e e') (hx : Pairing.Fills x x' Δ Γ) :
    of e x = of e' x' := by
  induction h using Expr.Alike.ind generalizing Γ with
  | @node strict Δ e cs _ hplain hkids =>
    have hplain' : (e.withChildren cs).isPlain = true :=
      (Expr.isPlain_withChildren e cs).trans hplain
    have halike := hkids.imp fun _ _ hc => hc.1
    -- Each count is summed up over the children.
    have hsums : ∀ f : GroupUses → Nat,
        (e.children.map fun c => f (of c x)) = cs.map fun c => f (of c x') := by
      intro f
      rw [← List.forall₂_eq_eq_eq, List.forall₂_map_left_iff, List.forall₂_map_right_iff]
      exact hkids.imp fun _ _ hc => congrArg f (hc.2 hx)
    have hagg : (e.aggregateOf? x).isSome = ((e.withChildren cs).aggregateOf? x').isSome := by
      have hrel := Expr.Alike.aggregateOf?_rel halike hx
      generalize e.aggregateOf? x = a, (e.withChildren cs).aggregateOf? x' = b at hrel ⊢
      cases hrel <;> rfl
    rw [of_eq (Expr.shadows_of_isPlain hplain x), of_eq (Expr.shadows_of_isPlain hplain' x'),
      Expr.children_withChildren hkids.length_eq.symm, hsums (·.total), hsums (·.key),
        hsums (·.aggregates),
      Expr.Alike.isKeyOf_eq halike hx, hagg, Expr.isParameter_of_isPlain hplain,
        Expr.isParameter_of_isPlain hplain']
  | @parameter strict Δ y y' t h hy =>
    have hparam := h.isParameter_eq hx
    rw [of_eq (e := .parameter y t) rfl, of_eq (e := .parameter y' t) rfl, hparam]
    rfl
  | lambda hps hbody ih => exact of_lambda_alike hbody hx ih
  | select hs => rfl
  | subquery hs => rfl
  | @quoted Δ e e' ps ps' body body' _ he he' hps hbody ih =>
    rw [← of_unquote e, ← of_unquote e', he, he']
    exact of_lambda_alike hbody hx ih
  | @indexed Δ l l' r r' t t' _ hl _ ihl _ ihr =>
    rw [of_eq (e := .binary .arrayIndex l r t) rfl, of_eq (e := .binary .arrayIndex l' r' t') rfl]
    simp [Expr.children, Expr.isParameter, Expr.isKeyOf, Expr.aggregateOf?, ihl hx, ihr hx]

end GroupUses

theorem Binding.isOperator_withChildren (e : Expr) (cs : List Expr) :
    isOperator (e.withChildren cs) = isOperator e := by
  refine Expr.withChildren_congr (f := isOperator) (fun h => ?_) e cs
  cases h with
  | method surface => cases surface <;> rfl
  | function surface => cases surface <;> rfl
  | _ => rfl

theorem Binding.operatorCount_alike (h : Expr.Alike B strict Δ e e') :
    operatorCount e = operatorCount e' := by
  induction h using Expr.Alike.ind with
  | @node strict Δ e cs _ hplain hkids =>
    have hsums : e.children.map operatorCount = cs.map operatorCount := by
      rw [← List.forall₂_eq_eq_eq, List.forall₂_map_left_iff, List.forall₂_map_right_iff]
      exact hkids.imp fun _ _ hc => hc.2
    rw [operatorCount_eq e, operatorCount_eq (e.withChildren cs),
      Expr.children_withChildren hkids.length_eq.symm, hsums, isOperator_withChildren]
  | parameter hx => rfl
  | @lambda _ _ ps ps' body body' _ _ _ ih =>
    rw [operatorCount_eq (.lambda ps body), operatorCount_eq (.lambda ps' body')]
    simp [Expr.children, isOperator, ih]
  | select hs => rfl
  | subquery hs => rfl
  | @quoted _ e e' ps ps' body body' _ he he' _ _ ih =>
    rw [← operatorCount_unquote e, ← operatorCount_unquote e', he, he',
      operatorCount_eq (.lambda ps body), operatorCount_eq (.lambda ps' body')]
    simp [Expr.children, isOperator, ih]
  | @indexed _ l l' r r' t t' _ _ _ ihl _ ihr =>
    rw [operatorCount_eq (.binary .arrayIndex l r t),
      operatorCount_eq (.binary .arrayIndex l' r' t')]
    simp [Expr.children, isOperator, ihl, ihr]

end

end QueryTree
