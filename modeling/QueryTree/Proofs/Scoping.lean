import QueryTree.Proofs.GroupUses
import QueryTree.Proofs.Filled
import QueryTree.Proofs.Throughout

/-!
# Variables that are replaced in time

A variable is replaced when its lambda is applied: by the row of a select, by the key and the
elements of a group or, if a selector is merged, by aggregates. The functions of aggregates in a
merged selector are bound before anything else, so they can use variables from outside only.
`Expr.Scoped` says where variables may be used, and all three ways keep it.
-/

namespace QueryTree

open Binding

/-! ## What can be used -/

/-- What is known of variables at some place: which ones may be used, and which of them the function
of an aggregate over a variable may use. -/
structure Variables where
  sees : String → Bool
  outside : String → String → Bool

namespace Variables

/-- Where all variables may be used. -/
def any : Variables := ⟨fun _ => true, fun _ _ => true⟩

/-- Where no variables may be used. -/
def none : Variables := ⟨fun _ => false, fun _ _ => false⟩

/-- What is known in the body of a lambda with the parameter `p`. The function of an aggregate over
a variable must not use what is declared by the lambda of the variable or inside it. -/
def declare (σ : Variables) (p : String) : Variables where
  sees y := y == p || σ.sees y
  outside g y := y != p && bif g == p then σ.sees y else σ.outside g y

/-- What is known in the function of an operator, or of an aggregate over a variable. -/
def within (σ : Variables) : Option String → Variables
  | .none => σ
  | some g => ⟨σ.outside g, fun h y => σ.outside g y && σ.outside h y⟩

/-- Of the variables in `P`, `τ` lets be used what `σ` does. -/
structure Covers (P : String → Prop) (σ τ : Variables) : Prop where
  sees : ∀ y, P y → σ.sees y = true → τ.sees y = true
  outside : ∀ g y, P g → P y → σ.outside g y = true → τ.outside g y = true

section
variable {P P' : String → Prop} {σ τ : Variables} {x : String}

theorem Covers.mono (h : Covers P σ τ) (hP : ∀ y, P' y → P y) : Covers P' σ τ :=
  ⟨fun y hy => h.sees y (hP y hy), fun g y hg hy => h.outside g y (hP g hg) (hP y hy)⟩

theorem Covers.declare (h : Covers P σ τ) (p : String) :
    Covers (fun y => P y ∨ y = p) (σ.declare p) (τ.declare p) where
  sees y hy hs := by
    simp only [Variables.declare, Bool.or_eq_true, beq_iff_eq] at hs ⊢
    rcases hy with hy | rfl
    · exact hs.imp id (h.sees y hy)
    · exact .inl rfl
  outside g y hg hy hs := by
    simp only [Variables.declare, Bool.and_eq_true, bne_iff_ne] at hs ⊢
    obtain ⟨hne, hs⟩ := hs
    have hy : P y := hy.resolve_right hne
    refine ⟨hne, ?_⟩
    cases hgp : g == p with
    | true =>
      rw [hgp] at hs
      exact h.sees y hy hs
    | false =>
      rw [hgp] at hs
      exact h.outside g y (hg.resolve_right (by simpa using hgp)) hy hs

theorem Covers.within (h : Covers P σ τ) {group : Option String} (hg : ∀ g, group = some g → P g) :
    Covers P (σ.within group) (τ.within group) := by
  cases group with
  | none => exact h
  | some g =>
    refine ⟨fun y hy => h.outside g y (hg g rfl) hy, fun k y hk hy hs => ?_⟩
    simp only [Variables.within, Bool.and_eq_true] at hs ⊢
    exact ⟨h.outside g y (hg g rfl) hy hs.1, h.outside k y hk hy hs.2⟩

/-- The function of an aggregate over `x` may use nothing. -/
def Closes (σ : Variables) (x : String) : Prop := ∀ y, σ.outside x y = false

theorem Closes.declare (h : σ.Closes x) {p : String} (hp : x ≠ p) : (σ.declare p).Closes x := by
  intro y
  simp [Variables.declare, beq_eq_false_iff_ne.mpr hp, h y]

theorem Closes.within (h : σ.Closes x) (group : Option String) : (σ.within group).Closes x := by
  cases group with
  | none => exact h
  | some g =>
    intro y
    simp [Variables.within, h y]

theorem Closes.covers (h : σ.Closes x) : Covers P (σ.within (some x)) τ := by
  refine ⟨fun y _ hs => ?_, fun g y _ _ hs => ?_⟩
  · simp [Variables.within, h y] at hs
  · simp [Variables.within, h y] at hs

theorem closes_declare_none (p : String) : (none.declare p).Closes p := by
  intro y
  simp [Variables.declare, none]

end

end Variables

/-! ## What is bound -/

mutual

/-- No variables and no operators are left in an expression, but for the bodies of lambdas. -/
inductive Expr.Closed : Expr → Prop
  | node {e : Expr} : (∀ x, e.isParameter x = false) → Mark.operator.of e = false →
    (e.isLambda = false → ∀ c ∈ e.children, Expr.Closed c) →
    (∀ s, e.select? = some s → Select.Closed s) → Expr.Closed e

/-- No variables and no operators are left in a select, also not in what it remembers. -/
inductive Select.Closed : Select → Prop
  | node {s : Select} : (∀ c ∈ s.clauses true, Expr.Closed c) →
    (∀ v ∈ s.inputs true, Select.Closed v) → Select.Closed s

end

/-! ## Where it is used -/

namespace Expr

/-- Whether the arguments of a node after the first one are functions of rows: those of an operator,
or those of an aggregate over a variable. -/
def applies : Expr → Option (Option String)
  | .call .queryable method none _ _ =>
    if (QueryOp.ofMethod? method).any (!·.takesValue) then some none else none
  | .call .enumerable method none (.parameter g _ :: _) _ =>
    if (AggregateKind.ofMethod? method).isSome then some (some g) else none
  | _ => none

/-- Of the children of a node the functions that it applies, each with the variable that it takes an
aggregate of. -/
def functionsOf : Option (Option String) → List Expr → List (Option String × Expr)
  | some none, _ :: args => args.map (none, ·)
  | some (some g), _ :: a :: _ => [(some g, a)]
  | _, _ => []

/-- Of the children of a node those that it does not apply. -/
def valuesOf : Option (Option String) → List Expr → List Expr
  | some none, start :: _ => [start]
  | some (some _), group :: _ :: rest => group :: rest
  | _, cs => cs

/-- The functions that `e` applies. -/
def functions (e : Expr) : List (Option String × Expr) := functionsOf e.applies e.children

/-- The other children of `e`. What is inside a lambda that is not applied counts for nothing. -/
def plainChildren (e : Expr) : List Expr := if e.isLambda then [] else valuesOf e.applies e.children

/-- Whether `e` is a variable or the key of one, in whose place there may be a lambda later. -/
def isPlaceholder (e : Expr) : Bool :=
  match e.unquote with
  | .parameter _ _ => true
  | .member (.parameter _ _) "Key" _ => true
  | _ => false

end Expr

/-- Variables are used only where `σ` says, functions are written as lambdas, and those of
aggregates over a variable use none that is declared by the lambda of the variable or inside it. -/
inductive Expr.Scoped : Variables → Expr → Prop
  | node {σ : Variables} {e : Expr} : (∀ x, e.isParameter x = true → σ.sees x = true) →
    (∀ s, e.select? = some s → s.Closed) → (∀ c ∈ e.plainChildren, Scoped σ c) →
    (∀ f ∈ e.functions, f.2.isPlaceholder = false) →
    (∀ f ∈ e.functions, f.2.unquote.isLambda = false → Scoped σ f.2) →
    (∀ f ∈ e.functions, ∀ p body, f.2.unquote = .lambda [p] body →
      Scoped ((σ.within f.1).declare p.name) body) → Scoped σ e

namespace Expr

section
variable {e c a : Expr} {f : Option String × Expr} {σ τ : Variables} {P : String → Prop}

theorem mem_of_functionsOf {how : Option (Option String)} {cs : List Expr}
    (h : f ∈ functionsOf how cs) : how = some f.1 ∧ f.2 ∈ cs := by
  unfold functionsOf at h
  split at h
  · obtain ⟨a, ha, rfl⟩ := List.mem_map.mp h
    exact ⟨rfl, List.mem_cons_of_mem _ ha⟩
  · obtain rfl := List.mem_singleton.mp h
    exact ⟨rfl, List.mem_cons_of_mem _ List.mem_cons_self⟩
  · cases h

theorem mem_of_valuesOf {how : Option (Option String)} {cs : List Expr} (h : c ∈ valuesOf how cs) :
    c ∈ cs := by
  unfold valuesOf at h
  split at h
  · obtain rfl := List.mem_singleton.mp h
    exact List.mem_cons_self
  · rcases List.mem_cons.mp h with rfl | h
    · exact List.mem_cons_self
    · exact List.mem_cons_of_mem _ (List.mem_cons_of_mem _ h)
  · exact h

theorem mem_children_of_plain (h : c ∈ e.plainChildren) : e.isLambda = false ∧ c ∈ e.children := by
  unfold plainChildren at h
  split at h
  · cases h
  · rename_i hlambda
    exact ⟨by simpa using hlambda, mem_of_valuesOf h⟩

/-- Every child is one of `functions` or of `plainChildren`. -/
theorem plain_or_function (hlambda : e.isLambda = false) (h : c ∈ e.children) :
    c ∈ e.plainChildren ∨ ∃ group, (group, c) ∈ e.functions := by
  unfold plainChildren functions
  rw [hlambda, if_neg Bool.false_ne_true]
  generalize e.applies = how
  generalize e.children = cs at h ⊢
  unfold valuesOf
  split
  · rcases List.mem_cons.mp h with rfl | h
    · exact .inl (List.mem_singleton_self c)
    · exact .inr ⟨none, List.mem_map.mpr ⟨c, h, rfl⟩⟩
  · rename_i g _ _ _
    rcases List.mem_cons.mp h with rfl | h
    · exact .inl List.mem_cons_self
    · rcases List.mem_cons.mp h with rfl | h
      · exact .inr ⟨some g, List.mem_singleton_self _⟩
      · exact .inl (List.mem_cons_of_mem _ h)
  · exact .inl h

theorem mem_children_of_function (h : f ∈ e.functions) : f.2 ∈ e.children :=
  (mem_of_functionsOf h).2

/-- The group of one of `functions` is the one that its node takes an aggregate of. -/
theorem applies_of_function (h : f ∈ e.functions) : e.applies = some f.1 := (mem_of_functionsOf h).1

theorem exists_parameter_of_applies {g : String} (h : e.applies = some (some g)) :
    ∃ t, .parameter g t ∈ e.children := by
  unfold applies at h
  split at h
  · split at h <;> cases h
  · split at h
    · cases h
      exact ⟨_, .head _⟩
    · cases h
  · cases h

theorem applies_withChildren_of_ne {cs : List Expr}
    (h : ∀ surface method receiver args t, e ≠ .call surface method receiver args t) :
    (e.withChildren cs).applies = none := by
  have hsame := e.sameNode_withChildren cs
  generalize e.withChildren cs = r at hsame ⊢
  cases hsame with
  | refl => cases e <;> first | rfl | exact absurd rfl (h _ _ _ _ _)
  | method | function => exact absurd rfl (h _ _ _ _ _)
  | _ => rfl

theorem applies_of_ne {method : String} {rest : List Expr} {t : Ty}
    (h : ∀ g u, c ≠ .parameter g u) :
    (Expr.call .enumerable method none (c :: rest) t).applies = none := by
  cases c <;> first | rfl | exact absurd rfl (h _ _)

/-- Without a variable only operators apply functions. -/
theorem operator_of_applies (h : e.applies = some none) : Mark.operator.of e = true := by
  unfold applies at h
  split at h
  · rfl
  · split at h <;> cases h
  · cases h

theorem isLambda_of_applies {g : Option String} (h : e.applies = some g) : e.isLambda = false := by
  cases e <;> first | rfl | cases h

theorem isLambda_withChildren (e : Expr) (cs : List Expr) :
    (e.withChildren cs).isLambda = e.isLambda :=
  withChildren_congr (f := isLambda) (fun h => by cases h <;> rfl) e cs

theorem eq_lambda_of_isLambda (h : e.isLambda = true) : ∃ ps body, e = .lambda ps body := by
  cases e <;> first | exact ⟨_, _, rfl⟩ | cases h

theorem shadows_of_isLambda (h : e.isLambda = false) (x : String) : e.shadows x = false := by
  cases e <;> first | rfl | cases h

theorem Scoped.parameter {x : String} (h : e.Scoped σ) (hx : e.isParameter x = true) :
    σ.sees x = true := by
  cases h with
  | node hparam _ _ _ _ _ => exact hparam x hx

theorem Scoped.plain (h : e.Scoped σ) (hc : c ∈ e.plainChildren) : c.Scoped σ := by
  cases h with
  | node _ _ hplain _ _ _ => exact hplain c hc

theorem Scoped.placeholder (h : e.Scoped σ) (hf : f ∈ e.functions) : f.2.isPlaceholder = false := by
  cases h with
  | node _ _ _ hplace _ _ => exact hplace f hf

theorem Scoped.select {s : Select} (h : e.Scoped σ) (hs : e.select? = some s) : s.Closed := by
  cases h with
  | node _ hselect _ _ _ _ => exact hselect s hs

/-- A node that is no variable and has no `functions`. -/
theorem Scoped.of_plain (hparam : ∀ x, e.isParameter x = true → σ.sees x = true)
    (happ : e.applies = none) (hselect : ∀ s, e.select? = some s → s.Closed)
    (hplain : ∀ c ∈ e.plainChildren, c.Scoped σ) : e.Scoped σ := by
  have hfunctions : e.functions = [] := by simp [functions, happ, functionsOf]
  exact .node hparam hselect hplain (by simp [hfunctions]) (by simp [hfunctions])
    (by simp [hfunctions])

/-- `Scoped` does not look into a lambda that is not applied. -/
theorem scoped_of_isLambda (h : e.unquote.isLambda = true) : e.Scoped σ := by
  induction e using unquote.induct with
  | case1 operand t ih =>
    refine .of_plain (fun x hx => by cases hx) rfl (fun s hs => by cases hs) fun c hc => ?_
    obtain rfl := List.mem_singleton.mp (mem_children_of_plain hc).2
    exact ih h
  | case2 e hquote =>
    rw [unquote] at h
    · obtain ⟨ps, body, rfl⟩ := eq_lambda_of_isLambda h
      refine .of_plain (fun x hx => by cases hx) rfl (fun s hs => by cases hs) fun c hc => ?_
      cases (mem_children_of_plain hc).1
    · exact hquote

/-! ## More variables -/

/-- What is free in the body of one of `functions` and not declared by it is free in the node. -/
theorem mem_freeNames_of_function {p : LambdaParam} {body : Expr} {y : String}
    (hf : f ∈ e.functions) (hlambda : f.2.unquote = .lambda [p] body) (hy : y ∈ body.freeNames) :
    y ∈ e.freeNames ∨ y = p.name := by
  by_cases hp : y = p.name
  · exact .inr hp
  · left
    have hne : e.isLambda = false := isLambda_of_applies (applies_of_function hf)
    refine mem_freeNames_of_child (mem_children_of_function hf) (shadows_of_isLambda hne y) ?_
    apply mem_freeNames_unquote.mp
    rw [hlambda]
    refine mem_freeNames_of_child (List.mem_singleton_self body) ?_ hy
    simpa [shadows] using Ne.symm hp

/-- `Scoped` holds where as much may be used of all variables that are used. -/
theorem Scoped.covers (h : e.Scoped σ) (hcovers : Variables.Covers P σ τ)
    (hfree : ∀ y ∈ e.freeNames, P y) : e.Scoped τ := by
  induction h generalizing P τ with
  | @node σ e hparam hselect _ hplace _ _ ihplain ihvalue ihbody =>
    have hkid : ∀ c ∈ e.children, e.isLambda = false → ∀ y ∈ c.freeNames, P y :=
      fun c hc hne y hy => hfree y (mem_freeNames_of_child hc (shadows_of_isLambda hne y) hy)
    refine .node (fun x hx => ?_) hselect (fun c hc => ?_) hplace (fun f hf hvalue => ?_)
      fun f hf p body hlambda => ?_
    · exact hcovers.sees x (hfree x (mem_freeNames_of_isParameter hx)) (hparam x hx)
    · obtain ⟨hne, hce⟩ := mem_children_of_plain hc
      exact ihplain c hc hcovers (hkid c hce hne)
    · have hne := isLambda_of_applies (applies_of_function hf)
      exact ihvalue f hf hvalue hcovers (hkid f.2 (mem_children_of_function hf) hne)
    · refine ihbody f hf p body hlambda ((hcovers.within fun g hg => ?_).declare p.name) fun y hy =>
        (mem_freeNames_of_function hf hlambda hy).imp (hfree y) id
      have happ := applies_of_function hf
      obtain ⟨t, hgroup⟩ := exists_parameter_of_applies (hg ▸ happ)
      exact hkid _ hgroup (isLambda_of_applies happ)
        g (mem_freeNames_of_isParameter (by simp [isParameter]))

end

end Expr

section
variable {e r c a b : Expr} {s : Select} {σ τ : Variables}

theorem Expr.Closed.isParameter (h : e.Closed) (x : String) : e.isParameter x = false := by
  cases h with
  | node hparam _ _ _ => exact hparam x

theorem Expr.Closed.operator (h : e.Closed) : Mark.operator.of e = false := by
  cases h with
  | node _ hmark _ _ => exact hmark

theorem Expr.Closed.child (h : e.Closed) (hlambda : e.isLambda = false) (hc : c ∈ e.children) :
    c.Closed := by
  cases h with
  | node _ _ hkids _ => exact hkids hlambda c hc

theorem Expr.Closed.select (h : e.Closed) (hs : e.select? = some s) : s.Closed := by
  cases h with
  | node _ _ _ hselect => exact hselect s hs

theorem Expr.Closed.pervasive :
    Pervasive (fun _ => True) Expr.Closed (fun _ => True) Select.Closed where
  toComposed := .of_node fun hk hs hp _ _ hc => .node hp (hk .operator) (fun _ => hc)
    (by rw [hs]; nofun)
  member_of_object h _ hm := h.child rfl (List.mem_map_of_mem hm)
  of_parts _ hc hv := .node hc hv
  clause h hc := by
    cases h with
    | node hclauses _ => exact hclauses _ hc
  input h hv := by
    cases h with
    | node _ hinputs => exact hinputs _ hv
  expr {e s} h he _ := by
    refine .node ?_ ?_ (fun _ c hc => ?_) fun s' hs' => ?_
    · cases e <;> first | exact fun _ => rfl | cases he
    · cases e <;> first | rfl | cases he
    · cases e <;> first | (cases he; done) | cases hc
    · rw [he] at hs'
      cases hs'
      exact h

/-- A `Closed` expression applies nothing. -/
theorem Expr.Closed.applies (h : e.Closed) : e.applies = none := by
  cases happ : e.applies with
  | none => rfl
  | some group =>
    have hne := Expr.isLambda_of_applies happ
    cases group with
    | none =>
      have hmark := Expr.operator_of_applies happ
      rw [h.operator] at hmark
      cases hmark
    | some g =>
      obtain ⟨t, hgroup⟩ := Expr.exists_parameter_of_applies happ
      have hparam := (h.child hne hgroup).isParameter g
      simp [Expr.isParameter] at hparam

/-- A `Closed` expression is `Scoped` anywhere. -/
theorem Expr.Closed.scoped (h : e.Closed) : e.Scoped σ := by
  induction e using Expr.childrenInduction with
  | step e ih =>
    refine .of_plain (fun x hx => ?_) h.applies (fun _ => h.select) fun c hc => ?_
    · rw [h.isParameter x] at hx
      cases hx
    · obtain ⟨hne, hce⟩ := Expr.mem_children_of_plain hc
      exact ih c hce (h.child hne hce)

/-! ## Rebuilding -/

/-- Whether `e` is neither a lambda nor a placeholder of one. -/
def Expr.isInert (e : Expr) : Bool := !e.unquote.isLambda && !e.isPlaceholder

/-- How a tree becomes another one: closed values take the place of variables, and variables with
names in `P` stay. A lambda that declares all the others again stays as it is. -/
inductive Expr.Rebuilt (P : String → Prop) (R : Expr → Expr → Prop) : Expr → Expr → Prop
  | value {e r : Expr} : e.isPlaceholder = true → r.Closed → Rebuilt P R e r
  | inert {e r : Expr} : e.unquote.isLambda = false → r.isInert = true →
    (∀ σ, e.Scoped σ → (∀ x, ¬ P x → σ.Closes x) → r.Closed) → Rebuilt P R e r
  | stays {ps : List LambdaParam} {body : Expr} :
    (∀ x, ¬ P x → (Expr.lambda ps body).shadows x = true) →
    Rebuilt P R (.lambda ps body) (.lambda ps body)
  | node {e : Expr} {cs : List Expr} : (∀ x, e.isParameter x = true → P x) →
    (∀ x, e.shadows x = true → P x) → List.Forall₂ R e.children cs →
      Rebuilt P R e (e.withChildren cs)

/-- `R` rebuilds every tree like that, one level at a time. -/
def Expr.Rebuilds (P : String → Prop) (R : Expr → Expr → Prop) : Prop :=
  ∀ e r, R e r → Rebuilt P R e r

/-- `isInert` is kept by `withChildren`, unless a member becomes the key of a variable. -/
theorem Expr.isInert_withChildren {cs : List Expr} (ha : a.isInert = true)
    (hquote : ∀ operand t, a ≠ .unary .quote operand t)
    (hmember : ∀ base name t, a = .member base name t → (a.withChildren cs).isInert = true) :
    (a.withChildren cs).isInert = true := by
  have hsame := a.sameNode_withChildren cs
  generalize a.withChildren cs = b at hsame hmember ⊢
  cases hsame with
  | refl => exact ha
  | member base _ name t => exact hmember base name t rfl
  | unary op operand _ t => cases op <;> first | rfl | exact absurd rfl (hquote operand t)
  | lambda => cases ha
  | _ => rfl

theorem Expr.eq_key_of_isPlaceholder {name : String} {t : Ty}
    (h : (Expr.member c name t).isPlaceholder = true) :
    ∃ g u, c = .parameter g u ∧ name = "Key" := by
  unfold isPlaceholder at h
  split at h
  · rename_i heq
    cases heq
  · rename_i heq
    cases heq
    exact ⟨_, _, rfl, rfl⟩
  · cases h

namespace Expr.Rebuilds

variable {P : String → Prop} {R : Expr → Expr → Prop}

/-- `R` puts no variables in. -/
theorem parameter (hR : Rebuilds P R) {g : String} {t : Ty} (h : R e (.parameter g t)) :
    e = .parameter g t ∧ P g := by
  have hstep := hR e _ h
  generalize hr : Expr.parameter g t = r at hstep
  cases hstep with
  | value _ hclosed =>
    have hparam := hclosed.isParameter g
    rw [← hr] at hparam
    simp [isParameter] at hparam
  | inert _ hinert _ =>
    rw [← hr] at hinert
    cases hinert
  | stays _ => cases hr
  | @node _ cs hparam _ _ =>
    have hsame : e.isParameter g = true := by
      rw [← isParameter_withChildren g e cs, ← hr]
      simp [isParameter]
    have hleaf : e.withChildren cs = e := by cases e <;> first | rfl | cases hsame
    exact ⟨hleaf.symm, hparam g hsame⟩

/-- `R` keeps a lambda a lambda with the same parameters. -/
theorem unquote_lambda (hR : Rebuilds P R) (h : R a b) {ps : List LambdaParam} {body : Expr}
    (ha : a.unquote = .lambda ps body) : ∃ body', b.unquote = .lambda ps body' ∧
      ((∀ p ∈ ps, P p.name) ∧ R body body' ∨ body' = body ∧ ∀ x, ¬ P x → ∃ p ∈ ps, p.name = x) := by
  induction a using unquote.induct generalizing b with
  | case1 operand t ih =>
    cases hR _ _ h with
    -- What can be replaced by a value is a variable or a key, and no lambda with quotes.
    | value hplace _ => simp [isPlaceholder, ha] at hplace
    | inert hvalue _ _ => simp [ha, isLambda] at hvalue
    | node _ _ hkids =>
      obtain ⟨c, cs, hc, hnil, rfl⟩ := List.forall₂_cons_left_iff.mp hkids
      cases hnil
      exact ih (b := c) hc ha
  | case2 a hquote =>
    rw [unquote] at ha
    · subst ha
      cases hR _ _ h with
      | value hplace _ => cases hplace
      | inert hvalue _ _ => cases hvalue
      | stays hall => exact ⟨body, rfl, .inr ⟨rfl, fun x hx => by simpa [shadows] using hall x hx⟩⟩
      | node _ hshadows hkids =>
        obtain ⟨c, cs, hc, hnil, rfl⟩ := List.forall₂_cons_left_iff.mp hkids
        cases hnil
        refine ⟨c, rfl, .inl ⟨fun p hp => hshadows p.name ?_, hc⟩⟩
        simpa [shadows] using ⟨p, hp, rfl⟩
    · exact hquote

/-- `R` makes no lambda of what `isInert`. -/
theorem inert (hR : Rebuilds P R) (h : R a b) (ha : a.isInert = true) : b.isInert = true := by
  induction a using unquote.induct generalizing b with
  | case1 operand t ih =>
    cases hR _ _ h with
    | value hplace _ => simp [isInert, hplace] at ha
    | inert _ hinert _ => exact hinert
    | node _ _ hkids =>
      obtain ⟨c, cs, hc, hnil, rfl⟩ := List.forall₂_cons_left_iff.mp hkids
      cases hnil
      exact ih (b := c) hc ha
  | case2 a hquote =>
    cases hR _ _ h with
    | value hplace _ => simp [isInert, hplace] at ha
    | inert _ hinert _ => exact hinert
    | stays _ => cases ha
    | node _ _ hkids =>
      refine isInert_withChildren ha hquote ?_
      rintro base name t rfl
      obtain ⟨c, cs, hc, hnil, rfl⟩ := List.forall₂_cons_left_iff.mp hkids
      cases hnil
      -- A member is the key of a variable only if it was one before.
      cases hplace : (Expr.member c name t).isPlaceholder with
      | false => simp [isInert, withChildren, hplace, unquote, isLambda]
      | true =>
        obtain ⟨g, u, rfl, rfl⟩ := eq_key_of_isPlaceholder hplace
        obtain ⟨rfl, -⟩ := hR.parameter hc
        cases ha

theorem isPlaceholder (hR : Rebuilds P R) (h : R a b) (ha : a.isPlaceholder = false) :
    b.isPlaceholder = false := by
  cases hlambda : a.unquote.isLambda with
  | true =>
    obtain ⟨ps, body, heq⟩ := eq_lambda_of_isLambda hlambda
    obtain ⟨body', heq', -⟩ := hR.unquote_lambda h heq
    simp [Expr.isPlaceholder, heq']
  | false =>
    have hinert := hR.inert h (by simp [isInert, hlambda, ha])
    simp only [isInert, Bool.and_eq_true, Bool.not_eq_true'] at hinert
    exact hinert.2

/-- A function was a function before, unless its place `isPlaceholder`. -/
theorem exists_body (hR : Rebuilds P R) (h : R a b) (ha : a.isPlaceholder = false) {p : LambdaParam}
    {body' : Expr} (hb : b.unquote = .lambda [p] body') : ∃ body, a.unquote = .lambda [p] body ∧
      (P p.name ∧ R body body' ∨ body' = body ∧ ∀ x, ¬ P x → p.name = x) := by
  cases hlambda : a.unquote.isLambda with
  | true =>
    obtain ⟨ps, body, heq⟩ := eq_lambda_of_isLambda hlambda
    obtain ⟨body'', heq', hbodies⟩ := hR.unquote_lambda h heq
    cases hb.symm.trans heq'
    exact ⟨body, heq, by simpa using hbodies⟩
  | false =>
    have hinert := hR.inert h (by simp [isInert, hlambda, ha])
    simp [isInert, hb, isLambda] at hinert

section
variable {cs : List Expr}

theorem applies_enumerable (hR : Rebuilds P R) {group : Expr} {rest : List Expr} {method : String}
    {t : Ty} (hc : R group c) :
    (Expr.call .enumerable method none (c :: cs) t).applies =
          (Expr.call .enumerable method none (group :: rest) t).applies ∧
        (∀ g, (Expr.call .enumerable method none (group :: rest) t).applies = some (some g) → P g) ∨
      (Expr.call .enumerable method none (c :: cs) t).applies = none ∧
        ∃ g, (Expr.call .enumerable method none (group :: rest) t).applies = some (some g) := by
  by_cases hparam : ∃ g u, c = .parameter g u
  · obtain ⟨g, u, rfl⟩ := hparam
    obtain ⟨rfl, hg⟩ := hR.parameter hc
    refine .inl ⟨rfl, fun g' h => ?_⟩
    simp only [Expr.applies] at h
    split at h
    · cases h
      exact hg
    · cases h
  · rw [applies_of_ne fun g u h => hparam ⟨g, u, h⟩]
    cases happ : (Expr.call .enumerable method none (group :: rest) t).applies with
    | none => exact .inl ⟨rfl, fun _ h => by cases h⟩
    | some group? =>
      cases group? with
      | some g => exact .inr ⟨rfl, g, rfl⟩
      | none =>
        unfold Expr.applies at happ
        split at happ
        · rename_i heq
          cases heq
        · split at happ <;> cases happ
        · cases happ

/-- `applies` is the same, or nothing any more: a value in the place of a variable is no aggregate
over it. -/
theorem applies (hR : Rebuilds P R) (hkids : List.Forall₂ R e.children cs) :
    (e.withChildren cs).applies = e.applies ∧ (∀ g, e.applies = some (some g) → P g) ∨
      (e.withChildren cs).applies = none ∧ ∃ g, e.applies = some (some g) := by
  cases e with
  | call surface method receiver args t =>
    cases receiver with
    | some receiver =>
      obtain ⟨c, cs, -, -, rfl⟩ := List.forall₂_cons_left_iff.mp hkids
      left
      cases surface <;> exact ⟨rfl, fun _ h => by cases h⟩
    | none =>
      cases surface with
      | queryable =>
        refine .inl ⟨rfl, fun g h => ?_⟩
        simp only [Expr.applies] at h
        split at h <;> cases h
      | enumerable =>
        cases args with
        | nil =>
          cases hkids
          exact .inl ⟨rfl, fun _ h => by cases h⟩
        | cons group rest =>
          obtain ⟨c, cs, hc, -, rfl⟩ := List.forall₂_cons_left_iff.mp hkids
          exact hR.applies_enumerable hc
      | _ => exact .inl ⟨rfl, fun _ h => by cases h⟩
  | _ =>
    left
    refine ⟨?_, fun _ h => by cases h⟩
    rw [applies_withChildren_of_ne fun surface method receiver args t h => by cases h]
    rfl

theorem functionsOf {how : Option (Option String)} {ds : List Expr} {f : Option String × Expr}
    (hkids : List.Forall₂ R cs ds) (hf : f ∈ Expr.functionsOf how ds) :
    ∃ a, (f.1, a) ∈ Expr.functionsOf how cs ∧ R a f.2 := by
  unfold Expr.functionsOf at hf
  split at hf
  · obtain ⟨a, as, -, has, rfl⟩ := List.forall₂_cons_right_iff.mp hkids
    obtain ⟨d, hd, rfl⟩ := List.mem_map.mp hf
    obtain ⟨b, hb, hr⟩ := List.exists_of_forall₂_right has hd
    exact ⟨b, List.mem_map.mpr ⟨b, hb, rfl⟩, hr⟩
  · obtain ⟨a, as, -, has, rfl⟩ := List.forall₂_cons_right_iff.mp hkids
    obtain ⟨b, bs, hb, -, rfl⟩ := List.forall₂_cons_right_iff.mp has
    obtain rfl := List.mem_singleton.mp hf
    exact ⟨b, List.mem_singleton_self _, hb⟩
  · cases hf

/-- The `functions` of a node come from functions it had. -/
theorem function (hR : Rebuilds P R) (hkids : List.Forall₂ R e.children cs)
    {f : Option String × Expr} (hf : f ∈ (e.withChildren cs).functions) :
    ∃ a, (f.1, a) ∈ e.functions ∧ R a f.2 ∧ ∀ g, f.1 = some g → P g := by
  have happ := applies_of_function hf
  rcases hR.applies hkids with ⟨hsame, hP⟩ | ⟨hnone, -⟩
  · unfold functions at hf
    rw [hsame, children_withChildren hkids.length_eq.symm] at hf
    obtain ⟨a, ha, hr⟩ := functionsOf hkids hf
    refine ⟨a, ha, hr, fun g hg => hP g ?_⟩
    rw [← hsame, happ, hg]
  · rw [hnone] at happ
    cases happ

/-- The `plainChildren` come from children, which may have been functions before. -/
theorem plain (hkids : List.Forall₂ R e.children cs) (hc : c ∈ (e.withChildren cs).plainChildren) :
    ∃ a, R a c ∧ (a ∈ e.plainChildren ∨ ∃ group, (group, a) ∈ e.functions) := by
  obtain ⟨hlambda, hc⟩ := mem_children_of_plain hc
  rw [children_withChildren hkids.length_eq.symm] at hc
  obtain ⟨a, ha, hr⟩ := List.exists_of_forall₂_right hkids hc
  rw [isLambda_withChildren] at hlambda
  exact ⟨a, hr, plain_or_function hlambda ha⟩

end

/-- A `Scoped` tree is still one when it has been rebuilt, also where the variables that are gone
may not be used. -/
theorem keeps_scoped (hR : Rebuilds P R) (h : e.Scoped σ) (hcovers : Variables.Covers P σ τ)
    (hcloses : ∀ x, ¬ P x → σ.Closes x) (hr : R e r) : r.Scoped τ := by
  induction h generalizing τ r with
  | @node σ e hparam hselect hplain hplace hvalue hbody ihplain ihvalue ihbody =>
    have hself : e.Scoped σ := .node hparam hselect hplain hplace hvalue hbody
    cases hR e r hr with
    | value _ hclosed => exact hclosed.scoped
    | inert _ _ hclosed => exact (hclosed σ hself hcloses).scoped
    | stays _ => exact scoped_of_isLambda rfl
    | @node _ cs hP _ hkids =>
      -- A function that is not applied any more is only a value: if it is a lambda, its body does
      -- not matter.
      have hunapplied : ∀ group a b, (group, a) ∈ e.functions → R a b → b.Scoped τ := by
        intro group a b ha hb
        cases hlambda : a.unquote.isLambda with
        | false => exact ihvalue (group, a) ha hlambda hcovers hcloses hb
        | true =>
          obtain ⟨ps, body, heq⟩ := eq_lambda_of_isLambda hlambda
          obtain ⟨body', heq', -⟩ := hR.unquote_lambda hb heq
          exact scoped_of_isLambda (by rw [heq']; rfl)
      refine .node (fun x hx => ?_) (fun s hs => ?_) (fun c hc => ?_) (fun f hf => ?_)
        (fun f hf hlambda => ?_) fun f hf p body' hlambda' => ?_
      · rw [isParameter_withChildren] at hx
        exact hcovers.sees x (hP x hx) (hparam x hx)
      · rw [select?_withChildren] at hs
        exact hselect s hs
      · obtain ⟨a, hac, ha | ⟨group, ha⟩⟩ := plain hkids hc
        · exact ihplain a ha hcovers hcloses hac
        · exact hunapplied group a c ha hac
      · obtain ⟨a, ha, hab, -⟩ := hR.function hkids hf
        exact hR.isPlaceholder hab (hplace (f.1, a) ha)
      · obtain ⟨a, ha, hab, -⟩ := hR.function hkids hf
        exact hunapplied f.1 a f.2 ha hab
      · obtain ⟨a, ha, hab, hg⟩ := hR.function hkids hf
        have hdeclared := (hcovers.within hg).declare p.name
        obtain ⟨body, heq, hbodies⟩ := hR.exists_body hab (hplace (f.1, a) ha) hlambda'
        rcases hbodies with ⟨hp, hbodies⟩ | ⟨rfl, hall⟩
        · refine ihbody (f.1, a) ha p body heq (hdeclared.mono fun y => .inl) (fun x hx => ?_)
            hbodies
          exact ((hcloses x hx).within f.1).declare fun hxp => hx (hxp ▸ hp)
        · -- The parameter hides all variables that are gone, so nothing is missing.
          refine (hbody (f.1, a) ha p body' heq).covers (P := fun _ => True)
            (hdeclared.mono fun y _ => ?_) fun _ _ => trivial
          by_cases hy : P y
          · exact .inl hy
          · exact .inr (hall y hy).symm

end Expr.Rebuilds

end

end QueryTree
