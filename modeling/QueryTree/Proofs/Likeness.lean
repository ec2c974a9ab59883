import Mathlib.Data.List.Forall2
import QueryTree.Proofs.Apart
import QueryTree.Proofs.Relabel

/-!
# Trees that are alike

Trees are `Expr.Alike` if they differ in the names of the variables of their lambdas and in quotes
around lambdas only. A `Pairing` says which variables stand for the same, and grows under lambdas.
What a select is made of has been bound already, so a base pairing is fixed for all selects.
-/

namespace QueryTree

/-! ## Pairings -/

/-- Which variables of two trees stand for the same. -/
abbrev Pairing := String → String → Prop

namespace Pairing

/-- Whatever `Γ` pairs, `Δ` pairs. -/
def Below (Γ Δ : Pairing) : Prop := ∀ y y', Γ y y' → Δ y y'

/-- Inside two lambdas, parameters at the same place are paired, and variables around them that
neither declares. -/
def under (Γ : Pairing) (ps ps' : List LambdaParam) : Pairing := fun y y' =>
  match ps.findIdx? (·.name == y), ps'.findIdx? (·.name == y') with
  | some i, some j => i = j
  | none, none => Γ y y'
  | _, _ => False

/-- Two lists of parameters of the same length, inside which `B` still holds. -/
structure Declares (B Γ : Pairing) (ps ps' : List LambdaParam) : Prop where
  length : ps.length = ps'.length
  base : B.Below (Γ.under ps ps')

section
variable {B Γ Δ : Pairing} {ps ps' : List LambdaParam} {y y' : String}

theorem under_iff : Γ.under ps ps' y y' ↔
    (∃ i, ps.findIdx? (·.name == y) = some i ∧ ps'.findIdx? (·.name == y') = some i) ∨
      ps.any (·.name == y) = false ∧ ps'.any (·.name == y') = false ∧ Γ y y' := by
  rw [← List.findIdx?_isSome, ← List.findIdx?_isSome]
  unfold under
  cases ps.findIdx? (·.name == y) <;> cases ps'.findIdx? (·.name == y') <;> simp [eq_comm]

/-- A variable paired by `under` is declared by both lambdas or by none. -/
theorem under_declared (h : Γ.under ps ps' y y') :
    ps.any (·.name == y) = ps'.any (·.name == y') := by
  rw [← List.findIdx?_isSome, ← List.findIdx?_isSome]
  unfold under at h
  cases hy : ps.findIdx? (·.name == y) <;> cases hy' : ps'.findIdx? (·.name == y') <;> simp_all

theorem of_under (h : Γ.under ps ps' y y') (hy : ps.any (·.name == y) = false) : Γ y y' := by
  rcases under_iff.mp h with ⟨i, hi, -⟩ | ⟨-, -, hΓ⟩
  · rw [← List.findIdx?_isSome, hi] at hy
    cases hy
  · exact hΓ

theorem of_under_right (h : Γ.under ps ps' y y') (hy : ps'.any (·.name == y') = false) : Γ y y' :=
  of_under h ((under_declared h).trans hy)

/-- A pairing `under` lambdas is the one around, for variables not declared there. -/
theorem under_imp (h : Γ.under ps ps' y y') (hΓ : ps.any (·.name == y) = false →
    ps'.any (·.name == y') = false → Γ y y' → Δ y y') : Δ.under ps ps' y y' := by
  rcases under_iff.mp h with hbound | ⟨hy, hy', hfree⟩
  · exact under_iff.mpr (.inl hbound)
  · exact under_iff.mpr (.inr ⟨hy, hy', hΓ hy hy' hfree⟩)

theorem Declares.mono (h : B.Declares Γ ps ps') (hΔ : B.Below Δ) : B.Declares Δ ps ps' where
  length := h.length
  base y y' hB := under_imp (h.base y y' hB) fun _ _ _ => hΔ y y' hB

end

end Pairing

/-! ## Alike -/

namespace Expr

/-- Whether a node has neither a variable nor lambda parameters nor a select of its own. -/
def isPlain : Expr → Bool
  | .parameter _ _ | .lambda _ _ | .select _ | .subquery _ => false
  | _ => true

/-- Whether the children of a node must have the same types: a lambda as such a child is not to be
quoted, as the quotes keep a type that the lambda may lose. -/
def isStrict : Expr → Bool
  | .call _ _ _ _ _ | .binary _ _ _ _ | .custom _ _ => false
  | _ => true

/-- Whether an expression has no term, being a lambda with or without quotes or an item of one. -/
def isDead : Expr → Bool
  | .unary .quote operand _ => operand.isDead
  | .binary .arrayIndex sequence _ _ => sequence.isDead
  | .lambda _ _ => true
  | _ => false
termination_by structural e => e

end Expr

mutual

/-- Two expressions that are alike, where `Γ` pairs the variables around them. Only where it is not
strict, lambdas may be quoted, and items of them, which have no term, may be of other types. -/
inductive Expr.Alike (B : Pairing) : Bool → Pairing → Expr → Expr → Prop
  | node {strict : Bool} {Γ : Pairing} {e : Expr} {cs : List Expr} : e.isPlain = true →
    cs.length = e.children.length → (∀ p ∈ e.children.zip cs, Expr.Alike B e.isStrict Γ p.1 p.2) →
    Expr.Alike B strict Γ e (e.withChildren cs)
  | parameter {strict : Bool} {Γ : Pairing} {x x' : String} {t : Ty} : Γ x x' →
    Expr.Alike B strict Γ (.parameter x t) (.parameter x' t)
  | lambda {strict : Bool} {Γ : Pairing} {ps ps' : List LambdaParam} {body body' : Expr} :
    B.Declares Γ ps ps' → Expr.Alike B true (Γ.under ps ps') body body' →
    Expr.Alike B strict Γ (.lambda ps body) (.lambda ps' body')
  | select {strict : Bool} {Γ : Pairing} {s s' : Select} : Select.Alike B s s' →
    Expr.Alike B strict Γ (.select s) (.select s')
  | subquery {strict : Bool} {Γ : Pairing} {s s' : Select} : Select.Alike B s s' →
    Expr.Alike B strict Γ (.subquery s) (.subquery s')
  | quoted {Γ : Pairing} {e e' body body' : Expr} {ps ps' : List LambdaParam} :
    e.unquote = .lambda ps body → e'.unquote = .lambda ps' body' → B.Declares Γ ps ps' →
    Expr.Alike B true (Γ.under ps ps') body body' → Expr.Alike B false Γ e e'
  | indexed {Γ : Pairing} {l l' r r' : Expr} {t t' : Ty} : l.isDead = true →
    Expr.Alike B false Γ l l' → Expr.Alike B false Γ r r' →
    Expr.Alike B false Γ (.binary .arrayIndex l r t) (.binary .arrayIndex l' r' t')

/-- Two selects that are alike, also in what they remember. -/
inductive Select.Alike (B : Pairing) : Select → Select → Prop
  | mk {s s' : Select} : s.scope = s'.scope → s.element = s'.element → s.single = s'.single →
    RowSource.Alike B s.source s'.source → Projection.Alike B s.projection s'.projection →
    Option.Rel (Expr.Alike B true B) s.filter s'.filter → Option.Rel (RowGroup.Alike B)
      s.group s'.group →
    List.Forall₂ (SortKey.Alike B) s.orderings s'.orderings →
    Option.Rel (Expr.Alike B false B) s.take s'.take → Option.Rel (Expr.Alike B false B)
      s.skip s'.skip →
    Option.Rel (GroupKey.Alike B) s.groupKey s'.groupKey → Select.Alike B s s'

inductive RowSource.Alike (B : Pairing) : RowSource → RowSource → Prop
  | table (name : String) : RowSource.Alike B (.table name) (.table name)
  | subquery {s s' : Select} : Select.Alike B s s' → RowSource.Alike B (.subquery s) (.subquery s')

inductive Projection.Alike (B : Pairing) : Projection → Projection → Prop
  | all : Projection.Alike B .all .all
  | expr {e e' : Expr} : Expr.Alike B true B e e' → Projection.Alike B (.expr e) (.expr e')
  | fields {fs fs' : List OutputField} : List.Forall₂ (OutputField.Alike B) fs fs' →
    Projection.Alike B (.fields fs) (.fields fs')
  | count {c c' : Option Expr} : Option.Rel (Expr.Alike B true B) c c' →
    Projection.Alike B (.count c) (.count c')
  | aggregation {kind : AggregateKind} {e e' : Expr} {label : String} : Expr.Alike B true B e e' →
    Projection.Alike B (.aggregation kind e label) (.aggregation kind e' label)

inductive OutputField.Alike (B : Pairing) : OutputField → OutputField → Prop
  | mk {e e' : Expr} {label : Option String} : Expr.Alike B true B e e' →
    OutputField.Alike B ⟨e, label⟩ ⟨e', label⟩

inductive RowGroup.Alike (B : Pairing) : RowGroup → RowGroup → Prop
  | all : RowGroup.Alike B .all .all
  | keys {es es' : List Expr} : List.Forall₂ (Expr.Alike B true B) es es' →
    RowGroup.Alike B (.keys es) (.keys es')

inductive SortKey.Alike (B : Pairing) : SortKey → SortKey → Prop
  | mk {e e' : Expr} {descending : Bool} : Expr.Alike B true B e e' →
    SortKey.Alike B ⟨e, descending⟩ ⟨e', descending⟩

inductive GroupKey.Alike (B : Pairing) : GroupKey → GroupKey → Prop
  | mk {inner inner' outer outer' values values' : Expr} {source source' : Select} :
    Expr.Alike B true B inner inner' → Expr.Alike B true B outer outer' →
      Select.Alike B source source' →
    Expr.Alike B true B values values' →
    GroupKey.Alike B ⟨inner, outer, source, values⟩ ⟨inner', outer', source', values'⟩

end

section
variable {B Γ Δ : Pairing} {strict : Bool} {e e' c : Expr} {cs : List Expr} {s s' : Select}
  {x x' : String}

namespace Expr

theorem isPlain_withChildren (e : Expr) (cs : List Expr) :
    (e.withChildren cs).isPlain = e.isPlain :=
  withChildren_congr (f := isPlain) (fun h => by cases h <;> rfl) e cs

theorem isStrict_withChildren (e : Expr) (cs : List Expr) :
    (e.withChildren cs).isStrict = e.isStrict :=
  withChildren_congr (f := isStrict) (fun h => by cases h <;> rfl) e cs

theorem withChildren_withChildren {ds : List Expr} (hcs : cs.length = e.children.length)
    (hds : ds.length = e.children.length) :
    (e.withChildren cs).withChildren ds = e.withChildren ds := by
  cases e with
  | call surface method receiver args t =>
    cases receiver with
    | none => rfl
    | some r =>
      rcases cs with _ | ⟨c, cs⟩
      · simp [children] at hcs
      · rcases ds with _ | ⟨d, ds⟩
        · simp [children] at hds
        · rfl
  | newObject t members =>
    have hnames : ((members.map (·.1)).zip cs).map (·.1) = members.map (·.1) :=
      List.map_fst_zip (by simp [children] at hcs; simp [hcs])
    simp only [withChildren, hnames]
  | groupAggregate kind selector t =>
    cases selector with
    | none =>
      rw [List.length_eq_zero_iff.mp hcs]
      rfl
    | some r =>
      obtain ⟨c, rfl⟩ := List.length_eq_one_iff.mp hcs
      obtain ⟨d, rfl⟩ := List.length_eq_one_iff.mp hds
      rfl
  | binary op l r t =>
    rcases cs with _ | ⟨c, _ | ⟨c', _ | ⟨c'', cs⟩⟩⟩ <;> simp [children] at hcs
    rcases ds with _ | ⟨d, _ | ⟨d', _ | ⟨d'', ds⟩⟩⟩ <;> simp [children] at hds
    rfl
  | newArray | construct => rfl
  | member | unary | lambda | custom =>
    obtain ⟨c, rfl⟩ := List.length_eq_one_iff.mp hcs
    obtain ⟨d, rfl⟩ := List.length_eq_one_iff.mp hds
    rfl
  | _ =>
    rw [List.length_eq_zero_iff.mp hcs]
    rfl

theorem sizeOf_unquote_le (e : Expr) : sizeOf e.unquote ≤ sizeOf e := by
  induction e using unquote.induct with
  | case1 operand t ih =>
    have hlt := sizeOf_lt_of_mem_children (e := .unary .quote operand t)
      (List.mem_singleton_self operand)
    simp only [unquote]
    omega
  | case2 e hquote => exact Nat.le_of_eq (congrArg sizeOf (by rw [unquote]; exact hquote))

theorem sizeOf_body_lt {ps : List LambdaParam} {body : Expr} (h : e.unquote = .lambda ps body) :
    sizeOf body < sizeOf e := by
  have hle := e.sizeOf_unquote_le
  have hlt := sizeOf_lt_of_mem_children (e := .lambda ps body) (List.mem_singleton_self body)
  rw [h] at hle
  omega

/-! ## Children -/

namespace Alike

theorem of_children (hplain : e.isPlain = true)
    (h : List.Forall₂ (Expr.Alike B e.isStrict Γ) e.children cs) :
    Expr.Alike B strict Γ e (e.withChildren cs) := by
  obtain ⟨hlen, hkids⟩ := List.forall₂_iff_zip.mp h
  exact .node hplain hlen.symm fun p hp => hkids hp

theorem leaf (hplain : e.isPlain = true) (h : e.children = []) : Expr.Alike B strict Γ e e := by
  have hnode : Expr.Alike B strict Γ e (e.withChildren []) := by
    apply of_children hplain
    rw [h]
    exact .nil
  rw [← h, withChildren_children] at hnode
  exact hnode

/-- What is true of two nodes as soon as it is of their children, and of lambdas with or without
quotes as soon as it is of their bodies, is true of all that are `Alike`. -/
@[elab_as_elim]
theorem ind
    {motive : (strict : Bool) → (Γ : Pairing) → (e e' : Expr) → Expr.Alike B strict Γ e e' → Prop}
    (node : ∀ {strict Γ e cs h}, e.isPlain = true →
      List.Forall₂ (fun c c' => ∃ h, motive e.isStrict Γ c c' h) e.children cs →
      motive strict Γ e (e.withChildren cs) h)
    (parameter : ∀ {strict} {Γ : Pairing} {x x' t h}, Γ x x' → motive strict Γ (.parameter x t)
      (.parameter x' t) h)
    (lambda : ∀ {strict Γ ps ps' body body' h}, B.Declares Γ ps ps' → ∀ hbody,
      motive true (Γ.under ps ps') body body' hbody →
      motive strict Γ (.lambda ps body) (.lambda ps' body') h)
    (select : ∀ {strict Γ} {s s' : Select} {h}, s.Alike B s' → motive strict Γ (.select s)
      (.select s') h)
    (subquery : ∀ {strict Γ} {s s' : Select} {h}, s.Alike B s' → motive strict Γ (.subquery s)
      (.subquery s') h)
    (quoted : ∀ {Γ e e' ps ps' body body' h}, e.unquote = .lambda ps body →
      e'.unquote = .lambda ps' body' → B.Declares Γ ps ps' →
      ∀ hbody, motive true (Γ.under ps ps') body body' hbody → motive false Γ e e' h)
    (indexed : ∀ {Γ l l' r r' t t' h}, l.isDead = true → ∀ hl, motive false Γ l l' hl → ∀ hr,
      motive false Γ r r' hr → motive false Γ (.binary .arrayIndex l r t)
      (.binary .arrayIndex l' r' t') h) {strict : Bool} {Γ : Pairing} {e e' : Expr}
    (h : Expr.Alike B strict Γ e e') : motive strict Γ e e' h := by
  -- By the size of the first tree: the body of a quoted lambda is none of its children.
  cases h with
  | node hplain hlen hkids =>
    refine node hplain (List.forall₂_iff_zip.mpr ⟨hlen.symm, fun {c c'} hp => ⟨hkids _ hp, ?_⟩⟩)
    have hlt := sizeOf_lt_of_mem_children (List.of_mem_zip hp).1
    exact ind node parameter lambda select subquery quoted indexed (hkids _ hp)
  | parameter hx => exact parameter hx
  | lambda hB hbody =>
    exact lambda hB hbody (ind node parameter lambda select subquery quoted indexed hbody)
  | select hs => exact select hs
  | subquery hs => exact subquery hs
  | quoted he he' hB hbody =>
    have hlt := sizeOf_body_lt he
    exact quoted he he' hB hbody (ind node parameter lambda select subquery quoted indexed hbody)
  | indexed hl hleft hright =>
    exact indexed hl hleft (ind node parameter lambda select subquery quoted indexed hleft) hright
      (ind node parameter lambda select subquery quoted indexed hright)
termination_by sizeOf e
decreasing_by all_goals (subst_vars; first | assumption | simp +arith)

theorem loose (h : Expr.Alike B true Γ e e') : Expr.Alike B strict Γ e e' := by
  cases h with
  | node hplain hlen hkids => exact .node hplain hlen hkids
  | parameter hx => exact .parameter hx
  | lambda hps hbody => exact .lambda hps hbody
  | select hs => exact .select hs
  | subquery hs => exact .subquery hs

end Alike

/-! ## Variables -/

theorem shadows_of_isPlain (h : e.isPlain = true) (x : String) : e.shadows x = false := by
  cases e <;> first | rfl | cases h

theorem isParameter_of_isPlain (h : e.isPlain = true) (x : String) : e.isParameter x = false := by
  cases e <;> first | rfl | cases h

namespace Alike

/-- `Alike` depends on the pairs of free variables only. -/
theorem weaken (h : Expr.Alike B strict Γ e e') (hΔ : B.Below Δ)
    (hfree : ∀ y ∈ e.freeNames, ∀ y', Γ y y' → Δ y y') : Expr.Alike B strict Δ e e' := by
  -- Under lambdas the hypothesis is about the variables that are not declared there.
  have hunder : ∀ {Γ Δ : Pairing} {n body : Expr} {ps ps' : List LambdaParam},
      n.unquote = .lambda ps body →
        (∀ y ∈ n.freeNames, ∀ y', Γ y y' → Δ y y') →
        ∀ y ∈ body.freeNames, ∀ y', Γ.under ps ps' y y' → Δ.under ps ps' y y' := by
    intro Γ Δ n body ps ps' hn hfree y hy y' hyy'
    exact Pairing.under_imp hyy' fun hps _ hΓ => hfree y (mem_freeNames_of_body hn hy hps) y' hΓ
  induction h using Alike.ind generalizing Δ with
  | @node strict Γ e cs _ hplain hkids =>
    apply of_children hplain
    rw [List.forall₂_iff_zip] at hkids ⊢
    refine ⟨hkids.1, fun hp => ?_⟩
    obtain ⟨-, ih⟩ := hkids.2 hp
    refine ih hΔ fun y hy => hfree y ?_
    exact mem_freeNames_of_child (List.of_mem_zip hp).1 (shadows_of_isPlain hplain y) hy
  | @parameter _ _ x x' t _ hx => exact .parameter (hfree x (by simp [freeNames]) x' hx)
  | lambda hps _ ih => exact .lambda (hps.mono hΔ) (ih (hps.mono hΔ).base (hunder rfl hfree))
  | select hs => exact .select hs
  | subquery hs => exact .subquery hs
  | quoted he he' hps _ ih =>
    exact .quoted he he' (hps.mono hΔ) (ih (hps.mono hΔ).base (hunder he hfree))
  | @indexed Γ l l' r r' t t' _ hl _ ihl _ ihr =>
    refine .indexed hl (ihl hΔ fun y hy => hfree y ?_) (ihr hΔ fun y hy => hfree y ?_)
    · exact mem_freeNames_of_child (c := l) (by simp [children]) rfl hy
    · exact mem_freeNames_of_child (c := r) (by simp [children]) rfl hy

theorem mono (h : Expr.Alike B strict Γ e e') (hB : B.Below Δ) (hΓ : Γ.Below Δ) :
    Expr.Alike B strict Δ e e' :=
  h.weaken hB fun y _ => hΓ y

/-- A variable free in `e` stands for something in `e'`. -/
theorem exists_right (h : Expr.Alike B strict Γ e e') (hx : x ∈ e.freeNames) : ∃ x', Γ x x' := by
  induction h using Alike.ind with
  | node hplain hkids =>
    rcases mem_freeNames.mp hx with hparam | ⟨-, c, hc, hxc⟩
    · rw [isParameter_of_isPlain hplain] at hparam
      cases hparam
    · obtain ⟨c', -, -, ih⟩ := List.exists_of_forall₂_right hkids.flip hc
      exact ih hxc
  | @parameter _ _ y y' _ _ hy =>
    obtain rfl : x = y := by simpa [freeNames] using hx
    exact ⟨y', hy⟩
  -- What the lambda declares is not free in it, so the pair is one of those around.
  | lambda hps _ ih =>
    obtain ⟨hbody, hdeclared⟩ := mem_freeNames_body rfl hx
    obtain ⟨x', hx'⟩ := ih hbody
    exact ⟨x', Pairing.of_under hx' hdeclared⟩
  | select hs => cases hx
  | subquery hs => cases hx
  | quoted he he' hps _ ih =>
    obtain ⟨hbody, hdeclared⟩ := mem_freeNames_body he hx
    obtain ⟨x', hx'⟩ := ih hbody
    exact ⟨x', Pairing.of_under hx' hdeclared⟩
  | indexed hl _ ihl _ ihr =>
    rcases List.mem_append.mp hx with hx | hx
    · exact ihl hx
    · exact ihr hx

/-- A variable free in `e'` stands for something in `e`. -/
theorem exists_left (h : Expr.Alike B strict Γ e e') (hx : x' ∈ e'.freeNames) : ∃ x, Γ x x' := by
  induction h using Alike.ind with
  | @node _ _ e cs _ hplain hkids =>
    rw [mem_freeNames, isParameter_withChildren, isParameter_of_isPlain hplain,
      children_withChildren hkids.length_eq.symm] at hx
    obtain ⟨-, c', hc', hxc⟩ := hx.resolve_left Bool.false_ne_true
    obtain ⟨c, -, -, ih⟩ := List.exists_of_forall₂_right hkids hc'
    exact ih hxc
  | @parameter _ _ y y' _ _ hy =>
    obtain rfl : x' = y' := by simpa [freeNames] using hx
    exact ⟨y, hy⟩
  | lambda hps _ ih =>
    obtain ⟨hbody, hdeclared⟩ := mem_freeNames_body rfl hx
    obtain ⟨x, hx⟩ := ih hbody
    exact ⟨x, Pairing.of_under_right hx hdeclared⟩
  | select hs => cases hx
  | subquery hs => cases hx
  | quoted he he' hps _ ih =>
    obtain ⟨hbody, hdeclared⟩ := mem_freeNames_body he' hx
    obtain ⟨x, hx⟩ := ih hbody
    exact ⟨x, Pairing.of_under_right hx hdeclared⟩
  | indexed hl _ ihl _ ihr =>
    rcases List.mem_append.mp hx with hx | hx
    · exact ihl hx
    · exact ihr hx

end Alike

/-! ## Types -/

theorem ty_withChildren (hplain : e.isPlain = true) (cs : List Expr) :
    (e.withChildren cs).ty = e.ty := by
  have hsame := e.sameNode_withChildren cs
  generalize e.withChildren cs = e' at hsame
  cases hsame <;> first | rfl | cases hplain

theorem Alike.fieldName_eq (h : Expr.Alike B true Γ e e') (label : Option String) :
    OutputField.name ⟨e, label⟩ = OutputField.name ⟨e', label⟩ := by
  cases label with
  | some label => rfl
  | none =>
    cases h with
    | node hplain hlen hkids =>
      have hname := withChildren_congr (f := fun e => OutputField.name ⟨e, none⟩)
        (fun h => by cases h <;> rfl)
      exact (hname e _).symm
    | _ => rfl

end Expr

/-- `Alike` with `strict` keeps the type. -/
theorem ty_alike : (∀ e : Expr, ∀ Γ e', Expr.Alike B true Γ e e' → e.ty = e'.ty) ∧
    ∀ s : Select, ∀ s', Select.Alike B s s' → s.projectedType = s'.projectedType := by
  apply deepInduction
  · intro e hkids hselect Γ e' h
    cases h with
    | node hplain hlen _ => exact (Expr.ty_withChildren hplain _).symm
    | parameter hx => rfl
    | @lambda _ _ _ _ body body' hps hbody =>
      show body.ty = body'.ty
      exact hkids body (List.mem_singleton_self body) _ body' hbody
    | select hs => exact congrArg Ty.queryable (hselect _ rfl _ hs)
    | subquery hs => exact congrArg Ty.array (hselect _ rfl _ hs)
  · intro s hclauses hinputs s' h
    have hp : ∀ e ∈ s.projection.exprs, ∀ Γ e', Expr.Alike B true Γ e e' → e.ty = e'.ty :=
      fun e he => hclauses e (by simp [Select.clauses, he])
    have hty : ∀ s : Select, s.projectedType = s.projection.ty s.element := by
      rintro ⟨⟩
      rfl
    obtain ⟨-, helement, -, -, hprojection, -, -, -, -, -, -⟩ := h
    -- Only what is put out counts, and the type of the rows that are read.
    rw [hty, hty, ← helement]
    generalize s.projection = p at hp hprojection
    generalize s'.projection = p' at hprojection
    cases hprojection with
    | all => rfl
    | expr he => exact hp _ (by simp [Projection.exprs]) _ _ he
    | count hc => rfl
    | aggregation he =>
      have hty := hp _ (by simp [Projection.exprs]) _ _ he
      simp only [Projection.ty, hty]
    | @fields fs fs' hfs =>
      have htypes : fs.map (fun f => (f.name, f.expr.ty)) = fs'.map fun f =>
          (f.name, f.expr.ty) := by
        rw [← List.forall₂_eq_eq_eq, List.forall₂_map_left_iff, List.forall₂_map_right_iff]
        rw [List.forall₂_iff_zip] at hfs ⊢
        refine ⟨hfs.1, fun hmem => ?_⟩
        have hin := (List.of_mem_zip hmem).1
        cases hfs.2 hmem with
        | @mk e e' label he =>
          have hty := hp e (List.mem_map.mpr ⟨_, hin, rfl⟩) _ _ he
          simp only [he.fieldName_eq, hty]
      simp only [Projection.ty, OutputField.types_eq, htypes]

theorem Expr.Alike.ty_eq (h : Expr.Alike B true Γ e e') : e.ty = e'.ty := ty_alike.1 e Γ e' h

theorem Select.Alike.projectedType_eq (h : s.Alike B s') : s.projectedType = s'.projectedType :=
  ty_alike.2 s s' h

namespace GroupKey.Alike

variable {key key' : GroupKey}

theorem inner (h : key.Alike B key') : key.inner.Alike B true B key'.inner := by
  cases h
  assumption

theorem outer (h : key.Alike B key') : key.outer.Alike B true B key'.outer := by
  cases h
  assumption

theorem source (h : key.Alike B key') : key.source.Alike B key'.source := by
  cases h
  assumption

theorem values (h : key.Alike B key') : key.values.Alike B true B key'.values := by
  cases h
  assumption

end GroupKey.Alike

/-! ## Shapes -/

namespace Expr

/-- A lambda with quotes is neither a select nor a variable. -/
theorem quote_or_lambda_of_unquote (h : e.unquote.isLambda = true) :
    (∃ operand t, e = .unary .quote operand t ∧ operand.unquote.isLambda = true) ∨
      ∃ ps body, e = .lambda ps body := by
  cases e with
  | unary op operand t =>
    cases op with
    | quote => exact .inl ⟨operand, t, rfl, h⟩
    | _ => cases h
  | lambda ps body => exact .inr ⟨ps, body, rfl⟩
  | _ => cases h

/-- What lambdas have and quotes keep is true of every quoted lambda. -/
theorem unquoteInduction {P : Expr → Prop} (h : e.unquote.isLambda = true)
    (quote : ∀ operand t, P operand → P (.unary .quote operand t))
    (lambda : ∀ ps body, P (.lambda ps body)) : P e := by
  induction e using unquote.induct with
  | case1 operand t ih => exact quote operand t (ih h)
  | case2 e hquote =>
    rcases quote_or_lambda_of_unquote h with ⟨operand, t, rfl, -⟩ | ⟨ps, body, rfl⟩
    · exact absurd rfl (hquote operand t)
    · exact lambda ps body

theorem isDead_of_unquote (h : e.unquote.isLambda = true) : e.isDead = true :=
  unquoteInduction (P := fun e => e.isDead = true) h (fun _ _ => id) fun _ _ => rfl

theorem isParameter_of_unquote (h : e.unquote.isLambda = true) (x : String) :
    e.isParameter x = false := by
  rcases quote_or_lambda_of_unquote h with ⟨operand, t, rfl, -⟩ | ⟨ps, body, rfl⟩ <;> rfl

theorem isLambda_of_eq {ps : List LambdaParam} {body : Expr} (h : e = .lambda ps body) :
    e.isLambda = true := by
  rw [h]
  rfl

namespace Alike

/-- What is alike has the same type, unless it `isDead`. -/
theorem ty_eq_or (h : Expr.Alike B strict Γ e e') : e.ty = e'.ty ∨ e.isDead = true := by
  cases h with
  | node hplain _ _ => exact .inl (ty_withChildren hplain _).symm
  | parameter _ => exact .inl rfl
  | lambda hps hbody => exact .inr rfl
  | select hs => exact .inl (congrArg Ty.queryable hs.projectedType_eq)
  | subquery hs => exact .inl (congrArg Ty.array hs.projectedType_eq)
  | quoted he _ _ _ => exact .inr (isDead_of_unquote (isLambda_of_eq he))
  | indexed hl _ _ => exact .inr hl

theorem of_select (h : Expr.Alike B strict Γ (.select s) e') :
    ∃ s', e' = .select s' ∧ s.Alike B s' := by
  cases h with
  | node hplain _ _ => cases hplain
  | select hs => exact ⟨_, rfl, hs⟩
  | quoted he _ _ _ => cases he

theorem of_subquery (h : Expr.Alike B strict Γ (.subquery s) e') :
    ∃ s', e' = .subquery s' ∧ s.Alike B s' := by
  cases h with
  | node hplain _ _ => cases hplain
  | subquery hs => exact ⟨_, rfl, hs⟩
  | quoted he _ _ _ => cases he

/-- Only a select is `Alike` to a select. -/
theorem select_right (h : Expr.Alike B strict Γ e e') (he' : e' = .select s') :
    ∃ s, e = .select s ∧ s.Alike B s' := by
  cases h with
  | @node _ _ e cs hplain _ _ =>
    rw [← isPlain_withChildren e cs, he'] at hplain
    cases hplain
  | select hs =>
    cases he'
    exact ⟨_, rfl, hs⟩
  | quoted _ hu _ _ =>
    subst he'
    cases hu
  | _ => cases he'

theorem subquery_right (h : Expr.Alike B strict Γ e e') (he' : e' = .subquery s') :
    ∃ s, e = .subquery s ∧ s.Alike B s' := by
  cases h with
  | @node _ _ e cs hplain _ _ =>
    rw [← isPlain_withChildren e cs, he'] at hplain
    cases hplain
  | subquery hs =>
    cases he'
    exact ⟨_, rfl, hs⟩
  | quoted _ hu _ _ =>
    subst he'
    cases hu
  | _ => cases he'

/-- What is strictly `Alike` to a node is the node with other children. -/
theorem node_right (h : Expr.Alike B true Γ e e') (hplain : e'.isPlain = true) : SameNode e e' := by
  cases h with
  | node _ hlen hkids => exact sameNode_withChildren _ _
  | _ => cases hplain

theorem node_of_isPlain (h : Expr.Alike B true Γ e e') (hplain : e.isPlain = true) :
    ∃ cs, e' = e.withChildren cs ∧ List.Forall₂ (Expr.Alike B e.isStrict Γ) e.children cs := by
  cases h with
  | node _ hlen hkids => exact ⟨_, rfl, List.forall₂_iff_zip.mpr ⟨hlen.symm, fun hp => hkids _ hp⟩⟩
  | _ => cases hplain

theorem of_member {b : Expr} {name : String} {t : Ty}
    (h : Expr.Alike B true Γ (.member b name t) e') :
    ∃ b', e' = .member b' name t ∧ Expr.Alike B true Γ b b' := by
  obtain ⟨cs, rfl, hkids⟩ := h.node_of_isPlain rfl
  cases hkids with
  | cons hb hnil =>
    cases hnil
    exact ⟨_, rfl, hb⟩

/-- Objects that are `Alike` have the same members, and what these hold is alike. -/
theorem of_newObject {t : Ty} {ms : List (String × Expr)}
    (h : Expr.Alike B true Γ (.newObject t ms) e') :
    ∃ ms', e' = .newObject t ms' ∧
      List.Forall₂ (fun m m' => m.1 = m'.1 ∧ Expr.Alike B true Γ m.2 m'.2) ms ms' := by
  obtain ⟨cs, rfl, hkids⟩ := h.node_of_isPlain rfl
  refine ⟨_, rfl, ?_⟩
  simp only [children, isStrict] at hkids
  clear h
  induction ms generalizing cs with
  | nil =>
    cases hkids
    exact .nil
  | cons m ms ih =>
    cases hkids with
    | cons hm hms => exact .cons ⟨rfl, hm⟩ (ih _ hms)

/-- Lambdas that are `Alike`, quoted or not, have parameters that correspond and bodies that are
alike. -/
theorem of_unquote {ps : List LambdaParam} {body : Expr} (h : Expr.Alike B strict Γ e e')
    (he : e.unquote = .lambda ps body) :
    ∃ ps' body', e'.unquote = .lambda ps' body' ∧ B.Declares Γ ps ps' ∧
      Expr.Alike B true (Γ.under ps ps') body body' := by
  induction e using unquote.induct generalizing strict e' with
  | case1 operand t ih =>
    cases h with
    | node _ hlen hkids =>
      obtain ⟨c, rfl⟩ := List.length_eq_one_iff.mp hlen
      have hoperand : Expr.Alike B true Γ operand c := hkids (operand, c) (by simp [children])
      obtain ⟨ps', body', hc, hbody⟩ := ih hoperand he
      exact ⟨ps', body', hc, hbody⟩
    | quoted he₁ he' hps hbody =>
      cases he.symm.trans he₁
      exact ⟨_, _, he', hps, hbody⟩
  | case2 e hquote =>
    rw [unquote] at he
    · subst he
      cases h with
      | node hplain _ _ => cases hplain
      | lambda hps hbody => exact ⟨_, _, rfl, hps, hbody⟩
      | quoted he₁ he' hps hbody =>
        cases he₁
        exact ⟨_, _, he', hps, hbody⟩
    · exact hquote

end Alike

end Expr

end

end QueryTree
