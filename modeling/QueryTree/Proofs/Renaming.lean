import QueryTree.Proofs.Guarded
import QueryTree.Proofs.Quoting

/-!
# Names of variables

Variables of lambdas may be renamed as long as each occurrence belongs to the same lambda. Binding
replaces variables without regard to the lambdas around, so what is put in must have no variables of
its own. Renaming changes nothing if binding is asked for closed expressions only
(`Expr.BindsClosed`).
-/

namespace QueryTree

/-! ## Renaming -/

/-- Two trees that differ in the names of variables that lambdas declare, where `Γ` pairs the
variables around them. -/
inductive Expr.Renamed : Pairing → Expr → Expr → Prop
  | node {Γ : Pairing} {e : Expr} {cs : List Expr} : e.isPlain = true →
    cs.length = e.children.length → (∀ p ∈ e.children.zip cs, Expr.Renamed Γ p.1 p.2) →
    Expr.Renamed Γ e (e.withChildren cs)
  | parameter {Γ : Pairing} {x x' : String} {t : Ty} : Γ x x' → Expr.Renamed Γ (.parameter x t)
    (.parameter x' t)
  | lambda {Γ : Pairing} {ps ps' : List LambdaParam} {body body' : Expr} :
    ps.map (·.ty) = ps'.map (·.ty) → Expr.Renamed (Γ.under ps ps') body body' →
    Expr.Renamed Γ (.lambda ps body) (.lambda ps' body')

/-- The pairing of variables that are not there. -/
def Pairing.empty : Pairing := fun _ _ => False

section
variable {Γ : Pairing} {strict : Bool} {e e' t t' : Expr} {cs : List Expr}

theorem Pairing.kept_empty : Pairing.empty.Kept fun _ => True where
  base _ _ _ h := h.elim
  under _ _ := trivial

theorem Expr.Renamed.alike (h : Expr.Renamed Γ e e') : Expr.Alike .empty strict Γ e e' := by
  induction h generalizing strict with
  | node hplain hlen _ ih => exact .node hplain hlen fun p hp => ih p hp
  | parameter hx => exact .parameter hx
  | @lambda Γ ps ps' body body' htypes _ ih =>
    have hlen : ps.length = ps'.length := by simpa using congrArg List.length htypes
    exact .lambda ⟨hlen, fun _ _ h => h.elim⟩ ih

/-! ## Binding without free variables -/

namespace Binding

/-- `bindWith`, but refusing to bind what has free variables. -/
def bindClosed : (fuel : Nat) → Expr → BindM Expr
  | 0, _ => throw .operatorsTooDeep
  | fuel + 1, e =>
    if e.freeNames.isEmpty then e.replaceM (bindNode (bindClosed fuel)) else throw .operatorsTooDeep

theorem bindClosed_extends (fuel : Nat) (e : Expr) :
    (bindClosed fuel e).Extends (bindWith fuel e) := by
  induction fuel generalizing e with
  | zero => exact .refl _
  | succ fuel ih =>
    unfold bindClosed
    split
    · exact .replaceM (bindNode_extends ih) e
    · exact .stopped _

/-- However the variables are named, `bindWith` follows `bindClosed`. -/
theorem bindClosed_follows (fuel : Nat) :
    Follows .empty (fun _ => True) (bindClosed fuel) (bindWith fuel) := by
  induction fuel with
  | zero =>
    intro strict Γ e e' _ _
    exact .of_fruitless (BindM.fruitless_throw _) _
  | succ fuel ih =>
    intro strict Γ e e' _ h
    unfold bindClosed
    split
    · rename_i hclosed
      have hnone : ∀ y ∈ e.freeNames, ∀ y', Γ y y' → Pairing.empty y y' := by
        rw [List.isEmpty_iff.mp hclosed]
        rintro y ⟨⟩
      exact (bindNode_lockstep Pairing.kept_empty ih).replaceM ⟨rfl, trivial⟩
        (h.weaken (fun _ _ => id) hnone)
    · exact .of_fruitless (BindM.fruitless_throw _) _

end Binding

/-- `tree` can be bound so that nothing is bound while it has free variables. -/
def Expr.BindsClosed (tree : Expr) : Prop :=
  ∃ r m, Yields (Binding.bindClosed (Binding.operatorCount tree + 1) tree) 0 r m

instance (tree : Expr) : Decidable tree.BindsClosed :=
  decidable_of_iff
    (((Binding.bindClosed (Binding.operatorCount tree + 1) tree).run.run
      0).1.toOption.isSome = true)
    ⟨BindM.exists_yields, fun ⟨_, _, h⟩ => by rw [show _ = _ from h]; rfl⟩

/-- If a tree `BindsClosed`, it is compiled to the same text and the same parameters whatever the
variables of its lambdas are called. -/
theorem compile_renamed {o : Options} {tree : Expr} {params : Params} {q : CompiledQuery}
    (hname : Yields t.nameCaptures (.empty o) tree params) (hclosed : tree.BindsClosed)
    (h : t.Renamed Eq t') (hq : t.compile o = .ok q) : t'.compile o = .ok q := by
  obtain ⟨r, m, hr⟩ := hclosed
  have halike : Expr.Alike .empty true Eq t t' := h.alike
  refine halike.compile Pairing.kept_empty trivial ?_ hq
  intro named tree' params' bound n htree hnamed hbound
  cases hname.symm.trans hnamed
  cases ((Binding.bindClosed_extends _ tree).yields hr).symm.trans hbound
  unfold Expr.bind
  rw [← Binding.operatorCount_alike htree]
  exact Binding.bindClosed_follows _ trivial htree _ r m hr

end

namespace Expr.Renamed

variable {Γ : Pairing} {e a a' b b' : Expr} {cs args args' : List Expr} {x x' : String}

theorem of_children (hplain : e.isPlain = true) (h : List.Forall₂ (Renamed Γ) e.children cs) :
    Renamed Γ e (e.withChildren cs) := by
  obtain ⟨hlen, hkids⟩ := List.forall₂_iff_zip.mp h
  exact .node hplain hlen.symm fun p hp => hkids hp

theorem staticCall (h : List.Forall₂ (Renamed Γ) args args') (surface : Surface) (method : String)
    (t : Ty) : Renamed Γ (.staticCall surface method args t) (.staticCall surface method args' t) :=
  .of_children (e := .staticCall surface method args t) rfl h

theorem member (h : Renamed Γ a a') (name : String) (t : Ty) :
    Renamed Γ (.member a name t) (.member a' name t) :=
  .of_children (e := .member a name t) rfl (.cons h .nil)

theorem eq (h : Renamed Γ a a') (h' : Renamed Γ b b') : Renamed Γ (a.eq b) (a'.eq b') :=
  .of_children (e := a.eq b) rfl (.cons h (.cons h' .nil))

end Expr.Renamed

namespace Sample

/-- Users with a post; `user` and `post` are the variables. -/
def authors (user post : String) : Expr :=
  on (rows "user") "Where"
    [fn user (on (rows "post") "Any" [fn post ((col post "by").eq (col user "id"))])]

/-- For each group of posts, the users who are as old as a sum over the group of numbers of posts
that are compared with the user, so the variable `v` is still there when the sum is bound. -/
def usersBySum (inner : String) : Expr :=
  on (on (rows "post") "GroupBy" [fn "p" (col "p" "x")]) "Select"
    [fn "g" (on (rows "user")
      "Where" [fn "v" ((col "v" "age").eq (.staticCall .enumerable "Sum" [var "g", fn "q"
      (on (on (on (rows "post") "Select" [fn "p" (var "v")]) "Where"
        [fn "r" (on (rows "tag") "Any" [fn inner ((col inner "x").eq (var "r"))])]) "Count" [])]
          .unknown))])]

section
variable {Γ : Pairing} {x x' : String} {body body' : Expr}

theorem renamed_rows (table : String) : (rows table).Renamed Γ (rows table) :=
  .of_children (e := rows table) rfl .nil

theorem renamed_col (h : Γ x x') (column : String) : (col x column).Renamed Γ (col x' column) :=
  .member (.parameter h) column _

theorem renamed_fn (h : body.Renamed (Γ.under [⟨x, .unknown⟩] [⟨x', .unknown⟩]) body') :
    (fn x body).Renamed Γ (fn x' body') :=
  .lambda rfl h

end

theorem renamed_authors : (authors "u" "p").Renamed Eq (authors "p" "u") := by
  refine .staticCall (.cons (renamed_rows _) (.cons (renamed_fn ?_) .nil)) _ _ _
  refine .staticCall (.cons (renamed_rows _) (.cons (renamed_fn ?_) .nil)) _ _ _
  exact .eq (renamed_col (by simp [Pairing.under]) _) (renamed_col (by simp [Pairing.under]) _)

theorem renamed_usersBySum : (usersBySum "v").Renamed Eq (usersBySum "w") := by
  refine .staticCall (.cons ?_ (.cons (renamed_fn ?_) .nil)) _ _ _
  · exact .staticCall (.cons (renamed_rows _)
      (.cons (renamed_fn (renamed_col (by simp [Pairing.under]) _)) .nil)) _ _ _
  refine .staticCall (.cons (renamed_rows _) (.cons (renamed_fn ?_) .nil)) _ _ _
  refine .eq (renamed_col (by simp [Pairing.under]) _)
    (.staticCall (.cons (.parameter (by simp [Pairing.under])) (.cons (renamed_fn ?_) .nil)) _ _ _)
  refine .staticCall (.cons ?_ .nil) _ _ _
  refine .staticCall (.cons ?_ (.cons (renamed_fn ?_) .nil)) _ _ _
  · exact .staticCall (.cons (renamed_rows _)
      (.cons (renamed_fn (.parameter (by simp [Pairing.under]))) .nil)) _ _ _
  refine .staticCall (.cons (renamed_rows _) (.cons (renamed_fn ?_) .nil)) _ _ _
  exact .eq (renamed_col (by simp [Pairing.under]) _) (.parameter (by simp [Pairing.under]))

end Sample

section
open Sample

theorem compile_renamed_authors : (authors "u" "p").Renamed Eq (authors "p" "u") ∧ ∃ tree params q,
    Yields (authors "u" "p").nameCaptures (.empty .standard) tree params ∧ tree.BindsClosed ∧
      (authors "u" "p").compile .standard = .ok q ∧
        (authors "p" "u").compile .standard = .ok q := by
  have hclosed : ((authors "u" "p").nameCaptures.run (.empty .standard)).toOption.all
      (fun named => named.1.BindsClosed) = true := by
    decide +kernel
  have hok : ((authors "u" "p").compile .standard).isOk = true := by decide +kernel
  refine ⟨renamed_authors, ?_⟩
  cases hq : (authors "u" "p").compile .standard with
  | error err =>
    rw [hq] at hok
    cases hok
  | ok q =>
    obtain ⟨tree, params, -, -, -, -, hname, -⟩ := Expr.compile_ok hq
    rw [show _ = _ from hname] at hclosed
    have hclosed : tree.BindsClosed := of_decide_eq_true hclosed
    exact ⟨tree, params, q, hname, hclosed, rfl, compile_renamed hname hclosed renamed_authors hq⟩

/-- The variable `v` is taken for another if that one has its name too: then the tree is compiled,
and else it is not. -/
theorem usersBySum_captures : (usersBySum "v").Renamed Eq (usersBySum "w") ∧
    ((usersBySum "v").compile .standard).isOk = true ∧
      ((usersBySum "w").compile .standard).isOk = false :=
  ⟨renamed_usersBySum, by decide +kernel, by decide +kernel⟩

end

end QueryTree
