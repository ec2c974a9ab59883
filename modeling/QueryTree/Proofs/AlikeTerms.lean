import QueryTree.Proofs.Likeness
import QueryTree.Proofs.Lowered

/-!
# Alike trees have the same terms

A tree that is `Expr.Alike` to one with a term has the same term. A lambda has none, quoted or not,
so the names of its variables do not matter; nor has a variable that is left over. Nothing is said
of failures.
-/

namespace QueryTree

open Surql (Term)
open LowerM (Agree)

/-! ## Rules -/

namespace LowerM

/-- Runs from the same state, where the second has to go on only if the first does. -/
abbrev Correspondence.following : Correspondence where
  states := Eq
  names _ := True
  faults _ := True
  terms _ := True
  lenient := true

theorem level_following : Correspondence.following.Level := by
  rintro s _ rfl
  exact ⟨rfl, fun _ => rfl⟩

section
variable {α : Type} {G : α → Prop} {x y : LowerM α}

theorem Agree.following_throw (e : Error) (y : LowerM α) :
    Agree .following G (MonadExcept.throw e) y :=
  (Agree.throw e fun _ => trivial).of_fruitless rfl (fruitless_throw e) y

theorem Agree.simulates (h : Agree .following G x y) : Simulates Eq x y := by
  intro s a t ha
  rcases h.alike s s rfl with ⟨-, hx⟩ | ⟨hr, hs⟩
  · exact absurd (congrArg Prod.fst ha) (hx a)
  · refine ⟨a, ?_, rfl⟩
    show y.run.run s = (.ok a, t)
    rw [← (ha : x.run.run s = (.ok a, t))]
    exact (Prod.ext hr hs).symm

end

end LowerM

section
variable {B Γ : Pairing} {strict : Bool} {e e' : Expr} {s s' : Select}

namespace Expr

/-! ## What is read off -/

theorem constantNumber?_of_unquote (h : e.unquote.isLambda = true) : e.constantNumber? = none :=
  unquoteInduction (P := fun e => e.constantNumber? = none) h (fun _ _ => id) fun _ _ => rfl

/-- Of a lambda `ReadsLike` sees only that it is one, quoted or not. -/
theorem readsLike_of_unquote (h : e.unquote.isLambda = true) (h' : e'.unquote.isLambda = true) :
    e.ReadsLike e' where
  isLambda := h'.trans h.symm
  constantNumber? := by rw [constantNumber?_of_unquote h, constantNumber?_of_unquote h']
  constantIndex? := by
    have hnone : ∀ {e : Expr}, e.isLambda = true → e.constant? = none := by
      intro e he
      cases e <;> first | rfl | cases he
    unfold constantIndex?
    rw [hnone h, hnone h']
  isDefaultSplit := by
    rcases quote_or_lambda_of_unquote h with ⟨_, _, rfl, -⟩ | ⟨_, _, rfl⟩ <;>
      rcases quote_or_lambda_of_unquote h' with ⟨_, _, rfl, -⟩ | ⟨_, _, rfl⟩ <;> rfl
  holder := by
    rcases quote_or_lambda_of_unquote h with ⟨_, _, rfl, -⟩ | ⟨_, _, rfl⟩ <;>
      rcases quote_or_lambda_of_unquote h' with ⟨_, _, rfl, -⟩ | ⟨_, _, rfl⟩ <;> rfl

/-- `ReadsLike` passes from the children of a node to the node. -/
theorem readsLike_withChildren {cs : List Expr} (h : List.Forall₂ ReadsLike e.children cs) :
    e.ReadsLike (e.withChildren cs) := by
  have hsame := e.sameNode_withChildren cs
  cases e with
  | unary op operand t =>
    rcases h with _ | ⟨h, ⟨⟩⟩
    obtain ⟨hlambda, hnumber, hindex, -, -⟩ := h
    cases op with
    | quote => exact ⟨hlambda, hnumber, hindex, rfl, rfl⟩
    | convert => exact ⟨rfl, hnumber, rfl, rfl, rfl⟩
    | unaryPlus => exact ⟨rfl, hnumber, rfl, rfl, rfl⟩
    | negate => exact ⟨rfl, congrArg (Option.map fun x => -x) hnumber, rfl, rfl, rfl⟩
    | _ => exact ⟨rfl, rfl, rfl, rfl, rfl⟩
  | _ =>
    generalize Expr.withChildren _ cs = e' at hsame ⊢
    cases hsame <;> exact ⟨rfl, rfl, rfl, rfl, rfl⟩

theorem Alike.readsLike (h : Expr.Alike B strict Γ e e') : e.ReadsLike e' := by
  induction h using Alike.ind with
  | node _ hkids =>
    refine readsLike_withChildren (hkids.imp fun c c' hc => ?_)
    obtain ⟨-, ih⟩ := hc
    exact ih
  | quoted he he' _ _ => exact readsLike_of_unquote (isLambda_of_eq he) (isLambda_of_eq he')
  | _ => exact ⟨rfl, rfl, rfl, rfl, rfl⟩

/-! ## Expressions without a term -/

theorem fruitless_of_isDead (h : e.isDead = true) : Fruitless e.lower := by
  induction e using childrenInduction with
  | step e ih =>
    cases e with
    | unary op operand t =>
      cases op with
      | quote => exact ih operand (by simp [children]) h
      | _ => cases h
    | binary op left right t =>
      cases op with
      | arrayIndex => exact (ih left (by simp [children]) h).bind _
      | _ => cases h
    | lambda ps body => exact LowerM.fruitless_throw _
    | _ => cases h

theorem lower_of_unquote (h : e.unquote.isLambda = true) : e.lower = throw .lambdaNotValue :=
  unquoteInduction (P := fun e => e.lower = throw .lambdaNotValue) h (fun _ _ => id) fun _ _ => rfl

theorem knownItems_of_unquote (h : e.unquote.isLambda = true) : e.knownItems = [] :=
  unquoteInduction (P := fun e => e.knownItems = []) h (fun _ _ => id) fun _ _ => rfl

theorem memberOperands_of_unquote (h : e.unquote.isLambda = true) : e.memberOperands = [] := by
  rcases quote_or_lambda_of_unquote h with ⟨operand, t, rfl, -⟩ | ⟨ps, body, rfl⟩ <;> rfl

/-! ## Trees -/

/-- The types of children are the same where a node `readsType`. -/
theorem Alike.ty_of_readsType {cs : List Expr}
    (h : List.Forall₂ (Expr.Alike B e.isStrict Γ) e.children cs) (hreads : e.readsType = true) :
    List.Forall₂ (fun c c' : Expr => c'.ty = c.ty) e.children cs := by
  have hstrict : e.isStrict = true := by cases e <;> first | rfl | cases hreads
  rw [hstrict] at h
  exact h.imp fun _ _ h => h.ty_eq.symm

end Expr

theorem Projection.Alike.related {p p' : Projection} (h : p.Alike B p') :
    p.Related (fun c c' => ∃ strict, Expr.Alike B strict B c c') p' := by
  cases h with
  | all => exact .all
  | expr h => exact .expr ⟨_, h⟩
  | fields h =>
    refine .fields (h.imp fun f f' hf => ?_)
    cases hf with
    | mk hf => exact ⟨rfl, _, hf⟩
  | count h =>
    cases h with
    | none => exact .count .none
    | some h => exact .count (.some ⟨_, h⟩)
  | aggregation h => exact .aggregation ⟨_, h⟩

theorem RowGroup.Alike.related {g g' : RowGroup} (h : g.Alike B g') :
    g.Related (fun c c' => ∃ strict, Expr.Alike B strict B c c') g' := by
  cases h with
  | all => exact .all
  | keys h => exact .keys (h.imp fun _ _ hc => ⟨_, hc⟩)

/-- Selects that are `Alike` are made in the same way. -/
theorem Select.Alike.related (h : s.Alike B s') :
    s.Related (fun c c' => ∃ strict, Expr.Alike B strict B c c') (Select.Alike B) s' := by
  obtain ⟨hscope, -, hsingle, hsource, hprojection, hfilter, hgroup, horderings, htake,
    hskip, -⟩ := h
  have hoption : ∀ {strict} {o o' : Option Expr}, Option.Rel (Expr.Alike B strict B) o o' →
      Option.Rel (fun c c' => ∃ strict, Expr.Alike B strict B c c') o o' := by
    intro strict o o' h
    cases h with
    | none => exact .none
    | some h => exact .some ⟨_, h⟩
  constructor
  · exact hscope
  · exact hsingle
  · generalize s.source = source, s'.source = source' at hsource
    cases hsource with
    | table name => exact .table name
    | subquery hv => exact .subquery hv
  · exact hprojection.related
  · exact hoption hfilter
  · generalize s.group = g, s'.group = g' at hgroup
    cases hgroup with
    | none => exact .none
    | some hg => exact .some hg.related
  · refine horderings.imp fun k k' hk => ?_
    cases hk with
    | mk hk => exact ⟨rfl, _, hk⟩
  · exact hoption htake
  · exact hoption hskip

/-- Expressions and selects that are `Alike` lower alike, as far as they lower at all. -/
theorem lowers_like :
    (∀ e : Expr, ∀ strict Γ e', Expr.Alike B strict Γ e e' → e.LowersLike .following e') ∧
    ∀ s : Select, ∀ s', s.Alike B s' → Agree .following (fun _ => True) s.lower s'.lower := by
  have hselect : ∀ {s s' : Select}, Agree .following (fun _ => True) s.lower s'.lower →
      Agree .following (fun _ => True) (do return Term.subquery (← LowerM.nested s.lower))
        (do return .subquery (← LowerM.nested s'.lower)) :=
    fun h => (h.nested LowerM.level_following).bind fun u => .pure id
  -- Over trees and selects at once: a select is lowered by its clauses, and they may have selects
  -- in them.
  apply deepInduction
  · intro e hkids hselects strict Γ e' h
    have hreads := h.readsLike
    have hty : e'.ty = e.ty ∨ true = true ∧ Fruitless e.lower :=
      h.ty_eq_or.imp Eq.symm fun hdead => ⟨rfl, Expr.fruitless_of_isDead hdead⟩
    cases h with
    | @node _ _ _ cs hplain hlen hchildren =>
      have halike : List.Forall₂ (Expr.Alike B e.isStrict Γ) e.children cs :=
        List.forall₂_iff_zip.mpr ⟨hlen.symm, fun hp => hchildren _ hp⟩
      have hlowers : List.Forall₂ (Expr.LowersLike .following) e.children cs :=
        List.forall₂_iff_zip.mpr
          ⟨hlen.symm, fun hp => hkids _ (List.of_mem_zip hp).1 _ _ _ (hchildren _ hp)⟩
      cases hcompound : e.isCompound with
      | true =>
        refine ⟨⟨hreads, hty, ?_⟩, ?_, ?_⟩
        · exact Expr.lower_agree_of_children LowerM.level_following ⟨trivial, fun _ => trivial⟩
            trivial hcompound hlowers (Expr.Alike.ty_of_readsType halike)
        · exact Expr.knownItems_agree_of_children hcompound hlowers
        · exact Expr.memberOperands_agree_of_children hlowers
      | false =>
        -- What is neither a lambda nor compound has no children, so both trees are the same leaf.
        have hleaf : e.children = [] := by
          cases e with
          | lambda => cases hplain
          | _ => first | rfl | cases hcompound
        rw [hleaf] at hlen
        rw [List.length_eq_zero_iff.mp hlen, ← hleaf, Expr.withChildren_children]
        exact Expr.lowersLike_self rfl (fun _ => trivial) (fun _ => trivial) hcompound
    | parameter _ => exact ⟨⟨hreads, hty, .following_throw _ _⟩, .nil, .nil⟩
    | lambda _ _ => exact ⟨⟨hreads, hty, .following_throw _ _⟩, .nil, .nil⟩
    | select hs => exact ⟨⟨hreads, hty, hselect (hselects _ rfl _ hs)⟩, .nil, .nil⟩
    | subquery hs => exact ⟨⟨hreads, hty, hselect (hselects _ rfl _ hs)⟩, .nil, .nil⟩
    | quoted he he' _ _ =>
      refine ⟨⟨hreads, hty, ?_⟩, ?_, ?_⟩
      · rw [Expr.lower_of_unquote (Expr.isLambda_of_eq he)]
        exact .following_throw _ _
      · rw [Expr.knownItems_of_unquote (Expr.isLambda_of_eq he),
          Expr.knownItems_of_unquote (Expr.isLambda_of_eq he')]
        exact .nil
      · rw [Expr.memberOperands_of_unquote (Expr.isLambda_of_eq he),
          Expr.memberOperands_of_unquote (Expr.isLambda_of_eq he')]
        exact .nil
    | @indexed _ l l' r r' _ _ hl hleft hright =>
      have hl := hkids l (by simp [Expr.children]) _ _ _ hleft
      have hr := hkids r (by simp [Expr.children]) _ _ _ hright
      exact ⟨⟨hreads, hty, Lowering.binary_agree hl.operand hr.operand .arrayIndex⟩, .nil, .nil⟩
  · intro s hclauses hinputs s' h
    refine (Select.lower_agree LowerM.level_following (h.related.imp (fun c hc c' hcc' => ?_)
      hinputs)).imp fun _ _ => trivial
    obtain ⟨strict, hcc'⟩ := hcc'
    exact hclauses c hc strict B c' hcc'

/-- Whenever `e` is lowered to a query, so is `e'`, and to the same. -/
theorem Expr.Alike.lowerRoot (h : Expr.Alike B strict Γ e e') :
    Simulates Eq e.lowerRoot e'.lowerRoot := by
  refine (Expr.lowerRoot_agree_of (C := .following) (lowers_like.1 e _ _ _ h).lower ?_ ?_).simulates
  · rintro s rfl
    obtain ⟨s', rfl, hs⟩ := h.of_select
    exact ⟨s', rfl, lowers_like.2 s s' hs⟩
  · intro s' hs'
    obtain ⟨s, hs, -⟩ := h.select_right hs'
    exact ⟨s, hs⟩

end

end QueryTree
