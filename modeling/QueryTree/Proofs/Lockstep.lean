import QueryTree.Proofs.Likeness
import QueryTree.Proofs.Simulation

/-!
# Replacing nodes of trees that are alike

Replacing goes through two trees that are alike in `Lockstep`, quotes apart. If it does the same to
both nodes or lets both be, what comes out is alike. Variables may be replaced on the way, so the
pairing afterwards is another.
-/

namespace QueryTree

/-! ## Quotes -/

namespace Expr

/-- The quotes of an expression around another. -/
def requote : Expr → Expr → Expr
  | .unary .quote operand t, x => .unary .quote (operand.requote x) t
  | _, x => x

theorem unquote_requote (e x : Expr) : (e.requote x).unquote = x.unquote := by
  induction e using unquote.induct with
  | case1 operand t ih =>
    rw [requote, unquote]
    exact ih
  | case2 e hquote =>
    rw [requote]
    exact hquote

section
variable {m : Type → Type} [Monad m] [LawfulMonad m]

/-- Quotes are passed through if `f` does nothing to them. -/
theorem replaceM_requote {f : Expr → m (Option Expr)}
    (hf : ∀ operand t, f (.unary .quote operand t) = pure none) (e : Expr) :
    e.replaceM f = e.requote <$> e.unquote.replaceM f := by
  induction e using unquote.induct with
  | case1 operand t ih =>
    rw [replaceM_eq, hf, pure_bind, unquote]
    simp only [children, List.mapM_cons, List.mapM_nil, ih]
    simp [requote, withChildren]
  | case2 e hquote =>
    have hid : e.requote = id := by
      funext x
      rw [requote]
      · rfl
      · exact hquote
    rw [hid, id_map, unquote]
    exact hquote

theorem mapM_eq_pure {α β : Type} {f : α → m β} {g : α → β} {as : List α}
    (h : ∀ a ∈ as, f a = pure (g a)) : as.mapM f = pure (as.map g) := by
  induction as with
  | nil => exact List.mapM_nil
  | cons a as ih =>
    obtain ⟨ha, has⟩ := List.forall_mem_cons.mp h
    rw [List.mapM_cons, ha, pure_bind, ih has, pure_bind, List.map_cons]

theorem replaceM_pure (f : Expr → Option Expr) (e : Expr) :
    e.replaceM (fun n => (pure (f n) : m (Option Expr))) = pure (e.replace f) := by
  induction e using childrenInduction with
  | step e ih =>
    rw [replaceM_eq, pure_bind, replace_eq]
    cases f e with
    | some r => rfl
    | none =>
      rw [mapM_eq_pure ih, map_pure]

end

/-- Whether nothing is ever done to nodes of this kind. -/
def isFixed : Expr → Bool
  | .unary _ _ _ | .binary _ _ _ _ | .select _ | .subquery _ => true
  | _ => false

section
variable {B Γ : Pairing} {strict : Bool} {e : Expr} {ds ds' : List Expr}

/-- `withChildren` of children that are alike is alike. -/
theorem Alike.withChildren (hplain : e.isPlain = true) (hlen : ds.length = e.children.length)
    (h : List.Forall₂ (Expr.Alike B e.isStrict Γ) ds ds') :
    Expr.Alike B strict Γ (e.withChildren ds) (e.withChildren ds') := by
  have hlen' : ds'.length = e.children.length := h.length_eq.symm.trans hlen
  rw [← withChildren_withChildren hlen hlen']
  apply of_children
  · rw [isPlain_withChildren, hplain]
  · rw [isStrict_withChildren, children_withChildren hlen]
    exact h

end

end Expr

/-! ## Lockstep -/

section
variable {m : Type → Type} {σ : Type} [Monad m] [LawfulMonad m] [Yielding m σ]

/-- `f` and `g` replace nodes in step. `T` says how the variables around a node are paired before
and after: a lambda is entered in both trees, or it is left as it is in both, since nothing in it is
replaced. -/
structure Lockstep (B : Pairing) (T : Pairing → Pairing → Prop) (f g : Expr → m (Option Expr)) :
    Prop where
  base : ∀ {Δ Γ}, T Δ Γ → B.Below Γ
  inert : ∀ {e}, e.isFixed = true → f e = pure none ∧ g e = pure none
  parameter : ∀ {strict} {Δ Γ : Pairing} {x x' t}, T Δ Γ → Δ x x' →
    Simulates (Expr.Alike B strict Γ) ((Expr.parameter x t).replaceM f)
      ((Expr.parameter x' t).replaceM g)
  lambda : ∀ {Δ Γ ps ps' body body'}, T Δ Γ → B.Declares Δ ps ps' →
    Expr.Alike B true (Δ.under ps ps') body body' →
    f (.lambda ps body) = pure none ∧ g (.lambda ps' body') = pure none ∧ T (Δ.under ps ps')
      (Γ.under ps ps') ∨ (Expr.lambda ps body).replaceM f = pure (.lambda ps body) ∧
        (Expr.lambda ps' body').replaceM g = pure (.lambda ps' body') ∧
          Expr.Alike B true (Γ.under ps ps') body body'
  node : ∀ {strict Δ Γ e cs}, T Δ Γ → e.isPlain = true → List.Forall₂ (Expr.Alike B e.isStrict Δ)
    e.children cs → f e = pure none ∧ g (e.withChildren cs) = pure none ∨
      Simulates (Expr.Alike B strict Γ) (e.replaceM f) ((e.withChildren cs).replaceM g)

namespace Lockstep

variable {B Δ Γ : Pairing} {T : Pairing → Pairing → Prop} {f g : Expr → m (Option Expr)}
  {strict : Bool} {e e' body body' : Expr} {ps ps' : List LambdaParam}

/-- A lambda stays a lambda, with the same parameters. -/
theorem replaced_lambda (h : Lockstep B T f g) (hT : T Δ Γ) (hps : B.Declares Δ ps ps')
    (hbody : Expr.Alike B true (Δ.under ps ps') body body')
    (ih : T (Δ.under ps ps') (Γ.under ps ps') →
      Simulates (Expr.Alike B true (Γ.under ps ps')) (body.replaceM f) (body'.replaceM g)) :
    Simulates (fun r r' => ∃ b b', r = .lambda ps b ∧ r' = .lambda ps' b' ∧
      Expr.Alike B true (Γ.under ps ps') b b')
      ((Expr.lambda ps body).replaceM f) ((Expr.lambda ps' body').replaceM g) := by
  rcases h.lambda hT hps hbody with ⟨hf, hg, hT'⟩ | ⟨hf, hg, hstays⟩
  · have hopen : ∀ {f : Expr → m (Option Expr)} {ps body}, f (.lambda ps body) = pure none →
        (Expr.lambda ps body).replaceM f = Expr.lambda ps <$> body.replaceM f := by
      intro f ps body hf
      rw [Expr.replaceM_eq, hf, pure_bind]
      simp [Expr.children, Expr.withChildren]
    rw [hopen hf, hopen hg]
    exact (ih hT').map fun b b' hb => ⟨b, b', rfl, rfl, hb⟩
  · rw [hf, hg]
    exact .pure ⟨body, body', rfl, rfl, hstays⟩

/-- What `isDead` has no term afterwards. -/
theorem isDead (h : Lockstep B T f g) (hT : T Δ Γ) (he : Expr.Alike B strict Δ e e')
    (hdead : e.isDead = true) {s t : σ} {r : Expr} (hr : Yields (e.replaceM f) s r t) :
    r.isDead = true := by
  -- What has no term is a lambda, a quote of one, or an item of one. Each of them stays what it is.
  induction e using Expr.isDead.induct generalizing strict e' s r t with
  | case1 operand u ih =>
    rw [Expr.replaceM_eq, (h.inert rfl).1, pure_bind] at hr
    obtain ⟨cs, hcs, rfl⟩ := yields_map.mp hr
    cases yields_mapM.mp hcs with
    | cons hc hnil =>
      cases hnil
      have hoperand : ∃ strict c', Expr.Alike B strict Δ operand c' := by
        cases he with
        | node _ hlen hkids =>
          obtain ⟨c, rfl⟩ := List.length_eq_one_iff.mp hlen
          exact ⟨_, c, hkids (operand, c) (by simp [Expr.children])⟩
        | quoted hu hu' hps hbody => exact ⟨false, e', .quoted hu hu' hps hbody⟩
      obtain ⟨strict, c', hc'⟩ := hoperand
      have hdone := ih hc' hdead hc
      exact hdone
  | case2 l x u ih =>
    rw [Expr.replaceM_eq, (h.inert rfl).1, pure_bind] at hr
    obtain ⟨cs, hcs, rfl⟩ := yields_map.mp hr
    cases yields_mapM.mp hcs with
    | cons hl hrest =>
      cases hrest with
      | cons hx hnil =>
        cases hnil
        have hsequence : ∃ strict l', Expr.Alike B strict Δ l l' := by
          cases he with
          | node _ hlen hkids =>
            obtain ⟨c, d, rfl⟩ := List.length_eq_two.mp hlen
            exact ⟨_, c, hkids (l, c) (by simp [Expr.children])⟩
          | quoted hu _ _ _ => cases hu
          | indexed _ hl _ => exact ⟨_, _, hl⟩
        obtain ⟨strict, l', hl'⟩ := hsequence
        have hdone := ih hl' hdead hl
        exact hdone
  | case3 ps body =>
    obtain ⟨ps', body', -, hps, hbody⟩ := he.of_unquote rfl
    rcases h.lambda hT hps hbody with ⟨hf, -, -⟩ | ⟨hf, -, -⟩
    · rw [Expr.replaceM_eq, hf, pure_bind] at hr
      obtain ⟨cs, hcs, rfl⟩ := yields_map.mp hr
      cases yields_mapM.mp hcs with
      | cons hc hnil =>
        cases hnil
        rfl
    · rw [hf] at hr
      obtain ⟨rfl, -⟩ := yields_pure.mp hr
      rfl
  | case4 e hquote hitem hlambda =>
    rw [Expr.isDead] at hdead
    · cases hdead
    · exact hquote
    · exact hitem
    · exact hlambda

/-- `Alike` trees are so after nodes have been replaced. -/
theorem replaceM (h : Lockstep B T f g) (hT : T Δ Γ) (he : Expr.Alike B strict Δ e e') :
    Simulates (Expr.Alike B strict Γ) (e.replaceM f) (e'.replaceM g) := by
  induction he using Expr.Alike.ind generalizing Γ with
  | @node strict Δ e cs _ hplain hkids =>
    have hnode : _ ∨ Simulates (Expr.Alike B strict Γ) _ _ :=
      h.node hT hplain (hkids.imp fun _ _ hc => hc.1)
    -- Either both nodes stay and their children are replaced, or something is put in their place on
    -- both sides.
    rcases hnode with ⟨hf, hg⟩ | hdone
    · have hlen := hkids.length_eq.symm
      rw [Expr.replaceM_eq, Expr.replaceM_eq, hf, hg, pure_bind, pure_bind,
        Expr.children_withChildren hlen]
      have hsteps := Simulates.mapM (hkids.imp fun _ _ hc => hc.2 hT)
      refine hsteps.map ?_
      rintro ds ds' ⟨hds, hall⟩
      rw [Expr.withChildren_withChildren hlen (hall.length_eq.symm.trans hds)]
      exact .withChildren hplain hds hall
    · exact hdone
  | parameter hx => exact h.parameter hT hx
  | lambda hps hbody ih =>
    refine (h.replaced_lambda hT hps hbody ih).imp ?_
    rintro r r' ⟨b, b', rfl, rfl, hb⟩
    exact .lambda (hps.mono (h.base hT)) hb
  | select hs =>
    rw [Expr.replaceM_eq, Expr.replaceM_eq, (h.inert rfl).1, (h.inert rfl).2, pure_bind, pure_bind]
    simp only [Expr.children, List.mapM_nil, map_pure]
    exact .pure (.select hs)
  | subquery hs =>
    rw [Expr.replaceM_eq, Expr.replaceM_eq, (h.inert rfl).1, (h.inert rfl).2, pure_bind, pure_bind]
    simp only [Expr.children, List.mapM_nil, map_pure]
    exact .pure (.subquery hs)
  | quoted he he' hps hbody ih =>
    rw [Expr.replaceM_requote fun _ _ => (h.inert rfl).1,
      Expr.replaceM_requote fun _ _ => (h.inert rfl).2, he, he']
    refine (h.replaced_lambda hT hps hbody ih).map ?_
    rintro r r' ⟨b, b', rfl, rfl, hb⟩
    exact .quoted (Expr.unquote_requote _ _) (Expr.unquote_requote _ _) (hps.mono (h.base hT)) hb
  | indexed hl hleft ihl hright ihr =>
    rw [Expr.replaceM_eq, Expr.replaceM_eq, (h.inert rfl).1, (h.inert rfl).2, pure_bind, pure_bind]
    simp only [Expr.children, List.mapM_cons, List.mapM_nil, map_eq_pure_bind,
      bind_assoc, pure_bind]
    have hl' := (ihl hT).and_left fun s a t ha => h.isDead hT hleft hl ha
    exact hl'.bind fun a a' ha => (ihr hT).bind fun b b' hb => .pure (.indexed ha.1 ha.2 hb)

/-- Replacing that is not about variables is in step if it is so at single nodes. `A` is what is
known of the pairings on the way. -/
theorem of_nodes {A : Pairing → Prop} (hbase : ∀ {Γ}, A Γ → B.Below Γ)
    (hA : ∀ {Γ ps ps'}, A Γ → B.Declares Γ ps ps' → A (Γ.under ps ps'))
    (skip : ∀ {e : Expr}, e.isFixed = true ∨ e.isPlain = false → f e = pure none ∧ g e = pure none)
    (node : ∀ {strict Γ e cs}, A Γ → e.isPlain = true → List.Forall₂ (Expr.Alike B e.isStrict Γ)
      e.children cs → f e = pure none ∧ g (e.withChildren cs) = pure none ∨
      Simulates (Expr.Alike B strict Γ) (e.replaceM f) ((e.withChildren cs).replaceM g)) :
    Lockstep B (fun Δ Γ => Δ = Γ ∧ A Γ) f g where
  base h := hbase h.2
  inert h := skip (.inl h)
  parameter := by
    rintro strict Δ Γ x x' t ⟨rfl, hΓ⟩ hx
    rw [Expr.replaceM_eq, Expr.replaceM_eq, (skip (.inr rfl)).1, (skip (.inr rfl)).2,
      pure_bind, pure_bind]
    simp only [Expr.children, List.mapM_nil, map_pure]
    exact .pure (.parameter hx)
  lambda := by
    rintro Δ Γ ps ps' body body' ⟨rfl, hΓ⟩ hps hbody
    exact .inl ⟨(skip (.inr rfl)).1, (skip (.inr rfl)).2, rfl, hA hΓ hps⟩
  node := by
    rintro strict Δ Γ e cs ⟨rfl, hΓ⟩ hplain hkids
    exact node hΓ hplain hkids

end Lockstep

end

end QueryTree
