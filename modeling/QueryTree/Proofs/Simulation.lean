import QueryTree.Proofs.Runs

/-!
# Runs that follow other runs

`Simulates` compares two trees by their runs: whenever the first succeeds the second does, and the
values correspond. Nothing is said of failures, so every computation follows one that is
`Fruitless`.
-/

namespace QueryTree

section
variable {m : Type → Type} {σ : Type} [Monad m] [Yielding m σ] {α β γ δ : Type} {R : α → β → Prop}

/-- Whenever `x` succeeds `y` does, between the same states, and their values are related by `R`. -/
def Simulates (R : α → β → Prop) (x : m α) (y : m β) : Prop :=
  ∀ s a t, Yields x s a t → ∃ b, Yields y s b t ∧ R a b

/-- A computation that never succeeds. -/
def Fruitless (x : m α) : Prop := ∀ s a t, ¬ Yields x s a t

theorem Fruitless.bind {x : m α} (h : Fruitless x) (f : α → m γ) : Fruitless (x >>= f) := by
  intro s c t hc
  obtain ⟨a, u, ha, -⟩ := yields_bind.mp hc
  exact h s a u ha

theorem Fruitless.after (x : m α) {f : α → m γ} (h : ∀ a, Fruitless (f a)) :
    Fruitless (x >>= f) := by
  intro s c t hc
  obtain ⟨a, u, -, hf⟩ := yields_bind.mp hc
  exact h a u c t hf

namespace Simulates

theorem of_fruitless {x : m α} (h : Fruitless x) (y : m β) : Simulates R x y := by
  intro s a t ha
  exact absurd ha (h s a t)

theorem refl (x : m α) : Simulates Eq x x := fun _ a _ ha => ⟨a, ha, rfl⟩

theorem pure {a : α} {b : β} (h : R a b) : Simulates R (pure a : m α) (Pure.pure b) := by
  intro s a' t ha
  obtain ⟨rfl, rfl⟩ := yields_pure.mp ha
  exact ⟨b, yields_pure.mpr ⟨rfl, rfl⟩, h⟩

theorem of_pure {a : α} {b : β} (s : σ) (h : Simulates R (Pure.pure a : m α) (Pure.pure b)) :
    R a b := by
  obtain ⟨b', hb, hr⟩ := h s a s (yields_pure.mpr ⟨rfl, rfl⟩)
  obtain ⟨rfl, -⟩ := yields_pure.mp hb
  exact hr

theorem imp {S : α → β → Prop} {x : m α} {y : m β} (h : Simulates R x y)
    (hRS : ∀ a b, R a b → S a b) : Simulates S x y := by
  intro s a t ha
  obtain ⟨b, hb, hr⟩ := h s a t ha
  exact ⟨b, hb, hRS a b hr⟩

theorem bind {S : γ → δ → Prop} {x : m α} {y : m β} {f : α → m γ} {g : β → m δ}
    (hx : Simulates R x y) (hf : ∀ a b, R a b → Simulates S (f a) (g b)) :
    Simulates S (x >>= f) (y >>= g) := by
  intro s c t hc
  obtain ⟨a, u, ha, hc⟩ := yields_bind.mp hc
  obtain ⟨b, hb, hr⟩ := hx s a u ha
  obtain ⟨d, hd, hs⟩ := hf a b hr u c t hc
  exact ⟨d, yields_bind.mpr ⟨b, u, hb, hd⟩, hs⟩

theorem bind_eq {S : γ → δ → Prop} {x y : m α} {f : α → m γ} {g : α → m δ} (hx : Simulates Eq x y)
    (hf : ∀ a, Simulates S (f a) (g a)) : Simulates S (x >>= f) (y >>= g) := by
  refine hx.bind fun a b hab => ?_
  subst hab
  exact hf a

theorem map [LawfulMonad m] {S : γ → δ → Prop} {x : m α} {y : m β} {f : α → γ} {g : β → δ}
    (hx : Simulates R x y) (hf : ∀ a b, R a b → S (f a) (g b)) :
    Simulates S (f <$> x) (g <$> y) := by
  rw [← bind_pure_comp, ← bind_pure_comp]
  exact hx.bind fun a b hr => pure (hf a b hr)

/-- What `P` says of the first run is known of its value. -/
theorem and_left {P : α → Prop} {x : m α} {y : m β} (h : Simulates R x y)
    (hx : ∀ s a t, Yields x s a t → P a) : Simulates (fun a b => P a ∧ R a b) x y := by
  intro s a t ha
  obtain ⟨b, hb, hr⟩ := h s a t ha
  exact ⟨b, hb, hx s a t ha, hr⟩

theorem mapM [LawfulMonad m] {S : γ → δ → Prop} {f : α → m γ} {g : β → m δ} {as : List α}
    {bs : List β} (h : List.Forall₂ (fun a b => Simulates S (f a) (g b)) as bs) :
    Simulates (fun cs ds => cs.length = as.length ∧ List.Forall₂ S cs ds) (as.mapM f)
      (bs.mapM g) := by
  induction h with
  | nil =>
    rw [List.mapM_nil, List.mapM_nil]
    exact pure ⟨rfl, .nil⟩
  | cons h _ ih =>
    rw [List.mapM_cons, List.mapM_cons]
    exact h.bind fun c d hcd => ih.bind fun cs ds hcds =>
      pure ⟨congrArg (· + 1) hcds.1, .cons hcd hcds.2⟩

end Simulates

end

theorem BindM.fruitless_throw {α : Type} (e : Error) : Fruitless (throw e : BindM α) :=
  fun _ _ _ h => yields_throw h

theorem LowerM.fruitless_throw {α : Type} (e : Error) : Fruitless (throw e : LowerM α) := by
  intro s a t h
  cases h

end QueryTree
