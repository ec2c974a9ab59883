import QueryTree.Proofs.Runs

/-!
# Runs that do the same

Two computations match if both fail with the same error, or both succeed with values that
correspond, and end in the same state. So nothing that is done with the results can tell them apart.
-/

namespace QueryTree

/-- The same error, or values that correspond. -/
inductive Outcomes {ε α β : Type} (R : α → β → Prop) : Except ε α → Except ε β → Prop
  | error (e : ε) : Outcomes R (.error e) (.error e)
  | ok {a : α} {b : β} : R a b → Outcomes R (.ok a) (.ok b)

theorem Outcomes.refl {ε α : Type} (x : Except ε α) : Outcomes Eq x x := by
  cases x with
  | error e => exact .error e
  | ok a => exact .ok rfl

/-- `Outcomes` go on in the same way. -/
theorem Outcomes.bind_eq {ε α β γ : Type} {R : α → β → Prop} {x : Except ε α} {y : Except ε β}
    {f : α → Except ε γ} {g : β → Except ε γ} (h : Outcomes R x y) (hf : ∀ a b, R a b → f a = g b) :
    (x >>= f) = (y >>= g) := by
  cases h with
  | error e => rfl
  | ok hab => exact hf _ _ hab

/-- Computations that can be compared run by run. -/
class Comparing (m : Type → Type) [Monad m] where
  /-- Both do the same, and their values are related by `R`. -/
  Matches {α β : Type} (R : α → β → Prop) : m α → m β → Prop
  matches_self {α : Type} (x : m α) : Matches Eq x x
  matches_pure {α β : Type} {R : α → β → Prop} {a : α} {b : β} : R a b → Matches R (pure a) (pure b)
  matches_bind {α β γ δ : Type} {R : α → β → Prop} {S : γ → δ → Prop} {x : m α} {y : m β}
    {f : α → m γ} {g : β → m δ} : Matches R x y → (∀ a b, R a b → Matches S (f a) (g b)) →
    Matches S (x >>= f) (y >>= g)

export Comparing (Matches)

instance : Comparing Id where
  Matches R x y := R x.run y.run
  matches_self _ := rfl
  matches_pure h := h
  matches_bind h hf := hf _ _ h

instance {ε σ : Type} : Comparing (ExceptT ε (StateM σ)) where
  Matches R x y := ∀ s, Outcomes R (x.run.run s).1 (y.run.run s).1 ∧
    (x.run.run s).2 = (y.run.run s).2
  matches_self x s := ⟨.refl _, rfl⟩
  matches_pure h s := ⟨.ok h, rfl⟩
  matches_bind := by
    intro α β γ δ R S x y f g hx hf s
    obtain ⟨hout, hstate⟩ := hx s
    rw [run_bind, run_bind]
    generalize x.run.run s = p, y.run.run s = q at hout hstate ⊢
    obtain ⟨r, t⟩ := p
    obtain ⟨r', t'⟩ := q
    obtain rfl : t = t' := hstate
    cases hout with
    | error e => exact ⟨.error e, rfl⟩
    | ok hab => exact hf _ _ hab t

instance {ε σ : Type} : Comparing (StateT σ (Except ε)) where
  Matches R x y := ∀ s, Outcomes (fun p q => R p.1 q.1 ∧ p.2 = q.2) (x.run s) (y.run s)
  matches_self x s := by
    show Outcomes _ (x.run s) (x.run s)
    cases x.run s with
    | error e => exact .error e
    | ok p => exact .ok ⟨rfl, rfl⟩
  matches_pure h s := .ok ⟨h, rfl⟩
  matches_bind := by
    intro α β γ δ R S x y f g hx hf s
    have hout := hx s
    show Outcomes _ (x.run s >>= fun p => (f p.1).run p.2) (y.run s >>= fun p => (g p.1).run p.2)
    generalize x.run s = p, y.run s = q at hout ⊢
    cases hout with
    | error e => exact .error e
    | @ok p q hpq =>
      obtain ⟨a, t⟩ := p
      obtain ⟨b, t'⟩ := q
      obtain ⟨hab, rfl⟩ : R a b ∧ t = t' := hpq
      exact hf a b hab t

namespace Comparing.Matches

section
variable {m : Type → Type} [Monad m] [Comparing m] {α β γ δ : Type} {R : α → β → Prop}
  {S : γ → δ → Prop}

theorem self (x : m α) : Matches Eq x x := matches_self x

theorem pure {a : α} {b : β} (h : R a b) : Matches R (pure a : m α) (Pure.pure b) := matches_pure h

theorem bind {x : m α} {y : m β} {f : α → m γ} {g : β → m δ} (hx : Matches R x y)
    (hf : ∀ a b, R a b → Matches S (f a) (g b)) : Matches S (x >>= f) (y >>= g) :=
  matches_bind hx hf

theorem self_bind (x : m α) {f : α → m γ} {g : α → m δ} (hf : ∀ a, Matches S (f a) (g a)) :
    Matches S (x >>= f) (x >>= g) := by
  refine (self x).bind fun a b hab => ?_
  subst hab
  exact hf a

theorem map [LawfulMonad m] {x : m α} {y : m β} {f : α → γ} {g : β → δ} (hx : Matches R x y)
    (hf : ∀ a b, R a b → S (f a) (g b)) : Matches S (f <$> x) (g <$> y) := by
  rw [← bind_pure_comp, ← bind_pure_comp]
  exact hx.bind fun a b hab => pure (hf a b hab)

theorem mapM [LawfulMonad m] {f : α → m γ} {g : β → m δ} {as : List α} {bs : List β}
    (h : List.Forall₂ (fun a b => Matches S (f a) (g b)) as bs) :
    Matches (fun cs ds => cs.length = as.length ∧ List.Forall₂ S cs ds) (as.mapM f)
      (bs.mapM g) := by
  induction h with
  | nil =>
    rw [List.mapM_nil, List.mapM_nil]
    exact pure ⟨rfl, .nil⟩
  | cons h _ ih =>
    rw [List.mapM_cons, List.mapM_cons]
    exact h.bind fun c d hcd => ih.bind fun cs ds hcds =>
      pure ⟨congrArg (· + 1) hcds.1, .cons hcd hcds.2⟩

end

theorem throw {α β : Type} {R : α → β → Prop} (e : Error) :
    Matches R (MonadExcept.throw e : BindM α) (MonadExcept.throw e : BindM β) :=
  fun _ => ⟨.error e, rfl⟩

end Comparing.Matches

theorem BindM.matches_ofExcept {α β : Type} {R : α → β → Prop} {x : Except Error α}
    {y : Except Error β} (h : Outcomes R x y) : Matches R (BindM.ofExcept x) (BindM.ofExcept y) :=
  fun _ => ⟨h, rfl⟩

end QueryTree
