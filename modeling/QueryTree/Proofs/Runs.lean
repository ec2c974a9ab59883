import Mathlib.Data.List.Forall2
import QueryTree.Capture
import QueryTree.Lowering.Basic
import QueryTree.Proofs.Tree
import QueryTree.Relation.Bind

/-!
# Successful runs

The steps of compiling keep a state and may fail. Naming gives up its state when it fails, binding
and lowering keep theirs. Of a run that succeeds the same is said for all of them: `Yields` gives
its value and the state it leaves.
-/

namespace QueryTree

/-- Computations with a state that may fail. -/
class Yielding (m : Type → Type) (σ : outParam Type) [Monad m] where
  /-- The computation, started in the first state, succeeds with the value and leaves the second. -/
  Yields {α : Type} : m α → σ → α → σ → Prop
  yields_pure {α : Type} {a b : α} {s t : σ} : Yields (pure a) s b t ↔ b = a ∧ t = s
  yields_bind {α β : Type} {x : m α} {f : α → m β} {s t : σ} {b : β} :
    Yields (x >>= f) s b t ↔ ∃ a u, Yields x s a u ∧ Yields (f a) u b t

export Yielding (Yields yields_pure yields_bind)

/-- A failure ends a run of `x >>= f`, and keeps its state. -/
theorem run_bind {ε σ α β : Type} (x : ExceptT ε (StateM σ) α) (f : α → ExceptT ε (StateM σ) β)
    (s : σ) : (x >>= f).run.run s = match x.run.run s with
      | (.ok a, t) => (f a).run.run t
      | (.error e, t) => (.error e, t) := by
  show (StateT.run (ExceptT.run (x >>= f)) s : Except ε β × σ) = _
  rw [ExceptT.run_bind, StateT.run_bind]
  cases hx : x.run.run s with
  | mk r t => cases r <;> rfl

instance {ε σ : Type} : Yielding (ExceptT ε (StateM σ)) σ where
  Yields x s a t := x.run.run s = (.ok a, t)
  yields_pure := by
    intro α a b s t
    show (Except.ok a, s) = (Except.ok b, t) ↔ _
    simp [eq_comm]
  yields_bind := by
    intro α β x f s t b
    show ((x >>= f).run.run s : Except ε β × σ) = (.ok b, t) ↔ _
    simp only [ExceptT.run_bind, StateT.run_bind]
    show ((match (x.run.run s : Except ε α × σ) with | (r, u) => _) : Except ε β × σ) = _ ↔ _
    cases hx : (x.run.run s : Except ε α × σ) with
    | mk r u =>
      cases r with
      | error e =>
        constructor
        · intro h
          cases h
        · rintro ⟨a, v, h, _⟩
          cases h
      | ok a =>
        constructor
        · intro h
          exact ⟨a, u, rfl, h⟩
        · rintro ⟨a', v, h, h'⟩
          cases h
          exact h'

instance {ε σ : Type} : Yielding (StateT σ (Except ε)) σ where
  Yields x s a t := x.run s = .ok (a, t)
  yields_pure := by
    intro α a b s t
    show (Except.ok (a, s) : Except ε (α × σ)) = .ok (b, t) ↔ _
    simp [eq_comm]
  yields_bind := by
    intro α β x f s t b
    show ((x.run s >>= fun p => (f p.1).run p.2) : Except ε (β × σ)) = .ok (b, t) ↔ _
    cases hx : x.run s with
    | error e => simp [Bind.bind, Except.bind]
    | ok p =>
      obtain ⟨a, u⟩ := p
      constructor
      · intro h
        exact ⟨a, u, rfl, h⟩
      · rintro ⟨a', v, h, h'⟩
        cases h
        exact h'

theorem ok_of_bind {ε α β : Type} {x : Except ε α} {f : α → Except ε β} {b : β}
    (h : (x >>= f) = .ok b) : ∃ a, x = .ok a ∧ f a = .ok b := by
  cases x with
  | error e => cases h
  | ok a => exact ⟨a, rfl, h⟩

theorem error_of_bind {ε α β : Type} {x : Except ε α} {f : α → Except ε β} {e : ε}
    (h : (x >>= f) = .error e) : x = .error e ∨ ∃ a, x = .ok a ∧ f a = .error e := by
  cases x with
  | error e' =>
    cases h
    exact .inl rfl
  | ok a => exact .inr ⟨a, rfl, h⟩

section
variable {m : Type → Type} {σ : Type} [Monad m] [LawfulMonad m] [Yielding m σ]

theorem yields_map {α β : Type} {x : m α} {f : α → β} {s t : σ} {b : β} :
    Yields (f <$> x) s b t ↔ ∃ a, Yields x s a t ∧ b = f a := by
  rw [← bind_pure_comp, yields_bind]
  simp only [yields_pure]
  constructor
  · rintro ⟨a, u, hx, rfl, rfl⟩
    exact ⟨a, hx, rfl⟩
  · rintro ⟨a, hx, rfl⟩
    exact ⟨a, t, hx, rfl, rfl⟩

/-- The runs of a list of computations, one after the other. -/
inductive Along {α β : Type} (T : α → σ → β → σ → Prop) : List α → σ → List β → σ → Prop
  | nil (s : σ) : Along T [] s [] s
  | cons {a : α} {b : β} {as : List α} {bs : List β} {s u t : σ} :
    T a s b u → Along T as u bs t → Along T (a :: as) s (b :: bs) t

theorem Along.imp {α β : Type} {T T' : α → σ → β → σ → Prop} {as : List α} {bs : List β} {s t : σ}
    (h : Along T as s bs t) (hT : ∀ a ∈ as, ∀ s b t, T a s b t → T' a s b t) :
    Along T' as s bs t := by
  induction h with
  | nil s => exact .nil s
  | cons h _ ih =>
    exact .cons (hT _ (by simp) _ _ _ h) (ih fun a ha => hT a (by simp [ha]))

/-- What does not depend on the state is true `Along` a list of each item. -/
theorem Along.forall₂ {α β : Type} {R : α → β → Prop} {as : List α} {bs : List β} {s t : σ}
    (h : Along (fun a _ b _ => R a b) as s bs t) : List.Forall₂ R as bs := by
  induction h with
  | nil s => exact .nil
  | cons h _ ih => exact .cons h ih

/-- What each item preserves of the state is preserved `Along` a list. -/
theorem Along.keeps {α β : Type} {I : σ → Prop} {as : List α} {bs : List β} {s t : σ}
    (h : Along (fun _ s _ t => I s → I t) as s bs t) (hs : I s) : I t := by
  induction h with
  | nil s => exact hs
  | cons h _ ih => exact ih (h hs)

theorem yields_mapM {α β : Type} {f : α → m β} {as : List α} {bs : List β} {s t : σ} :
    Yields (as.mapM f) s bs t ↔ Along (fun a => Yields (f a)) as s bs t := by
  induction as generalizing s bs t with
  | nil =>
    rw [List.mapM_nil, yields_pure]
    constructor
    · rintro ⟨rfl, rfl⟩
      exact .nil _
    · intro h
      cases h
      exact ⟨rfl, rfl⟩
  | cons a as ih =>
    simp only [List.mapM_cons, yields_bind, yields_pure, ih]
    constructor
    · rintro ⟨b, u, ha, bs', u', has, rfl, rfl⟩
      exact .cons ha has
    · intro h
      cases h with
      | cons ha has => exact ⟨_, _, ha, _, _, has, rfl, rfl⟩

/-- What is true of replaced nodes, and of a node as soon as it is of its children one after the
other, is true of every tree in `replaceM`. -/
theorem yields_replaceM {f : Expr → m (Option Expr)} {T : Expr → σ → Expr → σ → Prop}
    (node : ∀ e s r t, Yields (f e) s (some r) t → T e s r t)
    (kids : ∀ e s u cs t, Yields (f e) s none u → Along T e.children u cs t →
      T e s (e.withChildren cs) t)
    {e e' : Expr} {s t : σ} (h : Yields (e.replaceM f) s e' t) : T e s e' t := by
  induction e using Expr.childrenInduction generalizing s e' t with
  | step e ih =>
    rw [Expr.replaceM_eq, yields_bind] at h
    obtain ⟨r, u, hf, h⟩ := h
    cases r with
    | some r =>
      obtain ⟨rfl, rfl⟩ := yields_pure.mp h
      exact node e s e' t hf
    | none =>
      obtain ⟨cs, hcs, rfl⟩ := yields_map.mp h
      exact kids e s u cs t hf
        ((yields_mapM.mp hcs).imp fun c hc s' c' t' hc' => ih c hc hc')

end

/-! ## Naming -/

namespace NameM

theorem yields_throw {α : Type} {e : Error} {p : Params} {a : α} {p' : Params} :
    ¬ Yields (throw e : NameM α) p a p' := by
  intro h
  cases h

theorem yields_modifyGet {α : Type} {f : Params → α × Params} {p : Params} {a : α} {p' : Params} :
    Yields (modifyGet f : NameM α) p a p' ↔ f p = (a, p') := by
  show (Except.ok (f p) : Except Error (α × Params)) = .ok (a, p') ↔ _
  simp

end NameM

/-! ## Binding -/

namespace BindM

theorem yields_throw {α : Type} {e : Error} {n : Nat} {a : α} {n' : Nat} :
    ¬ Yields (throw e : BindM α) n a n' := by
  intro h
  cases h

theorem yields_ofExcept {α : Type} {x : Except Error α} {n : Nat} {a : α} {n' : Nat} :
    Yields (ofExcept x) n a n' ↔ x = .ok a ∧ n' = n := by
  show (x, n) = (Except.ok a, n') ↔ _
  simp [eq_comm]

/-- A run of `BindM` that does not fail yields something. -/
theorem exists_yields {α : Type} {x : BindM α} {n : Nat}
    (h : (x.run.run n).1.toOption.isSome = true) : ∃ a n', Yields x n a n' := by
  cases hrun : (x.run.run n : Except Error α × Nat) with
  | mk result n' =>
    rw [hrun] at h
    cases result with
    | ok a => exact ⟨a, n', hrun⟩
    | error e => cases h

theorem yields_freshScope {n : Nat} {s : ScopeId} {n' : Nat} :
    Yields freshScope n s n' ↔ s = ⟨n⟩ ∧ n' = n + 1 := by
  show ((Except.ok (⟨n⟩ : ScopeId) : Except Error ScopeId), n + 1) = (.ok s, n') ↔ _
  simp [eq_comm]

end BindM

/-- `s` with something else put out for each row, unless that is the row. -/
def Select.projectBy (s : Select) (c : Expr) : Select :=
  match c with
  | .row scope _ => if scope == s.scope then s else s.project (.expr c)
  | _ => s.project (.expr c)

theorem Binding.bindProjection_eq (bind : Expr → BindM Expr) (s : Select) (selector : Expr) :
    Binding.bindProjection bind s selector =
      Binding.applyLambda bind s "Select" selector >>= fun c => pure (.select (s.projectBy c)) := by
  unfold Binding.bindProjection
  congr 1
  funext c
  cases c with
  | row scope t => by_cases h : (scope == s.scope) = true <;> simp [Select.projectBy, h]
  | _ => rfl

end QueryTree
