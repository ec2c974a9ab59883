import QueryTree.Expr.Basic

/-!
# Stable sorting by several keys

Rows are compared by their first key, those equal there by the next, and so on; each key goes up or
down. Sorting is stable, so it can be exchanged with leaving rows out and with computing something
from each row.
-/

namespace QueryTree

/-- A relation that compares any two values. -/
structure Comparison (V : Type) where
  le : V → V → Bool
  total : ∀ a b, le a b || le b a
  trans : ∀ a b c, le a b → le b c → le a c

namespace Comparison

variable {α β V : Type} (C : Comparison V)

/-- Compares by `key`, in either direction. -/
def byKey (descending : Bool) (key : α → V) (a b : α) : Bool :=
  if descending then C.le (key b) (key a) else C.le (key a) (key b)

/-- Compares by the first key that makes a difference. -/
def byKeys : List (Bool × (α → V)) → α → α → Bool
  | [], _, _ => true
  | (descending, key) :: keys, a, b =>
    C.byKey descending key a b && (!C.byKey descending key b a || byKeys keys a b)

theorem byKey_total (descending : Bool) (key : α → V) (a b : α) :
    C.byKey descending key a b || C.byKey descending key b a := by
  cases descending with
  | false => exact C.total (key a) (key b)
  | true => exact C.total (key b) (key a)

theorem byKey_trans {descending : Bool} {key : α → V} {a b c : α}
    (hab : C.byKey descending key a b) (hbc : C.byKey descending key b c) :
    C.byKey descending key a c := by
  cases descending with
  | false => exact C.trans _ _ _ hab hbc
  | true => exact C.trans _ _ _ hbc hab

theorem byKeys_total (keys : List (Bool × (α → V))) (a b : α) :
    C.byKeys keys a b || C.byKeys keys b a := by
  induction keys with
  | nil => rfl
  | cons k keys ih =>
    obtain ⟨descending, key⟩ := k
    have h := C.byKey_total descending key a b
    simp only [byKeys]
    cases hab : C.byKey descending key a b <;> cases hba : C.byKey descending key b a <;>
      simp_all

theorem byKeys_trans {keys : List (Bool × (α → V))} {a b c : α} (hab : C.byKeys keys a b)
    (hbc : C.byKeys keys b c) : C.byKeys keys a c := by
  induction keys with
  | nil => rfl
  | cons k keys ih =>
    obtain ⟨descending, key⟩ := k
    simp only [byKeys, Bool.and_eq_true, Bool.or_eq_true, Bool.not_eq_true'] at hab hbc ⊢
    refine ⟨C.byKey_trans hab.1 hbc.1, ?_⟩
    cases hca : C.byKey descending key c a with
    | false => exact .inl rfl
    | true =>
      -- All three are equal in this key, so the other keys decide both times.
      have hba := C.byKey_trans hbc.1 hca
      have hcb := C.byKey_trans hca hab.1
      refine .inr (ih ?_ ?_)
      · exact hab.2.resolve_left (by simp [hba])
      · exact hbc.2.resolve_left (by simp [hcb])

/-- `byKeys` of what is computed from each row are keys of the row. -/
theorem byKeys_map (keys : List (Bool × (β → V))) (f : α → β) (a b : α) :
    C.byKeys (keys.map fun k => (k.1, k.2 ∘ f)) a b = C.byKeys keys (f a) (f b) := by
  induction keys with
  | nil => rfl
  | cons k keys ih =>
    obtain ⟨descending, key⟩ := k
    simp only [List.map_cons, byKeys, ih]
    rfl

/-- Sorts by several keys; what is equal in all of them keeps its order. -/
def sort (keys : List (Bool × (α → V))) (xs : List α) : List α := xs.mergeSort (C.byKeys keys)

theorem sort_nil (xs : List α) : C.sort [] xs = xs :=
  List.mergeSort_of_pairwise (List.pairwise_of_forall fun _ _ => rfl)

theorem map_sort (keys : List (Bool × (β → V))) (f : α → β) (xs : List α) :
    C.sort keys (xs.map f) = (C.sort (keys.map fun k => (k.1, k.2 ∘ f)) xs).map f :=
  (List.map_mergeSort fun a _ b _ => C.byKeys_map keys f a b).symm

end Comparison

/-- A list is cut in one way only into a part that passes `q` and a part that does not. -/
theorem append_left_unique {α : Type} {q : α → Bool} {as as' bs bs' : List α}
    (h : as ++ bs = as' ++ bs') (ha : ∀ a ∈ as, q a) (ha' : ∀ a ∈ as', q a)
    (hb : ∀ b ∈ bs, q b = false) (hb' : ∀ b ∈ bs', q b = false) : as = as' ∧ bs = bs' := by
  have hcut : ∀ xs ys : List α, (∀ a ∈ xs, q a) → (∀ b ∈ ys, q b = false) →
      (xs ++ ys).takeWhile q = xs := by
    intro xs ys hx hy
    rw [List.takeWhile_append_of_pos hx]
    cases ys with
    | nil => simp
    | cons y ys => simp [hy y (by simp)]
  have has : as = as' := by rw [← hcut as bs ha hb, h, hcut as' bs' ha' hb']
  subst has
  exact ⟨rfl, List.append_cancel_left h⟩

/-- `filter` before `sort` is `filter` afterwards. -/
theorem Comparison.filter_sort {α V : Type} (C : Comparison V) (keys : List (Bool × (α → V)))
    (p : α → Bool) (xs : List α) : (C.sort keys xs).filter p = C.sort keys (xs.filter p) := by
  have htrans : ∀ a b c : α, C.byKeys keys a b → C.byKeys keys b c → C.byKeys keys a c :=
    fun a b c => C.byKeys_trans
  have htotal := C.byKeys_total keys
  -- What is after the place of `x` in the sorted list is not before `x`.
  have hafter : ∀ (x : α) (as bs ys : List α), ys.mergeSort (C.byKeys keys) = as ++ x :: bs →
      ∀ b ∈ bs, (!C.byKeys keys x b) = false := by
    intro x as bs ys hys b hb
    have hsorted := List.pairwise_mergeSort htrans htotal ys
    rw [hys, List.pairwise_append] at hsorted
    simpa using (List.pairwise_cons.mp hsorted.2.1).1 b hb
  unfold sort
  induction xs with
  | nil => simp
  | cons x xs ih =>
    obtain ⟨as, bs, hcons, hrest, hbefore⟩ := List.mergeSort_cons htrans htotal x xs
    rw [hrest, List.filter_append] at ih
    rw [hcons, List.filter_append, List.filter_cons, List.filter_cons]
    cases hp : p x with
    | false => simpa using ih
    | true =>
      obtain ⟨as', bs', hcons', hrest', hbefore'⟩ :=
        List.mergeSort_cons htrans htotal x (xs.filter p)
      rw [hrest'] at ih
      have hafter' := hafter x as bs (x :: xs) hcons
      obtain ⟨ha, hb⟩ := append_left_unique ih
        (fun a ha => hbefore a ((List.mem_filter.mp ha).1)) hbefore'
        (fun b hb => hafter' b ((List.mem_filter.mp hb).1)) (hafter x as' bs' _ hcons')
      simp only [if_true]
      rw [hcons', ha, hb]

end QueryTree
