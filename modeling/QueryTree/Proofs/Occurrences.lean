import Mathlib.Data.Set.Card
import QueryTree.Proofs.GroupUses
import QueryTree.Proofs.Names

/-!
# Where a group is used

A place in a tree is a list of child numbers. A walk comes once to every place it may enter, so what
is counted is a number of places. Keys and aggregates are counted at the node above the group, which
is its first child, so the counts say of each single use whether it is one of them
(`Expr.FirstUnder`).
-/

namespace QueryTree

namespace Expr

/-- The node at a place, if `descend` lets all nodes above it be entered. -/
def nodeAt? (descend : Expr → Bool) : Expr → List Nat → Option Expr
  | e, [] => some e
  | e, i :: place =>
    if descend e then e.children[i]?.bind fun c => c.nodeAt? descend place else none

/-- The parameter `x` stands at `place`, and no lambda above declares it. -/
def FreeAt (x : String) (e : Expr) (place : List Nat) : Prop :=
  ∃ t, e.nodeAt? (fun n => !n.shadows x) place = some (.parameter x t)

/-- `place` is that of the first child of a node that is `kind`: of the base of a member, or of the
first argument of a call without receiver. -/
def FirstUnder (kind : Expr → Bool) (e : Expr) (place : List Nat) : Prop :=
  ∃ above n, place = above ++ [0] ∧ e.nodeAt? (fun _ => true) above = some n ∧ kind n = true

/-- Whether the expression is a member `Key`. -/
def isKeyAccess : Expr → Bool
  | .member _ "Key" _ => true
  | _ => false

/-- Whether the expression is a call without receiver that aggregates its first argument. -/
def isAggregateCall : Expr → Bool
  | .call .enumerable method none _ _ =>
    ["Count", "LongCount", "Sum", "Min", "Max", "Average"].contains method
  | _ => false

section
variable {descend p : Expr → Bool} {e n c : Expr} {place : List Nat}

/-! ## Places of a walk -/

/-- The places of the nodes with `p` that a walk visits. -/
def visited (descend p : Expr → Bool) (e : Expr) : Set (List Nat) :=
  {place | ∃ n, e.nodeAt? descend place = some n ∧ p n = true}

/-- `visited` for trees in order, of which the first has the number `k`. -/
def visitedFrom (descend p : Expr → Bool) (k : Nat) (cs : List Expr) : Set (List Nat) :=
  {place | ∃ i c below, cs[i]? = some c ∧ below ∈ visited descend p c ∧ place = (k + i) :: below}

theorem visitedFrom_cons (k : Nat) (c : Expr) (cs : List Expr) : visitedFrom descend p k (c :: cs) =
    (k :: ·) '' visited descend p c ∪ visitedFrom descend p (k + 1) cs := by
  ext place
  constructor
  · rintro ⟨i, d, below, hd, hbelow, rfl⟩
    cases i with
    | zero =>
      cases hd
      exact .inl ⟨below, hbelow, rfl⟩
    | succ i => exact .inr ⟨i, d, below, hd, hbelow, by rw [Nat.add_right_comm, Nat.add_assoc]⟩
  · rintro (⟨below, hbelow, rfl⟩ | ⟨i, d, below, hd, hbelow, rfl⟩)
    · exact ⟨0, c, below, rfl, hbelow, rfl⟩
    · exact ⟨i + 1, d, below, hd, hbelow, by rw [Nat.add_right_comm, Nat.add_assoc]⟩

theorem encard_visitedFrom (k : Nat) {cs : List Expr}
    (h : ∀ c ∈ cs, (visited descend p c).encard = (c.walk descend).countP p) :
    (visitedFrom descend p k cs).encard = (cs.flatMap (walk descend)).countP p := by
  induction cs generalizing k with
  | nil => simp [visitedFrom]
  | cons c cs ih =>
    obtain ⟨hc, hcs⟩ := List.forall_mem_cons.mp h
    have hdisjoint : Disjoint ((k :: ·) '' visited descend p c)
        (visitedFrom descend p (k + 1) cs) := by
      rw [Set.disjoint_left]
      rintro _ ⟨below, -, rfl⟩ ⟨i, d, below', -, -, heq⟩
      have := (List.cons.inj heq).1
      omega
    rw [visitedFrom_cons, Set.encard_union_eq hdisjoint, List.cons_injective.encard_image, hc,
      ih (k + 1) hcs]
    simp

theorem visited_eq (e : Expr) : visited descend p e =
    {place | place = [] ∧ p e = true} ∪ if descend e then visitedFrom descend p 0 e.children
      else ∅ := by
  ext place
  cases place with
  | nil => cases descend e <;> simp [visited, visitedFrom, nodeAt?]
  | cons i below =>
    cases hdescend : descend e with
    | false => simp [visited, nodeAt?, hdescend]
    | true =>
      simp only [visited, visitedFrom, nodeAt?, hdescend, if_true, Option.bind_eq_some_iff,
        Set.mem_ofPred_eq, Set.mem_union, reduceCtorEq, false_and, false_or, Nat.zero_add,
        List.cons.injEq]
      constructor
      · rintro ⟨n, ⟨c, hc, hn⟩, hp⟩
        exact ⟨i, c, below, hc, ⟨n, hn, hp⟩, rfl, rfl⟩
      · rintro ⟨_, c, _, hc, ⟨n, hn, hp⟩, rfl, rfl⟩
        exact ⟨n, ⟨c, hc, hn⟩, hp⟩

/-- `walk` comes to every place once. -/
theorem encard_visited (e : Expr) : (visited descend p e).encard = (e.walk descend).countP p := by
  induction e using childrenInduction with
  | step e ih =>
    -- The root is counted apart, since the places below it are numbered by children.
    have hroot : {place : List Nat | place = [] ∧ p e = true}.encard = if p e then 1 else 0 := by
      cases p e <;> simp
    have hdisjoint : Disjoint {place : List Nat | place = [] ∧ p e = true}
        (if descend e then visitedFrom descend p 0 e.children else ∅) := by
      rw [Set.disjoint_left]
      rintro _ ⟨rfl, -⟩ h
      cases hdescend : descend e <;> simp [hdescend, visitedFrom] at h
    rw [visited_eq, Set.encard_union_eq hdisjoint, hroot, walk_eq, List.countP_cons]
    cases hdescend : descend e with
    | false => simp
    | true => simp [encard_visitedFrom 0 ih, add_comm]

/-! ## Uses above and below -/

theorem nodeAt?_concat (e : Expr) (above : List Nat) (i : Nat) : e.nodeAt? descend (above ++ [i]) =
    (e.nodeAt? descend above).bind fun n => if descend n then n.children[i]? else none := by
  induction above generalizing e with
  | nil => simp [nodeAt?]
  | cons j above ih =>
    cases hdescend : descend e <;> simp [nodeAt?, hdescend, ih, Option.bind_assoc]

theorem nodeAt?_of_visited (h : e.nodeAt? descend place = some n) :
    e.nodeAt? (fun _ => true) place = some n := by
  induction place generalizing e with
  | nil => exact h
  | cons i place ih =>
    cases hdescend : descend e with
    | false => simp [nodeAt?, hdescend] at h
    | true =>
      simp only [nodeAt?, hdescend, if_true, Option.bind_eq_some_iff] at h ⊢
      obtain ⟨c, hc, hn⟩ := h
      exact ⟨c, hc, ih hn⟩

end

section
variable {x : String} {e n : Expr}

theorem setOf_freeAt (x : String) (e : Expr) :
    {place | e.FreeAt x place} = visited (fun n => !n.shadows x) (isParameter x) e := by
  ext place
  constructor
  · rintro ⟨t, ht⟩
    exact ⟨_, ht, by simp [isParameter]⟩
  · rintro ⟨n, hn, hp⟩
    obtain ⟨t, rfl⟩ := eq_parameter_of_isParameter hp
    exact ⟨t, hn⟩

/-- There are as many places `FirstUnder` nodes of a kind as there are nodes that use the parameter
first. -/
theorem encard_firstUnder {kind p : Expr → Bool} (hkind : ∀ n, kind n = true → n.shadows x = false)
    (hp : ∀ n, p n = true ↔ kind n = true ∧ ∃ c, n.children[0]? = some c ∧ c.isParameter x = true) :
    {place | e.FreeAt x place ∧ e.FirstUnder kind place}.encard =
      (e.walk fun n => !n.shadows x).countP p := by
  have himage : {place | e.FreeAt x place ∧ e.FirstUnder kind place} =
      (· ++ [0]) '' visited (fun n => !n.shadows x) p e := by
    ext place
    constructor
    · -- No node of the kind declares the parameter, so the walk comes to it on the way to the use.
      rintro ⟨⟨t, ht⟩, above, n, rfl, hn, hk⟩
      rw [nodeAt?_concat, Option.bind_eq_some_iff] at ht
      obtain ⟨n', hn', hc⟩ := ht
      obtain rfl : n' = n := Option.some.inj ((nodeAt?_of_visited hn').symm.trans hn)
      rw [hkind n' hk] at hc
      exact ⟨above, ⟨n', hn', (hp n').mpr ⟨hk, _, hc, by simp [isParameter]⟩⟩, rfl⟩
    · rintro ⟨above, ⟨n, hn, hpn⟩, rfl⟩
      obtain ⟨hk, c, hc, hparam⟩ := (hp n).mp hpn
      obtain ⟨t, rfl⟩ := eq_parameter_of_isParameter hparam
      exact ⟨⟨t, by simp [nodeAt?_concat, hn, hkind n hk, hc]⟩, above, n, rfl,
        nodeAt?_of_visited hn, hk⟩
  rw [himage, (List.append_left_injective [0]).encard_image, encard_visited]

theorem isKeyOf_iff (x : String) (n : Expr) : n.isKeyOf x = true ↔
    n.isKeyAccess = true ∧ ∃ c, n.children[0]? = some c ∧ c.isParameter x = true := by
  unfold isKeyOf isKeyAccess
  split <;> simp [children]

theorem isSome_aggregateOf?_iff (x : String) (n : Expr) : (n.aggregateOf? x).isSome = true ↔
    n.isAggregateCall = true ∧ ∃ c, n.children[0]? = some c ∧ c.isParameter x = true := by
  have hmethod : ∀ method, (AggregateKind.ofMethod? method).isSome =
      ["Count", "LongCount", "Sum", "Min", "Max", "Average"].contains method := by
    intro method
    unfold AggregateKind.ofMethod?
    split <;> simp_all
  cases n with
  | call surface method receiver args t =>
    cases receiver with
    | some receiver => cases surface <;> simp [aggregateOf?, isAggregateCall]
    | none =>
      cases args with
      | nil => simp [aggregateOf?, children]
      | cons group rest =>
        cases surface <;> simp only [aggregateOf?, isAggregateCall, ← hmethod] <;>
          by_cases hgroup : group.isParameter x = true <;> simp [hgroup, children]
  | _ => simp [aggregateOf?, isAggregateCall]

end

end Expr

namespace GroupUses

/-- Uses of `g` are counted one by one: there are as many as there are places where the variable is
free, and none is left over if and only if each stands in a key or an aggregate. -/
theorem group_uses_exact (body : Expr) (g : String) :
    (of body g).key + (of body g).aggregates ≤ (of body g).total ∧
    {place | body.FreeAt g place}.encard = (of body g).total ∧
    ((of body g).other = false ↔ ∀ place, body.FreeAt g place →
      body.FirstUnder Expr.isKeyAccess place ∨ body.FirstUnder Expr.isAggregateCall place) := by
  have huses : {place | body.FreeAt g place}.encard = (of body g).total := by
    rw [Expr.setOf_freeAt, Expr.encard_visited]
    rfl
  refine ⟨key_add_aggregates_le body, huses, ?_⟩
  -- Keys and aggregates are at places of their own, so their numbers add up to that of one set of
  -- uses.
  let keys := {place | body.FreeAt g place ∧ body.FirstUnder Expr.isKeyAccess place}
  let aggregates := {place | body.FreeAt g place ∧ body.FirstUnder Expr.isAggregateCall place}
  have hkeys : keys.encard = (of body g).key :=
    Expr.encard_firstUnder (fun n h => by cases n <;> first | rfl | cases h) (Expr.isKeyOf_iff g)
  have haggregates : aggregates.encard = (of body g).aggregates :=
    Expr.encard_firstUnder (fun n h => by cases n <;> first | rfl | cases h)
      (Expr.isSome_aggregateOf?_iff g)
  have hdisjoint : Disjoint keys aggregates := by
    rw [Set.disjoint_left]
    rintro _ ⟨-, above, n, rfl, hn, hkey⟩ ⟨-, above', n', heq, hn', hagg⟩
    obtain rfl := List.append_cancel_right heq
    obtain rfl := Option.some.inj (hn.symm.trans hn')
    cases n <;> first | cases hkey | cases hagg
  have hunion : (keys ∪ aggregates).encard = ((of body g).key + (of body g).aggregates : ℕ) := by
    rw [Set.encard_union_eq hdisjoint, hkeys, haggregates, Nat.cast_add]
  have hsub : keys ∪ aggregates ⊆ {place | body.FreeAt g place} := Set.union_subset (fun _ h => h.1)
    fun _ h => h.1
  have hfinite := (Set.finite_of_encard_eq_coe huses).subset hsub
  rw [other_eq_false, ← Nat.cast_le (α := ℕ∞), ← hunion, ← huses]
  constructor
  · intro hle place hplace
    have heq := hfinite.eq_of_subset_of_encard_le hsub hle
    rcases heq.ge hplace with h | h
    · exact .inl h.2
    · exact .inr h.2
  · intro h
    exact Set.encard_le_encard fun place hplace => (h place hplace).imp (⟨hplace, ·⟩) (⟨hplace, ·⟩)

end GroupUses

end QueryTree
