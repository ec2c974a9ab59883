import Mathlib.Data.List.Induction
import QueryTree.Lowering.Basic
import QueryTree.Proofs.Runs

/-!
# Rows of selects inside each other

The row of each nested select is reached by another number of steps to the parent, as long as their
scopes are different.
-/

namespace QueryTree.Nesting

/-- `n` inside a further select. -/
def into (n : Nesting) (scope : ScopeId) : Nesting := (n.enter.bind scope).2

/-- `n` inside selects each of which is in the one before it. -/
def within (n : Nesting) (scopes : List ScopeId) : Nesting := scopes.foldl into n

theorem lookup_put_self (scope : ScopeId) (level : Nat) (scopes : List (ScopeId × Nat)) :
    (put scope level scopes).lookup scope = some level := by
  induction scopes with
  | nil => simp [put]
  | cons x scopes ih =>
    obtain ⟨s, l⟩ := x
    by_cases h : s = scope
    · simp [put, h]
    · have h' : (scope == s) = false := by simpa using Ne.symm h
      simp [put, h, h', List.lookup_cons, ih]

theorem lookup_put_of_ne {scope other : ScopeId} (h : other ≠ scope) (level : Nat)
    (scopes : List (ScopeId × Nat)) :
    (put scope level scopes).lookup other = scopes.lookup other := by
  induction scopes with
  | nil => simp [put, h]
  | cons x scopes ih =>
    obtain ⟨s, l⟩ := x
    by_cases hs : s = scope
    · subst hs
      have h' : (other == s) = false := by simpa using h
      simp [put, List.lookup_cons, h']
    · simp only [put, beq_iff_eq, hs, if_false, List.lookup_cons, ih]

theorem put_put_of_lookup {scope : ScopeId} {old : Nat} {scopes : List (ScopeId × Nat)}
    (level : Nat) (h : scopes.lookup scope = some old) :
    put scope old (put scope level scopes) = scopes := by
  induction scopes with
  | nil => cases h
  | cons x scopes ih =>
    obtain ⟨s, l⟩ := x
    by_cases hs : s = scope
    · subst hs
      obtain rfl : l = old := by simpa using h
      simp [put]
    · have hs' : (scope == s) = false := by simpa using Ne.symm hs
      rw [List.lookup_cons, hs'] at h
      simp [put, hs, ih h]

theorem eraseP_put_of_lookup {scope : ScopeId} {scopes : List (ScopeId × Nat)} (level : Nat)
    (h : scopes.lookup scope = none) : (put scope level scopes).eraseP (·.1 == scope) = scopes := by
  induction scopes with
  | nil => simp [put]
  | cons x scopes ih =>
    obtain ⟨s, l⟩ := x
    by_cases hs : s = scope
    · subst hs
      simp at h
    · have hs' : (scope == s) = false := by simpa using Ne.symm hs
      rw [List.lookup_cons, hs'] at h
      simp [put, hs, ih h]

/-- `restore` undoes `bind`. -/
theorem restore_bind (n : Nesting) (scope : ScopeId) :
    (n.bind scope).2.restore scope (n.bind scope).1 = n := by
  unfold bind
  cases h : n.scopes.lookup scope with
  | some old => simp only [restore, put_put_of_lookup _ h]
  | none => simp only [restore, eraseP_put_of_lookup _ h]

theorem depth_error {n : Nesting} {scope : ScopeId} {e : Error} (h : n.depth scope = .error e) :
    e = .rowOutOfScope := by
  unfold depth at h
  split at h
  · split at h <;> cases h
    rfl
  · cases h
    rfl

/-- `into` makes the row of `scope` current. -/
theorem depth_into_self (n : Nesting) (scope : ScopeId) : (n.into scope).depth scope = .ok 0 := by
  simp [into, bind, enter, depth, lookup_put_self]

/-- `into` puts other rows one step further away. -/
theorem depth_into_of_ne {n : Nesting} {scope other : ScopeId} {d : Nat} (h : other ≠ scope)
    (hd : n.depth other = .ok d) : (n.into scope).depth other = .ok (d + 1) := by
  have hlookup : (n.into scope).scopes.lookup other = n.scopes.lookup other :=
    lookup_put_of_ne h _ _
  have hlevel : (n.into scope).level = n.level + 1 := rfl
  unfold depth at hd ⊢
  rw [hlookup, hlevel]
  cases hl : n.scopes.lookup other with
  | none =>
    rw [hl] at hd
    cases hd
  | some level =>
    simp only [hl] at hd ⊢
    split at hd
    · cases hd
      rw [if_pos (by omega)]
      congr 1
      omega
    · cases hd

/-- `within` reaches selects further in by fewer steps. -/
theorem depth_within (n : Nesting) {scopes : List ScopeId} (h : scopes.Nodup) :
    (∀ a ∈ scopes, ∃ d, (n.within scopes).depth a = .ok d) ∧
      scopes.Pairwise fun a b => ∃ d d', (n.within scopes).depth a = .ok d ∧
        (n.within scopes).depth b = .ok d' ∧ d' < d := by
  -- From the outside in: the innermost select is at the end, and all others are one step further
  -- away.
  induction scopes using List.reverseRecOn with
  | nil => exact ⟨nofun, .nil⟩
  | append_singleton scopes scope ih =>
    obtain ⟨hnodup, -, hdisjoint⟩ := List.nodup_append.mp h
    have hne : ∀ a ∈ scopes, a ≠ scope := fun a ha => hdisjoint a ha scope (by simp)
    obtain ⟨hall, hpairs⟩ := ih hnodup
    have hwithin : n.within (scopes ++ [scope]) = (n.within scopes).into scope := by
      simp [within]
    rw [hwithin]
    refine ⟨fun a ha => ?_, List.pairwise_append.mpr ⟨?_, List.pairwise_singleton _ _, ?_⟩⟩
    · rcases List.mem_append.mp ha with ha | ha
      · obtain ⟨d, hd⟩ := hall a ha
        exact ⟨d + 1, depth_into_of_ne (hne a ha) hd⟩
      · obtain rfl := List.mem_singleton.mp ha
        exact ⟨0, depth_into_self _ _⟩
    · refine hpairs.imp_of_mem fun ha hb hd => ?_
      obtain ⟨d, d', hd, hd', hlt⟩ := hd
      exact ⟨d + 1, d' + 1, depth_into_of_ne (hne _ ha) hd, depth_into_of_ne (hne _ hb)
        hd', by omega⟩
    · intro a ha b hb
      obtain rfl := List.mem_singleton.mp hb
      obtain ⟨d, hd⟩ := hall a ha
      exact ⟨d + 1, 0, depth_into_of_ne (hne a ha) hd, depth_into_self _ _, by omega⟩

end QueryTree.Nesting

namespace QueryTree.LowerM

theorem yields_ofExcept {α : Type} {x : Except Error α} {s : LowerState} {a : α} {t : LowerState} :
    Yields (ofExcept x) s a t ↔ x = .ok a ∧ t = s := by
  show (x, s) = (Except.ok a, t) ↔ _
  simp [eq_comm]

theorem yields_get {s a t : LowerState} :
    Yields (get : LowerM LowerState) s a t ↔ a = s ∧ t = s := by
  show ((Except.ok s : Except Error LowerState), s) = (.ok a, t) ↔ _
  simp [eq_comm]

/-- `rowPath` has as many steps as there are levels between. -/
theorem yields_rowPath {s : LowerState} {scope : ScopeId} {d : Nat}
    (h : s.nesting.depth scope = .ok d) :
    ∃ parts : List Surql.Part, Yields (rowPath scope) s parts s ∧ parts.length = d := by
  cases d with
  | zero =>
    refine ⟨[], ?_, rfl⟩
    refine yields_bind.mpr ⟨s, s, yields_get.mpr ⟨rfl, rfl⟩, ?_⟩
    exact yields_bind.mpr ⟨0, s, yields_ofExcept.mpr ⟨h, rfl⟩, yields_pure.mpr ⟨rfl, rfl⟩⟩
  | succ d =>
    refine ⟨.start (.param "parent") :: List.replicate d .parent, ?_, by simp⟩
    refine yields_bind.mpr ⟨s, s, yields_get.mpr ⟨rfl, rfl⟩, ?_⟩
    exact yields_bind.mpr ⟨d + 1, s, yields_ofExcept.mpr ⟨h, rfl⟩, yields_pure.mpr ⟨rfl, rfl⟩⟩

end QueryTree.LowerM
