import QueryTree.Proofs.ReservedNames

/-!
# The search for a name

The table tries one number after the other for a name. Here the search is a loop without a limit on
how many are tried, and it ends: each name that is refused is that of another entry, so the first
name that is not refused comes within one more try than there are entries.
-/

namespace QueryTree

/-- A loop that tries one number after the other from `start` on, and ends with the first that is
`fine`. It tries `tried` numbers and ends with `found`. -/
inductive Tries (fine : Nat → Prop) : (start tried found : Nat) → Prop where
  | here {n : Nat} : fine n → Tries fine n 1 n
  | further {n tried found : Nat} : ¬ fine n → Tries fine (n + 1) tried found →
    Tries fine n (tried + 1) found

namespace Tries

variable {fine : Nat → Prop} {start tried found : Nat}

/-- `Tries` goes on by one with each number. -/
theorem start_add_tried (h : Tries fine start tried found) : start + tried = found + 1 := by
  induction h with
  | here _ => rfl
  | further _ _ ih => omega

theorem fine_found (h : Tries fine start tried found) : fine found := by
  induction h with
  | here hfine => exact hfine
  | further _ _ ih => exact ih

/-- No number before `found` is fine. -/
theorem not_fine (h : Tries fine start tried found) : ∀ j, start ≤ j → j < found → ¬ fine j := by
  induction h with
  | here _ =>
    intro j hstart hfound
    omega
  | @further n tried found hn _ ih =>
    intro j hstart hfound
    by_cases hj : j = n
    · rw [hj]
      exact hn
    · exact ih j (by omega) hfound

end Tries

/-- `firstFrom` that finds something is what the loop does, which ends within `fuel`. -/
theorem firstFrom_tries {test : Nat → Bool} {fine : Nat → Prop}
    (htest : ∀ n, test n = true ↔ fine n) {fuel start : Nat}
    (h : test (firstFrom test fuel start) = true) :
    ∃ tried ≤ fuel + 1, Tries fine start tried (firstFrom test fuel start) := by
  induction fuel generalizing start with
  | zero => exact ⟨1, Nat.le_refl 1, .here ((htest start).mp h)⟩
  | succ fuel ih =>
    by_cases hstart : test start = true
    · have hfound : firstFrom test (fuel + 1) start = start := if_pos hstart
      rw [hfound]
      exact ⟨1, by omega, .here ((htest start).mp hstart)⟩
    · have hnext : firstFrom test (fuel + 1) start = firstFrom test fuel (start + 1) :=
        if_neg hstart
      rw [hnext] at h ⊢
      obtain ⟨tried, hle, htries⟩ := ih h
      exact ⟨tried + 1, by omega, .further (mt (htest start).mpr hstart) htries⟩

namespace Params

/-- `name` is not in the table, or stands for a value equal to `v`. -/
def Usable (p : Params) (v : Value) (name : String) : Prop :=
  p.get? name = none ∨ ∃ w, p.get? name = some w ∧ (w == v) = true

variable {p : Params} {v : Value} {name : String}

theorem accepts_iff : p.accepts v name = true ↔ p.Usable v name := by
  unfold accepts Usable
  cases p.get? name with
  | none => simp
  | some w => simp

theorem not_contains_iff : (!p.contains name) = true ↔ p.get? name = none := by
  rw [contains, Option.not_isSome, Option.isNone_iff_eq_none]

/-- The loop of `nameFor` ends with the number of its name. -/
theorem nameFor_tries (p : Params) (requested : String) (v : Value) :
    ∃ tried ≤ p.entries.length + 1, ∃ k,
      Tries (fun k => p.Usable v (candidate (p.baseName requested) k)) 0 tried k ∧
        p.nameFor requested v = candidate (p.baseName requested) k := by
  have htest : ∀ k, p.accepts v (candidate (p.baseName requested) k) = true ↔
      p.Usable v (candidate (p.baseName requested) k) := fun _ => accepts_iff
  obtain ⟨tried, hle, htries⟩ := firstFrom_tries htest (p.accepts_nameFor requested v)
  exact ⟨tried, hle, _, htries, rfl⟩

/-- The loop of `recordId` ends with the number before the one that the next loop starts with. -/
theorem recordId_tries (p : Params) (v : Value) :
    ∃ tried ≤ p.entries.length + 1, ∃ k,
      Tries (fun k => p.get? (p.recordIdName k) = none) p.recordIds tried k ∧
        (p.recordId v).1 = p.recordIdName k ∧ (p.recordId v).2.recordIds = k + 1 := by
  have hfree : (!p.contains (p.recordId v).1) = true := by
    rw [not_contains_iff]
    exact get?_eq_none (p.recordId_fresh v)
  have htest : ∀ k, (!p.contains (p.recordIdName k)) = true ↔ p.get? (p.recordIdName k) = none :=
    fun _ => not_contains_iff
  obtain ⟨tried, hle, htries⟩ := firstFrom_tries htest hfree
  exact ⟨tried, hle, _, htries, rfl, rfl⟩

/-- Both searches of a table that `before` has filled end after at most one name more than it has
entries. A captured value gets the first of `base` and `base` with 1, 2, … after it that is not in
the table or stands for an equal value; a record id the first name from the counter on that is not
in the table, and the counter goes on by one with each try. -/
theorem name_search_first_fit (o : Options) (before : List Request) (requested : String)
    (v rid : Value) :
    let p := (empty o).afterAll before
    let base := if o.isReserved (clean requested) then o.reservedMark ++ clean requested
      else clean requested
    let ridName := fun k => o.recordIdMark ++ Nat.repr k
    (∃ tried ≤ p.entries.length + 1, ∃ k, Tries (fun k => p.Usable v (candidate base k)) 0 tried k ∧
        (p.named requested v).1 = candidate base k ∧
        p.Usable v (candidate base k) ∧ ∀ j < k, ¬ p.Usable v (candidate base j)) ∧
      ∃ tried ≤ p.entries.length + 1, ∃ k, Tries (fun k => p.get? (ridName k) = none)
        p.recordIds tried k ∧ (p.recordId rid).1 = ridName k ∧
        (p.recordId rid).2.recordIds = p.recordIds + tried ∧
        p.get? (ridName k) = none ∧ ∀ j, p.recordIds ≤ j → j < k → p.get? (ridName j) ≠ none := by
  intro p base ridName
  have hbase : p.baseName requested = base := baseName_afterAll o before requested
  have hrid : p.recordIdName = ridName := by
    funext k
    show p.options.recordIdMark ++ Nat.repr k = _
    rw [show p.options = o from options_afterAll (empty o) before]
  constructor
  · obtain ⟨tried, hle, k, htries, hname⟩ := p.nameFor_tries requested v
    rw [hbase] at htries hname
    exact ⟨tried, hle, k, htries, hname, htries.fine_found, fun j hj =>
      htries.not_fine j (Nat.zero_le j) hj⟩
  · obtain ⟨tried, hle, k, htries, hname, hcounter⟩ := p.recordId_tries rid
    rw [hrid] at htries hname
    have hnext : (p.recordId rid).2.recordIds = p.recordIds + tried := by
      rw [hcounter, htries.start_add_tried]
    exact ⟨tried, hle, k, htries, hname, hnext, htries.fine_found, htries.not_fine⟩

end Params

end QueryTree
