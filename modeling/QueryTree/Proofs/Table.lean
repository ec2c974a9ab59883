import Mathlib
import QueryTree.Proofs.Alike

/-!
# The table of parameters

A name is searched for among more candidates than there are entries, so the search ends with one
that can be used. Entries are only added (`Params.Extends`). With the standard options all names are
plain words that are not reserved.
-/

namespace QueryTree

/-! ## Searching for a name -/

/-- If the number that is found does not pass `test`, none of those tried does. -/
theorem firstFrom_failed {test : Nat → Bool} {fuel start : Nat}
    (h : test (firstFrom test fuel start) = false) : ∀ i ≤ fuel, test (start + i) = false := by
  induction fuel generalizing start with
  | zero =>
    intro i hi
    obtain rfl : i = 0 := Nat.le_zero.mp hi
    exact h
  | succ fuel ih =>
    intro i hi
    cases hstart : test start with
    | true => simp [firstFrom, hstart] at h
    | false =>
      rw [firstFrom, hstart] at h
      cases i with
      | zero => exact hstart
      | succ i =>
        rw [show start + (i + 1) = start + 1 + i by omega]
        exact ih h i (Nat.le_of_succ_le_succ hi)

/-- If only numbers fail whose name is `taken`, a search that may try one more number than there are
taken names finds one that passes. -/
theorem firstFrom_finds {name : Nat → String} (hname : Function.Injective name)
    {taken : List String} {test : Nat → Bool} (htest : ∀ n, test n = false → name n ∈ taken)
    (start : Nat) : test (firstFrom test taken.length start) = true := by
  by_contra h
  have hfailed := firstFrom_failed (Bool.eq_false_iff.mpr h)
  have hnodup : ((List.range (taken.length + 1)).map fun i => name (start + i)).Nodup :=
    List.nodup_range.map (hname.comp (add_right_injective start))
  have hsubset : (List.range (taken.length + 1)).map (fun i => name (start + i)) ⊆ taken := by
    intro tried htried
    obtain ⟨i, hi, rfl⟩ := List.mem_map.mp htried
    exact htest _ (hfailed i (Nat.le_of_lt_succ (List.mem_range.mp hi)))
  have hlength := hnodup.length_le_of_subset hsubset
  rw [List.length_map, List.length_range] at hlength
  omega

namespace Params

theorem append_repr_ne (base : String) (n : Nat) : base ++ Nat.repr n ≠ base := by
  intro h
  have hlist : base.toList ++ (Nat.repr n).toList = base.toList := by
    rw [← String.toList_append, h]
  rw [List.append_right_eq_self, Nat.toList_repr] at hlist
  exact Nat.toDigits_ne_nil hlist

theorem candidate_injective (base : String) : Function.Injective (candidate base) := by
  intro m n h
  cases m with
  | zero =>
    cases n with
    | zero => rfl
    | succ n => exact absurd h.symm (append_repr_ne base (n + 1))
  | succ m =>
    cases n with
    | zero => exact absurd h (append_repr_ne base (m + 1))
    | succ n =>
      have hrepr : Nat.repr (m + 1) = Nat.repr (n + 1) := by simpa [candidate] using h
      exact Nat.repr_inj.mp hrepr

theorem recordIdName_injective (p : Params) : Function.Injective p.recordIdName := by
  intro m n h
  have hrepr : Nat.repr m = Nat.repr n := by simpa [recordIdName] using h
  exact Nat.repr_inj.mp hrepr

variable {p q r : Params} {name requested : String} {v w : Value}

theorem length_names (p : Params) : p.names.length = p.entries.length := List.length_map _

theorem contains_iff : p.contains name = true ↔ name ∈ p.names := by
  rw [contains_eq, List.contains_iff_mem]

theorem get?_eq_none (h : name ∉ p.names) : p.get? name = none := by
  rw [← contains_iff, contains, Option.isSome_iff_ne_none, not_not] at h
  exact h

theorem mem_names_of_get? (h : p.get? name = some v) : name ∈ p.names :=
  contains_iff.mp (by rw [contains, h, Option.isSome_some])

/-- `nameFor` gives a name that can stand for the value. -/
theorem accepts_nameFor (p : Params) (requested : String) (v : Value) :
    p.accepts v (p.nameFor requested v) = true := by
  have htaken : ∀ n, p.accepts v (candidate (p.baseName requested) n) = false →
      candidate (p.baseName requested) n ∈ p.names := by
    intro n hn
    by_contra hfree
    rw [accepts, get?_eq_none hfree] at hn
    cases hn
  have hfound := firstFrom_finds (candidate_injective (p.baseName requested)) htaken 0
  rwa [p.length_names] at hfound

/-- `recordId` gives a name that nothing has yet. -/
theorem recordId_fresh (p : Params) (v : Value) : (p.recordId v).1 ∉ p.names := by
  have htaken : ∀ n, (!p.contains (p.recordIdName n)) = false → p.recordIdName n ∈ p.names :=
    fun n hn => contains_iff.mp (by simpa using hn)
  have hfound := firstFrom_finds p.recordIdName_injective htaken p.recordIds
  rw [p.length_names] at hfound
  rw [← contains_iff]
  simpa [recordId] using hfound

/-! ## What names stand for -/

/-- `q` has the entries of `p`, and maybe more after them. -/
def Extends (q p : Params) : Prop := ∃ more, q.entries = p.entries ++ more

theorem Extends.refl (p : Params) : p.Extends p := ⟨[], (List.append_nil _).symm⟩

theorem Extends.trans (hrq : r.Extends q) (hqp : q.Extends p) : r.Extends p := by
  obtain ⟨more, hq⟩ := hqp
  obtain ⟨more', hr⟩ := hrq
  exact ⟨more ++ more', by rw [hr, hq, List.append_assoc]⟩

/-- `Extends` keeps the meaning of a name. -/
theorem Extends.get? (h : q.Extends p) (hv : p.get? name = some v) : q.get? name = some v := by
  obtain ⟨more, hq⟩ := h
  rw [Params.get?, hq, List.lookup_append, show p.entries.lookup name = some v from hv,
    Option.some_or]

theorem Extends.names (h : q.Extends p) : p.names ⊆ q.names := by
  obtain ⟨more, hq⟩ := h
  rw [Params.names, Params.names, hq, List.map_append]
  exact List.subset_append_left _ _

theorem names_append (p : Params) (name : String) (v : Value) :
    (p.append name v).names = p.names ++ [name] :=
  List.map_append

theorem nodup_append (h : p.names.Nodup) (hnew : name ∉ p.names) (v : Value) :
    (p.append name v).names.Nodup := by
  rw [names_append, ← List.concat_eq_append]
  exact h.concat hnew

theorem extends_append (p : Params) (name : String) (v : Value) : (p.append name v).Extends p :=
  ⟨[(name, v)], rfl⟩

theorem extends_named (p : Params) (requested : String) (v : Value) :
    (p.named requested v).2.Extends p := by
  unfold named
  dsimp only
  split
  · exact .refl p
  · exact p.extends_append _ v

theorem extends_recordId (p : Params) (v : Value) : (p.recordId v).2.Extends p :=
  p.extends_append _ v

theorem get?_append (h : name ∉ p.names) : (p.append name v).get? name = some v := by
  rw [get?, append, List.lookup_append, show p.entries.lookup name = none from get?_eq_none h]
  simp

/-- The name that `named` gives stands for the value, or for one that is equal to it. -/
theorem get?_named (p : Params) (requested : String) (v : Value) :
    ∃ w, (p.named requested v).2.get? (p.named requested v).1 = some w ∧ (w == v ∨ w = v) := by
  have haccepts := p.accepts_nameFor requested v
  unfold named
  dsimp only
  split
  case isTrue hold =>
    obtain ⟨w, hw⟩ := Option.isSome_iff_exists.mp hold
    rw [accepts, hw] at haccepts
    exact ⟨w, hw, .inl haccepts⟩
  case isFalse hnew => exact ⟨v, get?_append (mt contains_iff.mpr hnew), .inr rfl⟩

end Params

/-! ## Which names there are -/

/-- A name that a parameter can have: a plain word that is not reserved. -/
structure Fit (name : String) : Prop where
  nonempty : name ≠ ""
  word : ∀ c ∈ name.toList, Text.isWordChar c = true
  free : Options.standard.isReserved name = false

/-- Names with `isReserved` have letters only. -/
theorem isAlpha_of_isReserved {name : String} {c : Char}
    (h : Options.standard.isReserved name = true) (hc : c ∈ name.toList) : c.isAlpha = true := by
  have hletters : Options.standardReserved.all
      (fun word => word.toList.all Char.isAlpha) = true := by
    decide
  obtain ⟨word, hword, hsame⟩ := List.any_eq_true.mp h
  have hlower : c.toLower ∈ word.toList.map Char.toLower := by
    rw [eq_of_beq hsame]
    exact List.mem_map_of_mem hc
  obtain ⟨d, hd, hdc⟩ := List.mem_map.mp hlower
  rw [← c.isAlpha_toLower_eq_isAlpha, ← hdc, d.isAlpha_toLower_eq_isAlpha]
  exact List.all_eq_true.mp (List.all_eq_true.mp hletters word hword) d hd

/-- A word with a character that is no letter is `Fit`. -/
theorem Fit.of_sign {name : String} {c : Char} (hc : c ∈ name.toList) (hsign : c.isAlpha = false)
    (hword : ∀ c ∈ name.toList, Text.isWordChar c = true) : Fit name where
  nonempty := by
    rintro rfl
    cases hc
  word := hword
  free := by
    rw [Bool.eq_false_iff]
    intro h
    rw [isAlpha_of_isReserved h hc] at hsign
    cases hsign

theorem isAlpha_of_isDigit {c : Char} (h : c.isDigit = true) : c.isAlpha = false := by
  simp only [Char.isDigit, ge_iff_le, UInt32.le_iff_toNat_le, Bool.and_eq_true,
    decide_eq_true_eq] at h
  simp only [Char.isAlpha, Char.isUpper, Char.isLower, ge_iff_le, UInt32.le_iff_toNat_le,
    Bool.or_eq_false_iff, Bool.and_eq_false_iff, decide_eq_false_iff_not]
  have h9 : ('9' : Char).val.toNat < ('A' : Char).val.toNat := by decide
  have hz : ('A' : Char).val.toNat ≤ ('a' : Char).val.toNat := by decide
  omega

theorem isDigit_of_mem_repr {n : Nat} {c : Char} (hc : c ∈ (Nat.repr n).toList) :
    c.isDigit = true := by
  rw [Nat.toList_repr] at hc
  exact Nat.isDigit_of_mem_toDigits (by decide) (by decide) hc

theorem Fit.numbered {base : String} (hword : ∀ c ∈ base.toList, Text.isWordChar c = true)
    (n : Nat) : Fit (base ++ Nat.repr n) := by
  obtain ⟨d, hd⟩ : ∃ d, d ∈ (Nat.repr n).toList := by
    rw [Nat.toList_repr]
    exact List.exists_mem_of_ne_nil _ Nat.toDigits_ne_nil
  refine .of_sign (c := d) ?_ ?_ fun c hc => ?_
  · rw [String.toList_append]
    exact List.mem_append_right _ hd
  · exact isAlpha_of_isDigit (isDigit_of_mem_repr hd)
  · rw [String.toList_append] at hc
    rcases List.mem_append.mp hc with hc | hc
    · exact hword c hc
    · simp [Text.isWordChar, Char.isAlphanum, isDigit_of_mem_repr hc]

theorem Fit.candidate {base : String} (h : Fit base) (n : Nat) : Fit (Params.candidate base n) := by
  cases n with
  | zero => exact h
  | succ n => exact .numbered h.word (n + 1)

namespace Params

variable {p : Params} {name : String}

theorem isWordChar_of_mem_clean (name : String) :
    ∀ c ∈ (clean name).toList, Text.isWordChar c = true := by
  unfold clean
  split
  · exact List.all_eq_true.mp (by decide)
  · intro c hc
    rw [String.toList_ofList] at hc
    obtain ⟨d, -, rfl⟩ := List.mem_map.mp hc
    split
    · assumption
    · rfl

theorem clean_ne (name : String) : clean name ≠ "" := by
  unfold clean
  split
  · decide
  · rename_i hname
    intro h
    have hlist := congrArg String.toList h
    rw [String.toList_ofList] at hlist
    simp_all

theorem fit_baseName (h : p.options = .standard) (requested : String) :
    Fit (p.baseName requested) := by
  have hword := isWordChar_of_mem_clean requested
  unfold baseName
  dsimp only
  rw [h]
  split
  · refine .of_sign (c := '_') ?_ rfl fun c hc => ?_
    · rw [String.toList_append]
      exact List.mem_append_left _ List.mem_cons_self
    · rw [String.toList_append] at hc
      rcases List.mem_append.mp hc with hc | hc
      · obtain rfl : c = '_' := by simpa [Options.standard] using hc
        rfl
      · exact hword c hc
  · rename_i hfree
    exact ⟨clean_ne requested, hword, Bool.eq_false_iff.mpr hfree⟩

/-- The standard options, no name given out twice, and all of them `Fit`. -/
structure WellNamed (p : Params) : Prop where
  options : p.options = .standard
  nodup : p.names.Nodup
  fit : ∀ name ∈ p.names, Fit name

namespace WellNamed

theorem empty : (Params.empty .standard).WellNamed := ⟨rfl, .nil, nofun⟩

theorem append (h : p.WellNamed) (hnew : name ∉ p.names) (hfit : Fit name) (v : Value) :
    (p.append name v).WellNamed where
  options := h.options
  nodup := nodup_append h.nodup hnew v
  fit := by
    intro other hother
    rw [names_append] at hother
    rcases List.mem_append.mp hother with hother | hother
    · exact h.fit other hother
    · rw [List.mem_singleton.mp hother]
      exact hfit

theorem named (h : p.WellNamed) (requested : String) (v : Value) :
    (p.named requested v).2.WellNamed := by
  unfold Params.named
  dsimp only
  split
  case isTrue => exact h
  case isFalse hnew =>
    exact h.append (mt contains_iff.mpr hnew) ((fit_baseName h.options requested).candidate _) v

theorem recordId (h : p.WellNamed) (v : Value) : (p.recordId v).2.WellNamed := by
  have hfit : Fit (p.recordId v).1 := by
    show Fit (p.options.recordIdMark ++ Nat.repr _)
    rw [h.options]
    exact .numbered (List.all_eq_true.mp (by decide)) _
  obtain ⟨hoptions, hnodup, hfits⟩ := h.append (p.recordId_fresh v) hfit v
  exact ⟨hoptions, hnodup, hfits⟩

end WellNamed

end Params

end QueryTree
