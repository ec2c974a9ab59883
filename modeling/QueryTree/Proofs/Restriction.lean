import QueryTree.Proofs.GroupClauses
import QueryTree.Proofs.Meaning

/-!
# Conditions and windows

An operator with a predicate puts it into the filter of its source, also if that is cut to a window.
Rows are left out first and counted afterwards, so the window slides. That is the same as looking at
the rows of the window if those that are skipped satisfy the predicate and either all rows of the
window do, or none after it.
-/

namespace QueryTree

open Binding

/-! ## Windows -/

/-- The elements that a `window` skips. -/
def skipped {α : Type} (skip : Option Nat) (xs : List α) : List α :=
  match skip with
  | some n => xs.take n
  | none => []

/-- The elements after a `window`. -/
def leftOver {α : Type} (skip take : Option Nat) (xs : List α) : List α :=
  match take with
  | some n => (window skip none xs).drop n
  | none => []

section
variable {α : Type} {p : α → Bool} {xs : List α}

/-- `drop` before `filter` is the same as afterwards, if nothing of what is skipped is left out. -/
theorem drop_filter_eq {n : Nat} (h : ∀ x ∈ xs.take n, p x = true) :
    (xs.filter p).drop n = (xs.drop n).filter p := by
  have hparts : xs.filter p = xs.take n ++ (xs.drop n).filter p := by
    conv_lhs => rw [← List.take_append_drop n xs]
    rw [List.filter_append, List.filter_eq_self.mpr h]
  rw [hparts]
  by_cases hlen : n ≤ xs.length
  · exact List.drop_left' (List.length_take_of_le hlen)
  · have hnil : xs.drop n = [] := List.drop_eq_nil_of_le (by omega)
    rw [hnil, List.filter_nil, List.append_nil]
    exact List.drop_eq_nil_of_le (List.length_take_le n xs)

/-- `take` before `filter` is the same as afterwards, if nothing of what is taken is left out, or
all of the rest. -/
theorem take_filter_eq {n : Nat}
    (h : (∀ x ∈ xs.take n, p x = true) ∨ ∀ x ∈ xs.drop n, p x = false) :
    (xs.filter p).take n = (xs.take n).filter p := by
  have hparts : xs.filter p = (xs.take n).filter p ++ (xs.drop n).filter p := by
    rw [← List.filter_append, List.take_append_drop]
  rw [hparts]
  rcases h with hin | hafter
  · rw [List.filter_eq_self.mpr hin]
    by_cases hlen : n ≤ xs.length
    · exact List.take_left' (List.length_take_of_le hlen)
    · have hnil : xs.drop n = [] := List.drop_eq_nil_of_le (by omega)
      rw [hnil, List.filter_nil, List.append_nil, List.take_take, Nat.min_self]
  · have hnil : (xs.drop n).filter p = [] := List.filter_eq_nil_iff.mpr (by simpa using hafter)
    rw [hnil, List.append_nil]
    apply List.take_of_length_le
    have htest := List.length_filter_le p (xs.take n)
    have htake := List.length_take_le n xs
    omega

/-- A `window` of the elements that pass a test has the elements of the window that do, if the test
fails for no element before it, and for no element in it or for all elements after it. -/
theorem window_filter_eq {skip take : Option Nat} (hbefore : ∀ x ∈ skipped skip xs, p x = true)
    (hafter : (∀ x ∈ window skip take xs, p x = true) ∨ ∀ x ∈ leftOver skip take xs, p x = false) :
    window skip take (xs.filter p) = (window skip take xs).filter p := by
  have hskip : window skip none (xs.filter p) = (window skip none xs).filter p := by
    cases skip with
    | none => rfl
    | some n => exact drop_filter_eq hbefore
  cases take with
  | none => exact hskip
  | some n =>
    show (window skip none (xs.filter p)).take n = _
    rw [hskip]
    exact take_filter_eq hafter

end

/-! ## Operators with a predicate -/

namespace QueryOp

/-- Whether an operator with a predicate looks at some of the rows only. -/
def restricts : QueryOp → Bool
  | .filter | .all | .any | .first _ | .last _ | .single => true
  | _ => false

/-- Whether an operator looks at a row of which the predicate says `holds`: all rows satisfy it if
no row does not. -/
def looksAt (op : QueryOp) (holds : Bool) : Bool :=
  if op = .all then !holds else holds

/-- `s` with the rows that `op` looks at. -/
def restriction (op : QueryOp) (s : Select) (c : Expr) : Select :=
  match op with
  | .all => s.filterBy c.not
  | .single => { s.filterBy c with single := true }
  | _ => s.filterBy c

variable {op : QueryOp} {bind : Expr → BindM Expr} {method : String} {s : Select}
  {p c : Expr} {t : Ty} {n m : Nat}

/-- Binding an operator with a predicate gives something made of its `restriction`. -/
theorem yields_restriction (hop : op.restricts = true)
    (hc : Yields (applyLambda bind s method p) n c m) :
    ∃ r, Yields (bindOperator bind op method (.select s) [p] t) n r m ∧
      r.nodes.filterMap Expr.select? = [op.restriction s c] := by
  have hrestricted : Yields (restricted bind s method (some p)) n (s.filterBy c) m :=
    yields_bind.mpr ⟨some c, m, yields_bind.mpr ⟨c, m, hc, yields_pure.mpr ⟨rfl, rfl⟩⟩,
      yields_pure.mpr ⟨rfl, rfl⟩⟩
  have hsequence : Yields (sequence bind method (.select s) (some p)) n (.subquery (s.filterBy c))
      m :=
    yields_bind.mpr ⟨s.filterBy c, m, hrestricted, yields_pure.mpr ⟨rfl, rfl⟩⟩
  have hselect : Yields (expectSelect method (.select s)) n s n :=
    yields_expectSelect.mpr ⟨rfl, rfl⟩
  cases op with
  | filter =>
    refine ⟨.select (s.filterBy c), yields_bind.mpr ⟨s, n, hselect, ?_⟩, rfl⟩
    exact yields_bind.mpr ⟨c, m, hc, yields_pure.mpr ⟨rfl, rfl⟩⟩
  | all =>
    exact ⟨_, yields_bind.mpr ⟨s, n, hselect,
      yields_bind.mpr ⟨c, m, hc, yields_pure.mpr ⟨rfl, rfl⟩⟩⟩, rfl⟩
  | any => exact ⟨_, yields_bind.mpr ⟨_, m, hsequence, yields_pure.mpr ⟨rfl, rfl⟩⟩, rfl⟩
  | first default =>
    refine ⟨_, yields_bind.mpr ⟨_, m, hsequence, yields_pure.mpr ⟨rfl, rfl⟩⟩, ?_⟩
    cases default <;> rfl
  | last default =>
    refine ⟨_, yields_bind.mpr ⟨_, m, hsequence, yields_pure.mpr ⟨rfl, rfl⟩⟩, ?_⟩
    cases default <;> rfl
  | single =>
    refine ⟨.select { s.filterBy c with single := true }, yields_bind.mpr ⟨s, n, hselect, ?_⟩, rfl⟩
    exact yields_bind.mpr ⟨_, m, hrestricted, yields_pure.mpr ⟨rfl, rfl⟩⟩
  | _ => cases hop

/-- The rows of `restriction` are counted after the others have been left out. -/
theorem rows_restriction {V : Type} [DecidableEq V] (M : Semantics V) (σ : Scene V)
    (h : s.group = none) :
    M.rows σ (op.restriction s c) = (M.cut σ s ((M.candidates σ s).filter fun row =>
      op.looksAt (M.holds (M.value (σ.enter s.scope [row]) c)))).map (M.outputOf σ s) := by
  cases op with
  | all =>
    show M.rows σ (s.filterBy c.not) = _
    rw [M.rows_filterBy σ h]
    simp only [M.holds_value_not]
    rfl
  | single =>
    show M.rows σ { s.filterBy c with single := true } = _
    rw [M.rows_single, M.rows_filterBy σ h]
    rfl
  | _ => exact M.rows_filterBy σ h c

end QueryOp

/-! ## Predicates after a window -/

/-- A plain function for the rows of `s` is bound by filling in the row. -/
theorem RowFn.eq_filled_of_yields {outer : List String} {scope : ScopeId} {s : Select}
    {method : String} {c : Expr} {fuel n m : Nat} (f : RowFn outer scope) (hs : s.Rowwise outer)
    (h : Yields (Binding.applyLambda (bindWith fuel) s method f.arg) n c m) : c = f.filled s := by
  cases fuel with
  | zero =>
    obtain ⟨x, k, -, hbody⟩ := yields_bind.mp h
    exact absurd hbody BindM.yields_throw
  | succ fuel =>
    rw [f.applyLambda hs.groupKey hs.scalar] at h
    exact (yields_pure.mp h).1

/-- The select for an operator with the predicate `p` has the rows that satisfy `p`, cut to the
window of its source, and not the rows of the window that satisfy it. Both are the same if `p` fails
for no row before the window, and for no row in it or for all rows after it. If neither `p` nor what
is put out for a row has queries, what the condition `c` says of a row is what `p` says of what is
put out for it. -/
theorem predicates_act_before_windows {e p c : Expr} {method : String} {op : QueryOp} {t : Ty}
    {s : Select} {fuel n k m : Nat} (he : e.OperatorsAllowed .all)
    (hs : Yields (bindWith fuel e) n (.select s) k) (hop : QueryOp.ofMethod? method = some op)
    (hrestricts : op.restricts = true)
    (hc : Yields (applyLambda (bindWith fuel) s method p) k c m) :
    ∃ r restricted, Yields (bindWith (fuel + 1) (e.followedBy method p t)) n r m ∧
      r.nodes.filterMap Expr.select? = [restricted] ∧
      ∀ {V : Type} [DecidableEq V] (M : Semantics V) (σ : Scene V),
        let passes := fun row => op.looksAt (M.holds (M.value (σ.enter s.scope [row]) c))
        let skip := s.skip.map fun e => M.count (M.value σ e)
        let take := s.take.map fun e => M.count (M.value σ e)
        let candidates := M.candidates σ s
        M.rows σ s = (window skip take candidates).map (M.outputOf σ s) ∧
        M.rows σ restricted = (window skip take (candidates.filter passes)).map (M.outputOf σ s) ∧
        ((∀ row ∈ skipped skip candidates, passes row = true) →
          (∀ row ∈ window skip take candidates, passes row = true) ∨
            (∀ row ∈ leftOver skip take candidates, passes row = false) →
          M.rows σ restricted = ((window skip take candidates).filter passes).map
            (M.outputOf σ s)) ∧
        ∀ {outer : List String} (f : RowFn outer s.scope), f.arg = p → f.body.Plain →
          s.Rowwise outer → ∀ row, M.value (σ.enter s.scope [row]) c =
            f.apply M.toInterpretation σ.toEnv (M.outputOf σ s row) := by
  -- Operators are never applied to a select that takes rows together.
  have hgroup : s.group = none := (bindsClausesAllowed_bindWith fuel e n _ k he hs).1.group_eq_none
  obtain ⟨r, hr, hselects⟩ := QueryOp.yields_restriction (t := t) hrestricts hc
  refine ⟨r, op.restriction s c, yields_followedBy hs hop hr, hselects, ?_⟩
  intro V _ M σ passes skip take candidates
  have hrows := op.rows_restriction (c := c) M σ hgroup
  refine ⟨M.rows_of_ungrouped σ hgroup, hrows, ?_, ?_⟩
  · intro hbefore hafter
    rw [hrows]
    congr 1
    exact window_filter_eq hbefore hafter
  · intro outer f hf hplain hrowwise row
    subst hf
    rw [f.eq_filled_of_yields hrowwise hc]
    exact M.value_filled σ f hplain rfl hrowwise row

namespace Sample

/-- The first `n` posts. -/
def firstPosts (n : Int64) : Expr :=
  (Expr.table "post" .unknown).followedBy "Take" (.int32 n) .unknown

/-- `firstPosts` as they are bound. -/
def firstPostsSelect (n : Int64) : Select :=
  { Select.ofTable ⟨0⟩ "post" .unknown with take := some (.int32 n) }

/-- The condition that a post has the number one. -/
def numberOne : Expr := (col "p" "x").eq (.int32 1)

/-- Whether a post has the number one. -/
def isNumberOne : RowFn [] ⟨0⟩ :=
  rowFn ⟨0⟩ "p" numberOne (by decide) (by decide)

/-- A post with a number. -/
def numbered (n : Int) : Datum := Datum.nil.set "x" (.number n)

end Sample

section
open Sample

theorem yields_firstPosts (fuel : Nat) (n : Int64) :
    Yields (bindWith (fuel + 2) (firstPosts n)) 0 (.select (firstPostsSelect n)) 1 := by
  have htable : Yields (bindWith (fuel + 1) (.table "post" .unknown)) 0
      (.select (.ofTable ⟨0⟩ "post" .unknown)) 1 :=
    Fuses.table "post" .unknown 0 (fuel + 1) (by show 0 < _; omega)
  have hcount : bindWith (fuel + 1) (.int32 n) = pure (.int32 n) := by
    apply bindWith_scalar
    intro e he
    obtain rfl := List.mem_singleton.mp he
    rfl
  refine yields_followedBy htable rfl ?_
  refine yields_bind.mpr ⟨_, 1, yields_expectSelect.mpr ⟨rfl, rfl⟩, ?_⟩
  rw [hcount]
  exact yields_pure.mpr ⟨rfl, rfl⟩

theorem yields_isNumberOne (fuel : Nat) (method : String) (n : Int64) :
    Yields (Binding.applyLambda (bindWith (fuel + 1)) (firstPostsSelect n) method isNumberOne.arg) 1
      (isNumberOne.filled (firstPostsSelect n)) 1 := by
  have hrow : (firstPostsSelect n).rowValue.Scalar := Expr.scalar_iff.mpr ⟨rfl, nofun⟩
  rw [isNumberOne.applyLambda (s := firstPostsSelect n) rfl hrow]
  exact yields_pure.mpr ⟨rfl, rfl⟩

/-- Nothing is sorted in `firstPosts`. -/
theorem candidates_firstPosts {V : Type} [DecidableEq V] (M : Semantics V) (σ : Scene V)
    (n : Int64) : M.candidates σ (firstPostsSelect n) = M.tables "post" := by
  have hinput : M.input σ (firstPostsSelect n) = M.tables "post" :=
    List.filter_eq_self.mpr fun _ _ => rfl
  rw [Semantics.candidates, hinput]
  exact Comparison.sort_nil _ _

/-- The first two posts have the number one and the third has not. -/
theorem predicates_act_before_windows_firstPosts :
    (firstPosts 2).OperatorsAllowed .all ∧ ∃ r restricted,
      Yields (bindWith 3 ((firstPosts 2).followedBy "FirstOrDefault" isNumberOne.arg .unknown))
        0 r 1 ∧ r.nodes.filterMap Expr.select? = [restricted] ∧
        (Datum.semantics fun _ => [numbered 1, numbered 1, numbered 0]).rows Datum.noScene
          restricted = [numbered 1, numbered 1] := by
  have hnodes : ∀ n ∈ (firstPosts 2).nodes,
      (n.operatorAllowed .all && n.select?.isNone) = true := by
    decide +kernel
  have he : (firstPosts 2).OperatorsAllowed .all := by
    intro n hn
    obtain ⟨hoperators, hnone⟩ := (Bool.and_eq_true _ _).mp (hnodes n hn)
    refine ⟨hoperators, fun s hs => ?_⟩
    rw [hs] at hnone
    cases hnone
  obtain ⟨r, restricted, hr, hselects, hmeaning⟩ := predicates_act_before_windows (t := .unknown) he
    (yields_firstPosts 0 2) rfl rfl (yields_isNumberOne 1 "FirstOrDefault" 2)
  obtain ⟨-, -, hsame, -⟩ :=
    hmeaning (Datum.semantics fun _ => [numbered 1, numbered 1, numbered 0]) Datum.noScene
  rw [candidates_firstPosts] at hsame
  refine ⟨he, r, restricted, hr, hselects, ?_⟩
  rw [hsame nofun (.inl (by decide +kernel))]
  decide +kernel

/-- The first post has not the number one and the second has. The second is what is left of the
first post when the predicate is applied. -/
theorem firstPosts_filtered_after :
    ∃ c, Yields (bindWith 2 (firstPosts 1)) 0 (.select (firstPostsSelect 1)) 1 ∧
      Yields (bindWith 3 ((firstPosts 1).followedBy "Where" isNumberOne.arg .unknown)) 0
        (.select ((firstPostsSelect 1).filterBy c)) 1 ∧
      let M := Datum.semantics fun _ => [numbered 0, numbered 1]
      M.rows Datum.noScene ((firstPostsSelect 1).filterBy c) = [numbered 1] ∧
        (M.rows Datum.noScene (firstPostsSelect 1)).filter
          (fun post => post.get "x" = .number 1) = [] := by
  refine ⟨isNumberOne.filled (firstPostsSelect 1), yields_firstPosts 0 1, ?_, ?_, ?_⟩
  · refine yields_followedBy (yields_firstPosts 0 1) rfl ?_
    refine yields_bind.mpr ⟨_, 1, yields_expectSelect.mpr ⟨rfl, rfl⟩, ?_⟩
    exact yields_bind.mpr ⟨_, 1, yields_isNumberOne 1 "Where" 1, yields_pure.mpr ⟨rfl, rfl⟩⟩
  · rw [Semantics.rows_filterBy _ _ rfl, candidates_firstPosts]
    decide +kernel
  · rw [Semantics.rows_of_ungrouped _ _ rfl, candidates_firstPosts]
    decide +kernel

end

end QueryTree
