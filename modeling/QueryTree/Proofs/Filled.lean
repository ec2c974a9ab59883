import QueryTree.Proofs.Apart

/-!
# Filling in values for a variable

Binding replaces a lambda variable by the row of a select, by the key and the rows of a group, or by
aggregates. `Expr.Filled` says what is left of a tree, whatever the values are: names and selects
come from the tree or from a value. `Expr.FilledApart` adds that queries stay apart.
-/

namespace QueryTree.Expr

theorem select?_withChildren (e : Expr) (cs : List Expr) :
    (e.withChildren cs).select? = e.select? :=
  withChildren_congr (f := select?) (fun h => by cases h <;> rfl) e cs

section
variable {x : String} {N : String → Prop} {S : Select → Prop} {e r : Expr}

/-- What `r` has beyond `e` is there because the variable `x` was: names in `N` and selects in `S`.
-/
structure Filled (x : String) (N : String → Prop) (S : Select → Prop) (e r : Expr) : Prop where
  names : ∀ y ∈ r.freeNames, y ∈ e.freeNames ∨ x ∈ e.freeNames ∧ N y
  selects : ∀ s ∈ r.selects true, s ∈ e.selects true ∨ x ∈ e.freeNames ∧ S s
  has : ∀ k : Mark, r.has k = true → e.has k = true

theorem Filled.refl (e : Expr) : Filled x N S e e :=
  ⟨fun _ h => .inl h, fun _ h => .inl h, fun _ h => h⟩

/-- A `Bare` value in the place of an expression that mentions `x`. -/
theorem Filled.value (hx : x ∈ e.freeNames) (hr : r.Bare)
    (hN : ∀ y ∈ r.freeNames, y ∈ e.freeNames ∨ N y)
    (hS : ∀ s ∈ r.selects true, s ∈ e.selects true ∨ S s) : Filled x N S e r where
  names y hy := (hN y hy).imp id fun h => ⟨hx, h⟩
  selects s hs := (hS s hs).imp id fun h => ⟨hx, h⟩
  has k hk := by rw [hr k] at hk; cases hk

/-- A node whose children are `Filled`, if it does not declare `x` or no value is there to fill in.
-/
theorem Filled.node {cs : List Expr} (hx : e.shadows x = true → (∀ y, ¬ N y) ∧ ∀ s, ¬ S s)
    (h : List.Forall₂ (Filled x N S) e.children cs) : Filled x N S e (e.withChildren cs) := by
  have hlen : cs.length = e.children.length := h.length_eq.symm
  have hkids := children_withChildren hlen
  -- A use of the variable in a child is a use in the node, since nothing is filled in where the
  -- node declares it.
  have hshadows : ∀ {c : Expr}, c ∈ e.children → x ∈ c.freeNames →
      ((∃ y, N y) ∨ ∃ s, S s) → x ∈ e.freeNames := by
    intro c hc hxc hv
    cases hs : e.shadows x with
    | false => exact mem_freeNames_of_child hc hs hxc
    | true =>
      rcases hv with ⟨y, hy⟩ | ⟨s, hS⟩
      · exact absurd hy ((hx hs).1 y)
      · exact absurd hS ((hx hs).2 s)
  refine ⟨fun y hy => ?_, fun s hs => ?_, fun k hk => ?_⟩
  · rcases mem_freeNames.mp hy with hp | ⟨hs, c', hc', hy⟩
    · rw [isParameter_withChildren] at hp
      exact .inl (mem_freeNames_of_isParameter hp)
    · rw [shadows_withChildren] at hs
      rw [hkids] at hc'
      obtain ⟨c, hc, hf⟩ := List.exists_of_forall₂_right h hc'
      rcases hf.names y hy with hy | ⟨hxc, hN⟩
      · exact .inl (mem_freeNames_of_child hc hs hy)
      · exact .inr ⟨hshadows hc hxc (.inl ⟨y, hN⟩), hN⟩
  · rw [selects_eq, select?_withChildren] at hs
    cases hq : e.select? with
    | some u =>
      rw [hq] at hs
      refine .inl ?_
      rw [selects_eq, hq]
      exact hs
    | none =>
      rw [hq] at hs
      obtain ⟨c', hc', hs⟩ := List.mem_flatMap.mp hs
      rw [hkids] at hc'
      obtain ⟨c, hc, hf⟩ := List.exists_of_forall₂_right h hc'
      rcases hf.selects s hs with hs | ⟨hxc, hS⟩
      · exact .inl (mem_selects_of_child hc hs)
      · exact .inr ⟨hshadows hc hxc (.inr ⟨s, hS⟩), hS⟩
  · rcases has_iff.mp hk with hk | ⟨c', hc', hk⟩
    · rw [of_withChildren] at hk
      exact has_iff.mpr (.inl hk)
    · rw [hkids] at hc'
      obtain ⟨c, hc, hf⟩ := List.exists_of_forall₂_right h hc'
      exact has_iff.mpr (.inr ⟨c, hc, hf.has k hk⟩)

theorem Filled.mono {N' : String → Prop} {S' : Select → Prop} (h : Filled x N S e r)
    (hN : ∀ y, N y → N' y) (hS : ∀ s, S s → S' s) : Filled x N' S' e r where
  names y hy := (h.names y hy).imp id fun h => ⟨h.1, hN y h.2⟩
  selects s hs := (h.selects s hs).imp id fun h => ⟨h.1, hS s h.2⟩
  has := h.has

end

/-! ## Queries stay apart -/

section
variable {H : String → Bool} {x : String} {N : String → Prop} {S : Select → Prop} {e r : Expr}

/-- Whether values with names in `N` and selects in `S` hold no query. -/
def PlainValues (H : String → Bool) (N : String → Prop) (S : Select → Prop) : Prop :=
  (∀ y, N y → H y = false) ∧ ∀ s, ¬ S s

/-- When values may be filled in for `x` in `e`: `H` has `x`, or the values hold no query, or no
operator can be applied to them. -/
def Fillable (H : String → Bool) (x : String) (N : String → Prop) (S : Select → Prop) (e : Expr) :
    Prop :=
  H x = true ∨ PlainValues H N S ∨ e.has .operator = false

theorem Fillable.of_node {n : Expr} (h : Fillable H x N S e) (hn : n ∈ e.nodes) :
    Fillable H x N S n :=
  h.imp id fun h => h.imp id (has_eq_false_of_node hn)

theorem mentions_eq_false {e : Expr} :
    e.mentions H = false ↔ e.selects true = [] ∧ ∀ y ∈ e.freeNames, H y = false := by
  simp [mentions, List.any_eq_false]

/-- `Filled` adds no query to what mentions none. -/
theorem Filled.mentions_eq_false (h : Filled x N S e r) (hx : H x = true ∨ PlainValues H N S)
    (he : e.mentions H = false) : r.mentions H = false := by
  rw [Expr.mentions_eq_false] at he ⊢
  -- A variable that is used and mentions no query can only stand for plain values.
  have hplain : x ∈ e.freeNames → PlainValues H N S := by
    intro hxe
    rcases hx with hx | hx
    · rw [he.2 x hxe] at hx
      cases hx
    · exact hx
  constructor
  · rw [List.eq_nil_iff_forall_not_mem]
    intro s hs
    rcases h.selects s hs with hs | ⟨hxe, hS⟩
    · rw [he.1] at hs
      cases hs
    · exact (hplain hxe).2 s hS
  · intro y hy
    rcases h.names y hy with hy | ⟨hxe, hN⟩
    · exact he.2 y hy
    · exact (hplain hxe).1 y hN

theorem Filled.holds_eq_false (h : Filled x N S e r) (hx : H x = true ∨ PlainValues H N S)
    (he : e.holds H = false) : r.holds H = false := by
  simp only [holds, Bool.or_eq_false_iff] at he ⊢
  refine ⟨?_, h.mentions_eq_false hx he.2⟩
  rw [Bool.eq_false_iff]
  intro hk
  rw [h.has .table hk] at he
  cases he.1

/-- `Filled` so that queries stay apart. A lambda stays a lambda; a value that is one has nothing
left to bind. -/
structure FilledApart (H : String → Bool) (x : String) (N : String → Prop) (S : Select → Prop)
    (e r : Expr) : Prop extends Filled x N S e r where
  rooted : r.isRooted = true → e.isRooted = true
  rows : r.rowsHold H = true → e.rowsHold H = true
  lambda : ∀ ps body, e.unquote = .lambda ps body →
    ∃ body', r.unquote = .lambda ps body' ∧ Filled x N S body body'
  noLambda : (∀ ps body, e.unquote ≠ .lambda ps body) →
    ∀ ps body', r.unquote = .lambda ps body' → body'.has .operator = false
  apart : e.Apart H → r.Apart H

theorem FilledApart.refl (e : Expr) : FilledApart H x N S e e where
  toFilled := .refl e
  rooted := id
  rows := id
  lambda _ body h := ⟨body, h, .refl body⟩
  noLambda hl ps body h := absurd h (hl ps body)
  apart := id

/-- A `Bare` value in the place of `x`, or of a use of it. -/
theorem FilledApart.value (h : Filled x N S e r) (hr : r.Bare)
    (hroot : r.isRooted = true → e.isRooted = true)
    (hrows : r.rowsHold H = true → e.rowsHold H = true)
    (hl : ∀ ps body, e.unquote ≠ .lambda ps body) : FilledApart H x N S e r where
  toFilled := h
  rooted := hroot
  rows := hrows
  lambda ps body hb := absurd hb (hl ps body)
  noLambda _ _ _ hb := has_eq_false_of_node (body_mem_nodes hb) (hr .operator)
  apart _ := apart_of_has (hr .operator)

theorem FilledApart.lambdaApart (h : FilledApart H x N S e r) (he : e.lambdaApart H = true) :
    r.lambdaApart H = true := by
  by_cases hl : ∃ ps body, e.unquote = .lambda ps body
  · obtain ⟨ps, body, hb⟩ := hl
    obtain ⟨body', hb', hf⟩ := h.lambda ps body hb
    unfold Expr.lambdaApart at he ⊢
    rw [hb] at he
    rw [hb']
    match ps with
    | [] => rfl
    | _ :: _ :: _ => rfl
    | [p] =>
      simp only [Bool.or_eq_true, Bool.not_eq_true'] at he ⊢
      refine he.imp id fun he => ?_
      rw [Bool.eq_false_iff] at he ⊢
      exact fun hk => he (hf.has .operator hk)
  -- What was no lambda may have become one, but then there are no operators in it.
  · have hno := h.noLambda fun ps body hb => hl ⟨ps, body, hb⟩
    unfold Expr.lambdaApart
    split
    · rename_i p body' hb
      simp [hno _ _ hb]
    · rfl

theorem FilledApart.mono {N' : String → Prop} {S' : Select → Prop} (h : FilledApart H x N S e r)
    (hN : ∀ y, N y → N' y) (hS : ∀ s, S s → S' s) : FilledApart H x N' S' e r where
  toFilled := h.toFilled.mono hN hS
  rooted := h.rooted
  rows := h.rows
  lambda ps body hb := by
    obtain ⟨body', hb', hf⟩ := h.lambda ps body hb
    exact ⟨body', hb', hf.mono hN hS⟩
  noLambda := h.noLambda
  apart := h.apart

theorem isRooted_of_children {cs : List Expr}
    (h : List.Forall₂ (fun c c' : Expr => c'.isRooted = true → c.isRooted = true) e.children cs)
    (hr : (e.withChildren cs).isRooted = true) : e.isRooted = true := by
  cases e with
  -- Only an operator looks at its first argument; all other nodes tell by themselves.
  | call surface method receiver args t =>
    rcases receiver with _ | receiver
    · rcases args with _ | ⟨start, args⟩
      · cases h
        exact hr
      · cases h with
        | cons hstart _ =>
          cases surface with
          | queryable => exact hstart hr
          | _ => exact hr
    · cases h
      cases surface <;> exact hr
  | member base name t =>
    obtain ⟨c, rfl⟩ := List.length_eq_one_iff.mp h.length_eq.symm
    by_cases hn : name = "Key"
    · subst hn
      rfl
    · simp [isRooted, chainRoot, withChildren, hn] at hr
  | groupAggregate kind selector t =>
    rcases selector with _ | selector <;> rcases cs with _ | ⟨c, _ | ⟨d, cs⟩⟩ <;> exact hr
  | binary op l r t => rcases cs with _ | ⟨c, _ | ⟨d, _ | ⟨y, cs⟩⟩⟩ <;> exact hr
  | _ => rcases cs with _ | ⟨c, _ | ⟨d, cs⟩⟩ <;> exact hr

/-- A variable that an operator can be applied to holds queries, or no value in `S` does. -/
theorem Fillable.values {method : String} {args : List Expr} {t : Ty}
    (h : Fillable H x N S (.call .queryable method none args t)) :
    H x = true ∨ PlainValues H N S := by
  rcases h with h | h | h
  · exact .inl h
  · exact .inr h
  · have : (call .queryable method none args t).has .operator = true := has_iff.mpr (.inl rfl)
    rw [this] at h
    cases h

/-- Filling in does not change `givesQueries`. -/
theorem givesQueries_of_args {op : Option QueryOp} {args args' : List Expr}
    (hx : H x = true ∨ PlainValues H N S) (hargs : List.Forall₂ (FilledApart H x N S) args args')
    (h : givesQueries H op args' = true) : givesQueries H op args = true := by
  cases hgiven : givesQueries H op args with
  | true => rfl
  | false =>
    -- Only a selector of which the body is known can have put out no queries.
    unfold givesQueries at h
    split at h
    · rename_i selector'
      obtain ⟨selector, rfl⟩ := List.length_eq_one_iff.mp hargs.length_eq
      obtain ⟨hf, -⟩ := List.forall₂_cons.mp hargs
      unfold givesQueries at hgiven
      simp only at hgiven
      split at hgiven
      · rename_i p body hb
        obtain ⟨body', hb', hbody⟩ := hf.lambda _ _ hb
        rw [hb'] at h
        simp only [hbody.holds_eq_false hx hgiven] at h
        cases h
      · cases hgiven
    · simp [givesQueries] at hgiven
    · cases h

theorem rowsHold_of_children {cs : List Expr} (hx : Fillable H x N S e)
    (h : List.Forall₂ (FilledApart H x N S) e.children cs)
    (hr : (e.withChildren cs).rowsHold H = true) : e.rowsHold H = true := by
  cases e with
  | call surface method receiver args t =>
    rcases receiver with _ | receiver
    · rcases args with _ | ⟨start, args⟩
      · cases surface <;> rfl
      · cases surface with
        | queryable =>
          cases h with
          | cons hstart hargs =>
            simp only [rowsHold, withChildren, Bool.or_eq_true] at hr ⊢
            exact hr.imp (givesQueries_of_args hx.values hargs) hstart.rows
        | _ => rfl
    · cases surface <;> rfl
  | captured name capture t => cases capture <;> exact hr
  | table name t => exact hr
  | source s => exact hr
  | _ => rfl

/-- `apartAt` is kept when children are filled in. -/
theorem apartAt_of_children {cs : List Expr} (hx : Fillable H x N S e)
    (h : List.Forall₂ (FilledApart H x N S) e.children cs) (he : e.apartAt H = true) :
    (e.withChildren cs).apartAt H = true := by
  have hlambdas : ∀ {args args' : List Expr}, List.Forall₂ (FilledApart H x N S) args args' →
      args.all (lambdaApart H) = true → args'.all (lambdaApart H) = true := by
    intro args args' hargs hall
    rw [List.all_eq_true] at hall ⊢
    intro a' ha'
    obtain ⟨a, ha, hf⟩ := List.exists_of_forall₂_right hargs ha'
    exact hf.lambdaApart (hall a ha)
  cases e with
  | call surface method receiver args t =>
    rcases receiver with _ | receiver
    · rcases args with _ | ⟨start, args⟩
      · cases h
        exact he
      · obtain ⟨start', args', hstart, hargs, rfl⟩ := List.forall₂_cons_left_iff.mp h
        cases surface with
        | queryable =>
          simp only [apartAt, withChildren, Bool.and_eq_true, Bool.or_eq_true,
            Bool.not_eq_true'] at he ⊢
          -- First what the other arguments mention, then the lambdas that range over rows with
          -- queries.
          refine ⟨?_, ?_⟩
          · refine he.1.imp (fun hroot => ?_) fun hall => ?_
            · rw [Bool.and_eq_false_iff] at hroot ⊢
              refine hroot.imp (fun hroot => ?_) id
              rw [Bool.eq_false_iff] at hroot ⊢
              exact fun h => hroot (hstart.rooted h)
            · rw [List.all_eq_true] at hall ⊢
              intro a' ha'
              obtain ⟨a, ha, hf⟩ := List.exists_of_forall₂_right hargs ha'
              have hm := hall a ha
              simp only [Bool.not_eq_true'] at hm ⊢
              exact hf.mentions_eq_false hx.values hm
          · refine he.2.imp (fun hrows => ?_) (hlambdas hargs)
            rw [Bool.eq_false_iff] at hrows ⊢
            exact fun h => hrows (hstart.rows h)
        | enumerable => exact hlambdas hargs he
        | _ => rfl
    · cases h
      cases surface <;> rfl
  | groupAggregate kind selector t =>
    rcases selector with _ | selector <;> rcases cs with _ | ⟨c, _ | ⟨d, cs⟩⟩ <;> rfl
  | binary op l r t => rcases cs with _ | ⟨c, _ | ⟨d, _ | ⟨y, cs⟩⟩⟩ <;> rfl
  | _ => rcases cs with _ | ⟨c, _ | ⟨d, cs⟩⟩ <;> rfl

theorem Apart.of_node {n : Expr} (h : e.Apart H) (hn : n ∈ e.nodes) : n.Apart H :=
  fun m hm => h m (mem_nodes_trans hm hn)

theorem apart_iff : e.Apart H ↔ e.apartAt H = true ∧ ∀ c ∈ e.children, c.Apart H := by
  constructor
  · intro h
    exact ⟨h e (mem_nodes_self e), fun c hc => h.of_node (mem_nodes_of_child hc (mem_nodes_self c))⟩
  · rintro ⟨he, hc⟩ n hn
    rcases mem_nodes_iff.mp hn with rfl | ⟨c, hce, hnc⟩
    · exact he
    · exact hc c hce n hnc

theorem FilledApart.node {cs : List Expr} (hx : Fillable H x N S e)
    (hs : e.shadows x = true → (∀ y, ¬ N y) ∧ ∀ s, ¬ S s)
    (h : List.Forall₂ (FilledApart H x N S) e.children cs) :
    FilledApart H x N S e (e.withChildren cs) where
  toFilled := .node hs (h.imp fun _ _ hf => hf.toFilled)
  rooted := isRooted_of_children (h.imp fun _ _ hf => hf.rooted)
  rows := rowsHold_of_children hx h
  lambda ps body hb := by
    cases e with
    | unary op operand t =>
      obtain ⟨operand', rfl⟩ := List.length_eq_one_iff.mp h.length_eq.symm
      obtain ⟨hf, -⟩ := List.forall₂_cons.mp h
      cases op with
      | quote => exact hf.lambda ps body hb
      | _ => cases hb
    | lambda ps' body₀ =>
      cases hb
      obtain ⟨body', rfl⟩ := List.length_eq_one_iff.mp h.length_eq.symm
      obtain ⟨hf, -⟩ := List.forall₂_cons.mp h
      exact ⟨body', rfl, hf.toFilled⟩
    | _ => cases hb
  noLambda hl ps body' hb := by
    cases e with
    | unary op operand t =>
      obtain ⟨operand', rfl⟩ := List.length_eq_one_iff.mp h.length_eq.symm
      obtain ⟨hf, -⟩ := List.forall₂_cons.mp h
      cases op with
      | quote => exact hf.noLambda hl ps body' hb
      | _ => cases hb
    | lambda ps' body₀ => exact absurd rfl (hl ps' body₀)
    | call surface method receiver args t =>
      rcases receiver with _ | receiver <;> rcases cs with _ | ⟨c, cs⟩ <;> cases hb
    | groupAggregate kind selector t =>
      rcases selector with _ | selector <;> rcases cs with _ | ⟨c, _ | ⟨d, cs⟩⟩ <;> cases hb
    | binary op l r t => rcases cs with _ | ⟨c, _ | ⟨d, _ | ⟨y, cs⟩⟩⟩ <;> cases hb
    | _ => rcases cs with _ | ⟨c, _ | ⟨d, cs⟩⟩ <;> cases hb
  apart he := by
    rw [apart_iff] at he ⊢
    refine ⟨apartAt_of_children hx h he.1, fun c' hc' => ?_⟩
    rw [children_withChildren h.length_eq.symm] at hc'
    obtain ⟨c, hc, hf⟩ := List.exists_of_forall₂_right h hc'
    exact hf.apart (he.2 c hc)

/-- `replace` fills in if each replacement does. -/
theorem FilledApart.replace {f : Expr → Option Expr} (hx : Fillable H x N S e)
    (hsome : ∀ n r, f n = some r → FilledApart H x N S n r)
    (hnone : ∀ n, f n = none → n.shadows x = false) : FilledApart H x N S e (e.replace f) := by
  induction e using childrenInduction with
  | step e ih =>
    rw [replace_eq]
    cases hf : f e with
    | some r => exact hsome e r hf
    | none =>
      refine .node hx (fun hs => ?_) ?_
      · rw [hnone e hf] at hs
        cases hs
      · rw [List.forall₂_map_right_iff, List.forall₂_same]
        intro c hc
        exact ih c hc (hx.of_node (mem_nodes_of_child hc (mem_nodes_self c)))

/-! ## Values for a variable -/

/-- The names used in one of the `vs`. -/
def ValueName (vs : List Expr) (name : String) : Prop := ∃ v ∈ vs, name ∈ v.freeNames

/-- The selects in one of the `vs`. -/
def ValueSelect (vs : List Expr) (s : Select) : Prop := ∃ v ∈ vs, s ∈ v.selects true

/-- A value for the variable `x`, or for the key of a group. -/
theorem FilledApart.use {vs : List Expr} {v n : Expr} (hvs : v ∈ vs) (hv : v.Bare)
    (hn : n.isParameter x = true ∨ n.isKeyOf x = true) :
    FilledApart H x (ValueName vs) (ValueSelect vs) n v := by
  have hfree : x ∈ n.freeNames := by
    rcases hn with hn | hn
    · exact mem_freeNames_of_isParameter hn
    · unfold isKeyOf at hn
      split at hn
      · rename_i base t
        exact mem_freeNames_of_child (c := base) (by simp [children]) rfl
          (mem_freeNames_of_isParameter hn)
      · cases hn
  have hfilled : Filled x (ValueName vs) (ValueSelect vs) n v :=
    .value hfree hv (fun y hy => .inr ⟨v, hvs, hy⟩) fun s hs => .inr ⟨v, hvs, hs⟩
  rcases hn with hn | hn
  · unfold isParameter at hn
    split at hn
    · exact .value hfilled hv (fun _ => rfl) (fun _ => rfl) (by rintro _ _ ⟨⟩)
    · cases hn
  · unfold isKeyOf at hn
    split at hn
    · exact .value hfilled hv (fun _ => rfl) (fun _ => rfl) (by rintro _ _ ⟨⟩)
    · cases hn

theorem filledApart_substitute {vs : List Expr} {v : Expr} (hvs : v ∈ vs) (hv : v.Bare)
    (hx : Fillable H x (ValueName vs) (ValueSelect vs) e) :
    FilledApart H x (ValueName vs) (ValueSelect vs) e (e.substitute x v) := by
  refine .replace hx (fun n r hr => ?_) fun n hn => ?_
  · unfold substituteNode at hr
    split at hr
    · rename_i hp
      cases hr
      exact .use hvs hv (.inl hp)
    · split at hr
      · cases hr
        exact .refl n
      · cases hr
  · unfold substituteNode at hn
    split at hn
    · cases hn
    · split at hn
      · cases hn
      · simpa using ‹¬ n.shadows x = true›

theorem filledApart_substituteGroup {vs : List Expr} {key : GroupKey} (ho : key.outer ∈ vs)
    (hv : key.values ∈ vs) (hbare : ∀ v ∈ vs, v.Bare)
    (hx : Fillable H x (ValueName vs) (ValueSelect vs) e) :
    FilledApart H x (ValueName vs) (ValueSelect vs) e (e.substituteGroup x key) := by
  refine .replace hx (fun n r hr => ?_) fun n hn => ?_
  · split at hr
    · rename_i hk
      cases hr
      exact .use ho (hbare _ ho) (.inr hk)
    · split at hr
      · rename_i hp
        cases hr
        exact .use hv (hbare _ hv) (.inl hp)
      · split at hr
        · cases hr
          exact .refl n
        · cases hr
  · split at hn
    · cases hn
    · split at hn
      · cases hn
      · split at hn
        · cases hn
        · simpa using ‹¬ n.shadows x = true›

end

end QueryTree.Expr
