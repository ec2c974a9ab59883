import QueryTree.Proofs.GroupLevel
import QueryTree.Proofs.Guarded
import QueryTree.Proofs.Preservation
import QueryTree.Proofs.Throughout

/-!
# Disciplines

A `Discipline` says what is asked of rows, nodes and selects, given notes that are taken when scopes
are given out. Binding moves most things about without looking at them. A discipline that holds of
new selects, groups and merged selectors is `Kept` by binding as a whole, which is shown here once
for all operators.
-/

namespace QueryTree

open Binding

/-! ## Notes -/

section
variable {K : Type} {w : List K} {n m : Nat}

/-- Notes can be added to `w` until there are `m` of them, so that `R` holds. -/
abbrev Grows (w : List K) (m : Nat) (R : List K → Prop) : Prop := (Knowledge.notes K).Later w m R

theorem Along.grows {I : List K → Expr → Prop} {J : List K → Expr → Expr → Prop} {as bs : List Expr}
    (hI : ∀ {w w' a}, w <+: w' → I w a → I w' a) (hJ : ∀ {w w' a b}, w <+: w' → J w a b → J w' a b)
    (h : Along (fun a n b m => ∀ w : List K, w.length = n → I w a → Grows w m (J · a b)) as n bs m)
    (hw : w.length = n) (has : ∀ a ∈ as, I w a) :
    Grows w m fun w' => List.Forall₂ (J w') as bs := by
  induction h generalizing w with
  | nil n => exact .refl hw .nil
  | cons hab _ ih =>
    refine (hab w hw (has _ List.mem_cons_self)).bind fun w' hle hw' hb => ?_
    refine (ih hw' fun a ha => hI hle (has a (List.mem_cons_of_mem _ ha))).imp fun w''
      hle' hbs => ?_
    exact .cons (hJ hle' hb) hbs

end

/-! ## What is asked -/

/-- Whether a node is a member of something. -/
def Expr.isMember : Expr → Bool
  | .member _ _ _ => true
  | _ => false

/-- The number of all rows. -/
def Select.counted (s : Select) : Select := (s.project (.count none)).groupAll

/-- What is asked of the parts of a tree, given what is noted of its scopes. -/
structure Discipline (K : Type) where
  /-- A row that can be used as a whole. -/
  row : List K → ScopeId → Ty → Prop
  node : List K → Expr → Prop
  select : List K → Select → Prop

namespace Discipline

section
variable {K : Type} (D : Discipline K) (w : List K)

/-- If `e` is a row, it can be used as a whole. Only a row of which a member is read need not be. -/
def Exposes (e : Expr) : Prop := ∀ scope t, e = .row scope t → D.row w scope t

/-- A node of a bound tree. -/
def BoundNode (n : Expr) : Prop := D.node w n ∧ n.isBound = true

/-- A select of a bound tree. -/
def BoundSelect (s : Select) : Prop := D.select w s ∧ ∀ c ∈ s.clauses true, D.Exposes w c

/-- A bound expression. -/
structure Bound (e : Expr) : Prop where
  exposes : D.Exposes w e
  throughout : e.Throughout (D.BoundNode w) (D.BoundSelect w)

/-- A bound select. -/
def Holds (s : Select) : Prop := s.Throughout (D.BoundNode w) (D.BoundSelect w)

/-- An expression to be bound. The selects in it are bound. -/
structure Fit (e : Expr) : Prop where
  exposes : D.Exposes w e
  node : ∀ n ∈ e.nodes, D.node w n
  select : ∀ n ∈ e.nodes, ∀ s, n.select? = some s → D.Holds w s

/-- `D` is kept by what binding does, as far as that passes `ok`. -/
structure Kept (ok : QueryOp → Expr → List Expr → Expr → Bool) : Prop where
  row_mono : ∀ {w v scope t}, D.row w scope t → D.row (w ++ v) scope t
  node_mono : ∀ {w v e}, D.node w e → D.node (w ++ v) e
  select_mono : ∀ {w v s}, D.select w s → D.select (w ++ v) s
  child : ∀ {w e c}, D.node w e → c ∈ e.children → D.Exposes w c ∨ e.isMember = true
  rebuild : ∀ {w e cs}, D.node w e → List.Forall₂ (fun c c' => c' = c ∨ D.Exposes w c')
    e.children cs → D.node w (e.withChildren cs)
  assemble : ∀ {w e}, (∀ c ∈ e.children, D.Exposes w c) → D.node w e
  /-- A column that is read by its name. -/
  label : ∀ {w s ts name t}, D.select w s → D.node w (Expr.rowMember s.scope (.anonymous ts) name t)
  wholeRow : ∀ {w s}, D.select w s → (∀ e, s.projection ≠ .expr e) →
    (∀ fs, s.projection ≠ .fields fs) → D.row w s.scope s.projectedType
  update : ∀ {w s s'}, D.select w s → s'.scope = s.scope → s'.element = s.element →
    s'.source = s.source → (s'.groupKey = none ∨ s'.groupKey = s.groupKey) →
    (s'.group = s.group ∨ s'.group = some .all) →
      (s'.projection = .all → s.projection = .all) →
      (∀ fs, s'.projection = .fields fs → s.projection = .fields fs) → D.select w s'
  ofTable : ∀ w name element, ∃ a, D.select (w ++ [a]) (.ofTable ⟨w.length⟩ name element)
  ofSelect : ∀ {w s op args r}, D.Holds w s → op = .count ∧ args ≠ [] ∨
    op.aggregate?.isSome = true → s.isWindowed = true → ok op (.select s) args r = true → ∃ a,
    D.select (w ++ [a]) (.ofSelect ⟨w.length⟩ s)
  counted : ∀ {w s r}, D.Holds w s → s.isWindowed = true → ok .count (.select s) [] r = true →
    ∃ a, D.select (w ++ [a]) (Select.ofSelect ⟨w.length⟩ s).counted
  groups : ∀ {w s inner args}, D.Holds w s → D.Bound w inner →
    ok .groupBy (.select s) args (.select (s.groups inner ⟨w.length⟩)) = true →
      ∃ a, D.select (w ++ [a]) (s.groups inner ⟨w.length⟩) ∧ D.select (w ++ [a])
        (s.groupedBy inner ⟨w.length⟩) ∧ ∀ n ∈ (GroupKey.columns inner s.scope ⟨w.length⟩).2.nodes,
        D.node (w ++ [a]) n
  merged : ∀ {w s grouped key selector body merged c p fuel n k m}, D.Holds w s →
    s.groupKey = some key → selector.unquote = .lambda [p] body → s.source = .subquery grouped →
    body.isMerged p.name = true →
        Yields (body.replaceM (mergeNode (bindChecked ok fuel) p.name key)) n merged k →
          Yields (bindChecked ok fuel merged) k c m → D.Bound w c →
            ok .select (.select s) [selector] (.select (s.readingMerged grouped c)) = true →
              D.select w (s.readingMerged grouped c) ∧ D.select w (grouped.withMerged s.scope c)

end

section
variable {K : Type} {D : Discipline K} {ok : QueryOp → Expr → List Expr → Expr → Bool}
  {w w' : List K} {e r c a : Expr} {s s' grouped : Select} {key : GroupKey} {cs : List Expr}

theorem layered (D : Discipline K) (w : List K) : Layered (D.Bound w) (D.select w) (D.Holds w) where
  of_parts hs hc hv := .of_parts ⟨hs, fun c h => (hc c h).exposes⟩ (fun c h => (hc c h).throughout)
    hv
  clause hs hc := ⟨(Select.Throughout.self hs).2 _ hc, Select.Throughout.clause hs hc⟩
  input hs hv := Select.Throughout.input hs hv

theorem Holds.self (h : D.Holds w s) : D.select w s := (Select.Throughout.self h).1

theorem Holds.source (h : D.Holds w s) (hs : s.source = .subquery grouped) : D.Holds w grouped :=
  (D.layered w).input h (by simp [Select.inputs, hs, RowSource.select?])

theorem Bound.select (h : D.Bound w e) (hs : e.select? = some s) : D.Holds w s :=
  h.throughout.select hs

theorem Bound.fit (h : D.Bound w e) : D.Fit w e where
  exposes := h.exposes
  node n hn := (h.throughout.nodes n hn).1
  select _ hn _ hs := (h.throughout.of_node hn).select hs

theorem Exposes.of_isRow (h : e.isMember = true ∨ e.select?.isSome = true) : D.Exposes w e := by
  rintro scope t rfl
  rcases h with h | h <;> cases h

/-! ## Later on -/

theorem Exposes.mono (hD : D.Kept ok) (hle : w <+: w') (h : D.Exposes w e) : D.Exposes w' e := by
  obtain ⟨v, rfl⟩ := hle
  exact fun scope t he => hD.row_mono (h scope t he)

theorem BoundNode.mono (hD : D.Kept ok) (hle : w <+: w') (h : D.BoundNode w e) :
    D.BoundNode w' e := by
  obtain ⟨v, rfl⟩ := hle
  exact ⟨hD.node_mono h.1, h.2⟩

theorem BoundSelect.mono (hD : D.Kept ok) (hle : w <+: w') (h : D.BoundSelect w s) :
    D.BoundSelect w' s := by
  refine ⟨?_, fun c hc => (h.2 c hc).mono hD hle⟩
  obtain ⟨v, rfl⟩ := hle
  exact hD.select_mono h.1

theorem Bound.mono (hD : D.Kept ok) (hle : w <+: w') (h : D.Bound w e) : D.Bound w' e where
  exposes := h.exposes.mono hD hle
  throughout := h.throughout.imp (fun _ hn => hn.mono hD hle) fun _ hs => hs.mono hD hle

theorem Holds.mono (hD : D.Kept ok) (hle : w <+: w') (h : D.Holds w s) : D.Holds w' s :=
  Select.Throughout.imp h (fun _ hn => hn.mono hD hle) fun _ hs => hs.mono hD hle

theorem Fit.mono (hD : D.Kept ok) (hle : w <+: w') (h : D.Fit w e) : D.Fit w' e where
  exposes := h.exposes.mono hD hle
  node n hn := by
    obtain ⟨v, rfl⟩ := hle
    exact hD.node_mono (h.node n hn)
  select n hn s hs := (h.select n hn s hs).mono hD hle

/-! ## Nodes -/

/-- A child is `Fit` by itself, unless it is a row of which a member is read. -/
theorem Fit.child (hD : D.Kept ok) (h : D.Fit w e) (hc : c ∈ e.children) :
    D.Fit w c ∨ e.isMember = true ∧ ∃ scope t, c = .row scope t := by
  have hnodes : ∀ n ∈ c.nodes, n ∈ e.nodes := fun n hn => Expr.mem_nodes_of_child hc hn
  have hfit : D.Exposes w c → D.Fit w c := fun hx =>
    ⟨hx, fun n hn => h.node n (hnodes n hn), fun n hn => h.select n (hnodes n hn)⟩
  rcases hD.child (h.node e (Expr.mem_nodes_self e)) hc with hx | hmember
  · exact .inl (hfit hx)
  · by_cases hrow : ∃ scope t, c = .row scope t
    · exact .inr ⟨hmember, hrow⟩
    · exact .inl (hfit fun scope t hc => absurd ⟨scope, t, hc⟩ hrow)

theorem Fit.child_of (hD : D.Kept ok) (h : D.Fit w e) (he : e.isMember = false)
    (hc : c ∈ e.children) : D.Fit w c := by
  rcases h.child hD hc with hfit | ⟨hmember, -⟩
  · exact hfit
  · rw [he] at hmember
    cases hmember

theorem Fit.body (hD : D.Kept ok) (h : D.Fit w a) {ps : List LambdaParam}
    (ha : a.unquote = .lambda ps e) : D.Fit w e := by
  induction a using Expr.unquote.induct with
  | case1 operand t ih => exact ih (h.child_of hD rfl (by simp [Expr.children])) ha
  | case2 a hquote =>
    rw [Expr.unquote.eq_2 a hquote] at ha
    subst ha
    exact h.child_of hD rfl (by simp [Expr.children])

theorem exposes_withChildren (h : D.Exposes w e) : D.Exposes w (e.withChildren cs) := by
  intro scope t hrow
  have hsame := e.sameNode_withChildren cs
  rw [hrow] at hsame
  cases hsame
  exact h scope t rfl

theorem Fit.rebuild (hD : D.Kept ok) (h : D.Fit w e)
    (hcs : List.Forall₂ (fun c c' => c' = c ∨ D.Fit w c') e.children cs) :
    D.Fit w (e.withChildren cs) := by
  -- A node of the new tree is the root, or in a child that stayed, or in a child that is fit by
  -- itself.
  have hnodes : ∀ n ∈ (e.withChildren cs).nodes,
      n = e.withChildren cs ∨ n ∈ e.nodes ∨ ∃ c', D.Fit w c' ∧ n ∈ c'.nodes := by
    intro n hn
    rcases Expr.mem_nodes_iff.mp hn with rfl | ⟨c', hc', hn⟩
    · exact .inl rfl
    · rw [Expr.children_withChildren hcs.length_eq.symm] at hc'
      obtain ⟨c, hc, rfl | hfit⟩ := List.exists_of_forall₂_right hcs hc'
      · exact .inr (.inl (Expr.mem_nodes_of_child hc hn))
      · exact .inr (.inr ⟨c', hfit, hn⟩)
  refine ⟨exposes_withChildren h.exposes, fun n hn => ?_, fun n hn s hs => ?_⟩
  · rcases hnodes n hn with rfl | hn | ⟨c', hc', hn⟩
    · exact hD.rebuild (h.node e (Expr.mem_nodes_self e)) (hcs.imp fun _ _ => Or.imp id Fit.exposes)
    · exact h.node n hn
    · exact hc'.node n hn
  · rcases hnodes n hn with rfl | hn | ⟨c', hc', hn⟩
    · rw [Expr.select?_withChildren] at hs
      exact h.select e (Expr.mem_nodes_self e) s hs
    · exact h.select n hn s hs
    · exact hc'.select n hn s hs

theorem isBound_withChildren (e : Expr) (cs : List Expr) :
    (e.withChildren cs).isBound = e.isBound :=
  Expr.withChildren_congr (f := Expr.isBound)
    (fun h => by cases h with
      | method surface => cases surface <;> rfl
      | function surface => cases surface <;> rfl
      | _ => rfl) e cs

theorem throughout_row (hD : D.Kept ok) (scope : ScopeId) (t : Ty) :
    (Expr.row scope t).Throughout (D.BoundNode w) (D.BoundSelect w) :=
  .of_parts ⟨hD.assemble (List.forall_mem_nil _), rfl⟩ (List.forall_mem_nil _) (by rintro s ⟨⟩)

/-- A node that `isBound` is `Bound` when its children are. -/
theorem Fit.bound (hD : D.Kept ok) (h : D.Fit w e) (he : e.isBound = true)
    (hcs : List.Forall₂ (fun c c' => c' = c ∧ (∃ scope t, c = .row scope t) ∨ D.Bound w c')
      e.children cs) : D.Bound w (e.withChildren cs) where
  exposes := exposes_withChildren h.exposes
  throughout := by
    refine .of_parts ⟨?_, ?_⟩ (fun c' hc' => ?_) fun s hs => ?_
    · refine hD.rebuild (h.node e (Expr.mem_nodes_self e)) (hcs.imp fun c c' hcc => ?_)
      exact hcc.imp And.left Bound.exposes
    · rw [isBound_withChildren, he]
    · rw [Expr.children_withChildren hcs.length_eq.symm] at hc'
      obtain ⟨c, -, ⟨rfl, scope, t, rfl⟩ | hbound⟩ := List.exists_of_forall₂_right hcs hc'
      · exact throughout_row hD scope t
      · exact hbound.throughout
    · rw [Expr.select?_withChildren] at hs
      exact h.select e (Expr.mem_nodes_self e) s hs

/-- An expression is `Bound` if its children are. -/
theorem Bound.of_children (hD : D.Kept ok) (he : e.isBound = true) (hq : e.select? = none)
    (hx : D.Exposes w e) (hc : ∀ c ∈ e.children, D.Bound w c) : D.Bound w e where
  exposes := hx
  throughout := .of_parts ⟨hD.assemble fun c h => (hc c h).exposes, he⟩
    (fun c h => (hc c h).throughout) fun s hs => by rw [hq] at hs; cases hs

theorem parted (hD : D.Kept ok) (w : List K) : Expr.Parted (D.Bound w) where
  assemble {e} hk hq _ hmade hc := by
    refine .of_children hD (Expr.isBound_of_ne ?_ ?_) hq ?_ hc
    · rintro name element rfl
      cases hk .table
    · rintro method args t rfl
      cases hk .operator
    · rintro scope t rfl
      cases hmade
  member_of_object h m hm := by
    have hchild := List.mem_map_of_mem (f := Prod.snd) hm
    refine ⟨?_, h.throughout.child hchild⟩
    exact (hD.child (h.throughout.nodes _ (Expr.mem_nodes_self _)).1 hchild).resolve_right
      (by rintro ⟨⟩)

theorem Bound.object (hD : D.Kept ok) {t : Ty} {members : List (String × Expr)}
    (h : ∀ m ∈ members, D.Bound w m.2) : D.Bound w (.newObject t members) := by
  refine .of_children hD rfl rfl (by rintro _ _ ⟨⟩) fun c hc => ?_
  obtain ⟨m, hm, rfl⟩ := List.mem_map.mp hc
  exact h m hm

theorem Holds.label (hD : D.Kept ok) (h : D.Holds w s) {ts : List (String × Ty)} {name : String}
    {t : Ty} : D.Bound w (Expr.rowMember s.scope (.anonymous ts) name t) where
  exposes := .of_isRow (.inl rfl)
  throughout := by
    refine .of_parts ⟨hD.label h.self, rfl⟩ (fun c hc => ?_) (by rintro s ⟨⟩)
    obtain rfl := List.mem_singleton.mp hc
    exact throughout_row hD s.scope _

theorem Holds.expr (hD : D.Kept ok) (h : D.Holds w s) (he : e.select? = some s) : D.Bound w e where
  exposes := .of_isRow (.inr (by rw [he]; rfl))
  throughout := by
    refine Select.Throughout.expr h he ⟨hD.assemble fun c hc => ?_, ?_⟩
    · cases e <;> simp [Expr.select?, Expr.children] at he hc
    · cases e <;> first | rfl | cases he

/-! ## Rows -/

theorem Holds.rowValue (hD : D.Kept ok) (h : D.Holds w s) : D.Bound w s.rowValue := by
  have hclause : ∀ c ∈ s.projection.exprs, D.Bound w c := fun c hc =>
    (D.layered w).clause h (Select.mem_clauses_of_projection hc)
  unfold Select.rowValue
  split
  · rename_i e hp
    exact hclause e (by simp [hp, Projection.exprs])
  · rename_i fs hp
    refine .object hD fun m hm => ?_
    obtain ⟨f, hf, rfl⟩ := List.mem_map.mp hm
    exact hclause f.expr (by simpa [hp, Projection.exprs] using ⟨f, hf, rfl⟩)
  · rename_i hexpr hfields
    refine ⟨?_, throughout_row hD s.scope _⟩
    rintro scope t ⟨⟩
    exact hD.wholeRow h.self hexpr hfields

/-- Filling in keeps `Fit`. A row of which a member is read stays as it is. -/
theorem filling (hD : D.Kept ok) (w : List K) : Expr.Filling fun e e' =>
    D.Fit w e ∨ (∃ scope t, e = .row scope t) → e' = e ∨ D.Fit w e' where
  refl e _ := .inl rfl
  node {e cs} hcs := by
    rintro (h | ⟨scope, t, rfl⟩)
    · have hkids := (List.forall₂_and_left _ _).mpr ⟨fun c hc => (h.child hD hc).imp id And.right,
        hcs⟩
      exact .inr (h.rebuild hD (hkids.imp fun _ _ hcc => hcc.2 hcc.1))
    · cases hcs
      exact .inl rfl

/-- `fillIn` puts what the parameter stands for into a body. -/
theorem Holds.fillIn (hD : D.Kept ok) (hs : D.Holds w s) (hbody : D.Fit w e) (x : String) :
    D.Fit w (s.fillIn x e) := by
  have hfit : ∀ e' : Expr, e' = e ∨ D.Fit w e' → D.Fit w e' := by
    rintro e' (rfl | h)
    · exact hbody
    · exact h
  apply hfit
  unfold Select.fillIn
  cases hk : s.groupKey with
  | none => exact (filling hD w).substitute (fun _ _ _ => .inr (hs.rowValue hD).fit) (.inl hbody)
  | some key =>
    have hkey : ∀ v ∈ key.exprs, D.Fit w v := fun v hv => ((D.layered w).keyExpr hs hk hv).fit
    refine (filling hD w).substituteGroup (fun _ _ _ => .inr (hkey _ ?_))
      (fun _ _ _ => .inr (hkey _ ?_)) (.inl hbody)
    · simp [GroupKey.exprs]
    · simp [GroupKey.exprs]

/-! ## Selects -/

theorem Holds.amendable (hD : D.Kept ok) (h : D.Holds w s) :
    s.Amendable true (D.Bound w) (D.Holds w) :=
  fun _ _ _ _ _ hclauses =>
    (D.layered w).update h (hD.update h.self rfl rfl rfl (.inr rfl) (.inl rfl) id fun _ => id)
      hclauses rfl (.inr rfl)

theorem Holds.filterBy (hD : D.Kept ok) (h : D.Holds w s) (hc : D.Bound w c) :
    D.Holds w (s.filterBy c) :=
  (h.amendable hD).filterBy hc fun _ hd => (parted hD w).binary ((D.layered w).clause h hd) hc

theorem Holds.project (hD : D.Kept ok) (h : D.Holds w s) {p : Projection}
    (hp : p ≠ .all ∧ ∀ fs, p ≠ .fields fs) (hc : ∀ c ∈ p.exprs, D.Bound w c) :
    D.Holds w (s.project p) :=
  (D.layered w).update h
    (hD.update h.self rfl rfl rfl (.inr rfl) (.inl rfl) (absurd · hp.1) fun fs hfs =>
      absurd hfs (hp.2 fs))
    (fun d hd => (Select.mem_clauses_project hd).imp id (hc d)) rfl (.inr rfl)

theorem Holds.projectExpr (hD : D.Kept ok) (h : D.Holds w s) (hc : D.Bound w c) :
    D.Holds w (s.project (.expr c)) :=
  h.project hD ⟨by rintro ⟨⟩, by rintro _ ⟨⟩⟩ (by simpa [Projection.exprs] using hc)

theorem Holds.ungroup (hD : D.Kept ok) (h : D.Holds w s) : D.Holds w { s with groupKey := none } :=
  (D.layered w).update h (hD.update h.self rfl rfl rfl (.inl rfl) (.inl rfl) id fun _ => id)
    (fun _ hd => .inl (Select.clauses_without_key hd)) rfl (.inl rfl)

theorem Holds.aggregated (hD : D.Kept ok) (h : D.Holds w s) {p : Projection} {label : String}
    {t : Ty} (hp : p ≠ .all ∧ ∀ fs, p ≠ .fields fs) (hc : ∀ c ∈ p.exprs, D.Bound w c) :
    D.Bound w (aggregated s p label t) := by
  have hproject := h.project hD hp hc
  have hgroup : D.Holds w (s.project p).groupAll :=
    (D.layered w).update hproject (hD.update hproject.self rfl rfl rfl (.inr rfl) (.inr rfl)
      id fun _ => id) (fun _ hd => .inl (Select.mem_clauses_groupAll hd)) rfl (.inr rfl)
  exact (parted hD w).onlyRowMember (hgroup.expr hD rfl)

/-! ## Groups -/

/-- Nothing bound and nothing left to bind. -/
theorem composed_plain :
    Expr.Composed fun e => ∀ n ∈ e.nodes, n.isBound = true ∧ n.select? = none :=
  .of_node fun {e} hk hq _ _ _ hc => by
    intro n hn
    rcases Expr.mem_nodes_iff.mp hn with rfl | ⟨c, hce, hn⟩
    · refine ⟨Expr.isBound_of_ne ?_ ?_, hq⟩
      · rintro name element rfl
        cases hk .table
      · rintro method args t rfl
        cases hk .operator
    · exact hc c hce n hn

theorem Bound.of_nodes (hx : D.Exposes w e) (hn : ∀ n ∈ e.nodes, D.node w n)
    (hplain : ∀ n ∈ e.nodes, n.isBound = true ∧ n.select? = none) : D.Bound w e := by
  refine ⟨hx, ?_⟩
  clear hx
  induction e using Expr.childrenInduction with
  | step e ih =>
    refine .of_parts ⟨hn e (Expr.mem_nodes_self e), (hplain e (Expr.mem_nodes_self e)).1⟩
      (fun c hc => ?_) fun s hs => ?_
    · exact ih c hc (fun n h => hn n (Expr.mem_nodes_of_child hc h))
        fun n h => hplain n (Expr.mem_nodes_of_child hc h)
    · rw [(hplain e (Expr.mem_nodes_self e)).2] at hs
      cases hs

/-- The expression of `columns` is not a row. -/
theorem exposes_columns (inner : Expr) (source target : ScopeId) :
    D.Exposes w (GroupKey.columns inner source target).2 := by
  intro scope t h
  unfold GroupKey.columns at h
  split at h
  · cases h
  · split at h
    · rename_i hpath
      obtain ⟨base, name, u, rfl, -⟩ := Expr.isRowPath_cases hpath
      rw [Expr.rebase_member] at h
      cases h
    · cases h

theorem Holds.terms (hD : D.Kept ok) (h : D.Holds w s) {fs : List OutputField}
    (hfs : ∀ f ∈ fs, D.Bound w f.expr) : ∀ c ∈ GroupKey.terms fs s.scope, D.Bound w c := by
  intro c hc
  obtain ⟨f, hf, rfl⟩ := List.mem_map.mp hc
  split
  · exact h.label hD
  · exact hfs f hf

theorem Holds.groups (hD : D.Kept ok) (h : D.Holds w s) {inner : Expr} (hi : D.Bound w inner)
    {args : List Expr}
    (hok : ok .groupBy (.select s) args (.select (s.groups inner ⟨w.length⟩)) = true) :
    ∃ k, D.Holds (w ++ [k]) (s.groups inner ⟨w.length⟩) := by
  obtain ⟨k, hself, hgrouped, hnodes⟩ := hD.groups h hi hok
  refine ⟨k, ?_⟩
  have h : D.Holds (w ++ [k]) s := h.mono hD (List.prefix_append w [k])
  have hi : D.Bound (w ++ [k]) inner := hi.mono hD (List.prefix_append w [k])
  have houter : D.Bound (w ++ [k]) (GroupKey.columns inner s.scope ⟨w.length⟩).2 :=
    .of_nodes (exposes_columns inner s.scope _)
      hnodes (composed_plain.columns s.scope trivial inner)
  have hfields := (parted hD _).columns_fields s.scope ⟨w.length⟩ hi
  -- Two selects are put together here: the one over the groups, and below it the one that groups.
  refine (D.layered _).of_parts hself (fun d hd => ?_) fun v hv => ?_
  · rcases Select.mem_clauses_groups hd with rfl | rfl | rfl
    · exact hi
    · exact houter
    · exact (h.filterBy hD ((parted hD _).equality hi houter)).expr hD rfl
  · rw [Select.inputs_groups] at hv
    rcases List.mem_cons.mp hv with rfl | hv
    · refine (D.layered _).update h hgrouped (fun d hd => ?_) rfl (.inr rfl)
      rcases Select.mem_clauses_groupedBy hd with hd | ⟨f, hf, rfl⟩ | hd
      · exact .inl hd
      · exact .inr (hfields f hf)
      · exact .inr (h.terms hD hfields d hd)
    · obtain rfl := List.mem_singleton.mp hv
      exact h

theorem Holds.readBack (hD : D.Kept ok) (h : D.Holds w s) (value : Expr) :
    D.Bound w (readBack s.scope value).2 := by
  unfold Binding.readBack
  split
  · refine .object hD fun m hm => ?_
    obtain ⟨z, -, rfl⟩ := List.mem_map.mp hm
    exact h.label hD
  · exact h.label hD

theorem Holds.readingMerged (hD : D.Kept ok) (h : D.Holds w s)
    (hsource : s.source = .subquery grouped) (hc : D.Bound w c)
    (hself : D.select w (s.readingMerged grouped c))
    (hmerged : D.select w (grouped.withMerged s.scope c)) :
    D.Holds w (s.readingMerged grouped c) := by
  refine (D.layered w).of_parts hself (fun d hd => ?_) fun v hv => ?_
  · rcases Select.mem_clauses_readingMerged hd with hd | rfl
    · exact (D.layered w).clause h hd
    · exact h.readBack hD c
  · rw [Select.inputs_readingMerged, List.mem_singleton] at hv
    subst hv
    refine (D.layered w).update (h.source hsource) hmerged (fun d hd => ?_) rfl (.inr rfl)
    rcases Select.mem_clauses_withMerged hd with hd | ⟨f, hf, rfl⟩
    · exact .inl hd
    · exact .inr ((parted hD w).readBack_fields s.scope hc f hf)

end

/-! ## Binding -/

/-- Binding keeps the discipline `D`. -/
def Keeps {K : Type} (D : Discipline K) (bind : Expr → BindM Expr) : Prop :=
  ∀ {w : List K} {e : Expr} {n : Nat} {r : Expr} {m : Nat}, w.length = n → D.Fit w e →
    Yields (bind e) n r m → Grows w m (D.Bound · r)

section
variable {K : Type} {D : Discipline K} {ok : QueryOp → Expr → List Expr → Expr → Bool} {w : List K}
  {bind : Expr → BindM Expr} {e r c a source : Expr} {s s' : Select} {key : GroupKey}
    {method : String} {t : Ty}
  {op : QueryOp} {args : List Expr} {fuel n m : Nat}

theorem Keeps.applyLambda (hD : D.Kept ok) (hbind : D.Keeps bind) (hw : w.length = n)
    (hs : D.Holds w s) (ha : D.Fit w a) (h : Yields (applyLambda bind s method a) n c m) :
    Grows w m (D.Bound · c) := by
  obtain ⟨p, body, hlambda, hbody⟩ := yields_applyLambda h
  exact hbind hw (hs.fillIn hD (ha.body hD hlambda) p.name) hbody

/-- `aggregateSource` is the select that an aggregate is put on. -/
theorem Holds.aggregateSource (hD : D.Kept ok) (hw : w.length = n) (hs : D.Holds w s)
    (hop : op = .count ∧ args ≠ [] ∨ op.aggregate?.isSome = true)
    (hok : ok op (.select s) args r = true) (h : Yields (aggregateSource s) n s' m) :
    Grows w m (D.Holds · s') := by
  rcases yields_aggregateSource h with ⟨rfl, -, rfl⟩ | ⟨rfl, hwindow, rfl⟩
  · exact .refl hw hs
  · obtain ⟨a, ha⟩ := hD.ofSelect hs hop hwindow hok
    rw [hw] at ha
    exact .note hw ((D.layered _).ofSelect (hs.mono hD (List.prefix_append w [a])) ha)

/-- `counted` looks at no row. -/
theorem Holds.counted (hD : D.Kept ok) (hw : w.length = n) (hs : D.Holds w s)
    (hok : ok .count (.select s) [] r = true) (h : Yields (Binding.aggregateSource s) n s' m)
    {label : String} : Grows w m (D.Bound · (Expr.onlyRowMember s'.counted label t)) := by
  rcases yields_aggregateSource h with ⟨rfl, -, rfl⟩ | ⟨rfl, hwindow, rfl⟩
  · exact .refl hw (hs.aggregated hD ⟨by rintro ⟨⟩, by rintro _ ⟨⟩⟩ (List.forall_mem_nil _))
  · obtain ⟨a, ha⟩ := hD.counted hs hwindow hok
    rw [hw] at ha
    -- Nothing is asked of the select before it counts, so it is put together from its parts at
    -- once.
    refine .note hw ((parted hD _).onlyRowMember
      (Holds.expr hD ((D.layered _).of_parts ha ?_ ?_) rfl))
    · intro c hc
      rcases Select.mem_clauses_project (Select.mem_clauses_groupAll hc) with hc | hc
      · rw [Select.clauses_ofSelect] at hc
        cases hc
      · cases hc
    · intro v hv
      have hv : v ∈ (Select.ofSelect ⟨n⟩ s).inputs true := hv
      rw [Select.inputs_ofSelect, List.mem_singleton] at hv
      subst hv
      exact hs.mono hD (List.prefix_append w [a])

/-- `mergeNode` fills in the key and the aggregates of a group. -/
theorem Keeps.merged (hD : D.Kept ok) (hbind : D.Keeps bind) (hw : w.length = n) (hs : D.Holds w s)
    (hk : s.groupKey = some key) {x : String} (he : D.Fit w e)
    (h : Yields (e.replaceM (mergeNode bind x key)) n r m) : Grows w m (D.Fit · r) := by
  -- Fitting alone does not carry the induction: a row is not fit by itself, but its member can be.
  let I := fun (w : List K) (e : Expr) => D.Holds w s ∧ (D.Fit w e ∨ ∃ scope t, e = .row scope t)
  have hI : ∀ {w w' : List K} {e : Expr}, w <+: w' → I w e → I w' e := fun hle hw =>
    ⟨hw.1.mono hD hle, hw.2.imp (Fit.mono hD hle) id⟩
  have hrun := yields_replaceM (T := fun e n r m => ∀ w : List K, w.length = n → I w e →
    Grows w m fun w' => r = e ∨ D.Fit w' r) ?_ ?_ h w hw ⟨hs, .inl he⟩
  · refine hrun.imp fun w' hle hr => hr.elim (fun heq => ?_) id
    rw [heq]
    exact he.mono hD hle
  · intro e n r m hr w hw ⟨hs, he⟩
    rcases yields_mergeNode hr with ⟨-, heq, rfl⟩ |
      ⟨kind, method, rest, t, value, hagg, hvalue, heq⟩ | ⟨heq, -, rfl⟩ | ⟨heq, -⟩
    · cases heq
      have hinner : D.Bound w key.inner := (D.layered w).keyExpr hs hk (by simp [GroupKey.exprs])
      exact .refl hw (.inr hinner.fit)
    · cases heq
      obtain ⟨group, rfl, -⟩ := Expr.aggregateOf?_eq_some hagg
      have hfit := he.resolve_right (by rintro ⟨_, _, ⟨⟩⟩)
      have hsource : D.Holds w key.source := (D.layered w).keySource hs hk
      -- The aggregate itself is nothing special, so only what it is taken of has to be looked at.
      suffices hvalues : Grows w m fun w' => ∀ c ∈ value.toList, D.Bound w' c by
        refine hvalues.imp fun w' _ hv => .inr (Bound.fit ?_)
        exact .of_children hD rfl rfl (by rintro _ _ ⟨⟩) hv
      rcases yields_aggregatedValue hvalue with ⟨-, rfl, rfl⟩ | ⟨f, c, hhead, rfl, hc⟩
      · refine .refl hw ?_
        split
        · exact List.forall_mem_nil _
        · exact List.forall_mem_singleton.mpr (hsource.rowValue hD)
      · have hf : D.Fit w f :=
          hfit.child_of hD rfl (by simp [Expr.children, List.mem_of_mem_head? hhead])
        exact (hbind.applyLambda hD hw hsource hf hc).imp fun w' _ hc =>
          List.forall_mem_singleton.mpr hc
    · cases heq
      exact .refl hw (.inl rfl)
    · cases heq
  · intro e n k cs m hnone hcs w hw ⟨hs, he⟩
    have hkeep : k = n := by
      rcases yields_mergeNode hnone with ⟨-, heq, -⟩ | ⟨_, _, _, _, _, -, -, heq⟩ | ⟨heq, -⟩ |
        ⟨-, -, -, -, heq⟩
      · cases heq
      · cases heq
      · cases heq
      · exact heq
    subst hkeep
    rcases he with he | ⟨scope, t, rfl⟩
    · have hkids := hcs.grows (I := I) hI (fun hle hcc => hcc.imp id (Fit.mono hD hle))
        hw fun c hc =>
        ⟨hs, (he.child hD hc).imp id And.right⟩
      exact hkids.imp fun w' hle hcs => .inr ((he.mono hD hle).rebuild hD hcs)
    · cases hcs
      exact .refl hw (.inl rfl)

/-! ## Operators -/

/-- What `D` asks of the parts of an operator that passes `ok`. -/
def invariant (D : Discipline K) (ok : QueryOp → Expr → List Expr → Expr → Bool) :
    Invariant (List K) where
  result := D.Bound
  query := D.Holds
  base := D.Holds
  clause w _ := D.Bound w
  argument w _ := D.Fit w
  allowed op source args r := ok op source args r = true

theorem Keeps.preserved (hD : D.Kept ok) (hbind : D.Keeps (bindChecked ok fuel)) :
    (D.invariant ok).Preserved (.notes K) (bindChecked ok fuel) where
  result_mono hle h := h.mono hD hle
  query_mono hle h := h.mono hD hle
  base_mono hle h := h.mono hD hle
  argument_mono hle h := h.mono hD hle
  assembled w := (parted hD w).toAssembled
  select h := h.select rfl
  expr h he := h.expr hD he
  apply _ hw hs ha h := hbind.applyLambda hD hw hs ha h
  amount _ _ hw ha h := hbind hw ha h
  value _ hw ha h := hbind hw ha h
  amendable _ h := h.amendable hD
  filterBy h hc := h.filterBy hD hc
  not {w _} hc := (parted hD w).not hc
  project h hc := h.projectExpr hD hc
  ungroup h := h.ungroup hD
  merge hw hs ha hkey hlambda hgrouped hmerges hmerged hc hok := by
    refine (hbind.merged hD hw hs hkey (ha.body hD hlambda) hmerged).bind fun w' hle hw' hfit => ?_
    refine (hbind hw' hfit hc).imp fun w'' hle' hvalue => ?_
    have hs := hs.mono hD (hle.trans hle')
    obtain ⟨hself, hfields⟩ := hD.merged hs hkey hlambda hgrouped hmerges hmerged hc hvalue hok
    exact hs.readingMerged hD hgrouped hvalue hself hfields
  groups hw hs hc hok := by
    cases hw
    obtain ⟨k, hgroups⟩ := hs.groups hD hc hok
    exact .note rfl hgroups
  aggregateSource hw hs hop hok h := hs.aggregateSource hD hw hop hok h
  query_of_base h := h
  rowValue _ h := h.rowValue hD
  aggregated {_ _ _ p _ _} h hp hc := by
    refine h.aggregated hD ⟨?_, ?_⟩ hc
    · rintro rfl
      cases hp
    · rintro fs rfl
      cases hp
  counted hw hs hok h := hs.counted hD hw hok h

/-- Binding keeps a discipline, as far as it passes `ok`. -/
theorem Kept.keeps (hD : D.Kept ok) (fuel : Nat) : D.Keeps (bindChecked ok fuel) := by
  induction fuel with
  | zero => exact fun _ _ h => absurd h BindM.yields_throw
  | succ fuel ih =>
    intro w e n r m hw he h
    -- Operators are bound with less fuel. Below them the walk goes on, down to rows, which only
    -- their members fit.
    let I := fun (w : List K) (e : Expr) => D.Fit w e ∨ ∃ scope t, e = .row scope t
    have hI : ∀ {w w' : List K} {e : Expr}, w <+: w' → I w e → I w' e := fun hle h =>
      h.imp (Fit.mono hD hle) id
    have hrun := yields_replaceM (T := fun e n r m => ∀ w : List K, w.length = n → I w e →
      Grows w m fun w' => r = e ∧ (∃ scope t, e = .row scope t) ∨ D.Bound w' r)
        ?_ ?_ h w hw (.inl he)
    · refine hrun.imp fun w' hle hr => hr.elim ?_ id
      rintro ⟨rfl, scope, t, rfl⟩
      exact ⟨he.exposes.mono hD hle, throughout_row hD scope t⟩
    · intro e n r m hr w hw he
      rcases yields_bindNodeChecked_some hr with ⟨name, element, rfl, rfl, rfl⟩ |
        ⟨op, method, start, rest, source, t, k, rfl, hsource, hperforms, hok⟩
      · obtain ⟨a, ha⟩ := hD.ofTable w name element
        rw [hw] at ha
        exact .note hw (.inr (((D.layered _).ofTable ha).expr hD rfl))
      · have hfit := he.resolve_right (by rintro ⟨_, _, ⟨⟩⟩)
        have hargs : ∀ a ∈ start :: rest, D.Fit w a := fun a ha =>
          hfit.child_of hD rfl (by simpa [Expr.children] using ha)
        refine (ih hw (hargs start (by simp)) hsource).bind fun w' hle hw' hsource => ?_
        refine ((ih.preserved hD).performs hw' hsource (fun a ha => ?_) hok hperforms).imp
          fun _ _ => .inr
        exact (hargs a (List.mem_cons_of_mem _ ha)).mono hD hle
    · intro e n k cs m hnone hcs w hw he
      obtain ⟨hbound, rfl⟩ := yields_bindNodeChecked_none hnone
      rcases he with he | ⟨scope, t, rfl⟩
      · refine (hcs.grows (I := I) hI ?_ hw fun c hc => ?_).imp fun w' hle hcs => ?_
        · exact fun hle hcc => hcc.imp id (Bound.mono hD hle)
        · exact (he.child hD hc).imp id And.right
        · exact .inr ((he.mono hD hle).bound hD hbound hcs)
      · cases hcs
        exact .refl hw (.inl ⟨rfl, scope, t, rfl⟩)

end

end Discipline

/-! ## Trees as callers make them -/

/-- `tree` can be bound so that all its operators pass `ok`. -/
def Expr.Passes (ok : QueryOp → Expr → List Expr → Expr → Bool) (tree : Expr) : Prop :=
  ∃ r m, Yields (bindChecked ok (operatorCount tree + 1) tree) 0 r m

instance (ok : QueryOp → Expr → List Expr → Expr → Bool) (tree : Expr) :
    Decidable (tree.Passes ok) :=
  decidable_of_iff (((bindChecked ok (operatorCount tree + 1) tree).run.run
    0).1.toOption.isSome = true)
    ⟨BindM.exists_yields, fun ⟨_, _, h⟩ => by rw [show _ = _ from h]; rfl⟩

section
variable {K : Type} {D : Discipline K} {ok : QueryOp → Expr → List Expr → Expr → Bool}
  {t tree bound : Expr} {params params' : Params} {n : Nat}

/-- Named trees have neither rows nor selects, so they are `Fit` for any discipline. -/
theorem Discipline.Kept.fit (hD : D.Kept ok) (hw : t.Written)
    (hname : Yields t.nameCaptures params tree params') : D.Fit [] tree := by
  have hrow : ∀ e ∈ tree.nodes, D.Exposes [] e := by
    rintro e he scope t rfl
    exact absurd ((hw.placed hname _ he).2.1 scope t rfl) List.not_mem_nil
  refine ⟨hrow tree (Expr.mem_nodes_self tree), fun e he => ?_, fun e he s hs => ?_⟩
  · exact hD.assemble fun c hc =>
      hrow c (Expr.mem_nodes_trans (Expr.mem_nodes_of_child hc (Expr.mem_nodes_self c)) he)
  · rw [(hw.named hname e he).1] at hs
    cases hs

/-- A discipline that is `Kept` holds of the bound tree. -/
theorem Discipline.Kept.of_passes (hD : D.Kept ok) (hw : t.Written)
    (hname : Yields t.nameCaptures params tree params') (hbind : Yields tree.bind 0 bound n)
    (hok : tree.Passes ok) : ∃ w, D.Bound w bound := by
  obtain ⟨r, m, hr⟩ := hok
  cases ((bindChecked_extends ok _ tree).yields hr).symm.trans hbind
  obtain ⟨w, -, -, hw⟩ := hD.keeps _ rfl (hD.fit hw hname) hr
  exact ⟨_, hw⟩

end

end QueryTree
