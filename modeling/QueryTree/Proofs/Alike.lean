import QueryTree.Proofs.Grammar
import QueryTree.Proofs.Nesting
import QueryTree.Proofs.Simulation

/-!
# Lowering side by side

`LowerM.Agree` compares two runs of lowering whose states correspond: they give the same result and
end in states that correspond. Names are only added, the nesting is put back, and the terms have a
property that all ways of making them keep. `LowerM.Correspondence` says which states correspond.
-/

namespace QueryTree

/-- In `as` and `bs` with the same names in order, what is found under a name is in `R`. -/
theorem lookup_rel {α β : Type} {R : α → β → Prop} {as : List (String × α)} {bs : List (String × β)}
    (h : List.Forall₂ (fun a b => a.1 = b.1 ∧ R a.2 b.2) as bs) (name : String) :
    Option.Rel R (as.lookup name) (bs.lookup name) := by
  induction h with
  | nil => exact .none
  | @cons a b _ _ h _ ih =>
    obtain ⟨n, v⟩ := a
    obtain ⟨n', w⟩ := b
    obtain ⟨rfl, h⟩ : n = n' ∧ R v w := h
    rw [List.lookup_cons, List.lookup_cons]
    cases name == n with
    | true => exact .some h
    | false => exact ih

namespace Params

/-- The names that have been given out. -/
def names (p : Params) : List String := p.entries.map (·.1)

theorem contains_eq (p : Params) (name : String) : p.contains name = p.names.contains name := by
  unfold contains get? names
  induction p.entries with
  | nil => rfl
  | cons entry entries ih =>
    obtain ⟨other, v⟩ := entry
    rw [List.lookup_cons, List.map_cons, List.contains_cons, ← ih]
    cases name == other <;> rfl

/-- Two tables that differ in values only. -/
structure Alike (p q : Params) : Prop where
  options : p.options = q.options
  names : p.names = q.names
  recordIds : p.recordIds = q.recordIds

theorem Alike.length_eq {p q : Params} (h : p.Alike q) : p.entries.length = q.entries.length := by
  simpa [Params.names] using congrArg List.length h.names

theorem names_recordId (p : Params) (v : Value) :
    (p.recordId v).2.names = p.names ++ [(p.recordId v).1] :=
  List.map_append

/-- The name of a record id does not depend on the values of `p`. -/
theorem Alike.recordId {p q : Params} (h : p.Alike q) (v w : Value) :
    (p.recordId v).1 = (q.recordId w).1 ∧ (p.recordId v).2.Alike (q.recordId w).2 := by
  have hnumber : firstFrom (fun n => !p.contains (p.recordIdName n)) p.entries.length p.recordIds =
      firstFrom (fun n => !q.contains (q.recordIdName n)) q.entries.length q.recordIds := by
    simp only [contains_eq, recordIdName, h.options, h.names, h.length_eq, h.recordIds]
  have hname : (p.recordId v).1 = (q.recordId w).1 := by
    show p.recordIdName (firstFrom _ _ _) = q.recordIdName (firstFrom _ _ _)
    rw [hnumber, recordIdName, recordIdName, h.options]
  refine ⟨hname, h.options, ?_, ?_⟩
  · rw [names_recordId, names_recordId, hname, h.names]
  · show firstFrom _ _ _ + 1 = firstFrom _ _ _ + 1
    rw [hnumber]

end Params

/-- Two states that differ in the values of parameters only. -/
structure LowerState.Alike (s t : LowerState) : Prop where
  params : s.params.Alike t.params
  nesting : s.nesting = t.nesting

namespace LowerM

/-- What two runs are compared by: states that correspond, names there may be in the end, faults of
the tree that may come up, what is asked of terms, and whether nothing is asked of the second run if
the first fails. -/
structure Correspondence where
  states : LowerState → LowerState → Prop
  names : String → Prop
  faults : Error → Prop
  terms : Surql.Term → Prop
  lenient : Bool := false

/-- What is asked of statements. -/
abbrev Correspondence.statements (C : Correspondence) (s : Surql.Statement) : Prop :=
  C.terms (.subquery s)

/-- Whether nothing is asked after the result `r`. -/
def Correspondence.Pardons (C : Correspondence) {α : Type} (r : Except Error α) : Prop :=
  C.lenient = true ∧ ∀ a, r ≠ .ok a

/-- `x` and `y` do the same in states that correspond, unless `x` fails and that is pardoned. `x`
preserves what naming a record id preserves of the table, and the nesting. If all names in the end
are allowed, the result satisfies `G`; only allowed faults of the tree come up. -/
structure Agree (C : Correspondence) {α : Type} (G : α → Prop) (x y : LowerM α) : Prop where
  alike : ∀ s t : LowerState, C.states s t → C.Pardons (x.run.run s).1 ∨
    (x.run.run s).1 = (y.run.run t).1 ∧ C.states (x.run.run s).2 (y.run.run t).2
  keeps : ∀ I : Params → Prop, (∀ p v, I p → I (p.recordId v).2) →
    ∀ s : LowerState, I s.params → I (x.run.run s).2.params
  frame : ∀ s : LowerState, (x.run.run s).2.nesting = s.nesting
  fails : ∀ (s t : LowerState) (e : Error), C.states s t → (x.run.run s).1 = .error e →
    e.kind = .invalidTree → C.faults e
  gives : ∀ (s : LowerState) (a : α) (t : LowerState), Yields x s a t →
    (∀ n ∈ t.params.names, C.names n) → G a

/-- States that correspond are at the same nesting, and would correspond at any other. -/
def Correspondence.Level (C : Correspondence) : Prop :=
  ∀ {s t}, C.states s t → s.nesting = t.nesting ∧ ∀ n, C.states { s with nesting := n }
    { t with nesting := n }

/-- Runs that differ in the values of parameters only. -/
abbrev Correspondence.hiding (N : String → Prop) (E : Error → Prop) (P : Surql.Term → Prop) :
    Correspondence where
  states := LowerState.Alike
  names := N
  faults := E
  terms := P

theorem level_hiding (N : String → Prop) (E : Error → Prop) (P : Surql.Term → Prop) :
    (Correspondence.hiding N E P).Level :=
  fun h => ⟨h.nesting, fun _ => ⟨h.params, rfl⟩⟩

section
variable {C : Correspondence} {N : String → Prop} {E : Error → Prop} {P : Surql.Term → Prop}
  {α β : Type} {G : α → Prop} {G' : β → Prop} {x y : LowerM α} {f g : α → LowerM β}

theorem run_nested (x : LowerM α) (s : LowerState) :
    (nested x).run.run s =
      let r := x.run.run { s with nesting := s.nesting.enter }
      (r.1, { r.2 with nesting := r.2.nesting.exit }) :=
  rfl

theorem run_withScope (scope : ScopeId) (x : LowerM α) (s : LowerState) :
    (withScope scope x).run.run s =
      let r := x.run.run { s with nesting := (s.nesting.bind scope).2 }
      (r.1, { r.2 with nesting := r.2.nesting.restore scope (s.nesting.bind scope).1 }) :=
  rfl

theorem run_rowPath (scope : ScopeId) (s : LowerState) :
    (rowPath scope).run.run s = ((s.nesting.depth scope).map fun depth => match depth with
      | 0 => []
      | d + 1 => .start (.param "parent") :: List.replicate d .parent, s) := by
  show ((LowerM.rowPath scope).run.run s : Except Error (List Surql.Part) × LowerState) = _
  unfold rowPath
  rw [run_bind]
  show ((match (ExceptT.run (ofExcept (s.nesting.depth scope) >>= _)).run s with | r => r) :
    Except Error (List Surql.Part) × LowerState) = _
  rw [run_bind]
  cases s.nesting.depth scope with
  | error e => rfl
  | ok d => cases d <;> rfl

namespace Agree

/-- No name of `s.params` is ever lost. -/
theorem grows (h : Agree C G x y) (s : LowerState) :
    s.params.names ⊆ (x.run.run s).2.params.names := by
  refine h.keeps (s.params.names ⊆ Params.names ·) (fun p v hp => ?_) s (List.Subset.refl _)
  rw [Params.names_recordId]
  exact List.subset_append_of_subset_left _ hp

theorem imp {H : α → Prop} (h : Agree C G x y) (hG : ∀ a, G a → H a) : Agree C H x y :=
  { h with gives := fun s a t hx hN => hG a (h.gives s a t hx hN) }

theorem pure {a : α} (h : G a) : Agree C G (pure a) (pure a) where
  alike _ _ hst := .inr ⟨rfl, hst⟩
  keeps _ _ _ hs := hs
  frame _ := rfl
  fails _ _ _ _ he := by cases he
  gives _ _ _ hx _ := (yields_pure.mp hx).1 ▸ h

theorem throw (e : Error) (h : e.kind = .invalidTree → C.faults e) :
    Agree C G (throw e) (throw e) where
  alike _ _ hst := .inr ⟨rfl, hst⟩
  keeps _ _ _ hs := hs
  frame _ := rfl
  fails _ _ _ _ he := by
    cases he
    exact h
  gives _ _ _ hx _ := by cases hx

/-- `e` is no fault of the tree. -/
theorem refuse {e : Error} (h : (e.kind == .invalidTree) = false) :
    Agree C G (MonadExcept.throw e) (MonadExcept.throw e) :=
  .throw e fun hkind => by simp [hkind] at h

theorem ofExcept (r : Except Error α) (h : ∀ a, G a)
    (he : ∀ e, r = .error e → e.kind ≠ .invalidTree) : Agree C G (ofExcept r) (ofExcept r) where
  alike _ _ hst := .inr ⟨rfl, hst⟩
  keeps _ _ _ hs := hs
  frame _ := rfl
  fails _ _ e _ hr hkind := absurd hkind (he e hr)
  gives _ b _ _ _ := h b

theorem bind (hx : Agree C G x y) (hf : ∀ a, Agree C (fun b => G a → G' b) (f a) (g a)) :
    Agree C G' (x >>= f) (y >>= g) where
  alike s t hst := by
    have hrun := hx.alike s t hst
    rw [run_bind, run_bind]
    rcases hxs : x.run.run s with ⟨r, s'⟩
    rcases hyt : y.run.run t with ⟨r', t'⟩
    rw [hxs, hyt] at hrun
    cases r with
    -- A failure on the left ends both runs, unless it is pardoned: then nothing is asked of the
    -- right side.
    | error e =>
      rcases hrun with ⟨hC, -⟩ | ⟨hr, hs⟩
      · exact .inl ⟨hC, fun b hb => by cases hb⟩
      · obtain rfl : .error e = r' := hr
        exact .inr ⟨rfl, hs⟩
    | ok a =>
      obtain ⟨hr, hs⟩ := hrun.resolve_left fun hp => hp.2 a rfl
      obtain rfl : .ok a = r' := hr
      exact (hf a).alike s' t' hs
  keeps I hI s hs := by
    have hs' := hx.keeps I hI s hs
    rw [run_bind]
    rcases hxs : x.run.run s with ⟨r, s'⟩
    rw [hxs] at hs'
    cases r with
    | error e => exact hs'
    | ok a => exact (hf a).keeps I hI s' hs'
  frame s := by
    have hs' := hx.frame s
    rw [run_bind]
    rcases hxs : x.run.run s with ⟨r, s'⟩
    rw [hxs] at hs'
    cases r with
    | error e => exact hs'
    | ok a => exact ((hf a).frame s').trans hs'
  fails s t e hst he := by
    have hrun := hx.alike s t hst
    have hfails := hx.fails s t e hst
    rw [run_bind] at he
    rcases hxs : x.run.run s with ⟨r, s'⟩
    rw [hxs] at hrun hfails he
    cases r with
    | error e' =>
      cases he
      exact hfails rfl
    | ok a =>
      obtain ⟨-, hs⟩ := hrun.resolve_left fun hp => hp.2 a rfl
      exact (hf a).fails s' _ e hs he
  gives s b t hb hN := by
    obtain ⟨a, u, ha, hb⟩ := yields_bind.mp hb
    -- No name is lost on the way, so the table in the end has those of the state in between.
    have hu : u.params.names ⊆ t.params.names := by
      have hgrow := (hf a).grows u
      rw [show (f a).run.run u = (.ok b, t) from hb] at hgrow
      exact hgrow
    exact (hf a).gives u b t hb hN (hx.gives s a u ha fun n hn => hN n (hu hn))

/-- Where `C` pardons nothing, the same is done. -/
theorem same (h : Agree C G x y) (hC : C.lenient = false) {s t : LowerState} (hst : C.states s t) :
    (x.run.run s).1 = (y.run.run t).1 ∧ C.states (x.run.run s).2 (y.run.run t).2 :=
  (h.alike s t hst).resolve_left fun hp => Bool.false_ne_true (hC.symm.trans hp.1)

/-- Where `C` pardons a failure, anything goes with a `Fruitless` computation. -/
theorem of_fruitless (h : Agree C G x y) (hC : C.lenient = true) (hx : Fruitless x) (z : LowerM α) :
    Agree C G x z :=
  { h with alike := fun s _ _ => .inl ⟨hC, fun a ha => hx s a (x.run.run s).2 (Prod.ext ha rfl)⟩ }

theorem recordId (v w : Value) : Agree (.hiding N E P) N (recordId v) (recordId w) where
  alike s t hst := by
    obtain ⟨hname, hparams⟩ := hst.params.recordId v w
    exact .inr ⟨congrArg Except.ok hname, hparams, hst.nesting⟩
  keeps _ hI s hs := hI s.params v hs
  frame _ := rfl
  fails _ _ _ _ he := by cases he
  gives s name t hx hN := by
    have hname : name = (s.params.recordId v).1 ∧ t.params = (s.params.recordId v).2 := by
      have hrun : ((Except.ok (s.params.recordId v).1 : Except Error String),
          { s with params := (s.params.recordId v).2 }) = (.ok name, t) := hx
      cases hrun
      exact ⟨rfl, rfl⟩
    refine hN name ?_
    rw [hname.1, hname.2, Params.names_recordId]
    exact List.mem_append_right _ List.mem_cons_self

theorem nested (hC : C.Level) (h : Agree C G x y) : Agree C G (nested x) (nested y) where
  alike s t hst := by
    obtain ⟨hnesting, hlevel⟩ := hC hst
    refine (h.alike { s with nesting := s.nesting.enter } { t with nesting := t.nesting.enter }
      ?_).imp id ?_
    · rw [← hnesting]
      exact hlevel _
    · rintro ⟨hr, hs⟩
      obtain ⟨hnesting, hlevel⟩ := hC hs
      refine ⟨hr, ?_⟩
      rw [run_nested, run_nested]
      simp only [← hnesting]
      exact hlevel _
  keeps I hI s hs := h.keeps I hI { s with nesting := s.nesting.enter } hs
  frame s := by
    rw [run_nested]
    exact congrArg Nesting.exit (h.frame { s with nesting := s.nesting.enter })
  fails s t e hst he := by
    obtain ⟨hnesting, hlevel⟩ := hC hst
    refine h.fails { s with nesting := s.nesting.enter } { t with nesting := t.nesting.enter }
      e ?_ he
    rw [← hnesting]
    exact hlevel _
  gives s a t hx hN := by
    obtain ⟨hr, rfl⟩ := Prod.mk.inj ((run_nested x s).symm.trans hx)
    exact h.gives _ a _ (Prod.ext hr rfl) hN

theorem withScope (hC : C.Level) (scope : ScopeId) (h : Agree C G x y) :
    Agree C G (withScope scope x) (withScope scope y) where
  alike s t hst := by
    obtain ⟨hnesting, hlevel⟩ := hC hst
    refine (h.alike { s with nesting := (s.nesting.bind scope).2 }
      { t with nesting := (t.nesting.bind scope).2 } ?_).imp id ?_
    · rw [← hnesting]
      exact hlevel _
    · rintro ⟨hr, hs⟩
      obtain ⟨hinside, hlevel⟩ := hC hs
      refine ⟨hr, ?_⟩
      -- The level that is put back was read before, and is the same on both sides.
      have hfree : (t.nesting.bind scope).1 = (s.nesting.bind scope).1 := by rw [hnesting]
      rw [run_withScope, run_withScope]
      simp only [← hinside, hfree]
      exact hlevel _
  keeps I hI s hs := h.keeps I hI { s with nesting := (s.nesting.bind scope).2 } hs
  frame s := by
    rw [run_withScope]
    show Nesting.restore _ scope _ = s.nesting
    rw [h.frame { s with nesting := (s.nesting.bind scope).2 }]
    exact s.nesting.restore_bind scope
  fails s t e hst he := by
    obtain ⟨hnesting, hlevel⟩ := hC hst
    refine h.fails { s with nesting := (s.nesting.bind scope).2 }
      { t with nesting := (t.nesting.bind scope).2 } e ?_ he
    rw [← hnesting]
    exact hlevel _
  gives s a t hx hN := by
    obtain ⟨hr, rfl⟩ := Prod.mk.inj ((run_withScope scope x s).symm.trans hx)
    exact h.gives _ a _ (Prod.ext hr rfl) hN

/-- The way to a row is empty, or parents after the parameter `parent`. -/
theorem rowPath (hC : C.Level) (hscope : C.faults .rowOutOfScope) (scope : ScopeId) :
    Agree C (fun parts => parts = [] ∨ ∃ n, parts = .start (.param "parent") :: List.replicate n
      .parent) (rowPath scope) (rowPath scope) where
  alike s t hst := by
    rw [run_rowPath, run_rowPath, (hC hst).1]
    exact .inr ⟨rfl, hst⟩
  keeps I hI s hs := by
    rw [run_rowPath]
    exact hs
  frame s := by rw [run_rowPath]
  fails s _ e _ he _ := by
    rw [run_rowPath] at he
    cases hd : s.nesting.depth scope with
    | ok d =>
      rw [hd] at he
      cases he
    | error e' =>
      rw [hd] at he
      cases he
      exact Nesting.depth_error hd ▸ hscope
  gives s parts t hx _ := by
    have hrun := (Prod.mk.inj ((run_rowPath scope s).symm.trans hx)).1
    cases hd : s.nesting.depth scope with
    | error e =>
      rw [hd] at hrun
      cases hrun
    | ok d =>
      rw [hd] at hrun
      cases d with
      | zero =>
        cases hrun
        exact .inl rfl
      | succ d =>
        cases hrun
        exact .inr ⟨d, rfl⟩

section
variable [Surql.Grammar C.terms] {x y x' y' : LowerM Surql.Term}

theorem call {function : String} (hfunction : Surql.begins Char.isAlpha function = true)
    (h : Agree C C.terms x y) :
    Agree C C.terms (do return .call function [← x]) (do return .call function [← y]) :=
  h.bind fun _ => .pure fun ht => Surql.Grammar.call hfunction (by simpa using ht)

theorem binary (h : Agree C C.terms x y) (h' : Agree C C.terms x' y') (op : Surql.BinaryOp) :
    Agree C C.terms (do return .binary (← x) op (← x')) (do return .binary (← y) op (← y')) :=
  h.bind fun _ => h'.bind fun _ => .pure fun hu ht => Surql.Grammar.binary ht hu

end

end Agree

end

end LowerM

end QueryTree
