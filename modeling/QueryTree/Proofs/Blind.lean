import QueryTree.Compile
import QueryTree.Proofs.Lowered
import QueryTree.Proofs.Naming

/-!
# Values do not reach the text of a query

Trees that differ in captured values and record ids only compile to the same text with the same
names of parameters, or fail with the same error. Naming compares captured values, so those of one
tree have to be equal where those of the other are (`Params.Matched`).
-/

namespace QueryTree

/-! ## Captured values -/

namespace Expr

/-- The value that a node has captured. -/
def capturedValue? : Expr → Option Value
  | .captured _ (.value v) _ => some v
  | _ => none

/-- The captured values of `e` in the order in which they are named. -/
def capturedValues (e : Expr) : List Value := e.nodes.filterMap capturedValue?

theorem capturedValues_eq (e : Expr) :
    e.capturedValues = e.capturedValue?.toList ++ e.children.flatMap capturedValues := by
  unfold capturedValues
  rw [nodes_eq, List.filterMap_cons, List.filterMap_flatMap]
  cases e.capturedValue? <;> rfl

/-- A node that is not `raw` has the captured values of its children. -/
theorem capturedValues_of_raw {e : Expr} (h : Mark.raw.of e = false) :
    e.capturedValues = e.children.flatMap capturedValues := by
  rw [e.capturedValues_eq]
  cases e <;> first | rfl | cases h

theorem length_capturedValues_hidden (e : Expr) :
    e.hidden.capturedValues.length = e.capturedValues.length := by
  have hvalue : ∀ n : Expr, n.hidden.capturedValue?.isSome = n.capturedValue?.isSome := by
    intro n
    cases n with
    | captured name c t => cases c <;> rfl
    | _ => rfl
  have hnodes : e.hidden.nodes = e.nodes.map hidden := walk_relabel _ (fun _ => rfl) e
  simp only [capturedValues, List.length_filterMap_eq_countP, hnodes, List.countP_map,
    Function.comp_def, hvalue]

theorem length_capturedValues_eq {e e' : Expr} (h : e.hidden = e'.hidden) :
    e.capturedValues.length = e'.capturedValues.length := by
  rw [← e.length_capturedValues_hidden, h, e'.length_capturedValues_hidden]

end Expr

theorem forall₂_append {α β : Type} {R : α → β → Prop} {as bs : List α} {as' bs' : List β}
    (hlength : as.length = as'.length) (h : List.Forall₂ R (as ++ bs) (as' ++ bs')) :
    List.Forall₂ R as as' ∧ List.Forall₂ R bs bs' := by
  induction as generalizing as' with
  | nil =>
    obtain rfl : as' = [] := List.length_eq_zero_iff.mp hlength.symm
    exact ⟨.nil, h⟩
  | cons a as ih =>
    cases as' with
    | nil => cases hlength
    | cons a' as' =>
      obtain ⟨ha, hrest⟩ := List.forall₂_cons.mp h
      obtain ⟨has, hbs⟩ := ih (Nat.succ.inj hlength) hrest
      exact ⟨.cons ha has, hbs⟩

/-! ## Naming side by side -/

/-- Two tables with the same names in order, for values related by `R`. -/
structure Params.Matched (R : Value → Value → Prop) (p q : Params) : Prop where
  options : p.options = q.options
  entries : List.Forall₂ (fun a b => a.1 = b.1 ∧ R a.2 b.2) p.entries q.entries
  recordIds : p.recordIds = q.recordIds

namespace Params.Matched

variable {R : Value → Value → Prop} {p q : Params} {v w : Value}

theorem names (h : p.Matched R q) : p.names = q.names := by
  have hnames : ∀ as bs : List (String × Value),
      List.Forall₂ (fun a b => a.1 = b.1 ∧ R a.2 b.2) as bs → as.map (·.1) = bs.map (·.1) := by
    intro as bs h
    induction h with
    | nil => rfl
    | cons h _ ih => rw [List.map_cons, List.map_cons, h.1, ih]
  exact hnames _ _ h.entries

theorem alike (h : p.Matched R q) : p.Alike q := ⟨h.options, h.names, h.recordIds⟩

/-- Where `R` respects equality of values, both tables accept the same names. -/
theorem accepts (h : p.Matched R q) (hR : ∀ v w, R v w → ∀ v' w', R v' w' → (v == v') = (w == w'))
    (hv : R v w) (name : String) : p.accepts v name = q.accepts w name := by
  have hget : Option.Rel R (p.get? name) (q.get? name) := lookup_rel h.entries name
  unfold Params.accepts
  generalize p.get? name = a at hget ⊢
  generalize q.get? name = b at hget ⊢
  cases hget with
  | none => rfl
  | some h => exact hR _ _ h _ _ hv

theorem named (h : p.Matched R q) (hR : ∀ v w, R v w → ∀ v' w', R v' w' → (v == v') = (w == w'))
    (hv : R v w) (requested : String) : (p.named requested v).1 = (q.named requested w).1 ∧
      (p.named requested v).2.Matched R (q.named requested w).2 := by
  have hname : p.nameFor requested v = q.nameFor requested w := by
    simp only [Params.nameFor, Params.baseName, h.options, h.accepts hR hv, h.alike.length_eq]
  refine ⟨hname, ?_⟩
  simp only [Params.named, hname, Params.contains_eq, h.names]
  split
  · exact h
  · exact ⟨h.options, List.rel_append h.entries (.cons ⟨rfl, hv⟩ .nil), h.recordIds⟩

end Params.Matched

/-- Two runs of naming that fail alike, or give results related by `T` and leave tables that are
`Matched`. -/
inductive SameEnd (R : Value → Value → Prop) {α : Type} (T : α → α → Prop) :
    Except Error (α × Params) → Except Error (α × Params) → Prop
  | error (e : Error) : SameEnd R T (.error e) (.error e)
  | ok {a b : α} {p q : Params} : T a b → p.Matched R q → SameEnd R T (.ok (a, p)) (.ok (b, q))

namespace SameEnd

variable {R : Value → Value → Prop} {p q : Params}

theorem bind {α β : Type} {T : α → α → Prop} {T' : β → β → Prop} {x y : NameM α} {f g : α → NameM β}
    (hx : SameEnd R T (x.run p) (y.run q))
    (hf : ∀ a b p q, T a b → p.Matched R q → SameEnd R T' ((f a).run p) ((g b).run q)) :
    SameEnd R T' ((x >>= f).run p) ((y >>= g).run q) := by
  rw [StateT.run_bind, StateT.run_bind]
  generalize x.run p = r at hx
  generalize y.run q = r' at hx
  cases hx with
  | error e => exact .error e
  | ok hab hpq => exact hf _ _ _ _ hab hpq

theorem pure {α : Type} {T : α → α → Prop} {a b : α} (hab : T a b) (h : p.Matched R q) :
    SameEnd R T ((pure a : NameM α).run p) ((pure b : NameM α).run q) :=
  .ok hab h

end SameEnd

theorem Expr.raw_hidden (e : Expr) : Mark.raw.of e.hidden = Mark.raw.of e := by
  cases e <;> rfl

section
variable {R : Value → Value → Prop} (hR : ∀ v w, R v w → ∀ v' w', R v' w' → (v == v') = (w == w'))
include hR

/-- A `raw` node is named in the same way on both sides. -/
theorem sameEnd_nameNode {t t' : Expr} {p q : Params} (hraw : Mark.raw.of t = true)
    (ht : t.hidden = t'.hidden) (hvalues : List.Forall₂ R t.capturedValues t'.capturedValues)
    (h : p.Matched R q) :
    SameEnd R (fun a b => a.hidden = b.hidden) (t.nameCaptures.run p) (t'.nameCaptures.run q) := by
  rw [t.nameCaptures_eq, t'.nameCaptures_eq]
  cases t with
  | source s =>
    cases t' <;> cases ht
    exact .ok (T := fun a b : Expr => a.hidden = b.hidden) rfl h
  | captured name c ty =>
    cases t' with
    | captured name' c' ty' =>
      simp only [Expr.hidden, Expr.relabel, Expr.captured.injEq] at ht
      obtain ⟨rfl, hc, rfl⟩ := ht
      cases c with
      | value v =>
        cases c' with
        | value w =>
          obtain ⟨hvw, -⟩ := List.forall₂_cons.mp (hvalues : List.Forall₂ R [v] [w])
          obtain ⟨hname, htable⟩ := h.named hR hvw name
          exact .ok (T := fun a b : Expr => a.hidden = b.hidden) (congrArg (Expr.named · ty) hname)
            htable
        | _ => cases hc
      | source s =>
        cases c' <;> cases hc
        exact .ok (T := fun a b : Expr => a.hidden = b.hidden) rfl h
      | unavailable =>
        cases c' <;> cases hc
        exact .error _
    | _ => cases ht
  | _ => cases hraw

/-- `nameCaptures` does the same to trees that are equal when `hidden`. -/
theorem sameEnd_nameCaptures {t t' : Expr} {p q : Params} (ht : t.hidden = t'.hidden)
    (hvalues : List.Forall₂ R t.capturedValues t'.capturedValues) (h : p.Matched R q) :
    SameEnd R (fun a b => a.hidden = b.hidden) (t.nameCaptures.run p) (t'.nameCaptures.run q) := by
  induction t using Expr.childrenInduction generalizing t' p q with
  | step t ih =>
    cases hraw : Mark.raw.of t with
    | true => exact sameEnd_nameNode hR hraw ht hvalues h
    | false =>
      have hraw' : Mark.raw.of t' = false := by
        rw [← t'.raw_hidden, ← ht, t.raw_hidden, hraw]
      have hkids : t.children.map Expr.hidden = t'.children.map Expr.hidden := by
        rw [← Expr.children_relabel, ← Expr.children_relabel]
        exact congrArg Expr.children ht
      rw [Expr.capturedValues_of_raw hraw, Expr.capturedValues_of_raw hraw'] at hvalues
      -- The children are named one after the other, each with its own values.
      have hlist : ∀ cs cs' : List Expr, (∀ c ∈ cs, c ∈ t.children) →
          cs.map Expr.hidden = cs'.map Expr.hidden →
          List.Forall₂ R (cs.flatMap Expr.capturedValues) (cs'.flatMap Expr.capturedValues) →
          ∀ p q, p.Matched R q → SameEnd R (fun as bs => as.map Expr.hidden = bs.map Expr.hidden)
            ((cs.mapM Expr.nameCaptures).run p) ((cs'.mapM Expr.nameCaptures).run q) := by
        intro cs
        induction cs with
        | nil =>
          intro cs' _ hcs' _ p q h
          obtain rfl : cs' = [] := by simpa using hcs'.symm
          exact .pure rfl h
        | cons c cs ihcs =>
          intro cs' hmem hcs' hvalues p q h
          cases cs' with
          | nil => cases hcs'
          | cons c' cs' =>
            obtain ⟨hc, hrest⟩ := List.cons.inj hcs'
            rw [List.flatMap_cons, List.flatMap_cons] at hvalues
            obtain ⟨hv, hvs⟩ := forall₂_append (Expr.length_capturedValues_eq hc) hvalues
            rw [List.mapM_cons, List.mapM_cons]
            refine (ih c (hmem c (by simp)) hc hv h).bind fun a b p q hab h => ?_
            refine (ihcs cs' (fun d hd => hmem d (by simp [hd])) hrest hvs p q h).bind
              fun as bs p q habs h => ?_
            exact .pure (congrArg₂ List.cons hab habs) h
      rw [t.nameCaptures_eq, t'.nameCaptures_eq, nameNode_of_raw hraw, nameNode_of_raw hraw',
        pure_bind, pure_bind, ← bind_pure_comp, ← bind_pure_comp]
      refine (hlist _ _ (fun _ => id) hkids hvalues p q h).bind fun as bs p q habs h => .pure ?_ h
      rw [Expr.hidden, Expr.relabel_withChildren, Expr.hidden, Expr.relabel_withChildren, habs]
      exact congrArg (Expr.withChildren · _) ht

end

/-! ## Binding and lowering side by side -/

section
variable {a b : Expr}

theorem bind_map_hidden (h : a.hidden = b.hidden) (n : Nat) :
    (a.bind.run.run n).1.map Expr.hidden = (b.bind.run.run n).1.map Expr.hidden := by
  have hrun : ∀ e : Expr, (e.hidden.bind.run.run n).1 = (e.bind.run.run n).1.map Expr.hidden := by
    intro e
    rw [Expr.hidden, e.bind_relabel]
    show (StateT.run (ExceptT.run (_ <$> e.bind)) n).1 = _
    rw [ExceptT.run_map, StateT.run_map]
    rfl
  rw [← hrun, ← hrun, h]

/-- `toQuery` depends on values only in the values of its parameters. -/
theorem toQuery_hidden (e : Expr) {p q : Params} (hpq : p.Alike q) :
    (e.toQuery p).map (fun r => (r.1, r.2.names)) =
      (e.hidden.toQuery q).map fun r => (r.1, r.2.names) := by
  obtain ⟨hresult, hstate⟩ := e.lowerRoot_hidden.same rfl (s := ⟨p, .empty⟩) (t := ⟨q, .empty⟩)
    ⟨hpq, rfl⟩
  have hquery : ∀ (e : Expr) (p : Params), (e.toQuery p).map (fun r => (r.1, r.2.names)) =
      (e.lowerRoot.run.run ⟨p, .empty⟩).1.map fun query =>
        (query, (e.lowerRoot.run.run ⟨p, .empty⟩).2.params.names) := by
    intro e p
    unfold Expr.toQuery
    show Except.map _ (Except.map _ (e.lowerRoot.run.run ⟨p, .empty⟩).1) = _
    cases (e.lowerRoot.run.run ⟨p, .empty⟩).1 <;> rfl
  rw [hquery, hquery, hresult, hstate.params.names]

theorem toQuery_map_names (h : a.hidden = b.hidden) {p q : Params} (hpq : p.Alike q) :
    (a.toQuery p).map (fun r => (r.1, r.2.names)) = (b.toQuery q).map fun r =>
      (r.1, r.2.names) := by
  rw [toQuery_hidden a hpq, toQuery_hidden b ⟨rfl, rfl, rfl⟩, h]

end

/-! ## Compiling side by side -/

/-- What can be seen of `q`: its text and the names of its parameters. -/
def CompiledQuery.visible (q : CompiledQuery) : String × List String :=
  (q.text, q.parameters.map (·.1))

/-- What `compile` does once captured values have their names. -/
def Expr.compileNamed (tree : Expr) (params : Params) : Except Error CompiledQuery := do
  let bound ← (tree.bind.run.run 0).1
  let (query, params) ← bound.toQuery params
  return ⟨query.text, params.entries⟩

theorem Expr.compile_eq (o : Options) (e : Expr) :
    e.compile o = e.nameCaptures.run (.empty o) >>= fun r => r.1.compileNamed r.2 := rfl

theorem compileNamed_visible {a b : Expr} (h : a.hidden = b.hidden) {p q : Params}
    (hpq : p.Alike q) :
    (a.compileNamed p).map CompiledQuery.visible =
      (b.compileNamed q).map CompiledQuery.visible := by
  have hbind := bind_map_hidden h 0
  unfold Expr.compileNamed
  generalize (a.bind.run.run 0).1 = ra at hbind ⊢
  generalize (b.bind.run.run 0).1 = rb at hbind ⊢
  -- Binding succeeds on both sides or on none, and so does lowering.
  cases ra with
  | error e =>
    cases rb with
    | error e' => exact congrArg Except.error (Except.error.inj hbind)
    | ok bound' => cases hbind
  | ok bound =>
    cases rb with
    | error e' => cases hbind
    | ok bound' =>
      have hquery := toQuery_map_names (Except.ok.inj hbind) hpq
      show Except.map _ (bound.toQuery p >>= _) = Except.map _ (bound'.toQuery q >>= _)
      generalize bound.toQuery p = qa at hquery ⊢
      generalize bound'.toQuery q = qb at hquery ⊢
      cases qa with
      | error e =>
        cases qb with
        | error e' => exact congrArg Except.error (Except.error.inj hquery)
        | ok r => cases hquery
      | ok r =>
        cases qb with
        | error e => cases hquery
        | ok r' =>
          obtain ⟨htext, hnames⟩ := Prod.mk.inj (Except.ok.inj hquery)
          exact congrArg Except.ok (congrArg₂ Prod.mk (congrArg Surql.Query.text htext) hnames)

/-- Of two trees that differ in captured values and record ids only, with captured values equal to
each other in `t` where they are in `t'`, the same can be seen: the same error, or the same text and
names. -/
theorem compile_shows_no_values (o : Options) {t t' : Expr} (h : t.hidden = t'.hidden)
    (hvalues : ∀ x ∈ t.capturedValues.zip t'.capturedValues,
      ∀ y ∈ t.capturedValues.zip t'.capturedValues, (x.1 == y.1) = (x.2 == y.2)) :
    (t.compile o).map CompiledQuery.visible = (t'.compile o).map CompiledQuery.visible := by
  have hpairs : List.Forall₂ (fun v w => (v, w) ∈ t.capturedValues.zip t'.capturedValues)
      t.capturedValues t'.capturedValues :=
    List.forall₂_iff_zip.mpr ⟨Expr.length_capturedValues_eq h, id⟩
  have hend := sameEnd_nameCaptures (fun v w hvw v' w' hvw' => hvalues (v, w) hvw (v', w') hvw')
    h hpairs (p := .empty o) (q := .empty o) ⟨rfl, .nil, rfl⟩
  rw [t.compile_eq, t'.compile_eq]
  generalize t.nameCaptures.run (.empty o) = r at hend
  generalize t'.nameCaptures.run (.empty o) = r' at hend
  cases hend with
  | error e => rfl
  | ok htree hparams => exact compileNamed_visible htree hparams.alike

namespace Sample

/-- Users between two ages, both captured under one name, with the friend `friend`. -/
def usersBetween (low high : Value) (friend : RecordId) : Expr :=
  let age (v : Value) : Expr := .captured "age" (.value v) .unknown
  on (rows "user") "Where"
    [fn "u" (((Expr.combine .greaterThanOrEqual (col "u" "age") (age low)).and
      (.combine .lessThan (col "u" "age") (age high))).and
      ((col "u" "friend").eq (.constant (.array [.recordId friend]) .unknown)))]

/-- Friends of one user, of working age. -/
def workingFriends : Expr := usersBetween (.int 18) (.int 65) ⟨"user", .text "tobie"⟩

/-- The same query for other values. -/
def otherFriends : Expr := usersBetween (.string "a") (.bool true) ⟨"post", .number 7⟩

end Sample

section
open Sample

theorem compile_shows_no_values_workingFriends :
    workingFriends.hidden = otherFriends.hidden ∧
      (∀ x ∈ workingFriends.capturedValues.zip otherFriends.capturedValues,
        ∀ y ∈ workingFriends.capturedValues.zip otherFriends.capturedValues,
          (x.1 == y.1) = (x.2 == y.2)) ∧
      (workingFriends.compile .standard).map CompiledQuery.visible =
        (otherFriends.compile .standard).map CompiledQuery.visible ∧
      (workingFriends.compile .standard).toOption.map (·.visible.2) =
        some ["age", "age1", "_rid0"] := by
  have hvalues : ∀ x ∈ workingFriends.capturedValues.zip otherFriends.capturedValues,
      ∀ y ∈ workingFriends.capturedValues.zip otherFriends.capturedValues,
        (x.1 == y.1) = (x.2 == y.2) := by decide
  exact ⟨rfl, hvalues, compile_shows_no_values .standard rfl hvalues, by decide +kernel⟩

end

end QueryTree
