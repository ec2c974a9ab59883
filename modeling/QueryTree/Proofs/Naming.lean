import QueryTree.Capture
import QueryTree.Proofs.Apart
import QueryTree.Proofs.Runs

/-!
# Naming captured values

Callers make trees of some kinds of nodes only (`Expr.Written`). Naming replaces sources and
captured variables, one node at a time, and leaves the rest as it is.
-/

namespace QueryTree

/-! ## Trees that callers make -/

/-- Whether callers make nodes of this kind; the others are made by compiling. -/
def Expr.isWritten : Expr → Bool
  | .table _ _ | .named _ _ | .row _ _ | .select _ | .subquery _ | .custom _ _
  | .groupAggregate _ _ _ => false
  | _ => true

/-- A tree as callers make it. -/
def Expr.Written (e : Expr) : Prop := ∀ n ∈ e.nodes, n.isWritten = true

instance (e : Expr) : Decidable e.Written := inferInstanceAs (Decidable (∀ n ∈ e.nodes, _))

theorem Expr.Written.child {e c : Expr} (h : e.Written) (hc : c ∈ e.children) : c.Written :=
  fun n hn => h n (mem_nodes_of_child hc hn)

namespace Sample

/-- `method` on the query `start`. -/
def on (start : Expr) (method : String) (args : List Expr) : Expr :=
  .staticCall .queryable method (start :: args) .unknown

/-- A function of one variable. -/
def fn (x : String) (body : Expr) : Expr := .lambda [⟨x, .unknown⟩] body

/-- A variable. -/
def var (x : String) : Expr := .parameter x .unknown

/-- A column of the row that the variable `x` stands for. -/
def col (x column : String) : Expr := .member (var x) column .unknown

/-- A table. -/
def rows (table : String) : Expr := .source ⟨table, .unknown⟩

end Sample

/-! ## One node -/

section
variable {params params' : Params}

theorem nameNode_some {e r : Expr} (h : Yields (nameNode e) params (some r) params') :
    (∃ s : TableSource, r = .table s.table s.element ∧ params' = params ∧
      (e = .source s ∨ ∃ x t, e = .captured x (.source s) t)) ∨
      ∃ x v t name, e = .captured x (.value v) t ∧ r = .named name t ∧
        params.named x v = (name, params') := by
  unfold nameNode at h
  split at h
  · rename_i s
    obtain ⟨heq, rfl⟩ := yields_pure.mp h
    cases heq
    exact .inl ⟨s, rfl, rfl, .inl rfl⟩
  · rename_i x s t
    obtain ⟨heq, rfl⟩ := yields_pure.mp h
    cases heq
    exact .inl ⟨s, rfl, rfl, .inr ⟨x, t, rfl⟩⟩
  · rename_i x v t
    obtain ⟨name, p, hname, hrest⟩ := yields_bind.mp h
    obtain ⟨heq, rfl⟩ := yields_pure.mp hrest
    cases heq
    exact .inr ⟨x, v, t, name, rfl, rfl, NameM.yields_modifyGet.mp hname⟩
  · exact absurd h NameM.yields_throw
  · cases (yields_pure.mp h).1

/-- A node that naming leaves in place is not `raw`. -/
theorem nameNode_none {e : Expr} (h : Yields (nameNode e) params none params') :
    params' = params ∧ Mark.raw.of e = false := by
  unfold nameNode at h
  split at h
  · cases (yields_pure.mp h).1
  · cases (yields_pure.mp h).1
  · obtain ⟨name, p, hname, hrest⟩ := yields_bind.mp h
    cases (yields_pure.mp hrest).1
  · exact absurd h NameM.yields_throw
  · rename_i hsource hsourced hvalue hmissing
    refine ⟨(yields_pure.mp h).2, ?_⟩
    cases e with
    | source s => exact absurd rfl (hsource s)
    | captured x c t =>
      cases c with
      | source s => exact absurd rfl (hsourced x s t)
      | value v => exact absurd rfl (hvalue x v t)
      | unavailable => exact absurd rfl (hmissing x t)
    | _ => rfl

end

theorem nameNode_of_raw {e : Expr} (h : Mark.raw.of e = false) : nameNode e = pure none := by
  cases e <;> first | rfl | cases h

theorem Expr.nameCaptures_eq (e : Expr) :
    e.nameCaptures = nameNode e >>= fun r => match r with
      | some r => pure r
      | none => e.withChildren <$> e.children.mapM nameCaptures :=
  replaceM_eq nameNode e

/-! ## Failure -/

/-- `x` fails with an error in `E` only. -/
def NameM.FailsWith {α : Type} (E : Error → Prop) (x : NameM α) : Prop :=
  ∀ p err, x.run p = .error err → E err

section
variable {α β : Type} {E : Error → Prop} {x : NameM α} {f : α → NameM β}

theorem NameM.FailsWith.pure (a : α) : FailsWith E (pure a : NameM α) := by
  rintro p err ⟨⟩

theorem NameM.FailsWith.bind (hx : x.FailsWith E) (hf : ∀ a, (f a).FailsWith E) :
    (x >>= f).FailsWith E := by
  intro p err h
  rw [StateT.run_bind] at h
  cases hrun : x.run p with
  | error e =>
    rw [hrun] at h
    cases h
    exact hx p _ hrun
  | ok result =>
    rw [hrun] at h
    exact hf result.1 result.2 err h

theorem NameM.FailsWith.mapM {as : List α} (hf : ∀ a ∈ as, (f a).FailsWith E) :
    (as.mapM f).FailsWith E := by
  induction as with
  | nil => exact .pure []
  | cons a as ih =>
    rw [List.mapM_cons]
    refine (hf a List.mem_cons_self).bind fun b => ?_
    exact (ih fun a' ha' => hf a' (List.mem_cons_of_mem a ha')).bind fun bs => .pure (b :: bs)

end

/-- `nameCaptures` fails only for a captured variable without a value. -/
theorem Expr.nameCaptures_failsWith (e : Expr) :
    e.nameCaptures.FailsWith fun err => ∃ x, err = .unresolvedCapture x := by
  induction e using childrenInduction with
  | step e ih =>
    rw [nameCaptures_eq]
    refine NameM.FailsWith.bind ?_ fun r => ?_
    · intro p err h
      unfold nameNode at h
      split at h
      · cases h
      · cases h
      · cases h
      · cases h
        exact ⟨_, rfl⟩
      · cases h
    · cases r with
      | some r => exact .pure r
      | none =>
        show NameM.FailsWith _ (e.withChildren <$> e.children.mapM nameCaptures)
        rw [← bind_pure_comp]
        exact (NameM.FailsWith.mapM ih).bind fun _ => .pure _

/-! ## The whole tree -/

/-- What `named` preserves of the table, naming preserves. -/
theorem nameCaptures_keeps {I : Params → Prop} (hI : ∀ p x v, I p → I (p.named x v).2)
    {t tree : Expr} {p q : Params} (h : Yields t.nameCaptures p tree q) : I p → I q := by
  refine yields_replaceM (T := fun _ p _ q => I p → I q) ?_ ?_ h
  · intro e p r q hr hp
    rcases nameNode_some hr with ⟨s, -, rfl, -⟩ | ⟨x, v, t, name, -, -, hnamed⟩
    · exact hp
    · have hq := hI p x v hp
      rwa [hnamed] at hq
  · intro e p u cs q hnone hcs hp
    obtain ⟨rfl, -⟩ := nameNode_none hnone
    exact hcs.keeps hp

end QueryTree
