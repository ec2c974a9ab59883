import QueryTree.Proofs.Apart
import QueryTree.Proofs.Operator

/-!
# Properties of what binding puts together

Binding makes conjunctions, calls, objects and columns of rows of bound expressions. A property that
passes from parts to wholes (`Expr.Composed`, `Expr.Inherited`) passes to all of these, which is
shown here once.
-/

namespace QueryTree

/-- Whether a node is an aggregate over a group. -/
def Expr.isGroupAggregate : Expr → Bool
  | .groupAggregate _ _ _ => true
  | _ => false

/-- Whether a node is a `row`, a `newObject` or a `groupAggregate`: what is asked of such a node may
depend on more than its children. -/
def Expr.isMade : Expr → Bool
  | .row _ _ | .newObject _ _ | .groupAggregate _ _ _ => true
  | _ => false

/-- `P` holds of a node if it holds of its children, unless the node is a variable, a query,
something that is still to be named or bound, or `isMade`. -/
structure Expr.Assembled (P : Expr → Prop) : Prop where
  assemble : ∀ {e : Expr}, (∀ k : Mark, k.of e = false) → e.select? = none →
    (∀ y, e.isParameter y = false) → e.isMade = false → (∀ c ∈ e.children, P c) → P e

/-- Also of objects if `P` holds of their members, of rows if their scope is in `R`, and of
aggregates over groups with `G`. -/
structure Expr.Composed (P : Expr → Prop) (R : ScopeId → Prop := fun _ => True) (G : Prop := True) :
    Prop extends Expr.Assembled P where
  row : ∀ {scope : ScopeId} {t : Ty}, R scope → P (.row scope t)
  object : ∀ {t : Ty} {members : List (String × Expr)}, (∀ m ∈ members, P m.2) →
    P (.newObject t members)
  groupAggregate : ∀ {kind : AggregateKind} {selector : Option Expr} {t : Ty}, G →
    (∀ c ∈ selector.toList, P c) → P (.groupAggregate kind selector t)

/-- `P` also holds of the members of an object if it holds of the object. -/
structure Expr.Parted (P : Expr → Prop) : Prop extends Expr.Assembled P where
  member_of_object : ∀ {t : Ty} {members : List (String × Expr)}, P (.newObject t members) →
    ∀ m ∈ members, P m.2

/-- `P` holds of objects if and only if it holds of their members. -/
structure Expr.Inherited (P : Expr → Prop) (R : ScopeId → Prop := fun _ => True)
    (G : Prop := True) : Prop extends Expr.Composed P R G, Expr.Parted P

/-! ## Paths of rows -/

section
variable {scope : ScopeId} {e : Expr}

theorem Expr.isRowPath_cases (h : e.isRowPath scope = true) :
    ∃ base name t, e = .member base name t ∧
    ((∃ t', base = .row scope t') ∨ base.isRowPath scope = true) := by
  unfold isRowPath at h
  split at h
  · rename_i c t' name t
    rw [Bool.and_eq_true, beq_iff_eq] at h
    exact ⟨.row c t', name, t, rfl, .inl ⟨t', by rw [h.1]⟩⟩
  · rename_i base name t _
    rw [Bool.and_eq_true] at h
    exact ⟨base, name, t, rfl, .inr h.2⟩
  · cases h

theorem Expr.rebase_member (base : Expr) (name : String) (t : Ty) (scope target : ScopeId) :
    (Expr.member base name t).rebase scope target = .member (base.rebase scope target) name t := by
  unfold rebase
  rw [replace_eq]
  rfl

theorem Expr.rebase_row (t : Ty) (scope target : ScopeId) :
    (Expr.row scope t).rebase scope target = .row target t := by
  unfold rebase
  rw [replace_eq]
  simp

end

/-! ## What is put together -/

section
variable {P : Expr → Prop} {R : ScopeId → Prop} {G : Prop} {x y : Expr} {t u : Ty}

namespace Expr.Assembled

theorem constant (h : Assembled P) {v : Value} : P (.constant v t) :=
  h.assemble (fun k => by cases k <;> rfl) rfl (fun _ => rfl) rfl (List.forall_mem_nil _)

theorem binary (h : Assembled P) {b : BinaryOp} (hx : P x) (hy : P y) : P (.binary b x y t) := by
  refine h.assemble (fun k => by cases k <;> rfl) rfl (fun _ => rfl) rfl ?_
  simpa [Expr.children] using ⟨hx, hy⟩

theorem not (h : Assembled P) (hx : P x) : P x.not := by
  refine h.assemble (fun k => by cases k <;> rfl) rfl (fun _ => rfl) rfl ?_
  simpa [Expr.not, Expr.children] using hx

theorem custom (h : Assembled P) (hx : P x) : P (.custom x t) := by
  refine h.assemble (fun k => by cases k <;> rfl) rfl (fun _ => rfl) rfl ?_
  simpa [Expr.children] using hx

theorem enumerable (h : Assembled P) {method : String} {items : List Expr}
    (hitems : ∀ c ∈ items, P c) : P (.staticCall .enumerable method items t) := by
  refine h.assemble (fun k => by cases k <;> rfl) rfl (fun _ => rfl) rfl ?_
  simpa [Expr.staticCall, Expr.children] using hitems

theorem member (h : Assembled P) {name : String} (hx : P x) : P (.member x name t) := by
  refine h.assemble (fun k => by cases k <;> rfl) rfl (fun _ => rfl) rfl ?_
  simpa [Expr.children] using hx

theorem orDefault (h : Assembled P) {wanted : Bool} (hx : P x) :
    P (Binding.orDefault wanted x t) := by
  unfold Binding.orDefault
  split
  · exact h.binary hx h.constant
  · exact hx

theorem existsTest (h : Assembled P) (hx : P x) : P (Binding.existsTest x) := by
  unfold Binding.existsTest
  split
  · exact h.binary (h.enumerable (by simpa using hx)) h.constant
  · exact h.enumerable (by simpa using hx)

theorem answer (h : Assembled P) {op : QueryOp} {f : Expr → Expr} (hop : op.answer? t = some f)
    (hx : P x) : P (f x) := by
  unfold QueryOp.answer? at hop
  split at hop
  · cases hop
    exact h.existsTest hx
  · cases hop
    exact h.orDefault (h.binary hx h.constant)
  · cases hop
    exact h.orDefault (h.enumerable (by simpa using hx))
  · cases hop

theorem onlyRowMember (h : Assembled P) {s : Select} {name : String} (hs : P (.subquery s)) :
    P (Expr.onlyRowMember s name t) :=
  h.custom (h.member (h.binary hs h.constant))

end Expr.Assembled

namespace Expr.Composed

/-- It is enough to look at all nodes that `isMade` at once. -/
theorem of_node (h : ∀ {e : Expr}, (∀ k : Mark, k.of e = false) → e.select? = none →
    (∀ y, e.isParameter y = false) → (∀ scope t, e = .row scope t → R scope) →
    (e.isGroupAggregate = true → G) → (∀ c ∈ e.children, P c) → P e) : Composed P R G where
  assemble {e} hk hq hp hmade hc := by
    refine h hk hq hp ?_ (fun hagg => ?_) hc
    · rintro scope t rfl
      cases hmade
    · cases e with
      | groupAggregate => cases hmade
      | _ => cases hagg
  row hscope := by
    refine h (fun k => by cases k <;> rfl) rfl (fun _ => rfl) ?_ nofun (List.forall_mem_nil _)
    rintro _ _ ⟨⟩
    exact hscope
  object hm := by
    refine h (fun k => by cases k <;> rfl) rfl (fun _ => rfl) (by rintro _ _ ⟨⟩)
      nofun fun c hc => ?_
    obtain ⟨m, hmem, rfl⟩ := List.mem_map.mp hc
    exact hm m hmem
  groupAggregate hG hs :=
    h (fun k => by cases k <;> rfl) rfl (fun _ => rfl) (by rintro _ _ ⟨⟩) (fun _ => hG) hs

theorem node (h : Composed P R G) {e : Expr} (hk : ∀ k : Mark, k.of e = false)
    (hq : e.select? = none) (hp : ∀ y, e.isParameter y = false)
    (hrow : ∀ scope t, e = .row scope t → R scope) (hG : e.isGroupAggregate = true → G)
    (hc : ∀ c ∈ e.children, P c) : P e := by
  cases e with
  | row scope t => exact h.row (hrow scope t rfl)
  | newObject t members => exact h.object fun m hm => hc m.2 (List.mem_map_of_mem hm)
  | groupAggregate kind selector t => exact h.groupAggregate (hG rfl) hc
  | _ => exact h.assemble hk hq hp rfl hc

theorem rowMember (h : Composed P R G) {scope : ScopeId} (hscope : R scope) {name : String} :
    P (Expr.rowMember scope u name t) :=
  h.member (h.row hscope)

theorem rebase (h : Composed P R G) {source target : ScopeId} (htarget : R target) {key : Expr}
    (hpath : key.isRowPath source = true) : P (key.rebase source target) := by
  induction key using Expr.childrenInduction with
  | step key ih =>
    obtain ⟨base, name, t, rfl, ⟨t', rfl⟩ | hbase⟩ := Expr.isRowPath_cases hpath
    · rw [Expr.rebase_member, Expr.rebase_row]
      exact h.rowMember htarget
    · rw [Expr.rebase_member]
      exact h.member (ih base (by simp [Expr.children]) hbase)

end Expr.Composed

namespace Expr.Parted

theorem columns_fields (h : Parted P) (source target : ScopeId) {inner : Expr} (hi : P inner) :
    ∀ f ∈ (GroupKey.columns inner source target).1, P f.expr := by
  unfold GroupKey.columns
  split
  · intro f hf
    obtain ⟨y, hy, rfl⟩ := List.mem_map.mp hf
    exact h.member_of_object hi y hy
  · split
    · simpa using hi
    · simpa using hi

theorem equality (h : Parted P) {inner outer : Expr} (hi : P inner) (ho : P outer) :
    P (GroupKey.equality inner outer) := by
  -- The conditions on the members are joined from left to right.
  have hfold : ∀ (xs : List Expr) (x : Expr), P x → (∀ y ∈ xs, P y) → P (xs.foldl Expr.and x) := by
    intro xs
    induction xs with
    | nil => exact fun x hx _ => hx
    | cons y ys ih =>
      intro x hx hys
      exact ih _ (h.binary hx (hys y (by simp))) fun z hz => hys z (by simp [hz])
  unfold GroupKey.equality
  split
  · rename_i t as t' bs
    have hall : ∀ c ∈ List.zipWith (fun a b : String × Expr => a.2.eq b.2) as bs, P c := by
      intro c hc
      rw [← List.map_uncurry_zip_eq_zipWith] at hc
      obtain ⟨⟨a, b⟩, hab, rfl⟩ := List.mem_map.mp hc
      exact h.binary (h.member_of_object hi a (List.of_mem_zip hab).1)
        (h.member_of_object ho b (List.of_mem_zip hab).2)
    split
    · exact h.constant
    · rename_i first rest heq
      rw [heq] at hall
      exact hfold rest first (hall first (by simp)) fun y hy => hall y (by simp [hy])
  · exact h.binary hi ho

theorem readBack_fields (h : Parted P) (scope : ScopeId) {value : Expr} (hv : P value) :
    ∀ f ∈ (Binding.readBack scope value).1, P f.expr := by
  unfold Binding.readBack
  split
  · intro f hf
    obtain ⟨y, hy, rfl⟩ := List.mem_map.mp hf
    exact h.member_of_object hv y hy
  · simpa using hv

end Expr.Parted

namespace Expr.Composed

/-- The expression of `columns` is made of columns of rows. -/
theorem columns (h : Composed P R G) (source : ScopeId) {target : ScopeId} (htarget : R target)
    (inner : Expr) : P (GroupKey.columns inner source target).2 := by
  unfold GroupKey.columns
  split
  · refine h.object fun m hm => ?_
    obtain ⟨z, -, rfl⟩ := List.mem_map.mp hm
    exact h.rowMember htarget
  · split
    · rename_i hpath
      exact h.rebase htarget hpath
    · exact h.rowMember htarget

/-- `readBack` gives columns of rows. -/
theorem readBack (h : Composed P R G) {scope : ScopeId} (hscope : R scope) (value : Expr) :
    P (Binding.readBack scope value).2 := by
  unfold Binding.readBack
  split
  · refine h.object fun m hm => ?_
    obtain ⟨z, -, rfl⟩ := List.mem_map.mp hm
    exact h.rowMember hscope
  · exact h.rowMember hscope

end Expr.Composed

theorem Expr.Inherited.terms (h : Inherited P R G) {fs : List OutputField} {source : ScopeId}
    (hsource : R source) (hfs : ∀ f ∈ fs, P f.expr) : ∀ c ∈ GroupKey.terms fs source, P c := by
  intro c hc
  obtain ⟨f, hf, rfl⟩ := List.mem_map.mp hc
  split
  · exact h.rowMember hsource
  · exact hfs f hf

end

end QueryTree
