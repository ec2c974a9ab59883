import QueryTree.Proofs.Filled
import QueryTree.Proofs.Likeness
import QueryTree.Proofs.Lowered
import QueryTree.Proofs.Matching

/-!
# Calls in static form

Where `Surface.hasStaticForm`, a call may have its receiver in front of its arguments. Either way a
node has the same children in the same order, so traversals meet the same nodes. Where nothing is
grouped by keys, binding keeps trees `Expr.Paired`; uses of a group are told by the form they are
written in.
-/

namespace QueryTree

/-- Whether calls on a surface may have their receiver in front of their arguments. -/
def Surface.hasStaticForm : Surface → Bool
  | .enumerable | .object | .vector2 | .vector3 | .vector4 => true
  | _ => false

/-- The second tree is the first with some of its calls in static form. -/
inductive Expr.Respelled : Expr → Expr → Prop
  | kept {e : Expr} {cs : List Expr} : List.Forall₂ Expr.Respelled e.children cs →
    Expr.Respelled e (e.withChildren cs)
  | moved {surface : Surface} {method : String} {receiver : Expr} {args cs : List Expr} {t : Ty} :
    surface.hasStaticForm = true → List.Forall₂ Expr.Respelled (receiver :: args) cs →
    Expr.Respelled (.call surface method (some receiver) args t) (.call surface method none cs t)

/-- Whether a node is a call of `GroupBy`. -/
def Expr.isGrouping : Expr → Bool
  | .call .queryable method none _ _ => method == "GroupBy"
  | _ => false

/-- Not grouped by keys, and no select over groups. -/
structure Select.Keyless (s : Select) : Prop where
  key : s.groupKey = none
  group : s.group = none ∨ s.group = some .all

mutual

/-- Two expressions without keys of groups; the second has some calls of the first in static form.
-/
inductive Expr.Paired : Expr → Expr → Prop
  | kept {e : Expr} {cs : List Expr} : e.select? = none → e.isGrouping = false →
    List.Forall₂ Expr.Paired e.children cs → Expr.Paired e (e.withChildren cs)
  | moved {surface : Surface} {method : String} {receiver : Expr} {args cs : List Expr} {t : Ty} :
    surface.hasStaticForm = true → List.Forall₂ Expr.Paired (receiver :: args) cs →
    Expr.Paired (.call surface method (some receiver) args t) (.call surface method none cs t)
  | select {s s' : Select} : Select.Paired s s' → Expr.Paired (.select s) (.select s')
  | subquery {s s' : Select} : Select.Paired s s' → Expr.Paired (.subquery s) (.subquery s')

/-- Two selects whose expressions are `Paired`. -/
inductive Select.Paired : Select → Select → Prop
  | mk {s : Select} {source : RowSource} {projection : Projection} {filter take skip : Option Expr}
    {orderings : List SortKey} : s.Keyless → RowSource.Related Select.Paired s.source source →
    Projection.Paired s.projection projection → Option.Rel Expr.Paired s.filter filter →
    List.Forall₂ SortKey.Paired s.orderings orderings → Option.Rel Expr.Paired s.take take →
    Option.Rel Expr.Paired s.skip skip →
    Select.Paired s { s with source, projection, filter, orderings, take, skip }

/-- Two projections whose expressions are `Paired`. Without keys of groups there are no fields. -/
inductive Projection.Paired : Projection → Projection → Prop
  | all : Projection.Paired .all .all
  | expr {e e' : Expr} : Expr.Paired e e' → Projection.Paired (.expr e) (.expr e')
  | count {o o' : Option Expr} : Option.Rel Expr.Paired o o' →
    Projection.Paired (.count o) (.count o')
  | aggregation {kind : AggregateKind} {e e' : Expr} {label : String} : Expr.Paired e e' →
    Projection.Paired (.aggregation kind e label) (.aggregation kind e' label)

inductive SortKey.Paired : SortKey → SortKey → Prop
  | mk {e e' : Expr} {descending : Bool} : Expr.Paired e e' → SortKey.Paired ⟨e, descending⟩
    ⟨e', descending⟩

end

section
variable {e e' a a' b b' c c' : Expr} {cs ds ds' : List Expr} {s s' : Select}

namespace Expr

theorem isGrouping_withChildren (e : Expr) (cs : List Expr) :
    (e.withChildren cs).isGrouping = e.isGrouping := by
  apply withChildren_congr (f := isGrouping)
  intro e e' h
  cases h with
  | method surface | function surface => cases surface <;> rfl
  | _ => rfl

namespace Paired

/-! ## Children -/

theorem children (h : e.Paired e') : List.Forall₂ Expr.Paired e.children e'.children := by
  cases h with
  | kept _ _ hkids =>
    rw [children_withChildren hkids.length_eq.symm]
    exact hkids
  | moved _ hkids => exact hkids
  | select | subquery => exact .nil

/-- Given other children, the two nodes are still `Paired`. -/
theorem withChildren (h : e.Paired e') (hlen : ds.length = e.children.length)
    (hds : List.Forall₂ Expr.Paired ds ds') : (e.withChildren ds).Paired (e'.withChildren ds') := by
  cases h with
  | @kept e cs hselect hgrouping hkids =>
    have hlen' : ds'.length = e.children.length := hds.length_eq.symm.trans hlen
    rw [withChildren_withChildren hkids.length_eq.symm hlen',
      ← withChildren_withChildren hlen hlen']
    apply Paired.kept
    · rw [select?_withChildren, hselect]
    · rw [isGrouping_withChildren, hgrouping]
    · rwa [children_withChildren hlen]
  | moved hsurface hkids =>
    cases hds with
    | nil => cases hlen
    | cons hd hds => exact .moved hsurface (.cons hd hds)
  | select hs => exact .select hs
  | subquery hs => exact .subquery hs

theorem leaf (hselect : e.select? = none) (hgrouping : e.isGrouping = false) (h : e.children = []) :
    e.Paired e := by
  have hnode : e.Paired (e.withChildren []) := by
    apply Paired.kept hselect hgrouping
    rw [h]
    exact .nil
  rwa [← h, withChildren_children] at hnode

theorem children_imp {R : Expr → Expr → Prop} (h : e.Paired e')
    (hR : ∀ c ∈ e.children, ∀ c', c.Paired c' → R c c') :
    List.Forall₂ R e.children e'.children := by
  have hkids := h.children
  rw [List.forall₂_iff_zip] at hkids ⊢
  exact ⟨hkids.1, fun hp => hR _ (List.of_mem_zip hp).1 _ (hkids.2 hp)⟩

/-- Replacing that does the same at `Paired` nodes does the same to the trees. -/
theorem replaceM {m : Type → Type} [Monad m] [LawfulMonad m] [Comparing m]
    {f g : Expr → m (Option Expr)}
    (hfg : ∀ {e e'}, e.Paired e' → Matches (Option.Rel Expr.Paired) (f e) (g e'))
    (h : e.Paired e') : Matches Expr.Paired (e.replaceM f) (e'.replaceM g) := by
  induction e using childrenInduction generalizing e' with
  | step e ih =>
    rw [replaceM_eq, replaceM_eq]
    refine (hfg h).bind fun r r' hr => ?_
    cases hr with
    | some hr => exact .pure hr
    | none =>
      have hkids := Comparing.Matches.mapM (h.children_imp fun c hc c' hcc' => ih c hc hcc')
      exact hkids.map fun ds ds' hds => h.withChildren hds.1 hds.2

theorem isParameter_eq (h : e.Paired e') (x : String) : e.isParameter x = e'.isParameter x := by
  cases h with
  | kept => exact (isParameter_withChildren x _ _).symm
  | _ => rfl

theorem shadows_eq (h : e.Paired e') (x : String) : e.shadows x = e'.shadows x := by
  cases h with
  | kept => exact (shadows_withChildren x _ _).symm
  | _ => rfl

theorem substitute (h : e.Paired e') (ha : a.Paired a') (x : String) :
    (e.substitute x a).Paired (e'.substitute x a') := by
  refine h.replaceM (m := Id) fun {n n'} hn => ?_
  show Option.Rel Expr.Paired (substituteNode x a n) (substituteNode x a' n')
  unfold substituteNode
  rw [hn.isParameter_eq, hn.shadows_eq]
  by_cases hx : n'.isParameter x = true
  · rw [if_pos hx, if_pos hx]
    exact .some ha
  · rw [if_neg hx, if_neg hx]
    by_cases hshadows : n'.shadows x = true
    · rw [if_pos hshadows, if_pos hshadows]
      exact .some hn
    · rw [if_neg hshadows, if_neg hshadows]
      exact .none

/-! ## Shapes -/

theorem unquote (h : e.Paired e') : e.unquote.Paired e'.unquote := by
  induction e using unquote.induct generalizing e' with
  | case1 operand t ih =>
    cases h with
    | kept _ _ hkids =>
      rcases hkids with _ | @⟨_, c, _, _, hoperand, ⟨⟩⟩
      show operand.unquote.Paired c.unquote
      exact ih hoperand
  | case2 e hquote =>
    -- Nodes of one kind are both quotes or both none.
    have hself : e'.unquote = e' := by
      cases h with
      | @kept _ cs =>
        have hsame := e.sameNode_withChildren cs
        generalize e.withChildren cs = e' at hsame
        rw [Expr.unquote]
        rintro operand t rfl
        cases hsame <;> exact hquote _ _ rfl
      | _ => rfl
    rw [hself, Expr.unquote]
    · exact h
    · exact hquote

/-- As a function of one variable both fail alike, or their bodies are `Paired`. -/
theorem asLambda (h : e.Paired e') (method : String) :
    Outcomes (fun f f' => f.1 = f'.1 ∧ f.2.Paired f'.2) (e.asLambda method)
      (e'.asLambda method) := by
  have hu := h.unquote
  unfold Expr.asLambda
  generalize e.unquote = u, e'.unquote = u' at hu
  cases hu with
  | @kept _ cs _ _ hkids =>
    have hsame := u.sameNode_withChildren cs
    cases u with
    | lambda ps body =>
      rcases hkids with _ | ⟨hbody, ⟨⟩⟩
      rcases ps with _ | ⟨p, _ | ⟨q, ps⟩⟩
      · exact .error _
      · exact .ok ⟨rfl, hbody⟩
      · exact .error _
    | _ =>
      generalize Expr.withChildren _ cs = u' at hsame
      cases hsame <;> exact .error _
  | _ => exact .error _

end Paired

end Expr

/-! ## Types -/

theorem ty_paired : (∀ e : Expr, ∀ e', e.Paired e' → e.ty = e'.ty) ∧
    ∀ s : Select, ∀ s', s.Paired s' → s.projectedType = s'.projectedType := by
  apply deepInduction
  · intro e hkids hselect e' h
    cases h with
    | @kept _ cs hnone _ hchildren =>
      have hsame := e.sameNode_withChildren cs
      cases e with
      | lambda ps body =>
        rcases hchildren with _ | @⟨_, body', _, _, hbody, ⟨⟩⟩
        show body.ty = body'.ty
        exact hkids body (List.mem_singleton_self body) body' hbody
      | _ =>
        generalize Expr.withChildren _ cs = e' at hsame
        cases hsame <;> rfl
    | moved => rfl
    | select hs => exact congrArg Ty.queryable (hselect _ rfl _ hs)
    | subquery hs => exact congrArg Ty.array (hselect _ rfl _ hs)
  · intro s hclauses _ s' h
    obtain ⟨scope, element, source, projection, filter, group, orderings, take, skip,
      single, key⟩ := s
    cases h with
    | @mk _ _ projection' _ _ _ _ _ _ hprojection =>
      show projection.ty element = projection'.ty element
      have hty : ∀ c ∈ projection.exprs, ∀ c', c.Paired c' → c.ty = c'.ty :=
        fun c hc => hclauses c (by simp [Select.clauses, hc])
      cases hprojection with
      | all => rfl
      | expr he => exact hty _ (by simp [Projection.exprs]) _ he
      | count => rfl
      | aggregation he =>
        have hvalue := hty _ (by simp [Projection.exprs]) _ he
        simp only [Projection.ty, hvalue]

theorem Expr.Paired.ty_eq (h : e.Paired e') : e.ty = e'.ty := ty_paired.1 e e' h

theorem Select.Paired.projectedType_eq (h : s.Paired s') : s.projectedType = s'.projectedType :=
  ty_paired.2 s s' h

/-! ## Expressions put together -/

namespace Expr.Paired

theorem member (name : String) (t : Ty) (h : a.Paired a') :
    (member a name t).Paired (.member a' name t) :=
  .kept (e := .member a name t) rfl rfl (.cons h .nil)

theorem custom (t : Ty) (h : a.Paired a') : (custom a t).Paired (.custom a' t) :=
  .kept (e := .custom a t) rfl rfl (.cons h .nil)

theorem binary (op : BinaryOp) (t : Ty) (ha : a.Paired a') (hb : b.Paired b') :
    (binary op a b t).Paired (.binary op a' b' t) :=
  .kept (e := .binary op a b t) rfl rfl (.cons ha (.cons hb .nil))

theorem constant (v : Value) (t : Ty) : (constant v t).Paired (.constant v t) := leaf rfl rfl rfl

theorem sequenceCall (method : String) (t : Ty) (h : List.Forall₂ Expr.Paired cs ds) :
    (staticCall .enumerable method cs t).Paired (.staticCall .enumerable method ds t) :=
  .kept (e := .staticCall .enumerable method cs t) rfl rfl h

theorem combine (op : BinaryOp) (ha : a.Paired a') (hb : b.Paired b') :
    (combine op a b).Paired (.combine op a' b') := by
  have htype : binaryType op a b = binaryType op a' b' := by
    cases op <;> simp [binaryType, ha.ty_eq, hb.ty_eq]
  rw [Expr.combine, Expr.combine, htype]
  exact binary op _ ha hb

theorem not (h : a.Paired a') : a.not.Paired a'.not := by
  rw [Expr.not, Expr.not, h.ty_eq]
  exact .kept (e := .unary .not a a'.ty) rfl rfl (.cons h .nil)

theorem orDefault (wanted : Bool) (t : Ty) (h : a.Paired a') :
    (Binding.orDefault wanted a t).Paired (Binding.orDefault wanted a' t) := by
  cases wanted with
  | false => exact h
  | true => exact combine .coalesce h (constant _ _)

/-- `existsTest` asks selects and other sources in different ways. -/
theorem existsTest (h : a.Paired a') : (Binding.existsTest a).Paired (Binding.existsTest a') := by
  have hother : ∀ {e : Expr}, e.select? = none → Binding.existsTest e = .staticCall .enumerable
      "Any" [e] .bool := by
    intro e he
    cases e <;> first | rfl | cases he
  have hany := sequenceCall "Any" .bool (.cons h .nil)
  cases h with
  | @kept _ cs hselect =>
    rw [hother hselect, hother ((select?_withChildren a cs).trans hselect)]
    exact hany
  | moved => exact hany
  | select => exact hany
  | subquery hs =>
    exact combine .greaterThan (sequenceCall "Count" .int32 (.cons (.subquery hs) .nil))
      (constant _ _)

end Expr.Paired

/-! ## Selects put together -/

namespace Select.Paired

theorem keyless (h : s.Paired s') : s.Keyless := by
  cases h
  assumption

theorem groupKey_eq (h : s.Paired s') : s'.groupKey = none := by
  cases h with
  | mk hkey => exact hkey.key

theorem isWindowed_eq (h : s.Paired s') : s.isWindowed = s'.isWindowed := by
  have hsome : ∀ {o o' : Option Expr}, Option.Rel Expr.Paired o o' → o.isSome = o'.isSome := by
    intro o o' ho
    cases ho <;> rfl
  cases h with
  | mk _ _ _ _ _ htake hskip => simp only [isWindowed, hsome htake, hsome hskip]

theorem rowValue (h : s.Paired s') : s.rowValue.Paired s'.rowValue := by
  have hrow : ∀ scope, (Expr.row scope s.projectedType).Paired (.row scope s'.projectedType) := by
    intro scope
    rw [h.projectedType_eq]
    exact .leaf rfl rfl rfl
  cases h with
  | mk _ _ hprojection =>
    unfold Select.rowValue
    generalize s.projection = p at hprojection hrow ⊢
    cases hprojection with
    | expr he => exact he
    | _ => exact hrow _

theorem ofTable (scope : ScopeId) (name : String) (element : Ty) :
    (Select.ofTable scope name element).Paired (.ofTable scope name element) :=
  .mk (s := .ofTable scope name element) ⟨rfl, .inl rfl⟩ (.table name) .all .none .nil .none .none

theorem ofSelect (scope : ScopeId) (h : s.Paired s') :
    (Select.ofSelect scope s).Paired (.ofSelect scope s') := by
  rw [Select.ofSelect, Select.ofSelect, h.projectedType_eq]
  exact .mk (s := .ofSource scope (.subquery s) s'.projectedType) ⟨rfl, .inl rfl⟩ (.subquery h)
    .all .none .nil .none .none

theorem filterBy (h : s.Paired s') (hc : c.Paired c') : (s.filterBy c).Paired (s'.filterBy c') := by
  cases h with
  | @mk _ _ _ filter _ _ _ hkey hsource hprojection hfilter horderings htake hskip =>
    refine .mk (s := s.filterBy c) ⟨hkey.key, hkey.group⟩ hsource hprojection (.some ?_)
      horderings htake hskip
    generalize s.filter = f at hfilter
    cases hfilter with
    | none => exact hc
    | some hf => exact .combine .andAlso hf hc

theorem orderBy (h : s.Paired s') (hc : c.Paired c') (descending : Bool) :
    (s.orderBy c descending).Paired (s'.orderBy c' descending) := by
  cases h with
  | mk hkey hsource hprojection hfilter _ htake hskip =>
    exact .mk (s := s.orderBy c descending) ⟨hkey.key, hkey.group⟩ hsource hprojection hfilter
      (.cons (.mk hc) .nil) htake hskip

theorem thenBy (h : s.Paired s') (hc : c.Paired c') (descending : Bool) :
    (s.thenBy c descending).Paired (s'.thenBy c' descending) := by
  cases h with
  | mk hkey hsource hprojection hfilter horderings htake hskip =>
    exact .mk (s := s.thenBy c descending) ⟨hkey.key, hkey.group⟩ hsource hprojection hfilter
      (List.rel_append horderings (.cons (.mk hc) .nil)) htake hskip

theorem project (h : s.Paired s') {p p' : Projection} (hp : p.Paired p') :
    (s.project p).Paired (s'.project p') := by
  cases h with
  | mk hkey hsource _ hfilter horderings htake hskip =>
    exact .mk (s := s.project p) ⟨hkey.key, hkey.group⟩ hsource hp hfilter horderings htake hskip

theorem groupAll (h : s.Paired s') : s.groupAll.Paired s'.groupAll := by
  cases h with
  | mk hkey hsource hprojection hfilter horderings htake hskip =>
    exact .mk (s := s.groupAll) ⟨hkey.key, .inr rfl⟩ hsource hprojection hfilter horderings htake
      hskip

theorem take (h : s.Paired s') (hc : c.Paired c') :
    Select.Paired { s with take := some c } { s' with take := some c' } := by
  cases h with
  | mk hkey hsource hprojection hfilter horderings _ hskip =>
    exact .mk (s := { s with take := some c }) ⟨hkey.key, hkey.group⟩ hsource hprojection
      hfilter horderings (.some hc) hskip

theorem skip (h : s.Paired s') (hc : c.Paired c') :
    Select.Paired { s with skip := some c } { s' with skip := some c' } := by
  cases h with
  | mk hkey hsource hprojection hfilter horderings htake _ =>
    exact .mk (s := { s with skip := some c }) ⟨hkey.key, hkey.group⟩ hsource hprojection hfilter
      horderings htake (.some hc)

theorem single (h : s.Paired s') :
    Select.Paired { s with single := true } { s' with single := true } := by
  cases h with
  | mk hkey hsource hprojection hfilter horderings htake hskip =>
    exact .mk (s := { s with single := true }) ⟨hkey.key, hkey.group⟩ hsource hprojection hfilter
      horderings htake hskip

theorem aggregated (h : s.Paired s') {p p' : Projection} (hp : p.Paired p') (label : String)
    (t : Ty) : (Binding.aggregated s p label t).Paired (Binding.aggregated s' p' label t) := by
  have hs := (h.project hp).groupAll
  unfold Binding.aggregated Expr.onlyRowMember
  rw [hs.projectedType_eq]
  exact .custom t (.member label t (.binary .arrayIndex _ (.subquery hs) (.constant _ _)))

theorem projectBy (h : s.Paired s') (hc : c.Paired c') :
    (s.projectBy c).Paired (s'.projectBy c') := by
  have hproject := h.project (.expr hc)
  have hscope : s.scope = s'.scope := by
    cases h
    rfl
  cases hc with
  | @kept _ cs _ _ hkids =>
    have hsame := c.sameNode_withChildren cs
    cases c with
    | row scope t =>
      cases hkids
      show (if scope == s.scope then s else s.project (.expr (.row scope t))).Paired
        (if scope == s'.scope then s' else s'.project (.expr (.row scope t)))
      rw [hscope]
      split
      · exact h
      · exact hproject
    | _ =>
      generalize Expr.withChildren _ cs = c' at hsame hproject
      cases hsame <;> exact hproject
  | _ => exact hproject

end Select.Paired

end

end QueryTree
