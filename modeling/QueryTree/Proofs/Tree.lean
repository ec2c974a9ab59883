import QueryTree.Expr.Traverse

/-!
# Trees one level at a time

Walking and replacing are defined by recursion over the tree type, with a function for each kind of
list in it. Here both are brought to one form: a node, its `children`, and the node `withChildren`
in their place. Facts about traversals are then shown once for a list of children.
-/

namespace QueryTree.Expr

/-! ## Children -/

/-- The expressions right below a node, in the order in which they are written. -/
def children : Expr → List Expr
  | .member base _ _ => [base]
  | .call _ _ receiver args _ => receiver.toList ++ args
  | .unary _ operand _ => [operand]
  | .binary _ left right _ => [left, right]
  | .lambda _ body => [body]
  | .newObject _ members => members.map (·.2)
  | .newArray _ items => items
  | .construct _ args => args
  | .custom inner _ => [inner]
  | .groupAggregate _ selector _ => selector.toList
  | _ => []

/-- The node with other children, as many as it has. -/
def withChildren : Expr → List Expr → Expr
  | .member _ name t, [base] => .member base name t
  | .call surface method (some _) _ t, receiver :: args =>
    .call surface method (some receiver) args t
  | .call surface method none _ t, args => .call surface method none args t
  | .unary op _ t, [operand] => .unary op operand t
  | .binary op _ _ t, [left, right] => .binary op left right t
  | .lambda params _, [body] => .lambda params body
  | .newObject t members, cs => .newObject t ((members.map (·.1)).zip cs)
  | .newArray t _, items => .newArray t items
  | .construct t _, args => .construct t args
  | .custom _ t, [inner] => .custom inner t
  | .groupAggregate kind (some _) t, [selector] => .groupAggregate kind (some selector) t
  | e, _ => e

@[simp] theorem withChildren_children (e : Expr) : e.withChildren e.children = e := by
  cases e with
  | call surface method receiver args t => cases receiver <;> rfl
  | groupAggregate kind selector t => cases selector <;> rfl
  | newObject t members =>
    simp only [children, withChildren]
    rw [← List.zip_of_prod rfl rfl]
  | _ => rfl

/-- `withChildren` gives a node its children. -/
theorem children_withChildren {e : Expr} {cs : List Expr} (h : cs.length = e.children.length) :
    (e.withChildren cs).children = cs := by
  cases e with
  | call surface method receiver args t =>
    cases receiver with
    | none => rfl
    | some r =>
      cases cs with
      | nil => simp [children] at h
      | cons c cs => rfl
  | newObject t members =>
    simp only [children, List.length_map] at h
    simp only [withChildren, children]
    exact List.map_snd_zip (by simp [h])
  | groupAggregate kind selector t =>
    cases selector with
    | none => simp [children] at h; subst h; rfl
    | some s =>
      obtain ⟨c, rfl⟩ := List.length_eq_one_iff.mp h
      rfl
  | binary op l r t =>
    match cs, h with
    | [c, d], _ => rfl
  | newArray t items => rfl
  | construct t args => rfl
  | member b n t =>
    obtain ⟨c, rfl⟩ := List.length_eq_one_iff.mp h
    rfl
  | unary op x t =>
    obtain ⟨c, rfl⟩ := List.length_eq_one_iff.mp h
    rfl
  | lambda ps b =>
    obtain ⟨c, rfl⟩ := List.length_eq_one_iff.mp h
    rfl
  | custom i t =>
    obtain ⟨c, rfl⟩ := List.length_eq_one_iff.mp h
    rfl
  | _ => exact (List.length_eq_zero_iff.mp h).symm

/-- Two nodes of one kind that may have different children. -/
inductive SameNode : Expr → Expr → Prop
  | refl (e : Expr) : SameNode e e
  | member (base base' : Expr) (name : String) (t : Ty) :
    SameNode (.member base name t) (.member base' name t)
  | method (surface : Surface) (name : String) (receiver receiver' : Expr) (args args' : List Expr)
    (t : Ty) : SameNode (.call surface name (some receiver) args t)
    (.call surface name (some receiver') args' t)
  | function (surface : Surface) (name : String) (args args' : List Expr) (t : Ty) :
    SameNode (.call surface name none args t) (.call surface name none args' t)
  | unary (op : UnaryOp) (operand operand' : Expr) (t : Ty) :
    SameNode (.unary op operand t) (.unary op operand' t)
  | binary (op : BinaryOp) (left left' right right' : Expr) (t : Ty) :
    SameNode (.binary op left right t) (.binary op left' right' t)
  | lambda (params : List LambdaParam) (body body' : Expr) :
    SameNode (.lambda params body) (.lambda params body')
  | newObject (t : Ty) (members members' : List (String × Expr)) :
    SameNode (.newObject t members) (.newObject t members')
  | newArray (t : Ty) (items items' : List Expr) : SameNode (.newArray t items) (.newArray t items')
  | construct (t : Ty) (args args' : List Expr) : SameNode (.construct t args) (.construct t args')
  | custom (inner inner' : Expr) (t : Ty) : SameNode (.custom inner t) (.custom inner' t)
  | groupAggregate (kind : AggregateKind) (selector selector' : Option Expr) (t : Ty) :
    SameNode (.groupAggregate kind selector t) (.groupAggregate kind selector' t)

/-- `withChildren` keeps the kind of a node. -/
theorem sameNode_withChildren (e : Expr) (cs : List Expr) : SameNode e (e.withChildren cs) := by
  cases e with
  | call surface method receiver args t =>
    rcases receiver with _ | r <;> rcases cs with _ | ⟨c, cs⟩ <;> constructor
  | groupAggregate kind selector t =>
    rcases selector with _ | s <;> rcases cs with _ | ⟨c, _ | ⟨d, cs⟩⟩ <;> constructor
  | binary op l r t => rcases cs with _ | ⟨c, _ | ⟨d, _ | ⟨x, cs⟩⟩⟩ <;> constructor
  | _ => rcases cs with _ | ⟨c, _ | ⟨d, cs⟩⟩ <;> constructor

/-- What is told by `SameNode` does not depend on children. -/
theorem withChildren_congr {α : Type} {f : Expr → α} (hf : ∀ {e e'}, SameNode e e' → f e' = f e)
    (e : Expr) (cs : List Expr) : f (e.withChildren cs) = f e :=
  hf (e.sameNode_withChildren cs)

theorem sizeOf_lt_of_mem_children {e c : Expr} (h : c ∈ e.children) : sizeOf c < sizeOf e := by
  cases e with
  | call surface method receiver args t =>
    simp only [children, List.mem_append, Option.mem_toList] at h
    rcases h with h | h
    · cases h
      simp +arith
    · have := List.sizeOf_lt_of_mem h
      simp only [call.sizeOf_spec]
      omega
  | newObject t members =>
    obtain ⟨⟨name, m⟩, hm, rfl⟩ := List.mem_map.mp h
    have := List.sizeOf_lt_of_mem hm
    simp only [Prod.mk.sizeOf_spec] at this
    simp only [newObject.sizeOf_spec]
    omega
  | newArray t items =>
    have := List.sizeOf_lt_of_mem h
    simp only [newArray.sizeOf_spec, children] at this ⊢
    omega
  | construct t args =>
    have := List.sizeOf_lt_of_mem h
    simp only [construct.sizeOf_spec, children] at this ⊢
    omega
  | groupAggregate kind selector t =>
    simp only [children, Option.mem_toList] at h
    cases h
    simp +arith
  | binary op l r t =>
    simp only [children, List.mem_cons, List.not_mem_nil, or_false] at h
    rcases h with rfl | rfl <;> simp +arith
  | member b n t => simp only [children, List.mem_singleton] at h; subst h; simp +arith
  | unary op x t => simp only [children, List.mem_singleton] at h; subst h; simp +arith
  | lambda ps b => simp only [children, List.mem_singleton] at h; subst h; simp +arith
  | custom i t => simp only [children, List.mem_singleton] at h; subst h; simp +arith
  | _ => simp [children] at h

/-- A `motive` that passes from the children to a node holds of every tree. -/
@[elab_as_elim]
theorem childrenInduction {motive : Expr → Prop}
    (step : ∀ e, (∀ c ∈ e.children, motive c) → motive e) (e : Expr) : motive e :=
  step e fun c hc =>
    have _ := sizeOf_lt_of_mem_children hc
    childrenInduction step c
termination_by sizeOf e

/-! ## Walking -/

theorem walkOption_eq (descend : Expr → Bool) (e : Option Expr) :
    walkOption descend e = e.toList.flatMap (walk descend) := by
  cases e <;> simp [walkOption]

theorem walkList_eq (descend : Expr → Bool) (es : List Expr) :
    walkList descend es = es.flatMap (walk descend) := by
  induction es with
  | nil => rfl
  | cons e es ih => simp [walkList, ih]

theorem walkMembers_eq (descend : Expr → Bool) (es : List (String × Expr)) :
    walkMembers descend es = (es.map (·.2)).flatMap (walk descend) := by
  induction es with
  | nil => rfl
  | cons e es ih => obtain ⟨name, e⟩ := e; simp [walkMembers, ih]

/-- `walk` visits the node and then, unless it is not to be entered, its children. -/
theorem walk_eq (descend : Expr → Bool) (e : Expr) :
    e.walk descend = e :: if descend e then e.children.flatMap (walk descend) else [] := by
  rw [walk.eq_def]
  cases h : descend e with
  | false => rfl
  | true =>
    simp only [cond_true, if_true]
    cases e <;>
      simp [children, walkOption_eq, walkList_eq, walkMembers_eq]

/-- All nodes of `e`. -/
def nodes (e : Expr) : List Expr := e.walk fun _ => true

theorem nodes_eq (e : Expr) : e.nodes = e :: e.children.flatMap nodes := by
  simp only [nodes, walk_eq _ e, if_true]
  rfl

theorem mem_nodes_self (e : Expr) : e ∈ e.nodes := by
  rw [nodes_eq]
  exact List.mem_cons_self

theorem mem_nodes_iff {n e : Expr} : n ∈ e.nodes ↔ n = e ∨ ∃ c ∈ e.children, n ∈ c.nodes := by
  rw [nodes_eq e, List.mem_cons, List.mem_flatMap]

theorem mem_nodes_of_child {n c e : Expr} (hc : c ∈ e.children) (hn : n ∈ c.nodes) : n ∈ e.nodes :=
  mem_nodes_iff.mpr (.inr ⟨c, hc, hn⟩)

theorem mem_nodes_trans {n m e : Expr} (hn : n ∈ m.nodes) (hm : m ∈ e.nodes) : n ∈ e.nodes := by
  induction e using childrenInduction with
  | step e ih =>
    rcases mem_nodes_iff.mp hm with rfl | ⟨c, hc, hmc⟩
    · exact hn
    · exact mem_nodes_of_child hc (ih c hc hmc)

/-! ## Replacing -/

section
variable {m : Type → Type} [Monad m] [LawfulMonad m] (f : Expr → m (Option Expr))

theorem replaceListM_eq (es : List Expr) : replaceListM f es = es.mapM (replaceM f) := by
  induction es with
  | nil => simp [replaceListM]
  | cons e es ih => simp [replaceListM, ih]

theorem replaceMembersM_eq (es : List (String × Expr)) :
    replaceMembersM f es =
      (fun cs => (es.map (·.1)).zip cs) <$> (es.map (·.2)).mapM (replaceM f) := by
  induction es with
  | nil => simp [replaceMembersM]
  | cons e es ih => obtain ⟨name, e⟩ := e; simp [replaceMembersM, ih]

/-- `replaceM` asks for the node first; if it stays, its children are replaced from left to right.
-/
theorem replaceM_eq (e : Expr) :
    e.replaceM f = f e >>= fun replacement => match replacement with
      | some r => pure r
      | none => e.withChildren <$> e.children.mapM (replaceM f) := by
  -- By the kind of node, since children are replaced through lists, options and members there.
  rw [replaceM.eq_def]
  refine bind_congr fun replacement => ?_
  cases replacement with
  | some r => rfl
  | none =>
    cases e with
    | call surface method receiver args t =>
      cases receiver with
      | none =>
        simp only [replaceOptionM, replaceListM_eq, pure_bind, bind_pure_comp]
        rfl
      | some r => simp [children, withChildren, replaceOptionM, replaceListM_eq]
    | groupAggregate kind selector t =>
      cases selector <;> simp [children, withChildren, replaceOptionM]
    | newObject t members =>
      simp only [replaceMembersM_eq, bind_pure_comp, Functor.map_map]
      rfl
    | newArray t items =>
      simp only [replaceListM_eq, bind_pure_comp]
      rfl
    | construct t args =>
      simp only [replaceListM_eq, bind_pure_comp]
      rfl
    | _ => simp [children, withChildren]

/-- `replaceM` keeps a tree of which no node is replaced. -/
theorem replaceM_eq_pure {e : Expr} (h : ∀ n ∈ e.nodes, f n = pure none) :
    e.replaceM f = pure e := by
  induction e using childrenInduction with
  | step e ih =>
    have hkids : ∀ cs : List Expr, cs ⊆ e.children → cs.mapM (replaceM f) = pure cs := by
      intro cs hcs
      induction cs with
      | nil => exact List.mapM_nil
      | cons c cs ihcs =>
        obtain ⟨hc, hcs⟩ := List.cons_subset.mp hcs
        have hstays := ih c hc fun n hn => h n (mem_nodes_of_child hc hn)
        rw [List.mapM_cons, hstays, pure_bind, ihcs hcs, pure_bind]
    rw [replaceM_eq, h e (mem_nodes_self e), pure_bind, hkids _ (List.Subset.refl _), map_pure,
      withChildren_children]

end

/-- `replace`, one level at a time. -/
theorem replace_eq (f : Expr → Option Expr) (e : Expr) :
    e.replace f = match f e with
      | some r => r
      | none => e.withChildren (e.children.map (replace f)) := by
  have h := replaceM_eq (m := Id) (fun node => pure (f node)) e
  unfold replace
  rw [h]
  simp only [Id.run, pure_bind]
  cases f e with
  | some r => rfl
  | none =>
    have hm : ∀ cs : List Expr, cs.mapM (m := Id) (replaceM fun node => pure (f node))
        = cs.map fun c => Id.run (c.replaceM (m := Id) fun node => pure (f node)) := by
      intro cs
      exact List.idRun_mapM
    exact congrArg e.withChildren (hm e.children)

end QueryTree.Expr
