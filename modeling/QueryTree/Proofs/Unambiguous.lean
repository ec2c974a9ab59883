import QueryTree.Proofs.Discipline
import QueryTree.Proofs.OutputColumns

/-!
# Unambiguous columns

A grouped select puts out the columns of its key and those of a merged selector, and nothing
compares their names. Where a member of the selector has the name of a column of the key and is not
that column, or names are repeated, two things are stored in one place. Elsewhere columns are
`Unambiguous`.
-/

namespace QueryTree

open Lowering (isComputed)
open Binding

/-! ## The same in one place -/

/-- `b` is `a`, or `a` is a member of an object made on the spot that has `b` for that member. -/
def Expr.Gives (a b : Expr) : Prop :=
  a = b ∨ ∃ t members name u, a = .member (.newObject t members) name u ∧
    (members.map (·.1)).Nodup ∧ (name, b) ∈ members ∧ isComputed t name = false

/-- `a` and `b` are the same, as far as members of objects made on the spot are the members. -/
def Expr.SameAs (a b : Expr) : Prop := ∃ e, a.Gives e ∧ b.Gives e

/-- No field is stored around another or inside it, and only the same in the same place. -/
def OutputField.Unambiguous (fields : List OutputField) : Prop :=
  ∀ f ∈ fields, ∀ g ∈ fields, f.place <+: g.place → f.place = g.place ∧ f.expr.SameAs g.expr

namespace Expr

section
variable {a b : Expr}

theorem SameAs.refl (a : Expr) : a.SameAs a := ⟨a, .inl rfl, .inl rfl⟩

theorem SameAs.symm (h : a.SameAs b) : b.SameAs a := by
  obtain ⟨e, ha, hb⟩ := h
  exact ⟨e, hb, ha⟩

theorem lookup_namedOperands {members : List (String × Expr)} (hnames : (members.map (·.1)).Nodup)
    {name : String} (h : (name, b) ∈ members) :
    (namedOperands members).lookup name = some ⟨b, b.lower⟩ := by
  induction members with
  | nil => cases h
  | cons m members ih =>
    obtain ⟨other, e⟩ := m
    rw [List.map_cons, List.nodup_cons] at hnames
    rw [namedOperands]
    rcases List.mem_cons.mp h with heq | hmem
    · cases heq
      exact List.lookup_cons_self
    · have hne : (name == other) = false :=
        beq_eq_false_iff_ne.mpr fun heq => hnames.1 (List.mem_map.mpr ⟨(name, b), hmem, heq⟩)
      rw [List.lookup_cons, hne]
      exact ih hnames.2 hmem

theorem Gives.lower_eq (h : a.Gives b) : a.lower = b.lower := by
  rcases h with rfl | ⟨t, members, name, u, rfl, hnames, hmem, hstored⟩
  · rfl
  · have hmember : (Expr.member (.newObject t members) name u).lower = Lowering.storedMember
        ⟨.newObject t members, (Expr.newObject t members).lower⟩ (namedOperands members) name :=
      Lowering.member_of_stored hstored
    rw [hmember]
    simp only [Lowering.storedMember, lookup_namedOperands hnames hmem]

theorem SameAs.lower_eq (h : a.SameAs b) : a.lower = b.lower := by
  obtain ⟨e, ha, hb⟩ := h
  rw [ha.lower_eq, hb.lower_eq]

theorem Gives.value_eq {V : Type} [DecidableEq V] (M : Semantics V) (σ : Scene V) (h : a.Gives b) :
    M.value σ a = M.value σ b := by
  rcases h with rfl | ⟨t, members, name, u, rfl, hnames, hmem, -⟩
  · rfl
  · show M.node (.member .hole name u) [M.value σ (.newObject t members)] = M.value σ b
    rw [M.value_newObject]
    exact M.member_record_map (fun m => M.value σ m.2) hnames hmem u

theorem SameAs.value_eq {V : Type} [DecidableEq V] (M : Semantics V) (σ : Scene V)
    (h : a.SameAs b) : M.value σ a = M.value σ b := by
  obtain ⟨e, ha, hb⟩ := h
  rw [ha.value_eq, hb.value_eq]

end

end Expr

namespace OutputField.Unambiguous

variable {fields others : List OutputField}

theorem single (f : OutputField) : Unambiguous [f] := by
  intro g hg g' hg' _
  rw [List.mem_singleton.mp hg, List.mem_singleton.mp hg']
  exact ⟨rfl, .refl _⟩

theorem of_labels {members : List (String × Expr)} (hnames : (members.map (·.1)).Nodup) :
    Unambiguous (members.map fun m => ⟨m.2, some m.1⟩) := by
  intro f hf g hg hplace
  obtain ⟨m, hm, rfl⟩ := List.mem_map.mp hf
  obtain ⟨m', hm', rfl⟩ := List.mem_map.mp hg
  obtain ⟨hname, -⟩ := List.cons_prefix_cons.mp hplace
  obtain rfl : m = m' := List.inj_on_of_nodup_map hnames hm hm' hname
  exact ⟨rfl, .refl _⟩

theorem append (h : Unambiguous fields) (h' : Unambiguous others)
    (hboth : ∀ f ∈ fields, ∀ g ∈ others, f.place = g.place ∧ f.expr.SameAs g.expr ∨
      ¬ f.place <+: g.place ∧ ¬ g.place <+: f.place) : Unambiguous (fields ++ others) := by
  intro f hf g hg hplace
  rcases List.mem_append.mp hf with hf | hf <;> rcases List.mem_append.mp hg with hg | hg
  · exact h f hf g hg hplace
  · exact (hboth f hf g hg).resolve_right fun hapart => hapart.1 hplace
  · obtain ⟨heq, hsame⟩ := (hboth g hg f hf).resolve_right fun hapart => hapart.2 hplace
    exact ⟨heq.symm, hsame.symm⟩
  · exact h' f hf g hg hplace

/-- `readAt` reads a field back from where it was written. -/
theorem readAt {V : Type} [DecidableEq V] (M : Semantics V) (σ : Scene V) (h : Unambiguous fields)
    {f : OutputField} (hf : f ∈ fields) :
    M.readAt (M.putOut σ fields) f.place = M.value σ f.expr := by
  refine M.readAt_putOut hf fun g hg => ?_
  by_cases haround : g.place <+: f.place
  · obtain ⟨hplace, hsame⟩ := h g hg f hf haround
    exact .inl ⟨hplace, hsame.value_eq M σ⟩
  · by_cases hinside : f.place <+: g.place
    · obtain ⟨hplace, hsame⟩ := h f hf g hg hinside
      exact .inl ⟨hplace.symm, hsame.symm.value_eq M σ⟩
    · exact .inr ⟨haround, hinside⟩

end OutputField.Unambiguous

/-! ## Keys and selectors -/

/-- Whether the members of an object have different names. -/
def Expr.namesApart : Expr → Bool
  | .newObject _ members => decide (members.map (·.1)).Nodup
  | _ => true

/-- The members that a selector over groups puts out when it is merged. -/
def Expr.mergedMembers : Expr → List (String × Expr)
  | .newObject _ members => members
  | e => [("Value", e)]

/-- Whether `f` is stored neither under `label` nor around it. -/
def OutputField.isApart (label : String) (f : OutputField) : Bool := f.place.head?.any (· != label)

/-- Whether an expression over groups is the column of `key` with that `label`: the key itself, or a
member of a key that is an object. -/
def Expr.isKeyColumn (x : String) (key : GroupKey) (label : String) (e : Expr) : Bool :=
  match key.inner, e with
  | .newObject t (_ :: _), .member base name _ =>
    base.isKeyOf x && name == label && !isComputed t name
  | .newObject _ (_ :: _), _ => false
  | _, e => e.isKeyOf x

/-- Whether `body` can be put out beside the columns `keys`: its members have different names, and
one that has the name of a column of the key is that column. -/
def Expr.mergesApart (x : String) (key : GroupKey) (keys : List OutputField) (body : Expr) : Bool :=
  decide (body.mergedMembers.map (·.1)).Nodup && body.mergedMembers.all fun m => keys.all fun f =>
    f.isApart m.1 || f.place == [m.1] && m.2.isKeyColumn x key m.1

/-- `namesApart` and `mergesApart`, as far as an operator groups rows or is merged. -/
def labelsApart (op : QueryOp) (source : Expr) (args : List Expr) (r : Expr) : Bool :=
  match op, source, args, r with
  | .groupBy, _, _, .select s => s.groupKey.all (·.inner.namesApart)
  | .select, .select s, [selector], _ => s.groupKey.all fun key => match selector.unquote with
    | .lambda [p] body =>
      (GroupUses.of body p.name).aggregates == 0 || (GroupUses.of body p.name).other ||
      body.mergesApart p.name key (GroupKey.columns key.inner key.source.scope s.scope).1
    | _ => true
  | _, _, _, _ => true

/-- The columns of a key are `Unambiguous` if the members of an object have different names. -/
theorem GroupKey.unambiguous_columns {inner : Expr} (h : inner.namesApart = true)
    (source target : ScopeId) :
    OutputField.Unambiguous (GroupKey.columns inner source target).1 := by
  unfold GroupKey.columns
  split
  · exact .of_labels (of_decide_eq_true h)
  · split
    · exact .single _
    · exact .single _

theorem Binding.readBack_fields (scope : ScopeId) (c : Expr) :
    (readBack scope c).1 = c.mergedMembers.map fun m => ⟨m.2, some m.1⟩ := by
  cases c <;> rfl

/-! ## What becomes of a selector -/

/-- The key, and a member of the key, become those of the grouped rows. -/
structure Expr.FollowsKey (x : String) (key : GroupKey) (e c : Expr) : Prop where
  whole : e.isKeyOf x = true → c = key.inner
  member : ∀ {base name u}, e = .member base name u → base.isKeyOf x = true →
    c = .member key.inner name u

section
variable {ok : QueryOp → Expr → List Expr → Expr → Bool} {bind : Expr → BindM Expr} {x : String}
  {key : GroupKey} {e d c body : Expr} {fuel n k m : Nat}

/-- `bindChecked` keeps what is bound already. -/
theorem yields_bindChecked_of_bound (h : ∀ n ∈ e.nodes, n.isBound = true)
    (hc : Yields (bindChecked ok fuel e) n c m) : c = e := by
  cases fuel with
  | zero => exact absurd hc BindM.yields_throw
  | succ fuel =>
    have hnode : ∀ n ∈ e.nodes, bindNodeChecked ok (bindChecked ok fuel) n = pure none := by
      intro n hn
      have hbound := h n hn
      unfold bindNodeChecked bindNode
      split
      · cases hbound
      · split
        · cases hbound
        · cases hbound
        · rfl
    rw [bindChecked, Expr.replaceM_eq_pure _ hnode] at hc
    exact (yields_pure.mp hc).1

theorem replaceM_mergeNode_of_isKeyOf (h : e.isKeyOf x = true) :
    e.replaceM (mergeNode bind x key) = pure key.inner := by
  rw [Expr.replaceM_eq, mergeNode_eq, if_pos h, pure_bind]

theorem followsKey_of_yields (hkey : ∀ n ∈ key.inner.nodes, n.isBound = true)
    (hmerged : Yields (e.replaceM (mergeNode bind x key)) n d k) {k' : Nat}
    (hc : Yields (bindChecked ok fuel d) k' c m) : e.FollowsKey x key c where
  whole h := by
    rw [replaceM_mergeNode_of_isKeyOf h] at hmerged
    rw [(yields_pure.mp hmerged).1] at hc
    exact yields_bindChecked_of_bound hkey hc
  member {base name u} he h := by
    subst he
    have hmember : (Expr.member base name u).replaceM (mergeNode bind x key) = pure
        (.member key.inner name u) := by
      -- The key of a group has no key of its own.
      have hother : (Expr.member base name u).isKeyOf x = false := by
        obtain ⟨t, y, rfl, -⟩ := Expr.isKeyOf_eq_true h
        unfold Expr.isKeyOf
        split
        · rename_i heq
          cases heq
          rfl
        · rfl
      rw [Expr.replaceM_eq, mergeNode_eq, hother]
      simp [Expr.aggregateOf?, Expr.shadows, Expr.children, replaceM_mergeNode_of_isKeyOf h,
        Expr.withChildren]
    rw [hmember] at hmerged
    rw [(yields_pure.mp hmerged).1] at hc
    refine yields_bindChecked_of_bound (fun n hn => ?_) hc
    rcases Expr.mem_nodes_iff.mp hn with rfl | ⟨a, ha, hn⟩
    · rfl
    · obtain rfl := List.mem_singleton.mp ha
      exact hkey n hn

/-- `Performs` makes no objects. -/
theorem Binding.Performs.ne_newObject {method : String} {t : Ty} {op : QueryOp} {source r : Expr}
    {args : List Expr} (h : Performs bind method t op source args n r m) (u : Ty)
    (members : List (String × Expr)) : r ≠ .newObject u members := by
  intro hr
  subst hr
  cases h

theorem followsKey_members (hkey : ∀ n ∈ key.inner.nodes, n.isBound = true)
    {members : List (String × Expr)} {ds cs : List Expr}
    (hds : List.Forall₂ (fun e d => ∃ n k, Yields (e.replaceM (mergeNode bind x key)) n d k)
      (members.map (·.2)) ds)
    (hcs : List.Forall₂ (fun d c => ∃ k m, Yields (bindChecked ok fuel d) k c m) ds cs) :
    List.Forall₂ (fun m m' => m'.1 = m.1 ∧ m.2.FollowsKey x key m'.2)
      members ((members.map (·.1)).zip cs) := by
  induction members generalizing ds cs with
  | nil =>
    cases hds
    exact .nil
  | cons m members ih =>
    cases hds with
    | cons hd hds =>
      cases hcs with
      | cons hc hcs =>
        obtain ⟨n, k, hd⟩ := hd
        obtain ⟨k', m', hc⟩ := hc
        exact .cons ⟨rfl, followsKey_of_yields hkey hd hc⟩ (ih hds hcs)

theorem yields_replaceM_object {f : Expr → BindM (Option Expr)} {t : Ty}
    {members : List (String × Expr)} (hf : f (.newObject t members) = pure none)
    (h : Yields ((Expr.newObject t members).replaceM f) n c m) :
    ∃ cs, c = .newObject t ((members.map (·.1)).zip cs) ∧
      List.Forall₂ (fun e c => ∃ n m, Yields (e.replaceM f) n c m) (members.map (·.2)) cs := by
  rw [Expr.replaceM_eq, hf, pure_bind] at h
  obtain ⟨cs, hcs, rfl⟩ := yields_map.mp h
  have hall : Along (fun e _ c _ => ∃ n m, Yields (e.replaceM f) n c m) (members.map (·.2))
      n cs m :=
    (yields_mapM.mp hcs).imp fun _ _ s _ t hc => ⟨s, t, hc⟩
  exact ⟨cs, rfl, hall.forall₂⟩

theorem Expr.exists_eq_newObject {t : Ty} {members : List (String × Expr)} {cs : List Expr}
    (h : e.withChildren cs = .newObject t members) : ∃ members', e = .newObject t members' := by
  have hsame := e.sameNode_withChildren cs
  rw [h] at hsame
  cases hsame <;> exact ⟨_, rfl⟩

/-- `bindChecked` makes objects of objects only. -/
theorem object_of_bindChecked {t : Ty} {members : List (String × Expr)}
    (h : Yields (bindChecked ok (fuel + 1) d) n (.newObject t members) m) :
    ∃ members', d = .newObject t members' := by
  rw [bindChecked, Expr.replaceM_eq] at h
  obtain ⟨r, k, hr, hrest⟩ := yields_bind.mp h
  cases r with
  | some r =>
    obtain ⟨rfl, rfl⟩ := yields_pure.mp hrest
    rcases yields_bindNodeChecked_some hr with ⟨_, _, -, heq, -⟩ |
      ⟨_, _, _, _, _, _, _, -, -, hperforms, -⟩
    · cases heq
    · exact absurd rfl (hperforms.ne_newObject t members)
  | none =>
    obtain ⟨cs, -, hobject⟩ := yields_map.mp hrest
    exact Expr.exists_eq_newObject hobject.symm

/-- `mergeNode` makes objects of objects and of the key only. -/
theorem object_of_mergeNode {t : Ty} {members : List (String × Expr)}
    (h : Yields (body.replaceM (mergeNode bind x key)) n (.newObject t members) m) :
    (∃ members', body = .newObject t members') ∨ body.isKeyOf x = true := by
  rw [Expr.replaceM_eq] at h
  obtain ⟨r, k, hr, hrest⟩ := yields_bind.mp h
  rcases yields_mergeNode hr with ⟨hkey, -, -⟩ | ⟨_, _, _, _, _, -, -, rfl⟩ | ⟨rfl, hshadows, -⟩ |
    ⟨rfl, -⟩
  · exact .inr hkey
  · cases (yields_pure.mp hrest).1
  · rw [← (yields_pure.mp hrest).1] at hshadows
    cases hshadows
  · obtain ⟨cs, -, hobject⟩ := yields_map.mp hrest
    exact .inl (Expr.exists_eq_newObject hobject.symm)

theorem Expr.mergedMembers_of_ne (h : ∀ t members, e ≠ .newObject t members) :
    e.mergedMembers = [("Value", e)] := by
  cases e with
  | newObject t members => exact absurd rfl (h t members)
  | _ => rfl

/-- `mergedMembers` are the members of a merged selector. -/
theorem mergedMembers_of_yields (hkey : ∀ n ∈ key.inner.nodes, n.isBound = true)
    (hagg : (GroupUses.of body x).aggregates ≠ 0)
    (hd : Yields (body.replaceM (mergeNode bind x key)) n d k)
    (hc : Yields (bindChecked ok fuel d) k c m) :
    List.Forall₂ (fun m m' => m'.1 = m.1 ∧ m.2.FollowsKey x key m'.2)
      body.mergedMembers c.mergedMembers := by
  have hfollows := followsKey_of_yields hkey hd hc
  cases fuel with
  | zero => exact absurd hc BindM.yields_throw
  | succ fuel =>
    by_cases hobject : ∃ t members, body = .newObject t members
    · obtain ⟨t, members, rfl⟩ := hobject
      obtain ⟨ds, rfl, hds⟩ := yields_replaceM_object rfl hd
      have hlen : (members.map (·.1)).length = ds.length := by simpa using hds.length_eq
      obtain ⟨cs, rfl, hcs⟩ := yields_replaceM_object rfl hc
      rw [List.map_snd_zip hlen.ge] at hcs
      have hcs : List.Forall₂ (fun d c => ∃ k m, Yields (bindChecked ok (fuel + 1) d) k c m)
          ds cs := hcs
      rw [List.map_fst_zip hlen.le]
      exact followsKey_members hkey hds hcs
    -- Merging makes an object of something else only where it is the key, which has no aggregates.
    · have hbody : body.mergedMembers = [("Value", body)] :=
        Expr.mergedMembers_of_ne fun t members h => hobject ⟨t, members, h⟩
      have hvalue : c.mergedMembers = [("Value", c)] := by
        refine Expr.mergedMembers_of_ne fun t members h => ?_
        subst h
        obtain ⟨members', rfl⟩ := object_of_bindChecked hc
        rcases object_of_mergeNode hd with ⟨members'', rfl⟩ | hkeyOf
        · exact hobject ⟨t, members'', rfl⟩
        · rw [GroupUses.of_isKeyOf hkeyOf] at hagg
          exact hagg rfl
      rw [hbody, hvalue]
      exact .cons ⟨rfl, hfollows⟩ .nil

end

/-! ## Columns of keys and selectors together -/

namespace GroupKey

variable {inner : Expr} {source target : ScopeId} {f : OutputField}

/-- The `columns` of a key that is no object are one. -/
theorem expr_of_mem_columns (h : ∀ t m members, inner ≠ .newObject t (m :: members))
    (hf : f ∈ (columns inner source target).1) : f.expr = inner := by
  unfold columns at hf
  split at hf
  · exact absurd rfl (h _ _ _)
  · split at hf
    · rw [List.mem_singleton.mp hf]
    · rw [List.mem_singleton.mp hf]

end GroupKey

section
variable {x label : String} {key : GroupKey} {e c body : Expr} {f : OutputField}
  {source target : ScopeId}

theorem gives_of_isKeyColumn (h : e.isKeyColumn x key label = true)
    (hf : f ∈ (GroupKey.columns key.inner source target).1) (hplace : f.place = [label])
    (hnames : key.inner.namesApart = true) (hc : e.FollowsKey x key c) : c.Gives f.expr := by
  unfold Expr.isKeyColumn at h
  split at h
  · rename_i t m members base name u hinner
    simp only [Bool.and_eq_true, Bool.not_eq_true', beq_iff_eq] at h
    obtain ⟨⟨hbase, rfl⟩, hstored⟩ := h
    rw [hinner] at hf hnames
    obtain ⟨m', hm', rfl⟩ := List.mem_map.mp hf
    obtain rfl : m'.1 = name := by simpa [OutputField.place] using hplace
    refine .inr ⟨t, m :: members, m'.1, u, ?_, of_decide_eq_true hnames, hm', hstored⟩
    rw [hc.member rfl hbase, hinner]
  · cases h
  · rename_i hother _
    rw [hc.whole h, GroupKey.expr_of_mem_columns hother hf]
    exact .inl rfl

/-- A field that `isApart` from a label is not in its way. -/
theorem OutputField.not_prefix_of_isApart (h : f.isApart label = true) :
    ¬ f.place <+: [label] ∧ ¬ [label] <+: f.place := by
  unfold isApart at h
  cases hplace : f.place with
  | nil => simp [hplace] at h
  | cons first rest =>
    rw [hplace] at h
    have hne : first ≠ label := by simpa using h
    exact ⟨fun hp => hne (List.cons_prefix_cons.mp hp).1, fun hp =>
      hne (List.cons_prefix_cons.mp hp).1.symm⟩

/-- The columns of a key and those of a selector that is merged apart from it are `Unambiguous`
together. -/
theorem unambiguous_merged (hnames : key.inner.namesApart = true) (scope : ScopeId)
    (happart : body.mergesApart x key (GroupKey.columns key.inner source target).1 = true)
    (hmembers : List.Forall₂ (fun m m' => m'.1 = m.1 ∧ m.2.FollowsKey x key m'.2) body.mergedMembers
      c.mergedMembers) :
    OutputField.Unambiguous ((GroupKey.columns key.inner source target).1 ++
      (readBack scope c).1) := by
  unfold Expr.mergesApart at happart
  rw [Bool.and_eq_true, decide_eq_true_eq] at happart
  obtain ⟨hnodup, hall⟩ := happart
  have hsame : c.mergedMembers.map (·.1) = body.mergedMembers.map (·.1) := by
    have hnames : List.Forall₂ (· = ·) (body.mergedMembers.map (·.1))
        (c.mergedMembers.map (·.1)) := by
      rw [List.forall₂_map_left_iff, List.forall₂_map_right_iff]
      exact hmembers.imp fun _ _ h => h.1.symm
    exact (List.forall₂_eq_eq_eq ▸ hnames : _ = _).symm
  rw [readBack_fields]
  refine (GroupKey.unambiguous_columns hnames source target).append (.of_labels (hsame ▸ hnodup)) ?_
  intro f hf g hg
  obtain ⟨m', hm', rfl⟩ := List.mem_map.mp hg
  obtain ⟨m, hm, hname, hfollows⟩ := List.exists_of_forall₂_right hmembers hm'
  have htest := List.all_eq_true.mp (List.all_eq_true.mp hall m hm) f hf
  rw [Bool.or_eq_true, Bool.and_eq_true, beq_iff_eq] at htest
  show f.place = [m'.1] ∧ _ ∨ ¬ f.place <+: [m'.1] ∧ ¬ [m'.1] <+: f.place
  rw [hname]
  -- A member is stored apart from the column, or it is that column.
  rcases htest with happart | ⟨hplace, hcolumn⟩
  · exact .inr (OutputField.not_prefix_of_isApart happart)
  · exact .inl ⟨hplace, f.expr, .inl rfl, gives_of_isKeyColumn hcolumn hf hplace hnames hfollows⟩

end

/-! ## Binding -/

/-- The fields of `s` are `Unambiguous`, over groups whose key has different names. -/
structure Select.Unambiguous (s : Select) : Prop extends s.Keyed where
  unambiguous : ∀ fields, s.projection = .fields fields → OutputField.Unambiguous fields
  names : ∀ key, s.groupKey = some key → key.inner.namesApart = true

namespace Select.Unambiguous

variable {s s' grouped : Select} {key : GroupKey} {inner c : Expr}

theorem update (h : s.Unambiguous) (hkey : s'.groupKey = none ∨ s'.groupKey = s.groupKey)
    (hkeyed : s'.Keyed)
    (hfields : ∀ fields, s'.projection = .fields fields → OutputField.Unambiguous fields) :
    s'.Unambiguous where
  toKeyed := hkeyed
  unambiguous := hfields
  names key hk := by
    rcases hkey with hnone | hsame
    · rw [hnone] at hk
      cases hk
    · exact h.names key (hsame ▸ hk)

theorem groupedBy (h : s.Unambiguous) (hinner : inner.namesApart = true) (scope : ScopeId) :
    (s.groupedBy inner scope).Unambiguous := by
  refine h.update (.inr rfl) (h.toKeyed.groupedBy inner scope) fun fields hp => ?_
  cases hp
  exact GroupKey.unambiguous_columns hinner s.scope scope

theorem groups (s : Select) (hinner : inner.namesApart = true) (scope : ScopeId) :
    (s.groups inner scope).Unambiguous where
  toKeyed := .groups s inner scope
  unambiguous fields hp := by
    cases hp
    have hlabels : ∀ k v : Expr,
        (([("Key", k), ("Values", v)] : List (String × Expr)).map (·.1)).Nodup := by simp
    exact .of_labels (hlabels _ _)
  names key hk := by
    cases hk
    exact hinner

theorem readingMerged (s grouped : Select) (c : Expr) :
    (s.readingMerged grouped c).Unambiguous where
  toKeyed := .readingMerged s grouped c
  unambiguous := by rintro _ ⟨⟩
  names := by rintro _ ⟨⟩

theorem withMerged (h : grouped.Unambiguous) (scope : ScopeId) {fields : List OutputField}
    (hp : grouped.projection = .fields fields)
    (hfields : OutputField.Unambiguous (fields ++ (readBack scope c).1)) :
    (grouped.withMerged scope c).Unambiguous := by
  refine h.update (.inr rfl) (h.toKeyed.withMerged scope c) fun all hall => ?_
  unfold Select.withMerged at hall
  rw [hp] at hall
  cases hall
  exact hfields

end Select.Unambiguous

/-- All selects are `Unambiguous`. This needs no notes. -/
def unambiguousColumns : Discipline Unit where
  row _ _ _ := True
  node _ _ := True
  select _ s := s.Unambiguous

theorem unambiguousColumns_kept : unambiguousColumns.Kept labelsApart where
  row_mono h := h
  node_mono h := h
  select_mono h := h
  child _ _ := .inl fun _ _ _ => trivial
  rebuild _ _ := trivial
  assemble _ := trivial
  label _ := trivial
  wholeRow _ _ _ := trivial
  update h hscope _ hsource hkey _ _ hfields := by
    refine h.update hkey ?_ fun fields hp => h.unambiguous fields (hfields fields hp)
    refine h.toKeyed.update hscope hsource hkey fun fields hp => ?_
    rw [hscope]
    exact h.fields fields (hfields fields hp)
  ofTable w name element := by
    refine ⟨(), Select.keyed_ofSource _ _ _, ?_, ?_⟩
    · rintro _ ⟨⟩
    · rintro _ ⟨⟩
  ofSelect _ _ _ _ := by
    refine ⟨(), Select.keyed_ofSource _ _ _, ?_, ?_⟩
    · rintro _ ⟨⟩
    · rintro _ ⟨⟩
  counted {w s r} _ _ _ := by
    have hkeyed := Select.keyed_ofSource ⟨w.length⟩ (.subquery s) s.projectedType
    refine ⟨(), hkeyed.update rfl rfl (.inl rfl) (by rintro _ ⟨⟩), ?_, ?_⟩
    · rintro _ ⟨⟩
    · rintro _ ⟨⟩
  groups {w s inner args} hs _ hok :=
    ⟨(), .groups s hok _, hs.self.groupedBy hok _, fun _ _ => trivial⟩
  merged {w s grouped key selector body merged c p fuel n k m} hs hk hlambda hsource hmerges hmerged
    hc _ hok := by
    obtain ⟨hagg, hother⟩ := Expr.isMerged_iff.mp hmerges
    have hkey : ∀ n ∈ key.inner.nodes, n.isBound = true := fun n hn =>
      (((unambiguousColumns.layered w).keyExpr hs hk (by simp [GroupKey.exprs])).throughout.nodes n
        hn).2
    have happart : body.mergesApart p.name key
        (GroupKey.columns key.inner key.source.scope s.scope).1 = true := by
      simpa [labelsApart, hk, hlambda, hagg, hother] using hok
    refine ⟨.readingMerged s grouped c, ?_⟩
    refine (hs.source hsource).self.withMerged s.scope (hs.self.grouped key grouped hk hsource) ?_
    exact unambiguous_merged (hs.self.names key hk)
      s.scope happart (mergedMembers_of_yields hkey hagg hmerged hc)

/-- Unless a key or a merged selector repeats a name, or a member of such a selector has the name of
a column of the key and is not that column, the columns of every select with fields are
`Unambiguous`. What is stored in one place is the same, the statement has its columns in the places
of the fields, and every field is read back from its place. -/
theorem output_columns_unambiguous {o : Options} {t tree bound : Expr} {params : Params} {n : Nat}
    (hw : t.Written) (hname : Yields t.nameCaptures (.empty o) tree params)
    (hbind : Yields tree.bind 0 bound n) (hlabels : tree.Passes labelsApart) :
    ∀ s ∈ bound.selects true, ∀ fields, s.projection = .fields fields →
      (∀ f ∈ fields, ∀ g ∈ fields, f.place = g.place →
        f.expr.SameAs g.expr ∧ f.expr.lower = g.expr.lower) ∧
      (∀ state st state', Yields s.lower state st state' → ∃ columns, st.columns = .list columns ∧
        columns.map (·.place) = fields.map (·.place)) ∧
      ∀ (V : Type) [DecidableEq V] (M : Semantics V) (σ : Scene V), ∀ f ∈ fields,
        M.readAt (M.putOut σ fields) f.place = M.value σ f.expr := by
  obtain ⟨w, hbound⟩ := unambiguousColumns_kept.of_passes hw hname hbind hlabels
  intro s hs fields hp
  have hselect : s.Unambiguous := (hbound.throughout.selects s hs).1.1
  have hfields := hselect.unambiguous fields hp
  refine ⟨fun f hf g hg hplace => ?_, fun state st state' hl => ?_, fun V _ M σ f hf => ?_⟩
  · have hsame := (hfields f hf g hg (hplace ▸ List.prefix_refl _)).2
    exact ⟨hsame, hsame.lower_eq⟩
  · exact Select.columns_of_fields hselect.toKeyed hp hl
  · exact hfields.readAt M σ hf

/-- Whether two fields of `s` pass `test`. -/
def Select.anyFields (test : OutputField → OutputField → Bool) (s : Select) : Bool :=
  match s.projection with
  | .fields fields => fields.any fun f => fields.any (test f)
  | _ => false

theorem Select.exists_of_anyFields {test : OutputField → OutputField → Bool} {s : Select}
    (h : s.anyFields test = true) :
    ∃ fields, s.projection = .fields fields ∧ ∃ f ∈ fields, ∃ g ∈ fields, test f g = true := by
  unfold anyFields at h
  split at h
  · rename_i fields hp
    obtain ⟨f, hf, h⟩ := List.any_eq_true.mp h
    exact ⟨fields, hp, f, hf, List.any_eq_true.mp h⟩
  · cases h

namespace Sample

/-- The number of users in each city. The city is put out for the key and for the selector. -/
def usersByCity : Expr :=
  on (on (rows "user") "GroupBy"
      [fn "u" (.newObject .unknown [("City", col "u" "City"), ("Country", col "u" "Country")])])
        "Select"
    [fn "g" (.newObject .unknown [("City", .member (col "g" "Key") "City" .unknown),
      ("Users", .staticCall .enumerable "Count" [var "g"] .unknown)])]

/-- The number of posts for each number, under the name of the number. -/
def countByNumber : Expr :=
  on (on (rows "post") "GroupBy" [fn "p" (col "p" "x")]) "Select"
    [fn "g" (.newObject .unknown [("x", .staticCall .enumerable "Count" [var "g"] .unknown)])]

end Sample

section
open Sample

theorem output_columns_unambiguous_usersByCity :
    usersByCity.Written ∧ ∃ tree params bound n,
      Yields usersByCity.nameCaptures (.empty .standard) tree params ∧ Yields tree.bind 0 bound n ∧
        tree.Passes labelsApart ∧
        ∃ s ∈ bound.selects true, ∃ fields, s.projection = .fields fields ∧
          ∃ f ∈ fields, ∃ g ∈ fields, f.place = g.place ∧
            f.expr.isRowPath s.scope ≠ g.expr.isRowPath s.scope ∧ f.expr.lower = g.expr.lower ∧
            ∀ (V : Type) [DecidableEq V] (M : Semantics V) (σ : Scene V),
              M.readAt (M.putOut σ fields) f.place = M.value σ f.expr := by
  have hw : usersByCity.Written := by decide +kernel
  have hrun : usersByCity.bindsTo .standard (fun b => (b.selects true).any fun s =>
      s.anyFields fun f g =>
        f.place == g.place && f.expr.isRowPath s.scope != g.expr.isRowPath s.scope) = true := by
    decide +kernel
  have hlabels : (usersByCity.nameCaptures.run (.empty .standard)).toOption.all
      (fun named => named.1.Passes labelsApart) = true := by
    decide +kernel
  obtain ⟨tree, params, bound, n, hname, hbind, htwice⟩ := Expr.exists_of_bindsTo hrun
  rw [show _ = _ from hname] at hlabels
  have hlabels : tree.Passes labelsApart := of_decide_eq_true hlabels
  obtain ⟨s, hs, htwice⟩ := List.any_eq_true.mp htwice
  obtain ⟨fields, hp, f, hf, g, hg, htwice⟩ := Select.exists_of_anyFields htwice
  rw [Bool.and_eq_true, beq_iff_eq, bne_iff_ne] at htwice
  obtain ⟨hsame, -, hread⟩ := output_columns_unambiguous hw hname hbind hlabels s hs fields hp
  exact ⟨hw, tree, params, bound, n, hname, hbind, hlabels, s, hs, fields, hp, f, hf, g, hg,
    htwice.1, htwice.2, (hsame f hf g hg htwice.1).2, fun V _ M σ => hread V M σ f hf⟩

/-- `countByNumber` puts out a key and a number of rows under the same name. -/
theorem countByNumber_ambiguous :
    countByNumber.Written ∧ ∃ tree params bound n,
      Yields countByNumber.nameCaptures (.empty .standard) tree params ∧
        Yields tree.bind 0 bound n ∧
        ∃ s ∈ bound.selects true, ∃ fields, s.projection = .fields fields ∧
          ∃ f ∈ fields, ∃ g ∈ fields, f.place = g.place ∧
            f.expr.isRowPath s.scope = true ∧ g.expr.isGroupAggregate = true := by
  have hrun : countByNumber.bindsTo .standard (fun b => (b.selects true).any fun s =>
      s.anyFields fun f g =>
        f.place == g.place && f.expr.isRowPath s.scope && g.expr.isGroupAggregate) = true := by
    decide +kernel
  obtain ⟨tree, params, bound, n, hname, hbind, htwice⟩ := Expr.exists_of_bindsTo hrun
  obtain ⟨s, hs, htwice⟩ := List.any_eq_true.mp htwice
  obtain ⟨fields, hp, f, hf, g, hg, htwice⟩ := Select.exists_of_anyFields htwice
  simp only [Bool.and_eq_true, beq_iff_eq, and_assoc] at htwice
  exact ⟨by decide +kernel, tree, params, bound, n, hname, hbind, s, hs, fields, hp,
    f, hf, g, hg, htwice⟩

end

end QueryTree
