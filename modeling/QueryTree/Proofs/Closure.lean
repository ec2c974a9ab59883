import QueryTree.Compile
import QueryTree.Proofs.Lowered
import QueryTree.Proofs.Naming
import QueryTree.Proofs.Table

/-!
# Queries mention parameters that have values

Captured values get their names when a tree is named, record ids when it is lowered. No name is
given out twice, so each captured value is found under its name in the end (`Params.RepresentsAll`),
and a query mentions no other parameters but those of the query language (`ParametersClosed`).
-/

namespace QueryTree

/-! ## Naming -/

/-- What naming makes of a node: captured values become names that stand for them, sources become
tables, and other nodes keep all but their children. -/
inductive Params.Represents (p : Params) : Expr → Expr → Prop
  | value {name x : String} {v w : Value} {t : Ty} : p.get? name = some w → (w == v ∨ w = v) →
    Represents p (.captured x (.value v) t) (.named name t)
  | source (s : TableSource) : Represents p (.source s) (.table s.table s.element)
  | captured (x : String) (s : TableSource) (t : Ty) :
    Represents p (.captured x (.source s) t) (.table s.table s.element)
  | node {e : Expr} (cs : List Expr) : Mark.raw.of e = false → Represents p e (e.withChildren cs)

section
variable {t tree : Expr} {p q : Params}

/-- `e'` and the nodes below it represent `e` and those below it, in every table that has the
entries of `p`. -/
def Params.RepresentsAll (p : Params) (e e' : Expr) : Prop :=
  ∀ u : Params, u.Extends p → List.Forall₂ u.Represents e.nodes e'.nodes

theorem Along.representsAll {es es' : List Expr}
    (h : Along (fun e p e' q => q.Extends p ∧ q.RepresentsAll e e') es p es' q) :
    q.Extends p ∧ List.Forall₂ q.RepresentsAll es es' := by
  induction h with
  | nil p => exact ⟨.refl p, .nil⟩
  | cons h _ ih =>
    obtain ⟨hext, hall⟩ := ih
    exact ⟨hext.trans h.1, .cons (fun u hu => h.2 u (hu.trans hext)) hall⟩

theorem Params.RepresentsAll.node {e : Expr} {cs : List Expr} (hraw : Mark.raw.of e = false)
    (hcs : List.Forall₂ p.RepresentsAll e.children cs) : p.RepresentsAll e (e.withChildren cs) := by
  intro u hu
  rw [e.nodes_eq, Expr.nodes_eq (e.withChildren cs), Expr.children_withChildren hcs.length_eq.symm]
  refine .cons (.node cs hraw) ?_
  exact List.rel_flatMap (hcs.imp fun _ _ hc => hc u hu) fun _ _ => id

/-- Naming adds entries, and the named tree represents `t` node by node. -/
theorem representsAll_nameCaptures (h : Yields t.nameCaptures p tree q) :
    q.Extends p ∧ q.RepresentsAll t tree := by
  refine yields_replaceM (T := fun e p e' q => q.Extends p ∧ q.RepresentsAll e e') ?_ ?_ h
  · intro e p r q hr
    rcases nameNode_some hr with ⟨s, rfl, rfl, rfl | ⟨x, t, rfl⟩⟩ |
      ⟨x, v, t, name, rfl, rfl, hnamed⟩
    · exact ⟨.refl _, fun u _ => .cons (.source s) .nil⟩
    · exact ⟨.refl _, fun u _ => .cons (.captured x s t) .nil⟩
    · have hext := p.extends_named x v
      obtain ⟨w, hw, hwv⟩ := p.get?_named x v
      rw [hnamed] at hext hw
      exact ⟨hext, fun u hu => .cons (.value (hu.get? hw) hwv) .nil⟩
  · intro e p u cs q hnone hcs
    obtain ⟨rfl, hraw⟩ := nameNode_none hnone
    obtain ⟨hext, hall⟩ := hcs.representsAll
    exact ⟨hext, .node hraw hall⟩

end

/-! ## Names in bound trees -/

/-- Changes the names of parameters. -/
def Relabeling.renaming (ρ : String → String) : Relabeling where
  value := id
  capture := id
  name := ρ
  value_bool _ := rfl
  value_default _ := rfl

/-- If `φ` leaves every node of `e` as it is, but for the children, it leaves `e` as it is. -/
theorem Expr.relabel_eq_of_nodes {φ : Relabeling} {e : Expr}
    (h : ∀ n ∈ e.nodes, (n.relabel φ).withChildren n.children = n) : e.relabel φ = e := by
  induction e using childrenInduction with
  | step e ih =>
    have hkids : e.children.map (relabel φ) = e.children := by
      conv_rhs => rw [← List.map_id e.children]
      exact List.map_congr_left fun c hc => ih c hc fun n hn => h n (mem_nodes_of_child hc hn)
    calc e.relabel φ = (e.relabel φ).withChildren (e.relabel φ).children := by simp
      _ = (e.relabel φ).withChildren e.children := by rw [children_relabel, hkids]
      _ = e := h e (mem_nodes_self e)

theorem Expr.isWritten_withChildren (e : Expr) (cs : List Expr) :
    (e.withChildren cs).isWritten = e.isWritten :=
  withChildren_congr (f := isWritten) (fun h => by cases h <;> rfl) e cs

/-- A node that `isWritten` has no name of a parameter. -/
theorem Expr.renaming_of_isWritten (ρ : String → String) {n : Expr} (h : n.isWritten = true) :
    (n.relabel (.renaming ρ)).withChildren n.children = n := by
  cases n with
  | call surface method receiver args t => cases receiver <;> simp [relabel, children, withChildren]
  | newObject t members =>
    have hnames : (relabelMembers (.renaming ρ) members).map (·.1) = members.map (·.1) := by
      simp [Function.comp_def]
    simp only [relabel, children, withChildren, hnames]
    rw [← List.zip_of_prod rfl rfl]
  | newArray t items => simp [relabel, children, withChildren]
  | construct t args => simp [relabel, children, withChildren]
  | _ => first | rfl | cases h

/-- The tree that `nameCaptures` gives has no names but those in the table. -/
theorem renaming_named {t tree : Expr} {p : Params} (hw : t.Written) (h : p.RepresentsAll t tree)
    {ρ : String → String} (hρ : ∀ name ∈ p.names, ρ name = name) :
    tree.relabel (.renaming ρ) = tree := by
  refine Expr.relabel_eq_of_nodes fun n hn => ?_
  obtain ⟨m, hm, hmn⟩ := List.exists_of_forall₂_right (h p (.refl p)) hn
  cases hmn with
  | value hget _ =>
    show Expr.named (ρ _) _ = _
    rw [hρ _ (Params.mem_names_of_get? hget)]
  | source s => rfl
  | captured x s t => rfl
  | node cs _ =>
    refine Expr.renaming_of_isWritten ρ ?_
    rw [Expr.isWritten_withChildren]
    exact hw m hm

/-- `bind` makes up no names. -/
theorem renaming_bound {tree bound : Expr} {n m : Nat} {φ : Relabeling}
    (htree : tree.relabel φ = tree) (h : Yields tree.bind n bound m) : bound.relabel φ = bound := by
  have hmap : Yields (Expr.relabel φ <$> tree.bind) n bound m := by
    rw [← tree.bind_relabel φ, htree]
    exact h
  obtain ⟨bound', hbound', heq⟩ := yields_map.mp hmap
  have hsame : (Except.ok bound', m) = (Except.ok bound, m) := hbound'.symm.trans h
  cases hsame
  exact heq.symm

/-! ## Lowering -/

theorem Expr.toQuery_ok {e : Expr} {p q : Params} {query : Surql.Query}
    (h : e.toQuery p = .ok (query, q)) :
    ∃ state : LowerState, Yields e.lowerRoot ⟨p, .empty⟩ query state ∧ state.params = q := by
  unfold toQuery at h
  rcases hrun : (e.lowerRoot.run.run ⟨p, .empty⟩ : Except Error Surql.Query × LowerState) with ⟨r,
    state⟩
  rw [hrun] at h
  cases r with
  | error err => cases h
  | ok query' =>
    cases h
    exact ⟨state, hrun, rfl⟩

theorem Expr.toQuery_error {e : Expr} {p : Params} {err : Error} (h : e.toQuery p = .error err) :
    (e.lowerRoot.run.run ⟨p, .empty⟩).1 = .error err := by
  unfold toQuery at h
  rcases hrun : (e.lowerRoot.run.run ⟨p, .empty⟩ : Except Error Surql.Query × LowerState) with ⟨r,
    state⟩
  rw [hrun] at h
  cases r with
  | error err' =>
    cases h
    rfl
  | ok query => cases h

section
variable {e : Expr} {p q : Params} {query : Surql.Query}

/-- What naming a record id preserves of the table, `toQuery` preserves. -/
theorem toQuery_keeps {I : Params → Prop} (hI : ∀ p v, I p → I (p.recordId v).2)
    (h : e.toQuery p = .ok (query, q)) (hp : I p) : I q := by
  obtain ⟨state, hrun, rfl⟩ := Expr.toQuery_ok h
  have hkept := e.lowerRoot_hidden.keeps I hI ⟨p, .empty⟩ hp
  rwa [show e.lowerRoot.run.run ⟨p, .empty⟩ = (.ok query, state) from hrun] at hkept

theorem extends_toQuery (h : e.toQuery p = .ok (query, q)) : q.Extends p :=
  toQuery_keeps (I := (·.Extends p)) (fun u v hu => (u.extends_recordId v).trans hu) h (.refl p)

/-- If `e` has no names but those of `p`, its query mentions no others but the names of new record
ids and those of rows. -/
theorem mentions_toQuery (h : e.toQuery p = .ok (query, q))
    (he : ∀ ρ : String → String, (∀ name ∈ p.names, ρ name = name) → e.relabel (.renaming ρ) = e) :
    ∀ name ∈ query.mentions, name = "this" ∨ name = "parent" ∨ name ∈ q.names := by
  -- All other names are changed; those that stay as they are have to be in the table.
  let ρ : String → String := fun name => if name ∈ p.names then name else name ++ "_"
  have hρ : ∀ name, ρ name = name → name ∈ p.names := by
    intro name hname
    by_contra hnew
    simp [ρ, hnew] at hname
  obtain ⟨state, hrun, rfl⟩ := Expr.toQuery_ok h
  have hnames : p.names ⊆ state.params.names := (extends_toQuery h).names
  have hagree := Expr.lowerRoot_agree
    (N := fun name => name = "this" ∨ name = "parent" ∨ name ∈ state.params.names)
      (E := fun _ => True)
    (hereditary_fixed (.renaming ρ)) (.inl rfl) (.inr (.inl rfl))
    (fun name t hname => .inr (.inr (hnames (hρ name (Expr.named.inj hname).1)))) trivial
    (fun _ _ _ _ => trivial) (he ρ fun name hname => if_pos hname)
  exact hagree.gives _ query state hrun fun name hname => .inr (.inr hname)

end

/-! ## Compiling -/

theorem Expr.compile_ok {o : Options} {t : Expr} {q : CompiledQuery} (h : t.compile o = .ok q) :
    ∃ tree params bound n query final, Yields t.nameCaptures (.empty o) tree params ∧
      Yields tree.bind 0 bound n ∧ bound.toQuery params = .ok (query, final) ∧
      q = ⟨query.text, final.entries⟩ := by
  obtain ⟨⟨tree, params⟩, hname, h⟩ := ok_of_bind h
  obtain ⟨bound, hbind, h⟩ := ok_of_bind h
  obtain ⟨⟨query, final⟩, hquery, h⟩ := ok_of_bind h
  exact ⟨tree, params, bound, (tree.bind.run.run 0).2, query, final, hname, Prod.ext hbind rfl,
    hquery, (Except.ok.inj h).symm⟩

theorem Expr.compile_error {o : Options} {t : Expr} {err : Error} (h : t.compile o = .error err) :
    (∃ x, err = .unresolvedCapture x) ∨ ∃ tree params,
      Yields t.nameCaptures (.empty o) tree params ∧
      ((tree.bind.run.run 0).1 = .error err ∨ ∃ bound n, Yields tree.bind 0 bound n ∧
        (bound.lowerRoot.run.run ⟨params, .empty⟩).1 = .error err) := by
  rcases error_of_bind h with hname | ⟨⟨tree, params⟩, hname, h⟩
  · exact .inl (t.nameCaptures_failsWith _ err hname)
  refine .inr ⟨tree, params, hname, ?_⟩
  rcases error_of_bind h with hbind | ⟨bound, hbind, h⟩
  · exact .inl hbind
  rcases error_of_bind h with hquery | ⟨⟨query, final⟩, -, h⟩
  · exact .inr ⟨bound, (tree.bind.run.run 0).2, Prod.ext hbind rfl, toQuery_error hquery⟩
  · cases h

/-- What the parameters of `query` owe to `t`: `tree` is the named tree, and `table` says what the
names stand for. -/
structure ParametersClosed (t tree : Expr) (query : Surql.Query) (table : List (String × Value)) :
    Prop where
  /-- Where `t` has a captured value, `tree` has a name that stands for it, or for an equal value.
  -/
  captured : List.Forall₂ (fun node node' => ∀ x v ty, node = .captured x (.value v) ty →
    ∃ name w, node' = .named name ty ∧ table.lookup name = some w ∧ (w == v ∨ w = v))
      t.nodes tree.nodes
  /-- If callers can have made `t`, the query mentions names of `table` only, and the rows that the
  query language names itself. -/
  mentioned : t.Written → ∀ name ∈ query.mentions,
    name = "this" ∨ name = "parent" ∨ name ∈ table.map (·.1)
  once : (table.map (·.1)).Nodup
  unreserved : ∀ name ∈ table.map (·.1), ∀ word ∈ Options.standardReserved,
    Text.equalIgnoringCase word name = false
  word : ∀ name ∈ table.map (·.1), name ≠ "" ∧ ∀ c ∈ name.toList, Text.isWordChar c = true

/-- A compiled query is `ParametersClosed`: it has all its parameters, under names that can be used.
-/
theorem compile_parameters_closed {t : Expr} {q : CompiledQuery} (h : t.compile .standard = .ok q) :
    ∃ tree params bound n query final, Yields t.nameCaptures (.empty .standard) tree params ∧
      Yields tree.bind 0 bound n ∧ bound.toQuery params = .ok (query, final) ∧
      q = ⟨query.text, final.entries⟩ ∧ ParametersClosed t tree query q.parameters := by
  obtain ⟨tree, params, bound, n, query, final, hname, hbind, hquery, rfl⟩ := Expr.compile_ok h
  have hall := (representsAll_nameCaptures hname).2
  have hfinal : final.WellNamed := by
    refine toQuery_keeps (fun _ v hp => hp.recordId v) hquery ?_
    exact nameCaptures_keeps (fun _ x v hp => hp.named x v) hname .empty
  refine ⟨tree, params, bound, n, query, final, hname, hbind, hquery, rfl, ?_, ?_, hfinal.nodup, ?_,
    ?_⟩
  · refine (hall final (extends_toQuery hquery)).imp fun node node' hnode => ?_
    rintro x v ty rfl
    cases hnode with
    | value hget hw => exact ⟨_, _, rfl, hget, hw⟩
    | node cs hraw => cases hraw
  -- A query uses only names of the bound tree, that one only names of the named tree, and that
  -- names of the table.
  · intro hw
    exact mentions_toQuery hquery fun ρ hρ => renaming_bound (renaming_named hw hall hρ) hbind
  · intro name hname word hword
    have hfree := (hfinal.fit name hname).free
    exact Bool.eq_false_iff.mpr (List.any_eq_false.mp hfree word hword)
  · exact fun name hname => ⟨(hfinal.fit name hname).nonempty, (hfinal.fit name hname).word⟩

namespace Sample

/-- Users with a post that has certain values: two captured under a reserved name, and one a record
id. -/
def usersWithPost : Expr :=
  let parent (v : Value) : Expr := .captured "parent" (.value v) .unknown
  on (rows "user") "Where"
    [fn "u" (on (rows "post") "Any"
      [fn "p" ((((col "p" "author").eq (col "u" "id")).and
        ((col "p" "place").eq (parent (.int 7)))).and
        (((col "p" "text").eq (parent (.string "yes"))).and
          ((col "p" "owner").eq (.constant (.recordId ⟨"user", .text "tobie"⟩) .unknown))))])]

end Sample

section
open Sample

theorem compile_parameters_closed_usersWithPost :
    usersWithPost.Written ∧ ∃ q tree query, usersWithPost.compile .standard = .ok q ∧
      q.parameters.map (·.1) = ["_parent", "_parent1", "_rid0"] ∧
      ParametersClosed usersWithPost tree query q.parameters := by
  have hnames : (usersWithPost.compile .standard).toOption.map (·.parameters.map (·.1)) =
      some ["_parent", "_parent1", "_rid0"] := by
    decide +kernel
  cases h : usersWithPost.compile .standard with
  | error err =>
    rw [h] at hnames
    cases hnames
  | ok q =>
    rw [h] at hnames
    obtain ⟨tree, params, bound, n, query, final, -, -, -, -, hclosed⟩ :=
      compile_parameters_closed h
    exact ⟨by decide +kernel, q, tree, query, rfl, Option.some.inj hnames, hclosed⟩

end

end QueryTree
