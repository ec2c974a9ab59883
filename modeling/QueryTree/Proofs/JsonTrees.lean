import QueryTree.Expr.Json
import QueryTree.Proofs.JsonValues
import QueryTree.Proofs.Naming

/-!
# Trees read back from JSON

A tree as callers make it, with values that are written exactly (`Expr.Exact`), is read back from
the text of its JSON form. Trees that are not equal have different texts.
-/

namespace QueryTree

/-! ## Parts -/

theorem Surface.ofTag?_tag (s : Surface) : Surface.ofTag? s.tag = some s := by
  cases s <;> rfl

theorem UnaryOp.ofTag?_tag (op : UnaryOp) : UnaryOp.ofTag? op.tag = some op := by
  cases op <;> rfl

theorem BinaryOp.ofTag?_tag (op : BinaryOp) : BinaryOp.ofTag? op.tag = some op := by
  cases op <;> rfl

/-- Whether a capture holds no value, or an exact one. -/
def Capture.isExact : Capture → Bool
  | .value v => v.isExact
  | _ => true

/-- The capture without the signs of decimal zeros. -/
def Capture.settled : Capture → Capture
  | .value v => .value v.settled
  | c => c

theorem TableSource.ofFields?_toMembers (s : TableSource) :
    TableSource.ofFields? s.toMembers = some s :=
  congrArg (fun t => t.bind fun t => some (TableSource.mk s.table t)) s.element.ofJson?_toJson

theorem Capture.ofJson?_toJson {c : Capture} (h : c.isExact = true) :
    Capture.ofJson? c.toJson = some c.settled := by
  cases c with
  | value v =>
    exact congrArg (fun v => v.bind fun v => some (Capture.value v)) (v.ofTagged?_toTagged h)
  | source s =>
    exact congrArg (fun s => s.bind fun s => some (Capture.source s)) s.ofFields?_toMembers
  | unavailable => rfl

theorem Capture.isExact_toJson {c : Capture} (h : c.isExact = true) : c.toJson.isExact = true := by
  cases c with
  | value v => simp [toJson, Ty.taggedOf, Json.isExact, Json.membersExact, v.isExact_toTagged h]
  | source s =>
    simp [toJson, Ty.taggedOf, TableSource.toMembers, Json.isExact, Json.membersExact,
      s.element.isExact_toJson]
  | unavailable => rfl

theorem Capture.settled_settled (c : Capture) : c.settled.settled = c.settled := by
  cases c with
  | value v => exact congrArg Capture.value v.settled_settled
  | _ => rfl

theorem LambdaParam.ofJson?_toJson (p : LambdaParam) : LambdaParam.ofJson? p.toJson = some p :=
  congrArg (fun t => t.bind fun t => some (LambdaParam.mk p.name t)) p.ty.ofJson?_toJson

theorem LambdaParam.mapM_ofJson? (params : List LambdaParam) :
    (params.map LambdaParam.toJson).mapM LambdaParam.ofJson? = some params := by
  induction params with
  | nil => rfl
  | cons p params ih => simp [List.mapM_cons, p.ofJson?_toJson, ih]

namespace Expr

/-! ## Trees whose values are written exactly -/

/-- Whether a node holds no value, or an exact one. -/
def isExact : Expr → Bool
  | .constant v _ => v.isExact
  | .captured _ c _ => c.isExact
  | _ => true

/-- All values of `e` are written exactly. -/
def Exact (e : Expr) : Prop := ∀ n ∈ e.nodes, n.isExact = true

instance (e : Expr) : Decidable e.Exact := inferInstanceAs (Decidable (∀ n ∈ e.nodes, _))

theorem Exact.child {e c : Expr} (h : e.Exact) (hc : c ∈ e.children) : c.Exact :=
  fun n hn => h n (mem_nodes_of_child hc hn)

mutual

/-- The tree without the signs of decimal zeros. Nodes that only compiling makes stay. -/
def settled : Expr → Expr
  | .constant v t => .constant v.settled t
  | .captured name c t => .captured name c.settled t
  | .member base name t => .member base.settled name t
  | .call surface method receiver args t =>
    .call surface method (settledOption receiver) (settledList args) t
  | .unary op operand t => .unary op operand.settled t
  | .binary op left right t => .binary op left.settled right.settled t
  | .lambda params body => .lambda params body.settled
  | .newObject t members => .newObject t (settledMembers members)
  | .newArray t items => .newArray t (settledList items)
  | .construct t args => .construct t (settledList args)
  | e => e
termination_by structural e => e

def settledOption : Option Expr → Option Expr
  | none => none
  | some e => some e.settled
termination_by structural e => e

def settledList : List Expr → List Expr
  | [] => []
  | e :: es => e.settled :: settledList es
termination_by structural es => es

def settledMembers : List (String × Expr) → List (String × Expr)
  | [] => []
  | (name, e) :: members => (name, e.settled) :: settledMembers members
termination_by structural members => members

end

/-! ## Reading what is written -/

theorem listOf?_listToJson {es : List Expr} (h : ∀ e ∈ es, ofJson? e.toJson = some e.settled) :
    listOf? (listToJson es) = some (settledList es) := by
  induction es with
  | nil => rfl
  | cons e es ih =>
    simp [listToJson, listOf?, settledList, h e List.mem_cons_self, ih fun e he =>
      h e (List.mem_cons_of_mem _ he)]

theorem pairsOf?_membersToJson {members : List (String × Expr)}
    (h : ∀ m ∈ members, ofJson? m.2.toJson = some m.2.settled) :
    pairsOf? (membersToJson members) = some (settledMembers members) := by
  induction members with
  | nil => rfl
  | cons m members ih =>
    simp [membersToJson, pairsOf?, settledMembers, h m List.mem_cons_self,
      ih fun e he => h e (List.mem_cons_of_mem _ he)]

/-- The form of a tree as callers make it is no `null`. -/
theorem toJson_eq_object {e : Expr} (h : e.isWritten = true) :
    ∃ members, e.toJson = .object members := by
  cases e <;> first | exact ⟨_, rfl⟩ | cases h

/-- `ofJson?` reads a call from its members, of which the receiver may be missing. -/
theorem ofJson?_call {surface : Surface} {method : String} {receiver : Option Expr}
    {args : List Expr} {t : Ty} (hwritten : ∀ r ∈ receiver, r.isWritten = true)
    (hreceiver : ∀ r ∈ receiver, ofJson? r.toJson = some r.settled)
    (hargs : ∀ a ∈ args, ofJson? a.toJson = some a.settled) :
    ofJson? (toJson (.call surface method receiver args t)) =
      some (.call surface method (settledOption receiver) (settledList args) t) := by
  cases receiver with
  | none =>
    -- What is left out is not looked for under another name, so reading depends on the other
    -- members only.
    have hread : ∀ js k,
        ofJson? (node "Call" [("surface", .string surface.tag), ("method", .string method),
          ("args", .array js), ("ty", k)]) =
          (Surface.ofTag? surface.tag).bind fun surface => (listOf? js).bind fun args =>
            (Ty.ofJson? k).bind fun t =>
            some (.call surface method none args t) := fun _ _ => rfl
    simp only [toJson, receiverToJson, List.cons_append, List.nil_append]
    rw [hread, surface.ofTag?_tag, listOf?_listToJson hargs, t.ofJson?_toJson]
    rfl
  | some r =>
    have hread : ∀ ms js k,
        ofJson? (node "Call" [("surface", .string surface.tag), ("method", .string method),
          ("instance", .object ms), ("args", .array js), ("ty", k)]) =
          (Surface.ofTag? surface.tag).bind fun surface => ((ofJson? (.object ms)).map some).bind
            fun receiver =>
            (listOf? js).bind fun args => (Ty.ofJson? k).bind fun t =>
              some (.call surface method receiver args t) := fun _ _ _ => rfl
    obtain ⟨ms, hms⟩ := toJson_eq_object (hwritten r rfl)
    have hr := hreceiver r rfl
    rw [hms] at hr
    simp only [toJson, receiverToJson, hms, List.cons_append, List.nil_append]
    rw [hread, surface.ofTag?_tag, hr, listOf?_listToJson hargs, t.ofJson?_toJson]
    rfl

/-- `toJson` of a tree is read as that tree. -/
theorem ofJson?_toJson {e : Expr} (hwritten : e.Written) (hexact : e.Exact) :
    ofJson? e.toJson = some e.settled := by
  induction e using childrenInduction with
  | step e ih =>
    have hnode := hwritten e (mem_nodes_self e)
    have hvalue := hexact e (mem_nodes_self e)
    have hchildren : ∀ c ∈ e.children, ofJson? c.toJson = some c.settled :=
      fun c hc => ih c hc (hwritten.child hc) (hexact.child hc)
    -- Each form is read once for parts of any kind. Evaluating it with its parts in place would
    -- open these as well.
    cases e with
    | constant v t =>
      have hread : ∀ j k, ofJson? (node "Constant" [("value", j), ("ty", k)]) =
          (Value.ofTagged? j).bind fun v => (Ty.ofJson? k).bind fun t => some (.constant v t) :=
            fun _ _ => rfl
      rw [toJson, hread, v.ofTagged?_toTagged hvalue, t.ofJson?_toJson]
      rfl
    | captured name c t =>
      have hread : ∀ j k, ofJson?
          (node "Captured" [("name", .string name), ("value", j), ("ty", k)]) =
            (Capture.ofJson? j).bind fun c => (Ty.ofJson? k).bind fun t =>
              some (.captured name c t) := fun _ _ => rfl
      rw [toJson, hread, Capture.ofJson?_toJson hvalue, t.ofJson?_toJson]
      rfl
    | source s =>
      have hread : ofJson? (toJson (.source s)) =
          (TableSource.ofFields? s.toMembers).bind fun s => some (.source s) := rfl
      rw [hread, s.ofFields?_toMembers]
      rfl
    | parameter name t =>
      have hread : ∀ k, ofJson? (node "Parameter" [("name", .string name), ("ty", k)]) =
          (Ty.ofJson? k).bind fun t => some (.parameter name t) := fun _ => rfl
      rw [toJson, hread, t.ofJson?_toJson]
      rfl
    | member base name t =>
      have hread : ∀ j k, ofJson?
          (node "Member" [("expr", j), ("member", .string name), ("ty", k)]) =
            (ofJson? j).bind fun base => (Ty.ofJson? k).bind fun t => some (.member base name t) :=
            fun _ _ => rfl
      rw [toJson, hread, hchildren base List.mem_cons_self, t.ofJson?_toJson]
      rfl
    | static surface name t =>
      have hread : ∀ k,
          ofJson? (node "Static" [("surface", .string surface.tag), ("member", .string name),
            ("ty", k)]) =
          (Surface.ofTag? surface.tag).bind fun surface => (Ty.ofJson? k).bind fun t =>
            some (.static surface name t) := fun _ => rfl
      rw [toJson, hread, surface.ofTag?_tag, t.ofJson?_toJson]
      rfl
    | call surface method receiver args t =>
      have hreceiver : ∀ r ∈ receiver, r ∈ (Expr.call surface method receiver args t).children :=
        fun r hr => List.mem_append_left _ (Option.mem_toList.mpr hr)
      have hargs : ∀ a ∈ args, a ∈ (Expr.call surface method receiver args t).children :=
        fun a ha => List.mem_append_right _ ha
      exact ofJson?_call (fun r hr => hwritten.child (hreceiver r hr) r (mem_nodes_self r))
        (fun r hr => hchildren r (hreceiver r hr)) fun a ha => hchildren a (hargs a ha)
    | unary op operand t =>
      have hread : ∀ j k, ofJson?
          (node "Unary" [("op", .string op.tag), ("operand", j), ("ty", k)]) =
            (UnaryOp.ofTag? op.tag).bind fun op => (ofJson? j).bind fun operand =>
              (Ty.ofJson? k).bind fun t =>
              some (.unary op operand t) := fun _ _ => rfl
      rw [toJson, hread, op.ofTag?_tag, hchildren operand List.mem_cons_self, t.ofJson?_toJson]
      rfl
    | binary op left right t =>
      have hread : ∀ j k l,
          ofJson? (node "Binary" [("op", .string op.tag), ("left", j), ("right", k), ("ty", l)]) =
            (BinaryOp.ofTag? op.tag).bind fun op => (ofJson? j).bind fun left =>
              (ofJson? k).bind fun right =>
              (Ty.ofJson? l).bind fun t => some (.binary op left right t) := fun _ _ _ => rfl
      rw [toJson, hread, op.ofTag?_tag, hchildren left List.mem_cons_self,
        hchildren right (List.mem_cons_of_mem _ List.mem_cons_self), t.ofJson?_toJson]
      rfl
    | lambda params body =>
      have hread : ∀ js k, ofJson? (node "Lambda" [("params", .array js), ("body", k)]) =
          (js.mapM LambdaParam.ofJson?).bind fun params => (ofJson? k).bind fun body =>
            some (.lambda params body) := fun _ _ => rfl
      rw [toJson, hread, LambdaParam.mapM_ofJson?, hchildren body List.mem_cons_self]
      rfl
    | newObject t members =>
      have hread : ∀ k js, ofJson? (node "New" [("ty", k), ("members", .array js)]) =
          (Ty.ofJson? k).bind fun t => (pairsOf? js).bind fun members =>
            some (.newObject t members) := fun _ _ => rfl
      rw [toJson, hread, t.ofJson?_toJson, pairsOf?_membersToJson fun m hm =>
        hchildren _ (List.mem_map_of_mem hm)]
      rfl
    | newArray t items =>
      have hread : ∀ k js, ofJson? (node "NewArray" [("ty", k), ("items", .array js)]) =
          (Ty.ofJson? k).bind fun t => (listOf? js).bind fun items => some (.newArray t items) :=
            fun _ _ => rfl
      have hitems := listOf?_listToJson
        (show ∀ c ∈ items, ofJson? c.toJson = some c.settled from hchildren)
      rw [toJson, hread, t.ofJson?_toJson, hitems]
      rfl
    | construct t args =>
      have hread : ∀ k js, ofJson? (node "Construct" [("ty", k), ("args", .array js)]) =
          (Ty.ofJson? k).bind fun t => (listOf? js).bind fun args => some (.construct t args) :=
            fun _ _ => rfl
      have hargs := listOf?_listToJson
        (show ∀ c ∈ args, ofJson? c.toJson = some c.settled from hchildren)
      rw [toJson, hread, t.ofJson?_toJson, hargs]
      rfl
    | _ => cases hnode

/-! ## Equal trees -/

theorem sameReceiver_of_settled_eq {r r' : Option Expr}
    (h : ∀ e ∈ r, ∀ e' : Expr, e.settled = e'.settled → e.sameTree e' = true)
    (hs : settledOption r = settledOption r') : sameReceiver r r' = true := by
  cases r <;> cases r' <;> simp only [settledOption, Option.some.injEq, reduceCtorEq] at hs
  · rfl
  · exact h _ rfl _ hs

theorem sameTrees_of_settled_eq {es es' : List Expr}
    (h : ∀ e ∈ es, ∀ e' : Expr, e.settled = e'.settled → e.sameTree e' = true)
    (hs : settledList es = settledList es') : sameTrees es es' = true := by
  induction es generalizing es' with
  | nil => cases es' <;> first | rfl | simp [settledList] at hs
  | cons e es ih =>
    cases es' with
    | nil => simp [settledList] at hs
    | cons e' es' =>
      rw [settledList, settledList, List.cons.injEq] at hs
      rw [sameTrees, h e List.mem_cons_self e' hs.1,
        ih (fun e he => h e (List.mem_cons_of_mem _ he)) hs.2]
      rfl

theorem sameMembers_of_settled_eq {ms ms' : List (String × Expr)}
    (h : ∀ m ∈ ms, ∀ e' : Expr, m.2.settled = e'.settled → m.2.sameTree e' = true)
    (hs : settledMembers ms = settledMembers ms') : sameMembers ms ms' = true := by
  induction ms generalizing ms' with
  | nil => cases ms' <;> first | rfl | simp [settledMembers] at hs
  | cons m ms ih =>
    cases ms' with
    | nil => simp [settledMembers] at hs
    | cons m' ms' =>
      rw [settledMembers, settledMembers, List.cons.injEq, Prod.mk.injEq] at hs
      rw [sameMembers, hs.1.1, h m List.mem_cons_self m'.2 hs.1.2,
        ih (fun m hm => h m (List.mem_cons_of_mem _ hm)) hs.2, beq_self_eq_true]
      rfl

theorem sameCapture_of_settled_eq {c c' : Capture} (hexact : c.isExact = true)
    (h : c.settled = c'.settled) : sameCapture c c' = true := by
  cases c <;> cases c' <;> simp only [Capture.settled, Capture.value.injEq, reduceCtorEq] at h
  · exact Value.beq_of_settled_eq _ _ hexact h
  · cases h
    exact beq_self_eq_true _
  · rfl

/-- `Exact` trees that differ in the signs of decimal zeros only are equal. -/
theorem sameTree_of_settled_eq {e e' : Expr} (hwritten : e.Written) (hexact : e.Exact)
    (h : e.settled = e'.settled) : e.sameTree e' = true := by
  induction e using childrenInduction generalizing e' with
  | step e ih =>
    have hnode := hwritten e (mem_nodes_self e)
    have hvalue := hexact e (mem_nodes_self e)
    have hchildren : ∀ c ∈ e.children, ∀ c', c.settled = c'.settled → c.sameTree c' = true :=
      fun c hc c' => ih c hc (hwritten.child hc) (hexact.child hc)
    -- Settling keeps the kind of a node, so the other tree has the same kind, and its parts settle
    -- alike.
    cases e with
    | constant v t =>
      cases e' <;> simp only [settled, constant.injEq, reduceCtorEq] at h
      rename_i w t'
      obtain ⟨hv, rfl⟩ := h
      have hbeq : (v == w) = true := Value.beq_of_settled_eq v w hvalue hv
      simp [sameTree, hbeq]
    | captured name c t =>
      cases e' <;> simp only [settled, captured.injEq, reduceCtorEq] at h
      obtain ⟨rfl, hc, rfl⟩ := h
      simp [sameTree, sameCapture_of_settled_eq hvalue hc]
    | source s =>
      cases e' <;> simp only [settled, source.injEq, reduceCtorEq] at h
      simp [sameTree, h]
    | parameter name t =>
      cases e' <;> simp only [settled, parameter.injEq, reduceCtorEq] at h
      simp [sameTree, h]
    | member base name t =>
      cases e' <;> simp only [settled, member.injEq, reduceCtorEq] at h
      obtain ⟨hbase, rfl, rfl⟩ := h
      simp [sameTree, hchildren base List.mem_cons_self _ hbase]
    | static surface name t =>
      cases e' <;> simp only [settled, static.injEq, reduceCtorEq] at h
      simp [sameTree, h]
    | call surface method receiver args t =>
      cases e' <;> simp only [settled, call.injEq, reduceCtorEq] at h
      obtain ⟨rfl, rfl, hreceiver, hargs, rfl⟩ := h
      have hr := sameReceiver_of_settled_eq
        (fun r hr => hchildren r (List.mem_append_left _ (Option.mem_toList.mpr hr))) hreceiver
      have ha := sameTrees_of_settled_eq (fun a ha => hchildren a (List.mem_append_right _ ha))
        hargs
      simp [sameTree, hr, ha]
    | unary op operand t =>
      cases e' <;> simp only [settled, unary.injEq, reduceCtorEq] at h
      obtain ⟨rfl, hoperand, rfl⟩ := h
      simp [sameTree, hchildren operand List.mem_cons_self _ hoperand]
    | binary op left right t =>
      cases e' <;> simp only [settled, binary.injEq, reduceCtorEq] at h
      obtain ⟨rfl, hleft, hright, rfl⟩ := h
      simp [sameTree, hchildren left List.mem_cons_self _ hleft,
        hchildren right (List.mem_cons_of_mem _ List.mem_cons_self) _ hright]
    | lambda params body =>
      cases e' <;> simp only [settled, lambda.injEq, reduceCtorEq] at h
      obtain ⟨rfl, hbody⟩ := h
      simp [sameTree, hchildren body List.mem_cons_self _ hbody]
    | newObject t members =>
      cases e' <;> simp only [settled, newObject.injEq, reduceCtorEq] at h
      obtain ⟨rfl, hmembers⟩ := h
      simp [sameTree, sameMembers_of_settled_eq (fun m hm => hchildren _ (List.mem_map_of_mem hm))
        hmembers]
    | newArray t items =>
      cases e' <;> simp only [settled, newArray.injEq, reduceCtorEq] at h
      obtain ⟨rfl, hitems⟩ := h
      have hall : ∀ c ∈ items, ∀ c', c.settled = c'.settled → c.sameTree c' = true := hchildren
      simp [sameTree, sameTrees_of_settled_eq hall hitems]
    | construct t args =>
      cases e' <;> simp only [settled, construct.injEq, reduceCtorEq] at h
      obtain ⟨rfl, hargs⟩ := h
      have hall : ∀ c ∈ args, ∀ c', c.settled = c'.settled → c.sameTree c' = true := hchildren
      simp [sameTree, sameTrees_of_settled_eq hall hargs]
    | _ => cases hnode

mutual

theorem settled_settled : ∀ e : Expr, e.settled.settled = e.settled
  | .constant v t => by simp [settled, v.settled_settled]
  | .captured _ c _ => by simp [settled, c.settled_settled]
  | .member base _ _ => by simp [settled, settled_settled base]
  | .call _ _ receiver args _ => by
    simp [settled, settledOption_settledOption receiver, settledList_settledList args]
  | .unary _ operand _ => by simp [settled, settled_settled operand]
  | .binary _ left right _ => by simp [settled, settled_settled left, settled_settled right]
  | .lambda _ body => by simp [settled, settled_settled body]
  | .newObject _ members => by simp [settled, settledMembers_settledMembers members]
  | .newArray _ items => by simp [settled, settledList_settledList items]
  | .construct _ args => by simp [settled, settledList_settledList args]
  | .source _ | .parameter _ _ | .static _ _ _ | .table _ _ | .named _ _ | .row _ _ | .select
    _ | .subquery _
  | .custom _ _ | .groupAggregate _ _ _ => rfl
termination_by structural e => e

theorem settledOption_settledOption : ∀ e : Option Expr,
    settledOption (settledOption e) = settledOption e
  | none => rfl
  | some e => by simp [settledOption, settled_settled e]
termination_by structural e => e

theorem settledList_settledList : ∀ es : List Expr, settledList (settledList es) = settledList es
  | [] => rfl
  | e :: es => by simp [settledList, settled_settled e, settledList_settledList es]
termination_by structural es => es

theorem settledMembers_settledMembers : ∀ ms : List (String × Expr),
    settledMembers (settledMembers ms) = settledMembers ms
  | [] => rfl
  | (_, e) :: ms => by simp [settledMembers, settled_settled e, settledMembers_settledMembers ms]
termination_by structural ms => ms

end

/-! ## Texts -/

theorem itemsExact_listToJson {es : List Expr} (h : ∀ e ∈ es, e.toJson.isExact = true) :
    Json.itemsExact (listToJson es) = true := by
  induction es with
  | nil => rfl
  | cons e es ih =>
    rw [listToJson, Json.itemsExact, h e List.mem_cons_self, ih fun e he =>
      h e (List.mem_cons_of_mem _ he)]
    rfl

theorem itemsExact_membersToJson {ms : List (String × Expr)}
    (h : ∀ m ∈ ms, m.2.toJson.isExact = true) : Json.itemsExact (membersToJson ms) = true := by
  induction ms with
  | nil => rfl
  | cons m ms ih =>
    have hm := h m List.mem_cons_self
    simp [membersToJson, Json.itemsExact, Json.isExact, hm, ih fun m hm =>
      h m (List.mem_cons_of_mem _ hm)]

theorem itemsExact_params (params : List LambdaParam) :
    Json.itemsExact (params.map LambdaParam.toJson) = true := by
  induction params with
  | nil => rfl
  | cons p params ih =>
    simp [Json.itemsExact, LambdaParam.toJson, Json.isExact, Json.membersExact, p.ty.isExact_toJson,
      ih]

/-- `toJson` of an `Exact` tree has no floating-point numbers. -/
theorem isExact_toJson {e : Expr} (h : e.Exact) : e.toJson.isExact = true := by
  induction e using childrenInduction with
  | step e ih =>
    -- Only constants and captures hold values; the rest of a node is text and the forms of its
    -- parts.
    have hvalue := h e (mem_nodes_self e)
    have hchildren : ∀ c ∈ e.children, c.toJson.isExact = true := fun c hc => ih c hc (h.child hc)
    cases e with
    | constant v t =>
      simp [toJson, node, Json.isExact, Json.membersExact, v.isExact_toTagged hvalue,
        t.isExact_toJson]
    | captured name c t =>
      simp [toJson, node, Json.isExact, Json.membersExact, Capture.isExact_toJson hvalue,
        t.isExact_toJson]
    | source s =>
      simp [toJson, node, TableSource.toMembers, Json.isExact, Json.membersExact,
        s.element.isExact_toJson]
    | parameter name t => simp [toJson, node, Json.isExact, Json.membersExact, t.isExact_toJson]
    | member base name t =>
      simp [toJson, node, Json.isExact, Json.membersExact, hchildren base List.mem_cons_self,
        t.isExact_toJson]
    | static surface name t =>
      simp [toJson, node, Json.isExact, Json.membersExact, t.isExact_toJson]
    | call surface method receiver args t =>
      have hargs := itemsExact_listToJson fun a ha => hchildren a (List.mem_append_right _ ha)
      cases receiver with
      | none =>
        simp [toJson, receiverToJson, node, Json.isExact, Json.membersExact, hargs,
        t.isExact_toJson]
      | some r =>
        have hr := hchildren r List.mem_cons_self
        simp [toJson, receiverToJson, node, Json.isExact, Json.membersExact, hr, hargs,
          t.isExact_toJson]
    | unary op operand t =>
      simp [toJson, node, Json.isExact, Json.membersExact, hchildren operand List.mem_cons_self,
        t.isExact_toJson]
    | binary op left right t =>
      simp [toJson, node, Json.isExact, Json.membersExact, hchildren left List.mem_cons_self,
        hchildren right (List.mem_cons_of_mem _ List.mem_cons_self), t.isExact_toJson]
    | lambda params body =>
      simp [toJson, node, Json.isExact, Json.membersExact, itemsExact_params,
        hchildren body List.mem_cons_self]
    | newObject t members =>
      have hmembers := itemsExact_membersToJson fun m hm => hchildren _ (List.mem_map_of_mem hm)
      simp [toJson, node, Json.isExact, Json.membersExact, hmembers, t.isExact_toJson]
    | newArray t items =>
      have hitems : Json.itemsExact (listToJson items) = true := itemsExact_listToJson hchildren
      simp [toJson, node, Json.isExact, Json.membersExact, hitems, t.isExact_toJson]
    | construct t args =>
      have hargs : Json.itemsExact (listToJson args) = true := itemsExact_listToJson hchildren
      simp [toJson, node, Json.isExact, Json.membersExact, hargs, t.isExact_toJson]
    | _ => rfl

/-- A tree as callers make it, all of whose values are exact, is read back from the text of its JSON
form with any `limit` that the text does not exceed, and every such tree with that text is the same.
-/
theorem json_reads_back (e : Expr) (hwritten : e.Written) (hexact : e.Exact) (limit : Option Nat)
    (hlimit : ∀ most ∈ limit, e.toJson.depth ≤ most) :
    ∃ read, (Json.read? limit e.toJson.compact).bind ofJson? = some read ∧
      ofJson? e.toJson = some read ∧ e.sameTree read = true ∧
      ∀ other : Expr, other.Written → other.Exact → other.toJson.compact = e.toJson.compact →
        e.sameTree other = true := by
  have hread := ofJson?_toJson hwritten hexact
  have htext : ∀ {e : Expr} {limit : Option Nat}, e.Exact →
      (∀ most ∈ limit, e.toJson.depth ≤ most) →
        Json.read? limit e.toJson.compact = some e.toJson := fun h =>
        Json.read?_compact (isExact_toJson h)
  refine ⟨e.settled, by rw [htext hexact hlimit, Option.bind_some, hread], hread,
    sameTree_of_settled_eq hwritten hexact e.settled_settled.symm, ?_⟩
  intro other hwritten' hexact' hsame
  have hread' := ofJson?_toJson hwritten' hexact'
  -- A text is read as one form only, and a form as one tree.
  have hjson : e.toJson = other.toJson := by
    have htext' := @htext other none hexact' (fun _ h => by cases h)
    rw [hsame, htext hexact (fun _ h => by cases h)] at htext'
    exact Option.some.inj htext'
  rw [← hjson, hread] at hread'
  exact sameTree_of_settled_eq hwritten hexact (Option.some.inj hread')

/-- A call on a captured object with a negative zero and a leap second, and a lambda over stored
records. -/
def recorded : Expr :=
  .call .queryable "Where"
    (some (.captured "since" (.value (.object
      [("zero", .decimal (Decimal.zero.neg)),
        ("\"\n", .dateTime { day := 17166, second := 86399, nano := 1500000000 })]))
      (.prim .object)))
    [.lambda [⟨"x", .entity "User" [⟨"Id", some "id", .int32⟩, ⟨"Name", none, .nullable .string⟩]⟩]
      (.binary .equal (.member (.parameter "x" .unknown) "Id" .int32)
        (.constant (.array [.char '\\', .int (-5), .recordId ⟨"user", .text "1"⟩, .guid ⟨7⟩])
          (.array .unknown))
        .bool)] .bool

theorem json_reads_back_recorded :
    recorded.Written ∧ recorded.Exact ∧ recorded.toJson.depth ≤ 127 ∧
    ∃ read, (Json.read? (some 127) recorded.toJson.compact).bind ofJson? = some read ∧
      ofJson? recorded.toJson = some read ∧ recorded.sameTree read = true ∧
      ∀ other : Expr, other.Written → other.Exact → other.toJson.compact = recorded.toJson.compact →
        recorded.sameTree other = true := by
  have hwritten : recorded.Written := by decide
  have hexact : recorded.Exact := by decide
  have hdepth : recorded.toJson.depth ≤ 127 := by decide
  exact ⟨hwritten, hexact, hdepth,
    json_reads_back recorded hwritten hexact (some 127) fun _ h => by cases h; exact hdepth⟩

end Expr

end QueryTree
