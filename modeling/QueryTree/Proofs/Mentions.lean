import QueryTree.Lowering.Literal

/-!
# The parameters that a query mentions

Every parameter in the text of a query is a node of its syntax. A term is `Over` some names if it
mentions no others.
-/

namespace QueryTree.Surql

mutual

/-- The parameters that a term mentions. -/
def Term.mentions : Term → List String
  | .param name => [name]
  | .array items => Term.mentionsList items
  | .object members => Term.mentionsMembers members
  | .path parts => Part.mentionsList parts
  | .call _ args => Term.mentionsList args
  | .unary _ operand => operand.mentions
  | .binary left _ right => left.mentions ++ right.mentions
  | .cast _ operand => operand.mentions
  | .range first last => first.mentions ++ last.mentions
  | .subquery s => s.mentions
  | _ => []
termination_by structural t => t

def Term.mentionsList : List Term → List String
  | [] => []
  | t :: ts => t.mentions ++ Term.mentionsList ts
termination_by structural ts => ts

def Term.mentionsOption : Option Term → List String
  | none => []
  | some t => t.mentions
termination_by structural t => t

def Term.mentionsMembers : List (String × Term) → List String
  | [] => []
  | (_, t) :: ts => t.mentions ++ Term.mentionsMembers ts
termination_by structural ts => ts

def Part.mentions : Part → List String
  | .start t => t.mentions
  | .item t => t.mentions
  | .method _ args => Term.mentionsList args
  | _ => []
termination_by structural p => p

def Part.mentionsList : List Part → List String
  | [] => []
  | p :: ps => p.mentions ++ Part.mentionsList ps
termination_by structural ps => ps

def Column.mentions : List Column → List String
  | [] => []
  | ⟨t, _⟩ :: columns => t.mentions ++ Column.mentions columns
termination_by structural columns => columns

def Columns.mentions : Columns → List String
  | .all => []
  | .value t => t.mentions
  | .list columns => Column.mentions columns
termination_by structural columns => columns

def Target.mentions : Target → List String
  | .table _ => []
  | .subquery s => s.mentions
termination_by structural t => t

def GroupBy.mentions : Option GroupBy → List String
  | some (.keys terms) => Term.mentionsList terms
  | _ => []
termination_by structural g => g

def OrderBy.mentions : List OrderBy → List String
  | [] => []
  | ⟨t, _⟩ :: order => t.mentions ++ OrderBy.mentions order
termination_by structural order => order

def Statement.mentions : Statement → List String
  | ⟨columns, target, _, cond, group, order, limit, start⟩ =>
    columns.mentions ++ target.mentions ++ Term.mentionsOption cond ++ GroupBy.mentions group ++
      OrderBy.mentions order ++ Term.mentionsOption limit ++ Term.mentionsOption start
termination_by structural s => s

end

/-- The parameters that a query mentions. -/
def Query.mentions : Query → List String
  | .statement s => s.mentions
  | .term t => t.mentions

/-- `t` mentions no parameters but those in `N`. -/
def Term.Over (N : String → Prop) (t : Term) : Prop := ∀ n ∈ t.mentions, N n

/-- `p` mentions no parameters but those in `N`. -/
def Part.Over (N : String → Prop) (p : Part) : Prop := ∀ n ∈ p.mentions, N n

/-- `s` mentions no parameters but those in `N`. -/
def Statement.Over (N : String → Prop) (s : Statement) : Prop := ∀ n ∈ s.mentions, N n

/-- What holds of all that `f` collects along a list holds of what each element gives. -/
theorem forall_mem_collected {α β : Type} {f : List α → List β} {g : α → List β} {P : β → Prop}
    (hnil : f [] = []) (hcons : ∀ a as, f (a :: as) = g a ++ f as) (as : List α) :
    (∀ b ∈ f as, P b) ↔ ∀ a ∈ as, ∀ b ∈ g a, P b := by
  induction as with
  | nil => simp [hnil]
  | cons a as ih => rw [hcons, List.forall_mem_append, ih, List.forall_mem_cons]

section
variable {N : String → Prop}

theorem Term.over_list {ts : List Term} : (∀ n ∈ mentionsList ts, N n) ↔ ∀ t ∈ ts, t.Over N :=
  forall_mem_collected (g := mentions) rfl (fun _ _ => rfl) ts

theorem Term.over_members {ts : List (String × Term)} :
    (∀ n ∈ mentionsMembers ts, N n) ↔ ∀ t ∈ ts, t.2.Over N :=
  forall_mem_collected (g := fun t => t.2.mentions) rfl (fun _ _ => rfl) ts

theorem Part.over_list {ps : List Part} : (∀ n ∈ mentionsList ps, N n) ↔ ∀ p ∈ ps, p.Over N :=
  forall_mem_collected (g := mentions) rfl (fun _ _ => rfl) ps

theorem Column.over_list {columns : List Column} :
    (∀ n ∈ mentions columns, N n) ↔ ∀ c ∈ columns, c.term.Over N :=
  forall_mem_collected (g := fun c => c.term.mentions) rfl (fun c _ => by cases c; rfl) columns

theorem OrderBy.over_list {order : List OrderBy} :
    (∀ n ∈ mentions order, N n) ↔ ∀ k ∈ order, k.term.Over N :=
  forall_mem_collected (g := fun k => k.term.mentions) rfl (fun k _ => by cases k; rfl) order

theorem Term.over_option {t : Option Term} : (∀ n ∈ mentionsOption t, N n) ↔ ∀ u ∈ t, u.Over N := by
  cases t with
  | none => exact iff_of_true (List.forall_mem_nil _) (by simp)
  | some t =>
    change t.Over N ↔ _
    simp

theorem Statement.over_mk {columns : Columns} {target : Target} {only : Bool} {cond : Option Term}
    {group : Option GroupBy} {order : List OrderBy} {limit start : Option Term} :
    (Statement.mk columns target only cond group order limit start).Over N ↔
      (∀ n ∈ columns.mentions, N n) ∧ (∀ n ∈ target.mentions, N n) ∧ (∀ u ∈ cond, u.Over N) ∧
        (∀ n ∈ GroupBy.mentions group, N n) ∧ (∀ k ∈ order, k.term.Over N) ∧
        (∀ u ∈ limit, u.Over N) ∧ ∀ u ∈ start, u.Over N := by
  simp only [Over, mentions, List.mem_append, or_imp, forall_and, Term.over_option,
    OrderBy.over_list, and_assoc]

namespace Term

@[simp] theorem over_param {name : String} : (param name).Over N ↔ N name :=
  List.forall_mem_singleton

@[simp] theorem over_array {items : List Term} : (array items).Over N ↔ ∀ t ∈ items, t.Over N :=
  over_list

@[simp] theorem over_object {members : List (String × Term)} :
    (object members).Over N ↔ ∀ t ∈ members, t.2.Over N :=
  over_members

@[simp] theorem over_path {parts : List Part} : (path parts).Over N ↔ ∀ p ∈ parts, p.Over N :=
  Part.over_list

@[simp] theorem over_call {f : String} {args : List Term} :
    (call f args).Over N ↔ ∀ t ∈ args, t.Over N :=
  over_list

@[simp] theorem over_unary {op : UnaryOp} {t : Term} : (unary op t).Over N ↔ t.Over N := Iff.rfl

@[simp] theorem over_binary {op : BinaryOp} {a b : Term} :
    (binary a op b).Over N ↔ a.Over N ∧ b.Over N :=
  List.forall_mem_append

@[simp] theorem over_cast {kind : CastKind} {t : Term} : (cast kind t).Over N ↔ t.Over N := Iff.rfl

@[simp] theorem over_range {a b : Term} : (range a b).Over N ↔ a.Over N ∧ b.Over N :=
  List.forall_mem_append

theorem over_of_mentions {t : Term} (h : t.mentions = []) : t.Over N := by
  simp [Over, h]

end Term

namespace Part

@[simp] theorem over_start {t : Term} : (start t).Over N ↔ t.Over N := Iff.rfl

@[simp] theorem over_item {t : Term} : (item t).Over N ↔ t.Over N := Iff.rfl

@[simp] theorem over_method {name : String} {args : List Term} :
    (method name args).Over N ↔ ∀ t ∈ args, t.Over N :=
  Term.over_list

@[simp] theorem over_field {name : String} : (field name).Over N := nofun

@[simp] theorem over_parent : parent.Over N := nofun

@[simp] theorem over_index {n : Int64} : (index n).Over N := nofun

end Part

theorem Term.Over.step {t : Term} {p : Part} (ht : t.Over N) (hp : p.Over N) :
    (t.step p).Over N := by
  unfold Term.step
  split
  · simp only [over_path, List.mem_append, List.mem_singleton] at ht ⊢
    rintro q (hq | rfl)
    · exact ht q hq
    · exact hp
  · simp [ht, hp]

end

end QueryTree.Surql
