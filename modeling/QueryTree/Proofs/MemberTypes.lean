import QueryTree.Compile
import QueryTree.Proofs.Apart
import QueryTree.Proofs.Lowered
import QueryTree.Proofs.Operator

/-!
# Members and the types they are members of

A member is lowered by the type of the node it is taken of. Most operators that pick an element
(`QueryOp.picksElement`) leave a node with the type of their call; a select for a single row has the
type of a query, and a query has no columns. `Value` of something that may be missing is the thing
itself, unless its type has members of its own: these are looked up first.
-/

namespace QueryTree

open Lowering

/-! ## Stored members -/

/-- A stored member of a `Holder.value` is one step further. -/
theorem Expr.lower_member_of_value {base : Expr} (hholder : base.holder = .value) {name : String}
    (hstored : isComputed base.ty name = false) (t : Ty) :
    (Expr.member base name t).lower = (·.step (.field (base.ty.columnName name))) <$>
      base.lower := by
  have hmember : (Expr.member base name t).lower = storedMember ⟨base, base.lower⟩
      base.memberOperands name :=
    member_of_stored hstored
  rw [hmember, storedMember_eq, hholder, ← bind_pure_comp]

theorem Binding.operatorCount_member (base : Expr) (name : String) (t : Ty) :
    operatorCount (.member base name t) = operatorCount base := by
  rw [operatorCount_eq]
  simp [Expr.children, isOperator]

theorem Expr.bind_member (base : Expr) (name : String) (t : Ty) :
    (Expr.member base name t).bind = (Expr.member · name t) <$> base.bind := by
  unfold Expr.bind
  rw [Binding.operatorCount_member, Binding.bindWith, Binding.bindWith,
    replaceM_eq _ (Expr.member base name t)]
  simp [Binding.bindNode, Expr.children, Expr.withChildren]

/-! ## Elements of queries -/

/-- Whether an operator picks one element of its source. -/
def QueryOp.picksElement : QueryOp → Bool
  | .first _ | .last _ | .elementAt _ | .single => true
  | _ => false

/-- What stands for a picked element: a select for a single row, or a value with the type `t` of the
call. -/
theorem Binding.Performs.element {bind : Expr → BindM Expr} {method : String} {t : Ty}
    {op : QueryOp} {source r : Expr} {args : List Expr} {n m : Nat}
    (h : Performs bind method t op source args n r m) (hpicks : op.picksElement = true) :
    (op = .single ∧ ∃ s, r = .select s) ∨ op ≠ .single ∧ ∃ e, r = .custom e t := by
  cases h with
  | single => exact .inl ⟨rfl, _, rfl⟩
  | singleOf => exact .inl ⟨rfl, _, rfl⟩
  | elementAt => exact .inr ⟨by simp, _, rfl⟩
  | answer hanswer =>
    refine .inr ⟨?_, _, rfl⟩
    rintro rfl
    cases hanswer
  | aggregate hkind =>
    refine .inr ⟨?_, _, rfl⟩
    rintro rfl
    cases hkind
  | _ => cases hpicks

section
variable {method : String} {op : QueryOp} {args : List Expr} {entity : String}
  {fields : List EntityField}

/-- A member of a picked element is read from the column of the member, except from the element that
`Single` picks: there it is read under its own name. It binds and lowers exactly when the element
does. -/
theorem element_member_column (hop : QueryOp.ofMethod? method = some op)
    (hpicks : op.picksElement = true) (name : String) (t : Ty) :
    (Expr.member (.call .queryable method none args (.entity entity fields)) name t).bind =
        (Expr.member · name t) <$>
          (Expr.call .queryable method none args (.entity entity fields)).bind ∧
      ∀ n r m, Yields (Expr.call .queryable method none args (.entity entity fields)).bind n r m →
        (Expr.member r name t).lower =
          (·.step (.field
            (if op = .single then name else (Ty.entity entity fields).columnName name))) <$>
            r.lower := by
  refine ⟨Expr.bind_member _ name t, fun n r m hcall => ?_⟩
  obtain ⟨fuel, op', start, rest, source, k, -, hop', -, hperforms⟩ :=
    Binding.yields_bindWith_call hcall
  obtain rfl : op' = op := Option.some.inj (hop'.symm.trans hop)
  -- The type that columns are looked up in is that of a query, or that of the call.
  rcases hperforms.element hpicks with ⟨hsingle, s, rfl⟩ | ⟨hsingle, e, rfl⟩
  · rw [if_pos hsingle]
    exact Expr.lower_member_of_value rfl rfl t
  · rw [if_neg hsingle]
    exact Expr.lower_member_of_value rfl rfl t

end

namespace Sample

/-- Users with a time of creation, which is stored in a column with another name. -/
def datedUser : Ty := .entity "User" [⟨"CreatedAt", some "created_at", .prim .dateTime⟩]

/-- The user that `method` picks from `users`. -/
def pickedUser (method : String) (users : Expr) : Expr :=
  .call .queryable method none [users] datedUser

/-- All users, as they are asked for. -/
def users : Expr := .source ⟨"user", datedUser⟩

/-- `users` where sources have become tables. -/
def userTable : Expr := .table "user" datedUser

end Sample

section
open Sample

theorem yields_nameCaptures_pickedUser (method : String) :
    Yields (pickedUser method users).nameCaptures (.empty .standard) (pickedUser method userTable)
      (.empty .standard) := by
  have husers : Yields (Expr.replaceM nameNode users) (.empty .standard)
      userTable (.empty .standard) := by
    rw [Expr.replaceM_eq]
    exact yields_bind.mpr ⟨some _, _, yields_pure.mpr ⟨rfl, rfl⟩, yields_pure.mpr ⟨rfl, rfl⟩⟩
  rw [pickedUser, Expr.nameCaptures, Expr.replaceM_eq]
  refine yields_bind.mpr ⟨none, _, yields_pure.mpr ⟨rfl, rfl⟩,
    yields_map.mpr ⟨[userTable], ?_, rfl⟩⟩
  exact yields_mapM.mpr (.cons husers (.nil _))

/-- `FirstOrDefault` keeps the type of the call, and `Single` does not. -/
theorem element_member_column_user :
    (∃ tree params r m,
      Yields (pickedUser "FirstOrDefault" users).nameCaptures (.empty .standard) tree params ∧
        Yields tree.bind 0 r m ∧
        (Expr.member r "CreatedAt" (.prim .dateTime)).lower =
          (·.step (.field "created_at")) <$> r.lower) ∧
    ∃ tree params r m,
      Yields (pickedUser "Single" users).nameCaptures (.empty .standard) tree params ∧
        Yields tree.bind 0 r m ∧
        (Expr.member r "CreatedAt" (.prim .dateTime)).lower =
          (·.step (.field "CreatedAt")) <$> r.lower := by
  have hfirst : QueryOp.ofMethod? "FirstOrDefault" = some (.first true) := rfl
  have hsingle : QueryOp.ofMethod? "Single" = some .single := rfl
  constructor
  · have hrun : ((pickedUser "FirstOrDefault" userTable).bind.run.run
        0).1.toOption.isSome = true := by
      decide +kernel
    obtain ⟨r, m, hr⟩ := BindM.exists_yields hrun
    exact ⟨_, _, r, m, yields_nameCaptures_pickedUser _, hr,
      (element_member_column hfirst rfl "CreatedAt" _).2 0 r m hr⟩
  · have hrun : ((pickedUser "Single" userTable).bind.run.run 0).1.toOption.isSome = true := by
      decide +kernel
    obtain ⟨r, m, hr⟩ := BindM.exists_yields hrun
    exact ⟨_, _, r, m, yields_nameCaptures_pickedUser _, hr,
      (element_member_column hsingle rfl "CreatedAt" _).2 0 r m hr⟩

/-- `Single` loses the column of a member. -/
theorem singleUser_reads_other_column :
    datedUser.columnName "CreatedAt" = "created_at" ∧
      ((Expr.member (pickedUser "Single" users) "CreatedAt" (.prim .dateTime)).compile
          .standard).toOption.map (·.text) =
        some "(SELECT * FROM ONLY user).CreatedAt" := by
  constructor
  · rfl
  · decide +kernel

end

/-! ## The value of what may be missing -/

/-- What is said to be unsupported where `Value` is asked for: the types with members of their own
refuse it. -/
def Ty.refusedValue? (t : Ty) : Option String :=
  if t == .string then some (Surface.string.qualify "Value")
  else if t == .prim .dateTime then some (Surface.dateTime.qualify "Value")
  else if t.isSpan then some (Surface.timeSpan.qualify "Value")
  else if t.isVector then some "Value"
  else none

/-- `Value` of something that may be missing is lowered as the thing itself, with the same effects
and the same failures, exactly for the types that do not refuse it. -/
theorem nullable_value_lowered {base : Expr} {inner : Ty} (hbase : base.ty = .nullable inner)
    (t : Ty) : (Expr.member base "Value" t).lower = match inner.refusedValue? with
      | none => base.lower
      | some member => throw (.memberUnsupported member) := by
  have hmember : (Expr.member base "Value" t).lower =
      member ⟨base, base.lower⟩ base.memberOperands base.knownItems "Value" := rfl
  have hlength : (knowsLength inner && ("Value" == "Length" || "Value" == "Count")) = false := by
    rw [show ("Value" == "Length" || "Value" == "Count") = false from by decide, Bool.and_false]
  have hvalue : (isNullable (.nullable inner) && "Value" == "Value") = true := rfl
  rw [hmember]
  simp only [member, hbase, Ty.unwrap, hlength, hvalue, Ty.refusedValue?, Bool.false_eq_true,
    if_false, if_true]
  -- Both sides look at the types in the same order.
  split_ifs with hstring hinstant hspan hvector
  · rfl
  · rfl
  · rfl
  · rfl
  · rfl

namespace Sample

/-- A point in time that may be missing. -/
def someDay : Expr :=
  .constant (.dateTime { day := 20223, second := 0, nano := 0 }) (.nullable (.prim .dateTime))

/-- A number that may be missing in two ways. -/
def someNumber : Expr := .named "p" (.nullable (.nullable (.prim .int32)))

end Sample

section
open Sample

theorem nullable_value_lowered_someNumber :
    (someNumber.ty = .nullable (.nullable (.prim .int32)) ∧
      (Expr.member someNumber "Value" (.nullable (.prim .int32))).lower = someNumber.lower) ∧
    someDay.ty = .nullable (.prim .dateTime) ∧
      (Expr.member someDay "Value" (.prim .dateTime)).lower =
        throw (.memberUnsupported "DateTime.Value") := by
  have hnumber : someNumber.ty = .nullable (.nullable (.prim .int32)) := rfl
  have hday : someDay.ty = .nullable (.prim .dateTime) := rfl
  exact ⟨⟨hnumber, nullable_value_lowered hnumber _⟩, hday, nullable_value_lowered hday _⟩

/-- In `someDay` a point in time that may be missing can be asked for itself, but not for its
`Value`. -/
theorem someDay_value_refused :
    (someDay.compile .standard).toOption.map (·.text) = some "d\"2025-05-15T00:00:00Z\"" ∧
      ((Expr.member someDay "Value" (.prim .dateTime)).compile .standard).toOption.map (·.text) =
        none := by
  constructor
  · decide +kernel
  · decide +kernel

end

end QueryTree
