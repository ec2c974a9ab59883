import QueryTree.Lowering.Tree
import QueryTree.Proofs.Alike
import QueryTree.Proofs.Relabel

/-!
# Hiding values

What is not to be seen in a query is hidden: captured values and record ids. Everything else that a
constant may hold stays, and so does all that lowering reads off an expression.
-/

namespace QueryTree

mutual

/-- The value with one and the same record id for all that are in it. -/
def Value.hidden : Value → Value
  | .recordId _ => .recordId ⟨"", .number 0⟩
  | .array items => .array (Value.hiddenItems items)
  | .object members => .object (Value.hiddenMembers members)
  | v => v
termination_by structural v => v

def Value.hiddenItems : List Value → List Value
  | [] => []
  | v :: vs => v.hidden :: Value.hiddenItems vs
termination_by structural vs => vs

def Value.hiddenMembers : List (String × Value) → List (String × Value)
  | [] => []
  | (name, v) :: vs => (name, v.hidden) :: Value.hiddenMembers vs
termination_by structural vs => vs

end

/-- The capture without its value. -/
def Capture.hidden : Capture → Capture
  | .value _ => .value .null
  | c => c

/-- Hides captured values and record ids. -/
def Relabeling.hiding : Relabeling where
  value := Value.hidden
  capture := Capture.hidden
  name := id
  value_bool _ := rfl
  value_default t := by
    unfold Ty.defaultValue
    split <;> rfl

/-- `e` without captured values and record ids. -/
abbrev Expr.hidden (e : Expr) : Expr := e.relabel .hiding

namespace Value

theorem asInt?_hidden (v : Value) : v.hidden.asInt? = v.asInt? := by
  cases v <;> rfl

theorem asFloat?_hidden (v : Value) : v.hidden.asFloat? = v.asFloat? := by
  cases v <;> rfl

theorem hiddenItems_eq (vs : List Value) : hiddenItems vs = vs.map hidden := by
  induction vs with
  | nil => rfl
  | cons v vs ih => simp [hiddenItems, ih]

end Value

/-! ## What lowering reads off an expression -/

namespace Expr

theorem constant?_hidden (e : Expr) : e.hidden.constant? = e.constant?.map Value.hidden := by
  cases e <;> rfl

theorem constantNumber?_hidden (e : Expr) : e.hidden.constantNumber? = e.constantNumber? := by
  induction e using childrenInduction with
  | step e ih =>
    cases e with
    | constant v t => exact v.asFloat?_hidden
    | unary op operand t =>
      have hoperand := ih operand (by simp [children])
      cases op <;> simp_all [hidden, relabel, constantNumber?]
    | _ => rfl

theorem constantIndex?_hidden (e : Expr) : e.hidden.constantIndex? = e.constantIndex? := by
  unfold constantIndex?
  rw [hidden, unquote_relabel, constant?_hidden]
  cases e.unquote.constant? with
  | none => rfl
  | some v => exact v.asInt?_hidden

theorem isDefaultSplit_hidden (e : Expr) :
    Lowering.isDefaultSplit e.hidden = Lowering.isDefaultSplit e := by
  unfold Lowering.isDefaultSplit
  rw [constant?_hidden]
  cases e.constant? with
  | none => rfl
  | some v => cases v <;> rfl

end Expr

/-! ## Constants -/

section
variable {N : String → Prop} {E : Error → Prop} {P : Surql.Term → Prop}

open LowerM (Agree)
open Surql (Grammar)

mutual

/-- `lower` gives the same term whatever the record ids of `v` are. -/
theorem Value.lower_agree [Grammar P] (hN : ∀ n, N n → P (.param n)) :
    ∀ v : Value, Agree (.hiding N E P) P v.lower v.hidden.lower
  | .recordId _ => (Agree.recordId _ _).bind fun _ => .pure (hN _)
  | .array items => (Value.lowerItems_agree hN items).bind fun _ => .pure Grammar.array.mpr
  | .object members => (Value.lowerMembers_agree hN members).bind fun _ => .pure Grammar.object
  | .regex _ => .pure (Grammar.cast (Grammar.literal rfl))
  | .null | .absent | .bool _ | .int _ | .uint _ | .float32 _ | .float _ | .decimal
    _ | .string _ | .char _
  | .dateTime _ | .guid _ | .duration _ | .enum _ | .point _ _ => .pure (Grammar.literal rfl)
termination_by structural v => v

theorem Value.lowerItems_agree [Grammar P] (hN : ∀ n, N n → P (.param n)) : ∀ vs : List Value,
    Agree (.hiding N E P) (fun ts => ∀ t ∈ ts, P t) (Value.lowerItems vs)
      (Value.lowerItems (Value.hiddenItems vs))
  | [] => .pure nofun
  | v :: vs => by
    refine (v.lower_agree hN).bind fun t => (Value.lowerItems_agree hN vs).bind fun ts =>
      .pure fun hts ht => ?_
    exact List.forall_mem_cons.mpr ⟨ht, hts⟩
termination_by structural vs => vs

theorem Value.lowerMembers_agree [Grammar P] (hN : ∀ n, N n → P (.param n)) : ∀ vs :
    List (String × Value), Agree (.hiding N E P) (fun ts => ∀ t ∈ ts, P t.2) (Value.lowerMembers vs)
      (Value.lowerMembers (Value.hiddenMembers vs))
  | [] => .pure nofun
  | (name, v) :: vs => by
    refine (v.lower_agree hN).bind fun t => (Value.lowerMembers_agree hN vs).bind fun ts =>
      .pure fun hts ht => ?_
    exact List.forall_mem_cons.mpr ⟨ht, hts⟩
termination_by structural vs => vs

end

end

end QueryTree
