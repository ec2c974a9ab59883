import QueryTree.Proofs.Instants
import QueryTree.Proofs.JsonText
import QueryTree.Proofs.ScalarTexts
import QueryTree.Value.Json

/-!
# Types and values read back from JSON

A type is read back from its JSON form. So is a value, but for the signs of decimal zeros
(`Value.settled`), which do not matter to the equality of values.
-/

namespace QueryTree

/-! ## Names -/

theorem Prim.ofName?_name (p : Prim) : Prim.ofName? p.name = some p := by
  cases p <;> rfl

/-! ## Types -/

namespace Ty

mutual

theorem ofJson?_toJson : ∀ t : Ty, ofJson? t.toJson = some t
  | .prim p => by
    simp [toJson, tagged, ofJson?, stringMember?, Json.string?, Prim.ofName?_name, hasNoContent,
      Json.distinct, List.lookup_cons, List.lookup_nil]
  | .enum name => rfl
  | .nullable t => congrArg (Option.map nullable) (ofJson?_toJson t)
  | .array t => congrArg (Option.map array) (ofJson?_toJson t)
  | .list t => congrArg (Option.map list) (ofJson?_toJson t)
  | .hashSet t => congrArg (Option.map hashSet) (ofJson?_toJson t)
  | .enumerable t => congrArg (Option.map enumerable) (ofJson?_toJson t)
  | .queryable t => congrArg (Option.map queryable) (ofJson?_toJson t)
  | .grouping k t => by
    have hread : ofJson? (toJson (.grouping k t)) =
        (ofJson? k.toJson).bind fun k => (ofJson? t.toJson).bind fun t =>
          some (.grouping k t) := rfl
    rw [hread, ofJson?_toJson k, ofJson?_toJson t]
    rfl
  | .anonymous members => congrArg (Option.map anonymous) (pairsOf?_membersToJson members)
  | .entity name fields =>
    congrArg (fun fields => fields.bind fun fields => some (entity name fields))
      (fieldsOf?_fieldsToJson fields)

theorem pairsOf?_membersToJson : ∀ members : List (String × Ty),
    pairsOf? (membersToJson members) = some members
  | [] => rfl
  | (name, t) :: members => by
    simp [membersToJson, pairsOf?, ofJson?_toJson t, pairsOf?_membersToJson members]

theorem fieldsOf?_fieldsToJson : ∀ fields : List EntityField,
    fieldsOf? (fieldsToJson fields) = some fields
  | [] => rfl
  | ⟨name, none, t⟩ :: fields => by
    simp [fieldsToJson, fieldsOf?, stringMember?, optionalString?, ofMember?, Json.string?,
      ofJson?_toJson t, fieldsOf?_fieldsToJson fields, Json.distinct, List.lookup_cons,
      List.lookup_nil]
  | ⟨name, some column, t⟩ :: fields => by
    simp [fieldsToJson, fieldsOf?, stringMember?, optionalString?, ofMember?, Json.string?,
      ofJson?_toJson t, fieldsOf?_fieldsToJson fields, Json.distinct, List.lookup_cons]

end

mutual

theorem isExact_toJson : ∀ t : Ty, t.toJson.isExact = true
  | .prim _ | .enum _ => rfl
  | .nullable t | .array t | .list t | .hashSet t | .enumerable t | .queryable t => by
    simp [toJson, taggedOf, Json.isExact, Json.membersExact, isExact_toJson t]
  | .grouping k t => by
    simp [toJson, taggedOf, Json.isExact, Json.membersExact, isExact_toJson k, isExact_toJson t]
  | .anonymous members => by
    simp [toJson, taggedOf, Json.isExact, Json.membersExact, itemsExact_membersToJson members]
  | .entity name fields => by
    simp [toJson, taggedOf, Json.isExact, Json.membersExact, itemsExact_fieldsToJson fields]

theorem itemsExact_membersToJson : ∀ members : List (String × Ty),
    Json.itemsExact (membersToJson members) = true
  | [] => rfl
  | (_, t) :: members => by
    simp [membersToJson, Json.itemsExact, Json.isExact, isExact_toJson t,
      itemsExact_membersToJson members]

theorem itemsExact_fieldsToJson : ∀ fields : List EntityField,
    Json.itemsExact (fieldsToJson fields) = true
  | [] => rfl
  | ⟨_, none, t⟩ :: fields | ⟨_, some _, t⟩ :: fields => by
    simp [fieldsToJson, Json.itemsExact, Json.isExact, Json.membersExact, isExact_toJson t,
      itemsExact_fieldsToJson fields]

end

end Ty

/-! ## Scalars -/

theorem Json.int64?_toInt (n : Int64) : (Json.int n.toInt).int64? = some n := by
  have hlow : -9223372036854775808 ≤ n.toInt := n.le_toInt
  have hhigh : n.toInt ≤ 9223372036854775807 := Int.le_of_lt_add_one n.toInt_lt
  simp [Json.int64?, hlow, hhigh]

theorem Json.natural?_ofNat {bits n : Nat} (h : n < 2 ^ bits) :
    (Json.int n).natural? bits = some n := by
  have hpow : (n : Int) < Nat.pow 2 bits := Int.ofNat_lt.mpr h
  rw [natural?, if_pos (by simp only [hpow, decide_true, Bool.and_true, decide_eq_true_eq]; omega),
    Int.toNat_natCast]

theorem Duration.ofJson?_toJson (d : Duration) : Duration.ofJson? d.toJson = some d := by
  have hread : ∀ secs nanos : Json, Duration.ofJson? (.object [("secs", secs), ("nanos", nanos)]) =
      (secs.natural? 64).bind fun secs => (nanos.natural? 32).bind fun nanos =>
        some ⟨UInt64.ofNat secs, UInt32.ofNat nanos⟩ := fun _ _ => rfl
  rw [toJson, hread, Json.natural?_ofNat d.secs.toNat_lt, Json.natural?_ofNat d.nanos.toNat_lt]
  simp

theorem RecordId.ofJson?_toJson (r : RecordId) : RecordId.ofJson? r.toJson = some r := by
  obtain ⟨table, key⟩ := r
  cases key with
  | number n =>
    have hread : RecordId.ofJson? (toJson ⟨table, .number n⟩) =
        (((Json.int n.toInt).int64?.map RecordKey.number).or none).bind fun key =>
          some ⟨table, key⟩ := rfl
    rw [hread, Json.int64?_toInt]
    rfl
  | text s => rfl

/-! ## Values -/

namespace Value

mutual

/-- Whether a value has no floats, and no two members of an object have one name. -/
def isExact : Value → Bool
  | .float32 _ | .float _ | .point _ _ => false
  | .array items => itemsExact items
  | .object members => membersExact members && (members.map (·.1)).Nodup
  | _ => true
termination_by structural v => v

def itemsExact : List Value → Bool
  | [] => true
  | v :: items => v.isExact && itemsExact items
termination_by structural items => items

def membersExact : List (String × Value) → Bool
  | [] => true
  | (_, v) :: members => v.isExact && membersExact members
termination_by structural members => members

end

mutual

/-- The value without the signs of decimal zeros. -/
def settled : Value → Value
  | .decimal d => .decimal d.settled
  | .array items => .array (settledItems items)
  | .object members => .object (settledMembers members)
  | v => v
termination_by structural v => v

def settledItems : List Value → List Value
  | [] => []
  | v :: items => v.settled :: settledItems items
termination_by structural items => items

def settledMembers : List (String × Value) → List (String × Value)
  | [] => []
  | (name, v) :: members => (name, v.settled) :: settledMembers members
termination_by structural members => members

end

theorem map_fst_settledMembers (members : List (String × Value)) :
    (settledMembers members).map (·.1) = members.map (·.1) := by
  induction members with
  | nil => rfl
  | cons m members ih => simp [settledMembers, ih]

theorem insertMember_new {members : List (String × Value)} {name : String}
    (h : name ∉ members.map (·.1)) (v : Value) :
    insertMember members name v = members ++ [(name, v)] := by
  rw [insertMember, if_neg]
  simpa using h

/-! ### The tagged form -/

mutual

/-- `toTagged` of an exact value is read as that value. -/
theorem ofTagged?_toTagged : ∀ v : Value, v.isExact = true → ofTagged? v.toTagged = some v.settled
  | .null, _ => rfl
  | .absent, _ => rfl
  | .bool b, _ => rfl
  | .int n, _ => congrArg (fun n => n.bind fun n => some (int n)) (Json.int64?_toInt n)
  | .uint n, _ => by
    -- Reading opens the tag first; what is left is the round trip of the content.
    have hread : ∀ j : Json, ofTagged? (taggedOf "UInt" j) =
        (j.natural? 64).bind fun n => some (uint (UInt64.ofNat n)) := fun _ => rfl
    rw [toTagged, hread, Json.natural?_ofNat n.toNat_lt]
    simp [settled]
  | .float32 _, h => by simp [isExact] at h
  | .float _, h => by simp [isExact] at h
  | .decimal d, _ => by
    have hread : ∀ text, ofTagged? (taggedOf "Decimal" (.string text)) =
        (Decimal.ofText? text).bind fun d => some (decimal d) := fun _ => rfl
    rw [toTagged, hread, d.ofText?_text]
    rfl
  | .string s, _ => rfl
  | .char c, _ => by
    have hread : ∀ j, ofTagged? (taggedOf "Char" j) = (charOfJson? j).bind fun c => some (char c) :=
      fun _ => rfl
    rw [toTagged, hread, charOfJson?, String.toList_singleton]
    rfl
  | .dateTime t, _ => by
    have hread : ∀ text, ofTagged? (taggedOf "DateTime" (.string text)) =
        (Instant.ofText? text).bind fun t => some (dateTime t) := fun _ => rfl
    rw [toTagged, hread, t.ofText?_text]
    rfl
  | .guid g, _ => by
    have hread : ∀ text, ofTagged? (taggedOf "Guid" (.string text)) =
        (Guid.ofText? text).bind fun g => some (guid g) := fun _ => rfl
    rw [toTagged, hread, g.ofText?_text]
    rfl
  | .duration d, _ => by
    have hread : ∀ j, ofTagged? (taggedOf "Duration" j) = (Duration.ofJson? j).bind fun d =>
        some (duration d) :=
      fun _ => rfl
    rw [toTagged, hread, d.ofJson?_toJson]
    rfl
  | .regex s, _ => rfl
  | .recordId r, _ => by
    have hread : ∀ j, ofTagged? (taggedOf "RecordId" j) = (RecordId.ofJson? j).bind fun r =>
        some (recordId r) :=
      fun _ => rfl
    rw [toTagged, hread, r.ofJson?_toJson]
    rfl
  | .enum s, _ => rfl
  | .point _ _, h => by simp [isExact] at h
  | .array items, h => congrArg (Option.map array) (itemsOf?_itemsToTagged items h)
  | .object members, h => by
    rw [isExact, Bool.and_eq_true, decide_eq_true_eq] at h
    have hread := membersOf?_membersToTagged members [] h.1 h.2
    exact congrArg (Option.map object) hread

theorem itemsOf?_itemsToTagged : ∀ items : List Value, itemsExact items = true →
    itemsOf? (itemsToTagged items) = some (settledItems items)
  | [], _ => rfl
  | v :: items, h => by
    rw [itemsExact, Bool.and_eq_true] at h
    simp [itemsToTagged, itemsOf?, ofTagged?_toTagged v h.1, itemsOf?_itemsToTagged items h.2,
      settledItems]

theorem membersOf?_membersToTagged : ∀ (members read : List (String × Value)),
    membersExact members = true → (read.map (·.1) ++ members.map (·.1)).Nodup →
    membersOf? read (membersToTagged members) = some (read ++ settledMembers members)
  | [], read, _, _ => by simp [membersToTagged, membersOf?, settledMembers]
  | (name, v) :: members, read, h, hnames => by
    rw [membersExact, Bool.and_eq_true] at h
    have hnew : name ∉ read.map (·.1) := fun hmem =>
      (List.nodup_append.mp hnames).2.2 name hmem name List.mem_cons_self rfl
    have hrest := membersOf?_membersToTagged members (read ++ [(name, v.settled)])
      h.2 (by simpa using hnames)
    simp only [membersToTagged, membersOf?, ofTagged?_toTagged v h.1, Option.bind_eq_bind,
      Option.bind_some, insertMember_new hnew, hrest, settledMembers, List.append_assoc,
      List.singleton_append]

end

/-! ### Equality -/

/-- `lookup` passes over members of other names. -/
theorem lookup_after {before after : List (String × Value)} {name : String} {v : Value}
    (h : name ∉ before.map (·.1)) : (before ++ (name, v) :: after).lookup name = some v := by
  have hnone : before.lookup name = none := by
    rw [List.lookup_eq_none_iff]
    intro m hm
    simp only [bne_iff_ne, ne_eq]
    rintro rfl
    exact h (List.mem_map_of_mem hm)
  rw [List.lookup_append, hnone, Option.none_or, List.lookup_cons_self]

mutual

/-- `beq` does not see the signs of decimal zeros. -/
theorem beq_of_settled_eq : ∀ v w : Value, v.isExact = true → v.settled = w.settled → beq v w = true
  | .decimal a, w, _, h => by
    cases w <;> simp only [settled, decimal.injEq, reduceCtorEq] at h
    rw [beq, ← Decimal.sameNumber_settled, h, Decimal.sameNumber_self]
  | .array as, w, hv, h => by
    cases w <;> simp only [settled, array.injEq, reduceCtorEq] at h
    exact beqItems_of_settled_eq as _ hv h
  | .object as, w, hv, h => by
    cases w <;> simp only [settled, object.injEq, reduceCtorEq] at h
    rename_i bs
    rw [isExact, Bool.and_eq_true, decide_eq_true_eq] at hv
    -- Members are looked up by name, so it matters that names are not repeated.
    have hnames := congrArg (List.map (·.1)) h
    rw [map_fst_settledMembers, map_fst_settledMembers] at hnames
    have hlength : as.length = bs.length := by simpa using congrArg List.length hnames
    rw [beq, hlength, beq_self_eq_true, Bool.true_and]
    exact beqMembers_of_settled_eq as bs [] hv.1 h (hnames ▸ hv.2)
  | .float32 _, _, hv, _ => by simp [isExact] at hv
  | .float _, _, hv, _ => by simp [isExact] at hv
  | .point _ _, _, hv, _ => by simp [isExact] at hv
  | .null, w, _, h | .absent, w, _, h | .bool _, w, _, h | .int _, w, _, h | .uint _, w, _, h
  | .string _, w, _, h | .char _, w, _, h | .dateTime _, w, _, h | .guid _, w, _, h | .duration _,
    w, _, h
  | .regex _, w, _, h | .recordId _, w, _, h | .enum _, w, _, h => by
    cases w <;> simp_all [settled, beq]

theorem beqItems_of_settled_eq : ∀ as bs : List Value, itemsExact as = true →
    settledItems as = settledItems bs → beqItems as bs = true
  | [], bs, _, h => by cases bs <;> simp_all [settledItems, beqItems]
  | a :: as, [], _, h => by simp [settledItems] at h
  | a :: as, b :: bs, hv, h => by
    rw [itemsExact, Bool.and_eq_true] at hv
    rw [settledItems, settledItems, List.cons.injEq] at h
    rw [beqItems, beq_of_settled_eq a b hv.1 h.1, beqItems_of_settled_eq as bs hv.2 h.2]
    rfl

theorem beqMembers_of_settled_eq : ∀ as bs before : List (String × Value), membersExact as = true →
    settledMembers as = settledMembers bs → (before.map (·.1) ++ bs.map (·.1)).Nodup →
    beqMembers as (before ++ bs) = true
  | [], _, _, _, _, _ => rfl
  | (name, a) :: as, [], _, _, h, _ => by simp [settledMembers] at h
  | (name, a) :: as, (other, b) :: bs, before, hv, h, hnames => by
    rw [membersExact, Bool.and_eq_true] at hv
    rw [settledMembers, settledMembers, List.cons.injEq, Prod.mk.injEq] at h
    obtain ⟨⟨rfl, hab⟩, hrest⟩ := h
    have hnew : name ∉ before.map (·.1) := fun hmem =>
      (List.nodup_append.mp hnames).2.2 name hmem name List.mem_cons_self rfl
    have hothers := beqMembers_of_settled_eq as bs (before ++ [(name, b)])
      hv.2 hrest (by simpa using hnames)
    rw [List.append_assoc, List.singleton_append] at hothers
    rw [beqMembers, lookup_after hnew, hothers, Bool.and_true]
    exact beq_of_settled_eq a b hv.1 hab

end

mutual

theorem settled_settled : ∀ v : Value, v.settled.settled = v.settled
  | .decimal d => by simp [settled]
  | .array items => by simp [settled, settledItems_settledItems items]
  | .object members => by simp [settled, settledMembers_settledMembers members]
  | .null | .absent | .bool _ | .int _ | .uint _ | .float32 _ | .float _ | .string _ | .char
    _ | .dateTime _ | .guid _
  | .duration _ | .regex _ | .recordId _ | .enum _ | .point _ _ => rfl

theorem settledItems_settledItems : ∀ items : List Value,
    settledItems (settledItems items) = settledItems items
  | [] => rfl
  | v :: items => by simp [settledItems, settled_settled v, settledItems_settledItems items]

theorem settledMembers_settledMembers : ∀ members : List (String × Value),
    settledMembers (settledMembers members) = settledMembers members
  | [] => rfl
  | (name, v) :: members =>
    by simp [settledMembers, settled_settled v, settledMembers_settledMembers members]

end

/-! ### Exact JSON -/

theorem isExact_int64 (n : Int64) : (Json.int n.toInt).isExact = true := by
  have hlow : -9223372036854775808 ≤ n.toInt := n.le_toInt
  have hhigh : n.toInt ≤ 9223372036854775807 := Int.le_of_lt_add_one n.toInt_lt
  simp [Json.isExact]
  omega

theorem isExact_natural {n : Nat} (h : n < 18446744073709551616) : (Json.int n).isExact = true := by
  simp [Json.isExact]
  omega

theorem isExact_taggedOf (type : String) (content : Json) :
    (taggedOf type content).isExact = content.isExact := by
  simp [taggedOf, Json.isExact, Json.membersExact]

theorem isExact_duration (d : Duration) : d.toJson.isExact = true := by
  have hnanos : d.nanos.toNat < 18446744073709551616 := Nat.lt_trans d.nanos.toNat_lt (by decide)
  rw [Duration.toJson, Json.isExact, Json.membersExact, isExact_natural d.secs.toNat_lt,
    Json.membersExact, isExact_natural hnanos]
  rfl

theorem isExact_recordId (r : RecordId) : r.toJson.isExact = true := by
  obtain ⟨table, key⟩ := r
  cases key with
  | number n =>
    have hn := isExact_int64 n
    simpa [RecordId.toJson, Json.isExact, Json.membersExact] using hn
  | text s => rfl

mutual

theorem isExact_toTagged : ∀ v : Value, v.isExact = true → v.toTagged.isExact = true
  | .null, _ | .absent, _ | .bool _, _ | .decimal _, _ | .string _, _ | .char _, _ | .dateTime _,
    _ | .guid _, _
  | .regex _, _ | .enum _, _ => rfl
  | .int n, _ => by rw [toTagged, isExact_taggedOf, isExact_int64]
  | .uint n, _ => by rw [toTagged, isExact_taggedOf, isExact_natural n.toNat_lt]
  | .duration d, _ => by rw [toTagged, isExact_taggedOf, isExact_duration]
  | .recordId r, _ => by rw [toTagged, isExact_taggedOf, isExact_recordId]
  | .float32 _, h | .float _, h | .point _ _, h => by simp [isExact] at h
  | .array items, h => by
    rw [toTagged, isExact_taggedOf, Json.isExact, itemsExact_itemsToTagged items h]
  | .object members, h => by
    rw [isExact, Bool.and_eq_true] at h
    rw [toTagged, isExact_taggedOf, Json.isExact, membersExact_membersToTagged members h.1]

theorem itemsExact_itemsToTagged : ∀ items : List Value, itemsExact items = true →
    Json.itemsExact (itemsToTagged items) = true
  | [], _ => rfl
  | v :: items, h => by
    rw [itemsExact, Bool.and_eq_true] at h
    rw [itemsToTagged, Json.itemsExact, isExact_toTagged v h.1, itemsExact_itemsToTagged items h.2]
    rfl

theorem membersExact_membersToTagged : ∀ members : List (String × Value),
    membersExact members = true → Json.membersExact (membersToTagged members) = true
  | [], _ => rfl
  | (_, v) :: members, h => by
    rw [membersExact, Bool.and_eq_true] at h
    rw [membersToTagged, Json.membersExact, isExact_toTagged v h.1,
      membersExact_membersToTagged members h.2]
    rfl

end

end Value

end QueryTree
