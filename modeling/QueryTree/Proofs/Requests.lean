import QueryTree.Proofs.Table

/-!
# Requests to the table of parameters

Captured values and record ids ask one table for names, in any order. Different names can become the
same word, and a value need not be equal to itself. Whatever is asked for, the names stay apart, an
answer stands for the value that was asked about, and entries stay as they are.
-/

namespace QueryTree.Params

/-- What a table can be asked for. -/
inductive Request where
  /-- A name for a captured value, at best the one that is asked for. -/
  | named (requested : String) (v : Value)
  /-- A name for a record id. -/
  | recordId (v : Value)

/-- The value that asks for a name. -/
def Request.value : Request → Value
  | .named _ v => v
  | .recordId v => v

/-- The name a `Request` gets, and the table after it. -/
def answer (p : Params) : Request → String × Params
  | .named requested v => p.named requested v
  | .recordId v => p.recordId v

/-- The table after the requests `rs`, one after the other. -/
def afterAll (p : Params) (rs : List Request) : Params :=
  rs.foldl (fun p r => (p.answer r).2) p

/-- What a request may do to a table with names that are all different. -/
structure Answered (p : Params) (r : Request) (name : String) (q : Params) : Prop where
  /-- Names are still all different. -/
  nodup : q.names.Nodup
  /-- `name` stands for the value, or for one that is equal to it. -/
  bound : ∃ w, q.get? name = some w ∧ (w == r.value ∨ w = r.value)
  /-- All entries are where they were, with the values they had. -/
  kept : q.Extends p
  /-- A record id gets an entry of its own. -/
  recordId : ∀ v, r = .recordId v → name ∉ p.names ∧ q.entries = p.entries ++ [(name, v)]

variable {p : Params} {name : String}

/-! ## One request -/

theorem nodup_named (h : p.names.Nodup) (requested : String) (v : Value) :
    (p.named requested v).2.names.Nodup := by
  unfold named
  dsimp only
  split
  case isTrue => exact h
  case isFalse hnew => exact nodup_append h (mt contains_iff.mpr hnew) v

theorem get?_recordId (p : Params) (v : Value) : (p.recordId v).2.get? (p.recordId v).1 = some v :=
  get?_append (p.recordId_fresh v)

theorem answered (h : p.names.Nodup) (r : Request) :
    Answered p r (p.answer r).1 (p.answer r).2 := by
  cases r with
  | named requested v =>
    exact {
      nodup := nodup_named h requested v
      bound := p.get?_named requested v
      kept := p.extends_named requested v
      recordId := by
        intro _ hr
        cases hr }
  | recordId v =>
    exact {
      nodup := nodup_append h (p.recordId_fresh v) v
      bound := ⟨v, p.get?_recordId v, .inr rfl⟩
      kept := p.extends_recordId v
      recordId := by
        intro w hw
        cases hw
        exact ⟨p.recordId_fresh v, rfl⟩ }

/-! ## Many requests -/

theorem nodup_empty (o : Options) : (empty o).names.Nodup := List.nodup_nil

theorem nodup_afterAll (h : p.names.Nodup) (rs : List Request) : (p.afterAll rs).names.Nodup := by
  induction rs generalizing p with
  | nil => exact h
  | cons r rs ih => exact ih (answered h r).nodup

theorem extends_afterAll (h : p.names.Nodup) (rs : List Request) : (p.afterAll rs).Extends p := by
  induction rs generalizing p with
  | nil => exact .refl p
  | cons r rs ih =>
    have hstep := answered h r
    exact (ih hstep.nodup).trans hstep.kept

/-- Take any request of a run that begins with no entries: `p` is the table before it, `q` the one
after it and `last` the one at the end. The names of each are different from each other, the request
does to `p` only what it may do, and at the end all entries are still there and the answer stands
for what it stood for. -/
theorem requests_keep_entries (o : Options) (before : List Request) (r : Request)
    (later : List Request) :
    let p := (empty o).afterAll before
    let name := (p.answer r).1
    let q := (p.answer r).2
    let last := (empty o).afterAll (before ++ r :: later)
    p.names.Nodup ∧ Answered p r name q ∧ last.names.Nodup ∧ last.Extends q ∧
      ∃ w, last.get? name = some w ∧ (w == r.value ∨ w = r.value) := by
  intro p name q last
  have hp : p.names.Nodup := nodup_afterAll (nodup_empty o) before
  have hq : Answered p r name q := answered hp r
  have hlast : last = q.afterAll later := by
    show (empty o).afterAll (before ++ r :: later) = _
    rw [afterAll, List.foldl_append]
    rfl
  have hkept : last.Extends q := hlast ▸ extends_afterAll hq.nodup later
  obtain ⟨w, hw, hequal⟩ := hq.bound
  exact ⟨hp, hq, hlast ▸ nodup_afterAll hq.nodup later, hkept, w, hkept.get? hw, hequal⟩

end QueryTree.Params
