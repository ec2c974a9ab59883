import QueryTree.Options
import QueryTree.Value.Basic

/-!
# Parameters of a query

Captured values and record ids do not stand in the text of a query; the text names them, and a table
says what the names stand for. Names are given out in the order in which values arrive, an equal
value under the same name shares it, and no entry is ever changed.
-/

namespace QueryTree

/-- The first of `start`, `start + 1`, … that passes the test, or the one after `fuel` of them have
failed. -/
def firstFrom (test : Nat → Bool) : (fuel start : Nat) → Nat
  | 0, start => start
  | fuel + 1, start => if test start then start else firstFrom test fuel (start + 1)

/-- The table of parameters. -/
structure Params where
  options : Options
  /-- Names and what they stand for, in the order they were given out. -/
  entries : List (String × Value)
  /-- The number the next record id is tried with. -/
  recordIds : Nat

namespace Params

def empty (o : Options) : Params := ⟨o, [], 0⟩

def get? (p : Params) (name : String) : Option Value :=
  p.entries.lookup name

def contains (p : Params) (name : String) : Bool :=
  (p.get? name).isSome

/-- `name` as a word: every other character becomes an underscore. -/
def clean (name : String) : String :=
  if name.isEmpty then "value"
  else String.ofList (name.toList.map fun c => if Text.isWordChar c then c else '_')

/-- The name that the variable `requested` would like to have. -/
def baseName (p : Params) (requested : String) : String :=
  let base := clean requested
  if p.options.isReserved base then p.options.reservedMark ++ base else base

/-- The names tried for a captured variable: the first is `base`. -/
def candidate (base : String) : Nat → String
  | 0 => base
  | n + 1 => base ++ Nat.repr (n + 1)

/-- Whether `name` stands for nothing yet, or for a value equal to `v`. -/
def accepts (p : Params) (v : Value) (name : String) : Bool :=
  match p.get? name with
  | none => true
  | some existing => existing == v

def append (p : Params) (name : String) (v : Value) : Params :=
  { p with entries := p.entries ++ [(name, v)] }

/-- The first `candidate` that `accepts` the value. There are more candidates than entries, so there
is one. -/
def nameFor (p : Params) (requested : String) (v : Value) : String :=
  let base := p.baseName requested
  candidate base (firstFrom (fun n => p.accepts v (candidate base n)) p.entries.length 0)

/-- Gives the captured value `v` a name. -/
def named (p : Params) (requested : String) (v : Value) : String × Params :=
  let name := p.nameFor requested v
  (name, if p.contains name then p else p.append name v)

/-- The name of the record id with the number `n`. -/
def recordIdName (p : Params) (n : Nat) : String :=
  p.options.recordIdMark ++ Nat.repr n

/-- Gives a record id a name of its own: the first free number from `recordIds` on. -/
def recordId (p : Params) (v : Value) : String × Params :=
  let n := firstFrom (fun n => !p.contains (p.recordIdName n)) p.entries.length p.recordIds
  let name := p.recordIdName n
  (name, { p.append name v with recordIds := n + 1 })

end Params

end QueryTree
