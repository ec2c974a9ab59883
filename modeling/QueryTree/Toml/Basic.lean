/-!
# TOML documents

A document is a table. Tables are opened by headers and by dotted keys, and no table may be opened
twice: each remembers how it came to be.
-/

namespace QueryTree.Toml

mutual

/-- What a key stands for. -/
inductive Item where
  | string (s : String)
  | boolean (b : Bool)
  | integer (n : Int)
  /-- A floating-point number, as it is written. -/
  | float (text : String)
  /-- A date, a time or both, as it is written. -/
  | dateTime (text : String)
  | array (items : List Item)
  /-- A table that is written in one place. -/
  | inline (t : Table)
  /-- A table that headers and dotted keys may add to. -/
  | table (t : Table)
  /-- Tables under headers of one name; the last one is open. -/
  | tables (ts : List Table)

/-- A table. -/
structure Table where
  /-- It has only been named on the way to another table or key. -/
  isImplicit : Bool
  /-- It has been named in a dotted key. -/
  isDotted : Bool
  entries : List (String × Item)

end

namespace Table

/-- A table without entries that has a header of its own. -/
def empty : Table := ⟨false, false, []⟩

/-- A table that is only named on the way. -/
def onTheWay (dotted : Bool) : Table := ⟨true, dotted, []⟩

def get? (t : Table) (key : String) : Option Item :=
  t.entries.lookup key

/-- The entries with `item` for `key`, which is put at the end if it is new. -/
def setEntry (key : String) (item : Item) : List (String × Item) → List (String × Item)
  | [] => [(key, item)]
  | (k, i) :: entries =>
    if k == key then (k, item) :: entries else (k, i) :: setEntry key item entries

def set (t : Table) (key : String) (item : Item) : Table :=
  { t with entries := setEntry key item t.entries }

/-- Changes the table that a path leads to. Missing tables on the way are added. Of tables under one
header, the last is meant. A dotted key must not lead into a table that has been opened otherwise.
-/
def modifyAt (dotted : Bool) (change : Table → Option Table) : List String → Table → Option Table
  | [], t => change t
  | key :: path, t =>
    match t.get? key with
    | none => do return t.set key (.table (← modifyAt dotted change path (onTheWay dotted)))
    | some (.table child) =>
      if dotted && !child.isImplicit then none
      else do return t.set key (.table (← modifyAt dotted change path child))
    | some (.tables ts) =>
      match ts.reverse with
      | [] => none
      | last :: others => do
        return t.set key (.tables (others.reverse ++ [← modifyAt dotted change path last]))
    | some _ => none

/-- Adds `key`, which must be new. -/
def insertNew (key : String) (item : Item) (t : Table) : Option Table :=
  if (t.get? key).isSome then none else some (t.set key item)

/-- Adds `key` under a dotted `path`. The table it goes to must have been named in dotted keys only,
or be `t` itself if there is no path. -/
def insertAt (path : List String) (key : String) (item : Item) (t : Table) : Option Table :=
  modifyAt (!path.isEmpty) (fun target =>
    if target.isDotted == path.isEmpty then none else insertNew key item target) path t

/-- Opens a table by its header. -/
def openTable (path : List String) (key : String) (t : Table) : Option Table :=
  modifyAt false (fun parent =>
    match parent.get? key with
    | none => some (parent.set key (.table empty))
    | some (.table child) =>
      if child.isImplicit && !child.isDotted then
        some (parent.set key (.table { child with isImplicit := false }))
      else none
    | some _ => none) path t

/-- Opens one more table under a header. -/
def openNext (path : List String) (key : String) (t : Table) : Option Table :=
  modifyAt false (fun parent =>
    match parent.get? key with
    | none => some (parent.set key (.tables [empty]))
    | some (.tables ts) => some (parent.set key (.tables (ts ++ [empty])))
    | some _ => none) path t

end Table

/-- A line of a document that says something. The last key of a path stands by itself. -/
inductive Line where
  | entry (path : List String) (key : String) (item : Item)
  | header (path : List String) (key : String)
  | nextHeader (path : List String) (key : String)

/-- A document that is being read: what it holds, and where the next entries go. -/
structure Document where
  root : Table
  current : List String

namespace Document

/-- Takes in a line. -/
def add (d : Document) : Line → Option Document
  | .entry path key item => do
    return { d with root := ← d.root.modifyAt false (Table.insertAt path key item) d.current }
  | .header path key => do return ⟨← d.root.openTable path key, path ++ [key]⟩
  | .nextHeader path key => do return ⟨← d.root.openNext path key, path ++ [key]⟩

/-- The document with these `lines`. -/
def ofLines? (lines : List Line) : Option Document :=
  lines.foldlM add ⟨Table.empty, []⟩

end Document

/-- A table that is written in one place, from its entries. -/
def Table.ofPairs? (pairs : List (List String × String × Item)) : Option Table :=
  pairs.foldlM (fun t (path, key, item) => Table.insertAt path key item t) Table.empty

end QueryTree.Toml
