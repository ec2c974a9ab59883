import QueryTree.Options
import QueryTree.Toml.Printer
import QueryTree.Toml.Reader

/-!
# Configuration

A configuration is a TOML document with a log level and a table of options for compiling. Keys of
other names are passed over, and options that are missing keep their standard value.
-/

namespace QueryTree

/-- A configuration. -/
structure Config where
  logLevel : Option String
  compiler : Options
deriving DecidableEq, Repr

namespace Config

open Toml (Item Table)

/-- The configuration used when there is none. -/
def standard : Config := ⟨none, .standard⟩

/-! ## Reading -/

/-- An item that is text. -/
def string? : Item → Option String
  | .string s => some s
  | _ => none

/-- An item that is an array of texts. -/
def strings? : Item → Option (List String)
  | .array items => items.mapM string?
  | _ => none

/-- `read` of an item, or `standard` if it is missing. -/
def orStandard {α : Type} (read : Item → Option α) (standard : α) : Option Item → Option α
  | none => some standard
  | some item => read item

/-- `Options` from their items, each of which may be missing. -/
def optionsOf? (reserved mark recordMark : Option Item) : Option Options := do
  return ⟨← orStandard strings? Options.standard.reservedParameters reserved,
    ← orStandard string? Options.standard.reservedMark mark,
    ← orStandard string? Options.standard.recordIdMark recordMark⟩

/-- Options from a table. -/
def optionsOfTable? (t : Table) : Option Options :=
  optionsOf? (t.get? "reserved_parameters") (t.get? "reserved_prefix") (t.get? "record_id_prefix")

/-- `Options` from a table, or from an array that holds them in order. A date is a table of other
keys. -/
def options? : Item → Option Options
  | .table t | .inline t => optionsOfTable? t
  | .array items => optionsOf? items[0]? items[1]? items[2]?
  | .dateTime _ => some .standard
  | _ => none

def read? (s : String) : Option Config := do
  let t ← Toml.read? s
  let logLevel ← match t.get? "log_level" with
    | none => some none
    | some item => (string? item).map some
  return ⟨logLevel, ← orStandard options? .standard (t.get? "compiler")⟩

/-! ## Writing -/

def text (c : Config) : String :=
  (match c.logLevel with
    | some level => "log_level = " ++ Toml.stringText level ++ "\n\n"
    | none => "") ++
  "[compiler]\nreserved_parameters = " ++ Toml.stringsText c.compiler.reservedParameters ++
  "\nreserved_prefix = " ++ Toml.stringText c.compiler.reservedMark ++
  "\nrecord_id_prefix = " ++ Toml.stringText c.compiler.recordIdMark ++ "\n"

end Config

end QueryTree
