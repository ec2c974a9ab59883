import QueryTree.Text.Basic

/-!
# Options

How the parameters of a query are named.
-/

namespace QueryTree

/-- How the parameters of a query are named. -/
structure Options where
  /-- Names that the query language keeps for itself. -/
  reservedParameters : List String
  /-- What is put before a captured variable that has such a name. -/
  reservedMark : String
  /-- What the names of record ids begin with; a number follows. -/
  recordIdMark : String
deriving DecidableEq, Repr

namespace Options

/-- The names that the query language keeps for itself. -/
def standardReserved : List String :=
  ["access", "after", "auth", "before", "event", "input", "parent", "scope", "session",
    "this", "token",
   "value"]

/-- The options used when none are given. -/
def standard : Options := ⟨standardReserved, "_", "_rid"⟩

instance : Inhabited Options := ⟨standard⟩

/-- Whether `name` is reserved, in whatever case it is written. -/
def isReserved (o : Options) (name : String) : Bool :=
  o.reservedParameters.any (Text.equalIgnoringCase · name)

end Options

end QueryTree
