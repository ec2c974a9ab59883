import QueryTree.Text.Basic

/-!
# Arguments of the command line

Arguments are read from left to right. The first one that is wrong, or that asks for help or the
version, decides.
-/

namespace QueryTree.CommandLine

/-- What is asked for: which tree to compile, and how. -/
structure Invocation where
  /-- The file with the tree. -/
  tree : Option String
  /-- The file with the configuration. -/
  config : Option String
  /-- The parameters are wanted too. -/
  params : Bool
  logLevel : Option String
  /-- Only the configuration is wanted. -/
  printConfig : Bool
deriving DecidableEq, Repr

/-- Nothing in particular is asked for. -/
def Invocation.plain : Invocation := ⟨none, none, false, none, false⟩

/-- What the arguments ask for. -/
inductive Request where
  | compile (i : Invocation)
  | help
  | version
deriving DecidableEq, Repr

/-- The options that need a value. -/
inductive ValueOption where
  | config
  | logLevel
deriving DecidableEq, Repr

/-- An argument by itself. -/
inductive Argument where
  /-- The end of the options. -/
  | endOfOptions
  /-- An option that needs a value, which `attached` is if it is written into the argument. -/
  | option (o : ValueOption) (attached : Option String)
  | params
  | printConfig
  | help
  | version
  | positional (s : String)
  /-- No option, or an option that takes no value with one. -/
  | unknown
deriving DecidableEq, Repr

/-- Splits the characters of an option from the value after `=`. -/
def splitValue (cs : List Char) : String × Option String :=
  match cs.dropWhile (· != '=') with
  | [] => (String.ofList cs, none)
  | _ :: value => (String.ofList (cs.takeWhile (· != '=')), some (String.ofList value))

/-- An option with two hyphens, which `cs` is without. -/
def longOption (cs : List Char) : Argument :=
  match splitValue cs with
  | ("config", value) => .option .config value
  | ("log-level", value) => .option .logLevel value
  | ("params", none) => .params
  | ("print-config", none) => .printConfig
  | ("help", none) => .help
  | ("version", none) => .version
  | _ => .unknown

/-- What `s` is. A hyphen by itself is no option, and of several letters after one hyphen the first
decides. -/
def Argument.ofString (s : String) : Argument :=
  match s.toList with
  | ['-', '-'] => .endOfOptions
  | '-' :: '-' :: cs => longOption cs
  | '-' :: 'h' :: _ => .help
  | '-' :: 'V' :: _ => .version
  | '-' :: _ :: _ => .unknown
  | _ => .positional s

namespace Invocation

/-- Sets an option that `i` does not have yet. Files have names that are not empty. -/
def setOption? (i : Invocation) : ValueOption → String → Option Invocation
  | .config, s => if i.config.isSome || s.isEmpty then none else some { i with config := some s }
  | .logLevel, s => if i.logLevel.isSome then none else some { i with logLevel := some s }

def setTree? (i : Invocation) (s : String) : Option Invocation :=
  if i.tree.isSome || s.isEmpty then none else some { i with tree := some s }

/-- Asks for the parameters, which `i` must not do yet. -/
def setParams? (i : Invocation) : Option Invocation :=
  if i.params then none else some { i with params := true }

/-- Asks for the configuration, which `i` must not do yet. -/
def setPrintConfig? (i : Invocation) : Option Invocation :=
  if i.printConfig then none else some { i with printConfig := true }

/-- Takes in arguments none of which is an option. -/
def readPositional? : Invocation → List String → Option Request
  | i, [] => some (.compile i)
  | i, s :: args => do readPositional? (← i.setTree? s) args

/-- Takes in arguments; `pending` is an option that waits for its value. -/
def read? : Invocation → (pending : Option ValueOption) → List String → Option Request
  | i, none, [] => some (.compile i)
  | _, some _, [] => none
  | i, some o, s :: args =>
    match Argument.ofString s with
    | .positional s => do read? (← i.setOption? o s) none args
    | _ => none
  | i, none, s :: args =>
    match Argument.ofString s with
    | .endOfOptions => readPositional? i args
    | .option o none => read? i (some o) args
    | .option o (some value) => do read? (← i.setOption? o value) none args
    | .params => do read? (← i.setParams?) none args
    | .printConfig => do read? (← i.setPrintConfig?) none args
    | .help => some .help
    | .version => some .version
    | .positional s => do read? (← i.setTree? s) none args
    | .unknown => none

end Invocation

/-- What `args` ask for, if they are right. -/
def Request.ofArguments? (args : List String) : Option Request :=
  Invocation.plain.read? none args

end QueryTree.CommandLine
