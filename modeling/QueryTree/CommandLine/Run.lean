import QueryTree.CommandLine.Arguments
import QueryTree.Compile
import QueryTree.Config
import QueryTree.Expr.Json
import QueryTree.Json.Printer
import QueryTree.Json.Reader
import QueryTree.Text.Quoted

/-!
# The command line

The configuration is read first, then the log level is checked, then the configuration is printed if
that is what is wanted, and the tree is read and compiled last. The first step that fails ends it.
-/

namespace QueryTree.CommandLine

/-- What the command line needs of its surroundings. What cannot be read is `none`. -/
structure Host (m : Type → Type) where
  /-- The directory in which a person keeps configurations. -/
  configDir : m (Option String)
  isPresent : String → m Bool
  fileText : String → m (Option String)
  inputText : m (Option String)

/-- Why there is no result. -/
inductive Failure where
  | noConfigDir
  | unreadableConfig (path : String)
  | malformedConfig (path : String)
  | unknownLogLevel (level : String)
  | unreadableTree (path : String)
  | unreadableInput
  | malformedTree
  | refused (e : Error)
deriving DecidableEq

/-- The wording of a `Failure`. -/
def Failure.message : Failure → String
  | noConfigDir => "Could not determine config directory"
  | unreadableConfig path => "Failed to read config file " ++ path
  | malformedConfig path => "Malformed config file " ++ path
  | unknownLogLevel level => "Unknown log level " ++ Text.quoted level
  | unreadableTree path => "Failed to read expression tree " ++ path
  | unreadableInput => "Failed to read stdin"
  | malformedTree => "Malformed expression tree"
  | refused e => e.message

/-- How a run ends. -/
inductive Outcome where
  | success (output : String)
  | failure (reason : Failure)
  /-- The arguments are wrong. -/
  | usage
deriving DecidableEq

/-- The exit code of a run. A `dateOverflow` ends a run at once. -/
def Outcome.code : Outcome → Nat
  | success _ => 0
  | failure (.refused .dateOverflow) => 101
  | failure _ => 1
  | usage => 2

/-- What a run prints. -/
def Outcome.output : Outcome → String
  | success output => output
  | _ => ""

/-- What a run reports about its failure. -/
def Outcome.report : Outcome → Option String
  | failure (.refused .dateOverflow) => none
  | failure reason => some reason.message
  | _ => none

/-! ## Texts -/

def programName : String := "surql-linq"

def usageLine : String := "Usage: " ++ programName ++ " [OPTIONS] [TREE]"

/-- How the program is used, line by line. -/
def helpLines : List String :=
  ["Compile LINQ-style expression trees into SurrealQL queries",
   "",
   usageLine,
   "",
   "Arguments:",
   "  [TREE]  Path to the expression tree (JSON); `-` reads stdin",
   "",
   "Options:",
   "      --config <CONFIG>        Configuration file (defaults to " ++
     "<config dir>/surql-linq/config.toml)",
   "      --params                 Also print the parameter table as JSON",
   "      --log-level <LOG_LEVEL>  Log level written to stderr (error, warn, info, debug, trace)",
   "      --print-config           Print the effective configuration as TOML and exit",
   "  -h, --help                   Print help",
   "  -V, --version                Print version"]

def helpText : String :=
  String.join (helpLines.map (· ++ "\n"))

/-- The name and number of the program. -/
def versionText : String := programName ++ " 0.1.0\n"

/-! ## Log levels -/

def logLevels : List String := ["error", "warn", "info", "debug", "trace"]

/-- The log level that is used when none is given. -/
def standardLogLevel : String := "warn"

/-- Digits without the plus that may stand before them. -/
def dropPlus : List Char → List Char
  | '+' :: cs => cs
  | cs => cs

/-- Whether a text is a log level: a name in any case, or a number from one to five. -/
def isLogLevel (s : String) : Bool :=
  (Text.natural? (dropPlus s.toList)).any (fun n => decide (1 ≤ n ∧ n ≤ logLevels.length)) ||
    logLevels.any (Text.equalIgnoringCase · s)

/-! ## Running -/

section

variable {m : Type → Type} [Monad m]

/-- Where the configuration is kept in `dir` if nothing else is said. -/
def standardConfigFile (dir : String) : String :=
  dir ++ "/" ++ programName ++ "/config.toml"

def readConfig (host : Host m) (path : String) : ExceptT Failure m Config := do
  match ← host.fileText path with
  | none => throw (.unreadableConfig path)
  | some s =>
    match Config.read? s with
    | none => throw (.malformedConfig path)
    | some c => return c

/-- The configuration of the file that `i` names, or of the usual one if there is one. -/
def configOf (host : Host m) (i : Invocation) : ExceptT Failure m Config := do
  match i.config with
  | some path => readConfig host path
  | none =>
    match ← host.configDir with
    | none => throw .noConfigDir
    | some dir =>
      if ← host.isPresent (standardConfigFile dir) then readConfig host (standardConfigFile dir)
      else return .standard

/-- The text of the file that `i` names, or of the input if it names none or a hyphen. -/
def treeText (host : Host m) (i : Invocation) : ExceptT Failure m String := do
  match i.tree.filter (· != "-") with
  | some path =>
    match ← host.fileText path with
    | none => throw (.unreadableTree path)
    | some s => return s
  | none =>
    match ← host.inputText with
    | none => throw .unreadableInput
    | some s => return s

/-- The log level that `i` asks for, else that of `c`, else `standardLogLevel`. -/
def logLevelOf (i : Invocation) (c : Config) : String :=
  (i.logLevel <|> c.logLevel).getD standardLogLevel

def queryOutput (params : Bool) (q : CompiledQuery) : String :=
  q.text ++ "\n" ++ if params then q.parametersJson.sorted.pretty ++ "\n" else ""

/-- Compiles the tree that `s` holds, and gives what is printed. -/
def compileText (o : Options) (params : Bool) (s : String) : Except Failure String :=
  match (Json.readDocument? s).bind Expr.ofJson? with
  | none => .error .malformedTree
  | some e =>
    match e.compile o with
    | .error cause => .error (.refused cause)
    | .ok q => .ok (queryOutput params q)

/-- What `i` prints. -/
def Invocation.run (host : Host m) (i : Invocation) : ExceptT Failure m String := do
  let config ← configOf host i
  let level := logLevelOf i config
  if !isLogLevel level then throw (.unknownLogLevel level)
  if i.printConfig then return config.text
  ExceptT.mk (pure (compileText config.compiler i.params (← treeText host i)))

/-- Runs the program with `args`. -/
def run (host : Host m) (args : List String) : m Outcome := do
  match Request.ofArguments? args with
  | none => return .usage
  | some .help => return .success helpText
  | some .version => return .success versionText
  | some (.compile i) =>
    match ← (i.run host).run with
    | .ok output => return .success output
    | .error reason => return .failure reason

end

end QueryTree.CommandLine
