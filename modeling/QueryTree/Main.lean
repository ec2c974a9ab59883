import QueryTree.CommandLine.Run

/-!
# The program

The files, the environment and the standard input of the system as the surroundings of a run.
-/

namespace QueryTree.CommandLine

/-- The value of `action`, or `none` if it fails. -/
def attempt {α : Type} (action : IO α) : IO (Option α) := do
  try return some (← action)
  catch _ => return none

/-- The directory in which a person keeps configurations. -/
def personalConfigDir : IO (Option String) := do
  match ← IO.getEnv "XDG_CONFIG_HOME" with
  | some dir => if dir.startsWith "/" then return some dir
  | none => pure ()
  match ← IO.getEnv "HOME" with
  | some home => if home.isEmpty then return none else return some (home ++ "/.config")
  | none => return none

def readStandardInput : IO (Option String) := do
  match ← attempt (do (← IO.getStdin).readBinToEnd) with
  | some bytes => return String.fromUTF8? bytes
  | none => return none

/-- The surroundings of the program. -/
def systemHost : Host IO where
  configDir := personalConfigDir
  isPresent path := return (← attempt (IO.FS.realPath path)).isSome
  fileText path := attempt (IO.FS.readFile path)
  inputText := readStandardInput

/-- What is written next to the output of a run. -/
def Outcome.notice (o : Outcome) : Option String :=
  match o with
  | .usage => some (usageLine ++ "\n\nFor more information, try '--help'.")
  | o => o.report.map ("Error: " ++ ·)

end QueryTree.CommandLine

open QueryTree.CommandLine in
/-- Runs the program. -/
def main (args : List String) : IO UInt32 := do
  let outcome ← run systemHost args
  IO.print outcome.output
  match outcome.notice with
  | some notice => IO.eprintln notice
  | none => pure ()
  return outcome.code.toUInt32
