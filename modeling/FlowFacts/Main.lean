import FlowFacts.CommandLine.Run

/-!
# The command

Reads the files that a command may need, runs it, and writes what it has to say.

## Main definitions

* `main` — the command.
-/

namespace FlowFacts.CommandLine

/-- Whether a code reported by the system is that of an error; some calls negate it. -/
def isCode (code number : UInt32) : Bool := code == number || code == 0 - number

/-- The problem that an attempt to read a file met. -/
def problemOf : IO.Error → FileProblem
  | .noFileOrDirectory .. => .missing
  | .inappropriateType _ code details =>
      if isCode code 20 then .notDirectory
      else if isCode code 21 then .isDirectory
      else .other details
  | .invalidArgument _ code details =>
      if isCode code 36 then .tooLong else .other details
  | e => .other (toString e)

/-- Read a file. -/
def readPath (path : String) : IO (Except FileProblem String) := do
  try
    return .ok (← IO.FS.readFile path)
  catch e =>
    return .error (problemOf e)

/-- The files at some paths. -/
def readPaths (paths : List String) : IO Files := do
  let found ← paths.mapM fun path => do return (path, ← readPath path)
  return fun path => (found.lookup path).getD (.error .missing)

end FlowFacts.CommandLine

open FlowFacts.CommandLine

/-- Analyse a program and report what is known at its annotations. -/
def main (words : List String) : IO UInt32 := do
  let files ← readPaths (pathsOf words)
  let environment ← IO.getEnv levelVariable
  match execute files environment words with
  | .misuse =>
      (← IO.getStderr).putStr usageText
      return 2
  | .finished status output =>
      (← IO.getStdout).putStr output.out
      (← IO.getStderr).putStr output.err
      return UInt32.ofNat status
