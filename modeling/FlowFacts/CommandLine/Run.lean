import FlowFacts.Check.Report
import FlowFacts.CommandLine.Verbosity
import FlowFacts.Settings.Options
import FlowFacts.Source.Load
import FlowFacts.Text

/-!
# Running the command

What the command does with a file: find the settings, load the program, analyse its
functions and report.

## Main definitions

* `Failure` — why a run failed.
* `run` — the log of a run.
* `Outcome`, `execute` — what the words of a command lead to.
-/

namespace FlowFacts.CommandLine

/-- Why a run failed. -/
inductive Failure where
  /-- An error, and what it was caused by. -/
  | error (text : String) (cause : Option String)
  /-- The message about an error cannot be written. -/
  | aborted (text : String)
  deriving DecidableEq, Repr, Inhabited

namespace Failure

/-- The message about an error; the lines of its cause are indented. -/
def message : Failure → String
  | error text none => "Error: " ++ text
  | error text (some cause) =>
      "Error: " ++ text ++ "\n\nCaused by:\n    " ++
        String.intercalate "\n    " (cause.splitOn "\n")
  | aborted text => text

/-- The status that a run ends with. -/
def status : Failure → Nat
  | error .. => 1
  | aborted _ => 101

/-- What is written to the log about a failure. -/
def lines (f : Failure) : List LogLine :=
  match f with
  | error .. => [{ level := .error, message := f.message }]
  | aborted _ => []

/-- What is written apart from the log about a failure. -/
def complaint : Failure → String
  | error .. => ""
  | aborted text => text ++ "\n"

end Failure

/-- Steps of a run: they write a log. -/
abbrev RunM := ExceptT Failure (StateM (List LogLine))

/-- Write the line `l`. -/
def write (l : LogLine) : RunM Unit := modify (· ++ [l])

/-- Write `message` as a line of ordinary output. -/
def say (message : String) : RunM Unit := write { level := .info, message }

/-- Read settings by `m`, writing what is reported on the way. -/
def trySettings (m : SettingsM Settings) : RunM (Except SettingsError Settings) := do
  let (result, lines) := m.run.run []
  lines.forM write
  return result

/-- The settings of a run: those of the file that was given, else those of the file beside
the one to analyse, if there is one. -/
def findSettings (files : Files) (arguments : Arguments) : RunM Settings := do
  match arguments.config with
  | some path =>
      match ← trySettings (Settings.ofFile files path) with
      | .ok settings => return settings
      | .error e => throw (.error e.message none)
  | none =>
      let dir := (parentPath? arguments.file).getD "."
      match ← trySettings (Settings.ofDirectory files dir) with
      | .ok settings =>
          say ("Using " ++ joinPath dir settingsFileName)
          return settings
      | .error (.notFound _) => return {}
      | .error e => throw (.error e.message none)

/-- The program in the file at `path`. -/
def loadProgram (files : Files) (path : String) : RunM Program :=
  match files path with
  | .error problem => throw (.error ("failed to read " ++ path) (some problem.text))
  | .ok content =>
      match Source.load content with
      | .error (.fault fault) => throw (.error ("failed to load " ++ path) (some fault.message))
      | .error .splitCharacter => throw (.aborted "a character stands across the end of an excerpt")
      | .ok p => return p

/-- Report on a function. -/
def writeReport (r : FunctionReport) : RunM Unit :=
  let text := trimEnd r.text
  if r.isFailure then write (.coloured .error .red text) else say text

/-- Analyse those `functions` of a module that have a body, and report: first all that happened
on the way, then what was found. -/
def examineModule (p : Program) (settings : Settings) (shown : Threshold)
    (functions : List FunctionId) : RunM (List FunctionReport) := do
  let checks : CheckModel := { strict := settings.strict }
  let bodies := functions.filter fun f => !(p.function f).isDeclaration
  let reports ← bodies.mapM fun f => do
    let task := checks.model.task p f settings.visitLimit
    let x := task.examine
    (task.log x shown).forM write
    return x.report
  reports.forM writeReport
  return reports

/-- Run the command.  Of the log of the analysis only the part that is `shown` is written. -/
def run (files : Files) (arguments : Arguments) (shown : Threshold) : RunM Unit := do
  let found ← findSettings files arguments
  let settings := { found with strict := arguments.strict || found.strict }
  let p ← loadProgram files arguments.file
  if arguments.printProgram then say p.listing
  let reports ← p.modules.toList.mapM (examineModule p settings shown)
  let total := reports.flatten.length
  let failed := (reports.flatten.filter FunctionReport.isFailure).length
  if failed ≠ 0 then
    throw (.error
      (toString failed ++ " of " ++ toString total ++ " function(s) could not be analyzed.") none)
  else if total = 0 then
    write (.coloured .info .yellow "No functions with a body to analyze.")
  else
    write (.coloured .info .green ("Analyzed " ++ toString total ++ " function(s)."))

/-! ### From words to output -/

/-- What the words of a command lead to. -/
inductive Outcome where
  /-- The words mean nothing. -/
  | misuse
  /-- The command ends with a status, having written something. -/
  | finished (status : Nat) (output : Output)
  deriving DecidableEq, Repr, Inhabited

/-- The version of the command. -/
def versionText : String := "assertflow 0.1.0\n"

/-- How the command is used. -/
def usageText : String :=
  "Propagate the conditions of fatal-assertion calls through a procedure's CFG.\n\n" ++
  "Usage: assertflow [OPTIONS] <FILE>\n\n" ++
  "Arguments:\n  <FILE>  Path to the textual IR file to analyze\n\n" ++
  "Options:\n" ++
  "      --config <CONFIG>  Path to the config file\n" ++
  "      --strict           Warn about calls which don't fit their argument convention\n" ++
  "      --print-ir         Print the parsed IR before analyzing it\n" ++
  "  -v, --verbose...       Use verbose output, `-vv` for the per-instruction trace\n" ++
  "      --silent           Silence all output\n" ++
  "  -h, --help             Print help\n" ++
  "  -V, --version          Print version\n"

/-- The part of the log `lines` that is `shown`. -/
def display (shown : Threshold) (lines : List LogLine) : Output :=
  .ofLines (lines.filter fun l => shown.shows l.level)

/-- Run the command and show the log. -/
def analyse (files : Files) (environment : Option String) (arguments : Arguments) : Outcome :=
  let verbosity := Verbosity.choose arguments environment
  let shown := verbosity.threshold
  match (run files arguments shown).run.run verbosity.remarks with
  | (.ok (), lines) => .finished 0 (display shown lines)
  | (.error f, lines) =>
      let output := display shown (lines ++ f.lines)
      .finished f.status { output with err := output.err ++ f.complaint }

/-- What the `words` of a command lead to, given the `files` that it can read and the text in its
`environment`. -/
def execute (files : Files) (environment : Option String) (words : List String) : Outcome :=
  match Request.ofWords words with
  | .misuse => .misuse
  | .version => .finished 0 { out := versionText, err := "" }
  | .help => .finished 0 { out := usageText, err := "" }
  | .analyse arguments => analyse files environment arguments

/-- The files that a command with the given `words` may read. -/
def pathsOf (words : List String) : List String :=
  match Request.ofWords words with
  | .analyse arguments =>
      let beside := joinPath ((parentPath? arguments.file).getD ".") settingsFileName
      [arguments.config.getD beside, arguments.file]
  | _ => []

end FlowFacts.CommandLine
