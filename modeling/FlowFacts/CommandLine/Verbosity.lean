import FlowFacts.CommandLine.Arguments
import FlowFacts.CommandLine.LevelRequest
import FlowFacts.Log.Event

/-!
# How much is shown

The part of the log that a command shows.  The environment may ask for levels; the options
of the command count more.

## Main definitions

* `Verbosity.choose` — the levels shown, and a warning if the environment is not understood.
-/

namespace FlowFacts.CommandLine

/-- The variable of the environment that is asked. -/
def levelVariable : String := "RUST_LOG"

/-- How much is shown. -/
structure Verbosity where
  /-- The levels shown. -/
  threshold : Threshold
  /-- What is said about that. -/
  remarks : List LogLine := []
  deriving DecidableEq, Repr, Inhabited

/-- How much is shown, given the `arguments` of a command and the text in its `environment`. -/
def Verbosity.choose (arguments : Arguments) (environment : Option String) : Verbosity :=
  let requested := Threshold.requested? none (some arguments.verbosity) (some arguments.silent)
  match requestedLevels (environment.getD "info") with
  | .ok t => { threshold := requested.getD t }
  | .error problem =>
      { threshold := requested.getD (some .info)
        remarks := [{ level := .warn, message :=
          "Ignoring invalid `" ++ levelVariable ++ "`: " ++ problem.text }] }

end FlowFacts.CommandLine
