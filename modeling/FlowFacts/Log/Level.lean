/-!
# Levels of a log

How much a log line matters, and how much of a log is shown.

## Main definitions

* `Level` — the levels, the gravest first.
* `Threshold` — the levels that are shown.
* `Threshold.requested?` — the threshold that the options of a command ask for.
-/

namespace FlowFacts

/-- How much a log line matters. -/
inductive Level where
  /-- Something failed. -/
  | error
  /-- Something looks wrong. -/
  | warn
  /-- The ordinary output. -/
  | info
  /-- What the analysis does. -/
  | debug
  /-- What the analysis does, step by step. -/
  | trace
  deriving DecidableEq, Repr, Inhabited

namespace Level

/-- The name of a level, as written in front of a log line. -/
def name : Level → String
  | error => "ERROR"
  | warn => "WARN"
  | info => "INFO"
  | debug => "DEBUG"
  | trace => "TRACE"

/-- The number of a level; larger numbers matter less. -/
def rank : Level → Nat
  | error => 1
  | warn => 2
  | info => 3
  | debug => 4
  | trace => 5

/-- The level with a number. -/
def ofRank? : Nat → Option Level
  | 1 => some error
  | 2 => some warn
  | 3 => some info
  | 4 => some debug
  | 5 => some trace
  | _ => none

/-- Errors and warnings are kept apart from the other output. -/
def isAlarm (l : Level) : Bool := l.rank ≤ Level.warn.rank

end Level

/-- The levels that are shown: none, or all down to one. -/
abbrev Threshold := Option Level

namespace Threshold

/-- Whether lines of the level `l` are shown. -/
def shows (t : Threshold) (l : Level) : Bool :=
  match t with
  | none => false
  | some least => l.rank ≤ least.rank

/-- The threshold that the options of a command ask for.  A `level` given by name counts most,
then how often more output was asked for, `verbosity`, then the wish to be `silent`. -/
def requested? (level : Option Threshold) (verbosity : Option Nat) (silent : Option Bool) :
    Option Threshold :=
  match level, verbosity with
  | some t, _ => some t
  | none, some 1 => some (some .debug)
  | none, some (_ + 2) => some (some .trace)
  | none, some 0 | none, none => if silent == some true then some none else none

end Threshold

end FlowFacts
