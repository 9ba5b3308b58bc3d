import FlowFacts.Log.Level
import FlowFacts.Text
import FlowFacts.Text.Alphanumeric

/-!
# Requests for levels

The text in which a user says how much of a log to show: requests with commas between them.
A request is a level, or the name of a part of the program, or such a name with `=` and a
level.  It concerns all parts whose names begin with the given one, so that a request for
the beginning of the program's own name concerns everything.  Of several requests the one
with the longest name counts, and of two with one name the later.

## Main definitions

* `levelNamed?` — levels by name.
* `LevelRequest.read` — a request in characters.
* `requestedLevels` — what a text asks for.
-/

namespace FlowFacts.CommandLine

/-! ### Names of levels -/

/-- The number that `text`, a row of digits, stands for; a plus sign may precede them. -/
def numberWritten? (text : String) : Option Nat :=
  let digits :=
    match text.toList with
    | '+' :: rest => rest
    | all => all
  if digits.isEmpty || !digits.all Char.isDigit then none
  else some (digits.foldl (fun n c => n * 10 + (c.toNat - '0'.toNat)) 0)

/-- The levels that `name`, which may be a number, stands for.  The empty name stands for errors. -/
def levelNamed? (name : String) : Option Threshold :=
  match numberWritten? name with
  | some 0 => some none
  | some n => (Level.ofRank? n).map some
  | none =>
      match String.ofList (name.toList.map Char.toLower) with
      | "off" => some none
      | "" | "error" => some (some .error)
      | "warn" => some (some .warn)
      | "info" => some (some .info)
      | "debug" => some (some .debug)
      | "trace" => some (some .trace)
      | _ => none

/-! ### Requests -/

/-- Why the text in the environment is not understood. -/
inductive FilterProblem where
  /-- It does not have the form of a request. -/
  | malformed
  /-- It asks for a level that does not exist. -/
  | unknownLevel
  deriving DecidableEq, Repr, Inhabited

/-- A problem in words. -/
def FilterProblem.text : FilterProblem → String
  | malformed => "invalid filter directive"
  | unknownLevel =>
      "error parsing level filter: expected one of \"off\", \"error\", \"warn\", \"info\", " ++
        "\"debug\", \"trace\", or a number 0-5"

/-- A request for a level. -/
structure LevelRequest where
  /-- The part of the program that it concerns, empty if that is all of it. -/
  part : String
  /-- The levels asked for. -/
  threshold : Threshold
  deriving DecidableEq, Repr, Inhabited

/-- A request may start with `c`. -/
def startsRequest (c : Char) : Bool := isAlphanumeric c || c == '-' || c == ':' || c == '_'

namespace LevelRequest

/-- Read a request from `text`.  White space around it is passed over when its form is judged,
but belongs to the name or the level; a name without a level asks for everything. -/
def read (text : String) : Except FilterProblem LevelRequest :=
  let inner := (trim text).toList
  let name := inner.takeWhile (· != '=')
  if !(inner.head?.any startsRequest) || name.contains '[' then .error .malformed
  else if name.length = inner.length then
    match levelNamed? text with
    | some t => .ok { part := "", threshold := t }
    | none => .ok { part := text, threshold := some .trace }
  else
    let part := String.ofList (text.toList.take name.length)
    match text.toList.drop (name.length + 1) with
    | [] => .ok { part, threshold := some .trace }
    | level =>
        match levelNamed? (String.ofList level) with
        | some t => .ok { part, threshold := t }
        | none => .error .unknownLevel

/-- The name of the program, with which the names of its parts begin. -/
def programName : String := "assertflow"

/-- Whether a request concerns the program. -/
def concernsProgram (r : LevelRequest) : Bool := programName.startsWith r.part

/-- The request that counts more, of an `earlier` and a `later` one. -/
def prefer (earlier : Option LevelRequest) (later : LevelRequest) : Option LevelRequest :=
  match earlier with
  | some r => if later.part.length < r.part.length then some r else some later
  | none => some later

end LevelRequest

/-- The levels that `text` asks for.  An empty text asks for errors only. -/
def requestedLevels (text : String) : Except FilterProblem Threshold :=
  if text = "" then .ok (some .error)
  else do
    let requests ← (text.splitOn ",").mapM LevelRequest.read
    let counting := (requests.filter LevelRequest.concernsProgram).foldl LevelRequest.prefer none
    return counting.bind LevelRequest.threshold

end FlowFacts.CommandLine
