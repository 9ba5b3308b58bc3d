import FlowFacts.Log.Event
import FlowFacts.Text.Quoted

/-!
# Log lines on a terminal

How log lines are shown.  A message may quote parts of a file, so characters in it that
would command the terminal are made visible; the names of details are set in italics.

## Main definitions

* `Colour`, `Colour.paint` — coloured messages.
* `LogLine.styled` — a line as shown.
* `Output` — what a program writes to its two streams.
-/

namespace FlowFacts

/-- The colours of messages. -/
inductive Colour where
  /-- For failures. -/
  | red
  /-- For success. -/
  | green
  /-- For what needs attention. -/
  | yellow
  deriving DecidableEq, Repr, Inhabited

/-- A command to the terminal about the style of what follows. -/
def style (code : String) : String := "\x1b[" ++ code ++ "m"

/-- The `text` in the colour `c`. -/
def Colour.paint (c : Colour) (text : String) : String :=
  let code :=
    match c with
    | red => "31"
    | green => "32"
    | yellow => "33"
  style code ++ text ++ style "0"

/-- The character `c` of a message, made visible if it would command the terminal. -/
def visibleChar (c : Char) : String :=
  let n := c.toNat
  if n ∈ [7, 8] then "\\x0" ++ hexText n
  else if n = 12 then "\\x0c"
  else if n ∈ [27, 127] then "\\x" ++ hexText n
  else if 128 ≤ n ∧ n < 160 then numberedChar c
  else c.toString

namespace LogLine

/-- A message `text` in the colour `c`. -/
def coloured (level : Level) (c : Colour) (text : String) : LogLine :=
  { level, message := c.paint text }

/-- A detail as shown. -/
def styledField (field : String × String) : String :=
  " " ++ style "3" ++ field.1 ++ style "0" ++ style "2" ++ "=" ++ style "0" ++ field.2

/-- A line as shown. -/
def styled (l : LogLine) : String :=
  String.join (l.message.toList.map visibleChar) ++ String.join (l.fields.map styledField) ++ "\n"

end LogLine

/-- What a program writes. -/
structure Output where
  /-- The ordinary output. -/
  out : String
  /-- Errors and warnings. -/
  err : String
  deriving DecidableEq, Repr, Inhabited

/-- The output for log `lines`: errors and warnings go apart from the rest. -/
def Output.ofLines (lines : List LogLine) : Output where
  out := String.join ((lines.filter fun l => !l.level.isAlarm).map LogLine.styled)
  err := String.join ((lines.filter fun l => l.level.isAlarm).map LogLine.styled)

end FlowFacts
