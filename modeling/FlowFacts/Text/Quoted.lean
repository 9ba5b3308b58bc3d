import FlowFacts.Text.Attached
import FlowFacts.Text.Unseen

/-!
# Quoted texts

A text as messages quote it: between double quotes, and such that nothing in it is
overlooked.  Tabs and ends of lines are written with a letter, quotes and backslashes get a
backslash, and characters that cannot be seen or that attach to others are written as their
number.

## Main definitions

* `quotedText` — a text between quotes.
-/

namespace FlowFacts

/-- The number `n` in hexadecimal digits. -/
def hexText (n : Nat) : String := String.ofList (Nat.toDigits 16 n)

/-- The character `c` written as its number. -/
def numberedChar (c : Char) : String := "\\u\x7b" ++ hexText c.toNat ++ "\x7d"

/-- The character `c` of a quoted text. -/
def quotedChar (c : Char) : String :=
  if c.toNat = 0 then "\\0"
  else if c = '\t' then "\\t"
  else if c = '\n' then "\\n"
  else if c = '\r' then "\\r"
  else if c = '"' ∨ c = '\\' then "\\" ++ c.toString
  else if isAttached c || isUnseen c then numberedChar c
  else c.toString

/-- The way messages quote `text`. -/
def quotedText (text : String) : String :=
  "\"" ++ String.join (text.toList.map quotedChar) ++ "\""

end FlowFacts
