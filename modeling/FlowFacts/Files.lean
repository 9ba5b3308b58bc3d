/-!
# Files

Paths, and what can be read at them.

## Main definitions

* `FileProblem` — why a file cannot be read.
* `Files` — a way to read files.
* `parentPath?`, `joinPath` — from a path to its directory and back.
-/

namespace FlowFacts

/-- Why a file cannot be read. -/
inductive FileProblem where
  /-- There is nothing at the path. -/
  | missing
  /-- There is a directory at the path. -/
  | isDirectory
  /-- The path leads through something that is not a directory. -/
  | notDirectory
  /-- The path, or a name in it, is longer than the system allows. -/
  | tooLong
  /-- Something else, in words. -/
  | other (details : String)
  deriving DecidableEq, Repr, Inhabited

/-- A problem in words. -/
def FileProblem.text : FileProblem → String
  | missing => "No such file or directory (os error 2)"
  | isDirectory => "Is a directory (os error 21)"
  | notDirectory => "Not a directory (os error 20)"
  | tooLong => "File name too long (os error 36)"
  | other details => details

/-- A way to read files. -/
abbrev Files := String → Except FileProblem String

namespace Files

/-- Whether there is a file at `path`, even if it cannot be read. -/
def hasFile (files : Files) (path : String) : Bool :=
  match files path with
  | .ok _ | .error (.other _) => true
  | .error .missing | .error .isDirectory | .error .notDirectory | .error .tooLong => false

end Files

/-! ### Paths -/

/-- Remove what adds nothing at the end of a path, given by its parts in reverse: empty
parts, and dots other than one at the start of a path that does not begin at the root. -/
def trimParts (rooted : Bool) : List String → List String
  | [] => []
  | part :: rest =>
      if part = "" ∨ (part = "." ∧ (rooted ∨ rest ≠ [])) then trimParts rooted rest
      else part :: rest

/-- The directory of `path`: the path without its last part.  The empty path and the root have
none. -/
def parentPath? (path : String) : Option String :=
  let parts := path.splitOn "/"
  if path.startsWith "/" then
    match trimParts true (parts.drop 1).reverse with
    | [] => none
    | _ :: rest => some ("/" ++ String.intercalate "/" (trimParts true rest).reverse)
  else
    match trimParts false parts.reverse with
    | [] => none
    | _ :: rest => some (String.intercalate "/" (trimParts false rest).reverse)

/-- The `name` inside a directory, `dir`. -/
def joinPath (dir name : String) : String :=
  if dir = "" ∨ dir.endsWith "/" then dir ++ name else dir ++ "/" ++ name

end FlowFacts
