import FlowFacts.Files

/-!
# Trees of files

Files that are given by their names, in a working directory that holds nothing else.  A path
is followed part by part: each part leads from a place to the next one, which has to exist,
and has to be a directory unless it is the last.

Places are written from the working directory.  Directories around it are known to exist,
but not what they are called, so that a way up is kept in the place: `..` leads from the
working directory to the place `[".."]`.

## Main definitions

* `Place`, `Place.step` — places, and the way from one to the next.
* `FileTree`, `FileTree.add` — trees, and how files get into them.
* `FileTree.read` — what can be read at a path.
* `Files.ofList` — a way to read files from a given set of them.
-/

namespace FlowFacts

/-! ### Places -/

/-- A place in a tree: the names that lead there, after `/` from the root and else from the
working directory.  Ways up stand in front. -/
abbrev Place := List String

namespace Place

/-- The root of all places. -/
def root : Place := ["/"]

/-- The place above `place`; the root is above itself. -/
def up (place : Place) : Place :=
  match place.getLast? with
  | none | some ".." => place ++ [".."]
  | some "/" => place
  | some _ => place.dropLast

/-- The place that `part` of a path leads to from `place`. -/
def step (place : Place) (part : String) : Place :=
  if part = "" ∨ part = "." then place
  else if part = ".." then place.up
  else place ++ [part]

/-- The place that `path` starts from. -/
def origin (path : String) : Place := if path.startsWith "/" then root else []

/-- The places that `path` passes, the last one first. -/
def passed (path : String) : List Place :=
  (path.splitOn "/").foldl (fun places part => (places.headD []).step part :: places)
    [origin path]

/-- Whether `place` is the working directory or one that it lies in. -/
def isAround (place : Place) : Bool := place == root || place.all (· == "..")

end Place

/-! ### Trees -/

/-- A tree of files. -/
structure FileTree where
  /-- The files with their contents; of two at one place the first counts. -/
  files : List (Place × String)
  /-- The directories that do not lie around the working directory. -/
  directories : List Place
  deriving DecidableEq, Repr, Inhabited

namespace FileTree

/-- The tree of a system before any file is added: the usual directories, and a file that is
always empty. -/
def bare : FileTree where
  files := [(["/", "dev", "null"], "")]
  directories :=
    ["bin", "boot", "dev", "etc", "home", "lib", "media", "mnt", "opt", "proc", "root", "run",
      "sbin", "srv", "sys", "tmp", "usr", "var"].map fun name => ["/", name]

/-- Add a file with a `name` and its `content`, and the directories that its name passes. -/
def add (t : FileTree) (name content : String) : FileTree :=
  match Place.passed name with
  | [] => t
  | place :: others =>
      { files := (place, content) :: t.files, directories := others ++ t.directories }

/-- Whether there is a directory at `place`. -/
def hasDirectory (t : FileTree) (place : Place) : Bool :=
  place.isAround || t.directories.contains place

/-- The most bytes in a part of a path. -/
def partLimit : Nat := 255

/-- The most bytes in a path. -/
def pathLimit : Nat := 4095

/-- Follow the parts of a path from a directory. -/
def follow (t : FileTree) : Place → List String → Except FileProblem String
  | _, [] => .error .isDirectory
  | place, part :: rest =>
      if part.utf8ByteSize > partLimit then .error .tooLong
      else
        let next := place.step part
        match t.files.lookup next with
        | some content => if rest.isEmpty then .ok content else .error .notDirectory
        | none => if t.hasDirectory next then t.follow next rest else .error .missing

/-- Read the file at `path`.  The empty path leads nowhere. -/
def read (t : FileTree) (path : String) : Except FileProblem String :=
  if path = "" then .error .missing
  else if path.utf8ByteSize > pathLimit then .error .tooLong
  else t.follow (Place.origin path) (path.splitOn "/")

end FileTree

/-- The files with the given names and contents; a later one takes the place of an earlier
one. -/
def Files.ofList (files : List (String × String)) : Files :=
  (files.foldl (fun t x => t.add x.1 x.2) FileTree.bare).read

end FlowFacts
