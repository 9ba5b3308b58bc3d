/-!
# Tables of a settings file

A settings file holds a table of named items, some of which are tables again.  Tables
come into being in several ways, and the way decides whether later lines may add to them:
a table with a heading is complete at the next heading, one that was only passed through
on the way to another may still get a heading of its own, one made by a dotted key grows
by further dotted keys, and an inline table never grows.

## Main definitions

* `Item`, `Entries` — items, and tables of them in the order of their keys' first use.
* `Pair`, `Heading` — what the lines of a file say.
* `assemble` — the table that pairs and headings describe.
-/

namespace FlowFacts.Settings

/-- How a table came into being. -/
inductive Origin where
  /-- It has a heading. -/
  | heading
  /-- It was passed through on the way to a heading. -/
  | passed
  /-- It was made by a dotted key. -/
  | dotted
  deriving DecidableEq, Repr, Inhabited

/-- An item of a settings file. -/
inductive Item where
  /-- A text. -/
  | text (content : String)
  /-- A whole number. -/
  | integer (value : Int)
  /-- A number that is not written as a whole one; no setting is such a number. -/
  | real
  /-- A truth value. -/
  | boolean (value : Bool)
  /-- A date, a time or both; no setting is such an item. -/
  | moment
  /-- A list. -/
  | array (items : List Item)
  /-- A table in one line. -/
  | inlineTable (entries : List (String × Item))
  /-- A table over several lines. -/
  | table (origin : Origin) (entries : List (String × Item))
  /-- A list of tables, each with a heading. -/
  | tables (elements : List (List (String × Item)))
  deriving Inhabited

/-- The contents of a table. -/
abbrev Entries := List (String × Item)

namespace Entries

/-- Change the item of a `key` that is there. -/
def replace (es : Entries) (key : String) (item : Item) : Entries :=
  es.map fun x => if x.1 == key then (key, item) else x

/-- Remove `key`. -/
def remove (es : Entries) (key : String) : Entries := es.filter fun x => x.1 != key

/-- The `change` of the table at the end of a path of keys.  Tables that are missing are made.  A
list of tables is entered at its last element.  A dotted key does not lead through a table that
has a heading. -/
def descend (viaKey : Bool) (change : Origin → Entries → Option Entries) :
    List String → Origin → Entries → Option Entries
  | [], origin, es => change origin es
  | key :: rest, _, es =>
      match es.lookup key with
      | none => do
          let made : Origin := if viaKey then .dotted else .passed
          return es ++ [(key, .table made (← descend viaKey change rest made []))]
      | some (.table origin inner) => do
          if viaKey ∧ origin = .heading then none
          else return es.replace key (.table origin (← descend viaKey change rest origin inner))
      | some (.tables elements) => do
          let last ← elements.getLast?
          let last ← descend viaKey change rest .heading last
          return es.replace key (.tables (elements.dropLast ++ [last]))
      | some _ => none

end Entries

/-- A key and its item; the key may be dotted. -/
structure Pair where
  /-- The parts of the key before the last. -/
  path : List String
  /-- The last part. -/
  key : String
  /-- The item. -/
  item : Item
  deriving Inhabited

/-- Add the pair `x` to a table.  A key is given once, and a dotted key adds only to tables that
dotted keys have made. -/
def Pair.addTo (x : Pair) (es : Entries) : Option Entries :=
  Entries.descend true
    (fun origin es =>
      if (x.path ≠ [] ∧ origin ≠ .dotted) ∨ (es.lookup x.key).isSome then none
      else some (es ++ [(x.key, x.item)]))
    x.path .heading es

/-- Add `pairs` to a table, one after another. -/
def addPairs (pairs : List Pair) (es : Entries) : Option Entries :=
  pairs.foldlM (fun es x => x.addTo es) es

/-- The heading of a table. -/
structure Heading where
  /-- The parts of its key before the last. -/
  path : List String
  /-- The last part. -/
  key : String
  /-- Whether the table is the next one of a list. -/
  isElement : Bool
  deriving DecidableEq, Repr, Inhabited

/-- Add a table with its heading, `x`.  A table gets one heading; one that was only passed
through keeps its contents and goes to the end. -/
def addTable (es : Entries) (x : Heading × List Pair) : Option Entries :=
  Entries.descend false
    (fun _ es =>
      match x.1.isElement, es.lookup x.1.key with
      | true, none => do return es ++ [(x.1.key, .tables [← addPairs x.2 []])]
      | true, some (.tables elements) => do
          return es.replace x.1.key (.tables (elements ++ [← addPairs x.2 []]))
      | false, none => do return es ++ [(x.1.key, .table .heading (← addPairs x.2 []))]
      | false, some (.table .passed inner) => do
          return es.remove x.1.key ++ [(x.1.key, .table .heading (← addPairs x.2 inner))]
      | _, some _ => none)
    x.1.path .heading es

/-- The table that the `pairs` before the first heading and the `tables` with a heading describe. -/
def assemble (pairs : List Pair) (tables : List (Heading × List Pair)) : Option Entries := do
  tables.foldlM addTable (← addPairs pairs [])

end FlowFacts.Settings
