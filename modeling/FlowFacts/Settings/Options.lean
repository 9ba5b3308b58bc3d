import FlowFacts.Files
import FlowFacts.Flow.Sweep
import FlowFacts.Log.Styled
import FlowFacts.Settings.Document
import FlowFacts.Text.Quoted

/-!
# Settings

The settings that a file may give: whether the model of checks is strict, and how often a
block may be visited.  Keys that mean nothing are reported and passed over.

## Main definitions

* `Options` — what a file says.
* `Settings` — the settings in force.
* `SettingsError` — why there are none.
* `parse`, `ofFile`, `ofDirectory` — from texts, files and directories to settings.
-/

namespace FlowFacts.Settings

/-- What a file says about the model of checks. -/
structure ModelOptions where
  /-- Whether calls that do not fit are warned of. -/
  strict : Option Bool := none
  deriving DecidableEq, Repr, Inhabited

/-- What a file says about the analysis. -/
structure EngineOptions where
  /-- How often a block may be visited. -/
  visitLimit : Option Nat := none
  deriving DecidableEq, Repr, Inhabited

/-- What a file says. -/
structure Options where
  /-- The section on the model of checks. -/
  model : Option ModelOptions := none
  /-- The section on the analysis. -/
  engine : Option EngineOptions := none
  deriving DecidableEq, Repr, Inhabited

end FlowFacts.Settings

namespace FlowFacts

open Settings

/-- The settings in force. -/
structure Settings where
  /-- Whether calls that do not fit are warned of. -/
  strict : Bool := false
  /-- How often a block may be visited. -/
  visitLimit : Nat := defaultVisitLimit
  deriving DecidableEq, Repr, Inhabited

/-- Why there are no settings. -/
inductive SettingsError where
  /-- The file cannot be read. -/
  | unreadable (path : String) (problem : FileProblem)
  /-- The file does not describe settings. -/
  | malformed
  /-- A setting has a value that it cannot have. -/
  | invalidValue (key reason : String)
  /-- The directory has no settings file. -/
  | notFound (dir : String)
  deriving DecidableEq, Repr, Inhabited

/-- The name of settings files. -/
def settingsFileName : String := "assertflow.toml"

/-- The text of an error. -/
def SettingsError.message : SettingsError → String
  | unreadable path problem =>
      "failed to read config at " ++ quotedText path ++ ": " ++ problem.text
  | malformed => "failed to deserialize config: TOML parse error"
  | invalidValue key reason => "invalid value for `" ++ key ++ "`: " ++ reason
  | notFound dir => "could not find `" ++ settingsFileName ++ "` in " ++ quotedText dir

/-- Steps that read settings and report on the way. -/
abbrev SettingsM := ExceptT SettingsError (StateM (List LogLine))

namespace Settings

/-- Report a `key` that means nothing. -/
def ignoreKey (key : String) : SettingsM Unit :=
  modify (· ++ [.coloured .error .yellow
    ("  WARNING! found unusable configuration: " ++ key)])

/-! ### Sections -/

/-- A truth value. -/
def asBool : Item → SettingsM Bool
  | .boolean b => return b
  | _ => throw .malformed

/-- A natural number. -/
def asNat : Item → SettingsM Nat
  | .integer n => if 0 ≤ n then return n.toNat else throw .malformed
  | _ => throw .malformed

/-- The key under which a date or a time is taken for a section. -/
def momentKey : String := "$__toml_private_datetime"

/-- The entries of a section.  A list stands for a table with one known key, `field`, which the
first element belongs to; a date or a time stands for one with an unknown key. -/
def sectionEntries (field : String) : Item → SettingsM Entries
  | .table _ entries | .inlineTable entries => return entries
  | .array (first :: _) => return [(field, first)]
  | .tables (first :: _) => return [(field, .table .heading first)]
  | .moment => return [(momentKey, .moment)]
  | _ => throw .malformed

/-- The item of the one known key, `field`, of a section, read by `decode`.  Other keys are
reported. -/
def readSection {α : Type} (name field : String) (decode : Item → SettingsM α) (item : Item) :
    SettingsM (Option α) := do
  (← sectionEntries field item).foldlM
    (fun found x => do
      if x.1 = field then return some (← decode x.2)
      else
        ignoreKey (name ++ "." ++ x.1)
        return found)
    none

/-- Take an entry `x` of a settings file into account. -/
def readEntry (options : Options) (x : String × Item) : SettingsM Options := do
  if x.1 = "model" then
    return { options with model := some ⟨← readSection "model" "strict" asBool x.2⟩ }
  else if x.1 = "engine" then
    return { options with engine := some ⟨← readSection "engine" "max_block_visits" asNat x.2⟩ }
  else
    ignoreKey x.1
    return options

/-- What a settings file with the given `content` says. -/
def readOptions (content : String) : SettingsM Options :=
  match read content with
  | none => throw .malformed
  | some entries => entries.foldlM readEntry {}

/-! ### Settings -/

/-- The settings that follow from what a file says, its `options`. -/
def ofOptions (options : Options) : Except SettingsError Settings :=
  let strict := (options.model.bind ModelOptions.strict).getD false
  let visitLimit := (options.engine.bind EngineOptions.visitLimit).getD defaultVisitLimit
  if visitLimit = 0 then
    .error (.invalidValue "engine.max_block_visits" "must be at least 1")
  else .ok { strict, visitLimit }

/-- The settings of the text `content`. -/
def parse (content : String) : SettingsM Settings := do
  ofOptions (← readOptions content)

/-- The settings of the file at `path`. -/
def ofFile (files : Files) (path : String) : SettingsM Settings :=
  match files path with
  | .ok content => parse content
  | .error problem => throw (.unreadable path problem)

/-- The settings of the settings file in the directory `dir`. -/
def ofDirectory (files : Files) (dir : String) : SettingsM Settings :=
  let path := joinPath dir settingsFileName
  if files.hasFile path then ofFile files path else throw (.notFound dir)

end Settings

end FlowFacts
