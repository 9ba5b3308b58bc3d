/-!
# Arguments of the command

The words that a command is called with.  Options may stand before and after the file; a
word `--` ends the options.

## Main definitions

* `Arguments` — what a command is to do.
* `Request` — the meaning of the words.
* `Request.ofWords` — from words to their meaning.
-/

namespace FlowFacts.CommandLine

/-- What a command is to do. -/
structure Arguments where
  /-- The file to analyse. -/
  file : String
  /-- The settings file, unless the one beside the file is meant. -/
  config : Option String := none
  /-- Whether calls that do not fit are warned of. -/
  strict : Bool := false
  /-- Whether the program is printed first. -/
  printProgram : Bool := false
  /-- How often more output was asked for. -/
  verbosity : Nat := 0
  /-- Whether there is to be no output. -/
  silent : Bool := false
  deriving DecidableEq, Repr, Inhabited

/-- The meaning of the words that a command is called with. -/
inductive Request where
  /-- Analyse a file. -/
  | analyse (arguments : Arguments)
  /-- Print the version. -/
  | version
  /-- Print how the command is used. -/
  | help
  /-- The words mean nothing. -/
  | misuse
  deriving DecidableEq, Repr, Inhabited

/-- What was read of the words so far: the arguments, whose file may be missing yet. -/
structure Draft where
  /-- The file. -/
  file : Option String := none
  /-- The other arguments. -/
  rest : Arguments := { file := "" }
  deriving DecidableEq, Repr, Inhabited

/-- What is to be done after a word: go on, or stop with a meaning. -/
abbrev Step := Except Request Draft

namespace Draft

/-- The file is `word`.  There is one, and its name is not empty. -/
def setFile (p : Draft) (word : String) : Step :=
  if p.file.isSome ∨ word = "" then .error .misuse else .ok { p with file := some word }

/-- The settings file is `word`.  It is given once, and its name is not empty. -/
def setConfig (p : Draft) (word : String) : Step :=
  if p.rest.config.isSome ∨ word = "" then .error .misuse
  else .ok { p with rest := { p.rest with config := some word } }

/-- One letter `c` of a word of short options. -/
def letter (p : Draft) (c : Char) : Step :=
  match c with
  | 'v' => .ok { p with rest := { p.rest with verbosity := p.rest.verbosity + 1 } }
  | 'V' => .error .version
  | 'h' => .error .help
  | _ => .error .misuse

/-- An option `word` without a value.  Only the wish for more output may be repeated. -/
def flag (p : Draft) (word : String) : Step :=
  match word with
  | "--strict" =>
      if p.rest.strict then .error .misuse
      else .ok { p with rest := { p.rest with strict := true } }
  | "--print-ir" =>
      if p.rest.printProgram then .error .misuse
      else .ok { p with rest := { p.rest with printProgram := true } }
  | "--silent" =>
      if p.rest.silent then .error .misuse
      else .ok { p with rest := { p.rest with silent := true } }
  | "--verbose" => .ok { p with rest := { p.rest with verbosity := p.rest.verbosity + 1 } }
  | "--version" => .error .version
  | "--help" => .error .help
  | _ => .error .misuse

/-- What all words together mean. -/
def finish (p : Draft) : Request :=
  match p.file with
  | some file => .analyse { p.rest with file }
  | none => .misuse

end Draft

/-- Whether `word` looks like options. -/
def isOption (word : String) : Bool := word.startsWith "-" && word != "-"

/-- The option that a settings file is given by. -/
def configOption : String := "--config"

/-- Read words, the first of which may be options. -/
def readWords : Draft → List String → Step
  | p, [] => .ok p
  | p, word :: rest =>
      if word = "--" then rest.foldlM Draft.setFile p
      else if word = configOption then
        match rest with
        | value :: rest =>
            if isOption value then .error .misuse
            else do readWords (← p.setConfig value) rest
        | [] => .error .misuse
      else if word.startsWith (configOption ++ "=") then do
        let value := String.ofList (word.toList.drop (configOption.length + 1))
        readWords (← p.setConfig value) rest
      else if word.startsWith "--" then do readWords (← p.flag word) rest
      else if isOption word then do readWords (← (word.toList.drop 1).foldlM Draft.letter p) rest
      else do readWords (← p.setFile word) rest

/-- The meaning of the words that a command is called with. -/
def Request.ofWords (words : List String) : Request :=
  match readWords {} words with
  | .ok p => p.finish
  | .error request => request

end FlowFacts.CommandLine
