import DocTopics.Alias.Key
import DocTopics.Store

/-!
# Command line arguments

A command line names a command, its options and its operands. Options take one value each, given as
the next argument or attached; an option may be given once. Operands and options may stand in any
order, and everything behind `--` is an operand.

## Main definitions

- `Command` — the two commands with their settings
- `Invocation` — a command and the configuration file to use
- `Invocation.ofArguments` — reads the arguments, unless they are malformed
-/

namespace DocTopics

/-- Settings that win over the configuration file. -/
structure SourceArgs where
  package : Option String := none
  marker : Option String := none
  aliasPolicy : Option AliasPolicy := none

/-- What to do. -/
inductive Command where
  /-- Build topics and write them. -/
  | build (inputs : List String) (output : Option String) (format : String) (source : SourceArgs)
  /-- Answer a query. -/
  | lookup (query : String) (inputs : List String) (scope : Scope) (dir : Option String)
      (source : SourceArgs)

/-- A command and the configuration file named for it. -/
structure Invocation where
  config : Option String
  command : Command

namespace CommandLine

/-- An option of a command. -/
structure OptionSpec where
  name : String
  short : Option Char := none

/-- An argument read: an option with its value, or an operand. -/
inductive Item where
  | setting (name value : String)
  | operand (text : String)

/-- The argument is taken for an option: a dash with something behind it. -/
def looksLikeOption (arg : String) : Bool :=
  match arg.toList with
  | '-' :: _ :: _ => true
  | _ => false

/-- An option and the value attached to it, if any, for options of the form `--name=value`. -/
def longOption (specs : List OptionSpec) (text : List Char) : Option (String × Option String) :=
  let (name, value) := match Chars.cutAt (· == '=') text with
    | some (name, value) => (String.ofList name, some (String.ofList value))
    | none => (String.ofList text, none)
  (specs.find? (·.name == name)).map fun spec => (spec.name, value)

/-- An option and the value attached to it, if any, for options of the form `-nvalue`. -/
def shortOption (specs : List OptionSpec) (letter : Char) (rest : List Char) :
    Option (String × Option String) :=
  (specs.find? (·.short == some letter)).map fun spec =>
    (spec.name, match rest with
      | [] => none
      | '=' :: value => some (String.ofList value)
      | value => some (String.ofList value))

/-- The option that an argument gives, with the value attached to it. -/
def optionOf (specs : List OptionSpec) (arg : String) : Option (String × Option String) :=
  match arg.toList with
  | '-' :: '-' :: text => longOption specs text
  | '-' :: letter :: rest => shortOption specs letter rest
  | _ => none

/-- The options and operands of a list of arguments. -/
def items (specs : List OptionSpec) : List String → Option (List Item)
  | [] => some []
  | arg :: rest =>
    if arg = "--" then some (rest.map .operand)
    else if looksLikeOption arg then
      match optionOf specs arg with
      | none => none
      | some (name, some value) => (items specs rest).map (.setting name value :: ·)
      | some (name, none) =>
        match rest with
        | [] => none
        | value :: rest =>
          if looksLikeOption value then none
          else (items specs rest).map (.setting name value :: ·)
    else (items specs rest).map (.operand arg :: ·)

/-- The operands among the items. -/
def operands (xs : List Item) : List String :=
  xs.filterMap fun
    | .operand text => some text
    | .setting _ _ => none

/-- The values given to an option. -/
def values (xs : List Item) (name : String) : List String :=
  xs.filterMap fun
    | .setting n value => if n = name then some value else none
    | .operand _ => none

/-- The value of an option that may be given once. -/
def single (xs : List Item) (name : String) : Option (Option String) :=
  match values xs name with
  | [] => some none
  | [value] => some (some value)
  | _ => none

/-- The value of an option that names a file or directory; it may not be empty. -/
def singlePath (xs : List Item) (name : String) : Option (Option String) :=
  match single xs name with
  | some (some "") => none
  | r => r

/-- The value of an option whose values are words of a vocabulary. -/
def singleWord (xs : List Item) (name : String) (read : String → Except UnknownWord α) :
    Option (Option α) :=
  match single xs name with
  | none => none
  | some none => some none
  | some (some word) =>
    match read word with
    | .ok value => some (some value)
    | .error _ => none

/-- The options of every command that reads sources. -/
def sourceSpecs : List OptionSpec :=
  [{ name := "package" }, { name := "marker" }, { name := "alias-policy" }]

/-- The settings that win over the configuration file. -/
def sourceArgs (xs : List Item) : Option SourceArgs := do
  return { package := ← single xs "package"
           marker := ← single xs "marker"
           aliasPolicy := ← singleWord xs "alias-policy" AliasPolicy.ofWord }

/-- The option that names the configuration file, which every command takes. -/
def configSpec : OptionSpec :=
  { name := "config" }

/-- The sources that are read when none are named. -/
def orDefaultInputs : List String → List String
  | [] => ["R"]
  | inputs => inputs

/-- Reads the arguments of the build command. -/
def readBuild (xs : List Item) : Option Command := do
  let output ← singlePath xs "output"
  let format ← single xs "format"
  let source ← sourceArgs xs
  return .build (orDefaultInputs (operands xs)) output (format.getD "rd") source

/-- Reads the arguments of the lookup command. -/
def readLookup (xs : List Item) : Option Command := do
  let scope ← singleWord xs "scope" Scope.ofWord
  let dir ← singlePath xs "dir"
  let source ← sourceArgs xs
  match operands xs with
  | [] => none
  | query :: inputs =>
    return .lookup query (orDefaultInputs inputs) (scope.getD .source) dir source

/-- Reads the arguments behind the name of a command. A configuration file named here wins over one
named in front of the command. -/
def readCommand (config : Option String) (specs : List OptionSpec)
    (read : List Item → Option Command) (args : List String) : Option Invocation := do
  let xs ← items (configSpec :: specs) args
  let own ← singlePath xs "config"
  let command ← read xs
  return { config := own.or config, command := command }

/-- Reads the name of a command and its arguments. -/
def readNamed (config : Option String) : List String → Option Invocation
  | "build" :: args =>
    readCommand config
      ([{ name := "output", short := some 'o' }, { name := "format", short := some 'f' }] ++
        sourceSpecs) readBuild args
  | "lookup" :: args =>
    readCommand config ([{ name := "scope" }, { name := "dir" }] ++ sourceSpecs) readLookup args
  | _ => none

end CommandLine

open CommandLine

/-- Reads the arguments. The configuration file may be named in front of the command, once. -/
def Invocation.ofArguments (args : List String) : Option Invocation :=
  match args with
  | [] => none
  | arg :: rest =>
    if looksLikeOption arg then
      match optionOf [configSpec] arg with
      | none => none
      | some (_, some path) => if path = "" then none else readNamed (some path) rest
      | some (_, none) =>
        match rest with
        | [] => none
        | path :: rest =>
          if looksLikeOption path || path = "" then none else readNamed (some path) rest
    else readNamed none (arg :: rest)

end DocTopics
