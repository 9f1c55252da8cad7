import DocTopics.Manual.OutputDir
import DocTopics.Config.Toml

/-!
# Configuration

A project may have a configuration file in its directory. Every key is optional, unknown and
repeated keys are refused, and flags of the command line win over the file.
-/

namespace DocTopics

/-- The settings of a configuration file. -/
structure Config where
  package : Option String := none
  marker : Option String := none
  /-- The output directory. -/
  output : Option String := none
  aliasPolicy : Option AliasPolicy := none

namespace Config

/-- Sets a value that is not set yet. -/
def setOnce (old : Option α) (new : α) : Option (Option α) :=
  match old with
  | some _ => none
  | none => some (some new)

/-- The settings with an alias policy set to a word. -/
def assignPolicy (c : Config) (word : String) : Option Config :=
  match AliasPolicy.ofWord word with
  | .ok policy => (setOnce c.aliasPolicy policy).map fun x => { c with aliasPolicy := x }
  | .error _ => none

/-- The settings with one more key set. Only the alias policy is a choice between words. -/
def assign (c : Config) : String × Toml.Setting → Option Config
  | ("package", .text v) => (setOnce c.package v).map fun x => { c with package := x }
  | ("marker", .text v) => (setOnce c.marker v).map fun x => { c with marker := x }
  | ("output", .text v) => (setOnce c.output v).map fun x => { c with output := x }
  | ("alias_policy", .text word) => c.assignPolicy word
  | ("alias_policy", .choice word) => c.assignPolicy word
  | _ => none

/-- Reads the text of a configuration file. -/
def ofText (text : String) : Option Config :=
  (Toml.settings text).bind fun settings => settings.foldlM assign {}

/-- The name of a configuration file. -/
def fileName : String :=
  "topicgen.toml"

/-- Loads a configuration file. -/
def load (tree : FileTree) (path : String) : Except Failure Config := do
  let text ← OutputDir.readFile tree path
  match ofText text with
  | some config => .ok config
  | none => .error (.config path)

/-- Loads the file at `path` if one is named, or else the configuration file of the directory if
there is one. -/
def discover (tree : FileTree) (path : Option String) (dir : String) : Except Failure Config :=
  match path with
  | some path => load tree path
  | none =>
    let candidate := Path.join dir fileName
    if tree.isFile candidate then load tree candidate else .ok {}

/-- The settings of a run, with defaults filled in. -/
def options (c : Config) : Options :=
  { marker := c.marker.getD ({} : Options).marker
    package := c.package
    aliasPolicy := c.aliasPolicy.getD ({} : Options).aliasPolicy }

end Config

end DocTopics
