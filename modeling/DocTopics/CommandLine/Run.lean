import DocTopics.CommandLine.Arguments
import DocTopics.CommandLine.Message
import DocTopics.Config.Basic
import DocTopics.Glob.Search

/-!
# Running commands

A command reads a file tree, may change it, prints to two channels and ends with an exit status.
Messages come in the order in which they arise.

## Main definitions

- `expandInputs` — the source files that a list of inputs names
- `Outcome` — what a run leaves
- `CommandLine.run` — runs a command line on a file tree
-/

namespace DocTopics

/-! ### Inputs -/

/-- The extensions of source files. -/
def sourceExtensions : List String :=
  ["R", "r"]

/-- Why inputs cannot be expanded. -/
inductive InputFault where
  | invalidGlob (pattern : String)

/-- The source files that stand directly in a directory. -/
def sourcesIn (tree : FileTree) (dir : String) : List String :=
  ((tree.list dir).filter fun name =>
    match Path.extension? name with
    | some ext => sourceExtensions.contains ext
    | none => false).map (Path.join dir) |>.filter tree.isFile

/-- The files that one input names: a file, the sources of a directory, or the matches of a glob.
The second part warns when nothing matches a glob. -/
def expandInput (tree : FileTree) (input : String) :
    Except InputFault (List String × List String) :=
  if tree.isFile input then .ok ([input], [])
  else if tree.isDir input then .ok (sourcesIn tree input, [])
  else
    match Glob.ofText input with
    | none => .error (.invalidGlob input)
    | some glob =>
      match (glob.search tree).filter tree.isFile with
      | [] => .ok ([], ["no files matched: " ++ input])
      | files => .ok (files, [])

/-- Drops each path that is another spelling of the one in front of it. -/
def dropRepeated : List String → List String
  | [] => []
  | [p] => [p]
  | p :: q :: rest =>
    if Path.same p q then dropRepeated (p :: rest) else p :: dropRepeated (q :: rest)

/-- The files in the order of their paths, each once. -/
def sortPaths (paths : List String) : List String :=
  dropRepeated (sortBy Path.before paths)

/-! ### Runs -/

/-- What was printed and how the run ended. -/
structure Outcome where
  exit : Nat
  stdout : String := ""
  stderr : List String := []

namespace CommandLine

/-- Lines for the error channel with either a result or the message that ends the run. -/
structure Printing (α : Type) where
  printed : List String
  result : Except Fatal α

namespace Printing

/-- A result without lines. -/
def pure (a : α) : Printing α :=
  ⟨[], .ok a⟩

/-- Goes on with a result; the lines come one after the other. -/
def bind (p : Printing α) (f : α → Printing β) : Printing β :=
  match p.result with
  | .ok a => ⟨p.printed ++ (f a).printed, (f a).result⟩
  | .error e => ⟨p.printed, .error e⟩

instance : Monad Printing where
  pure := pure
  bind := bind

/-- Prints lines. -/
def print (lines : List String) : Printing Unit :=
  ⟨lines, .ok ()⟩

/-- A result that may be a failure. -/
def ofExcept (r : Except Failure α) : Printing α :=
  ⟨[], r.mapError Fatal.ofFailure⟩

/-- Ends the run. -/
def fail (e : Fatal) : Printing α :=
  ⟨[], .error e⟩

end Printing

/-- The source files that the inputs name. -/
def expandInputs (tree : FileTree) : List String → Printing (List String)
  | [] => .pure []
  | input :: rest =>
    match expandInput tree input with
    | .error (.invalidGlob pattern) => .fail { message := "invalid glob pattern: " ++ pattern }
    | .ok (files, warnings) => do
      .print (warnings.map warningLine)
      let more ← expandInputs tree rest
      return files ++ more

/-- Reads the sources and builds their manual. -/
def generateFrom (tree : FileTree) (inputs : List String) (options : Options) :
    Printing Manual := do
  let files := sortPaths (← expandInputs tree inputs)
  let units ← .ofExcept (files.mapM fun path =>
    (OutputDir.readFile tree path).map fun text => (⟨path, text⟩ : SourceUnit))
  let g ← .ofExcept (generate { units := units, options := options })
  .print (g.diagnostics.map diagnosticLine)
  return g

/-- The settings of a run: flags win over the configuration file. -/
def optionsFor (config : Config) (args : SourceArgs) : Options :=
  let base := config.options
  { marker := args.marker.getD base.marker
    package := args.package.or base.package
    aliasPolicy := args.aliasPolicy.getD base.aliasPolicy }

/-- The outcome of a run that ended early. -/
def failed (printed : List String) (e : Fatal) : Outcome :=
  { exit := 1, stderr := printed ++ e.lines }

/-- Builds topics and writes them. -/
def runBuild (tree : FileTree) (inputs : List String) (output format : String)
    (options : Options) : Outcome × FileTree :=
  let prepared : Printing (Format × Manual) := do
    let format ← .ofExcept (Format.ofName format)
    let g ← generateFrom tree inputs options
    return (format, g)
  match prepared.result with
  | .error e => (failed prepared.printed e, tree)
  | .ok (format, g) =>
    match OutputDir.write g output format tree with
    | .error (failure, tree) =>
      (failed prepared.printed
        ((Fatal.ofFailure failure).within ("failed to write output to " ++ output)), tree)
    | .ok (_, tree) =>
      ({ exit := if g.hasErrors then 1 else 0, stderr := prepared.printed }, tree)

/-- The store that a query is put to. -/
def storeFor (tree : FileTree) (scope : Scope) (inputs : List String) (dir : String)
    (options : Options) : Printing Store :=
  match scope with
  | .source => do
    let g ← generateFrom tree inputs options
    return Store.ofTopics g.index g.topics .rd
  | .compiled =>
    match OutputDir.load tree dir with
    | .ok store => .pure store
    | .error failure =>
      .fail ((Fatal.ofFailure failure).within ("failed to load compiled topics from " ++ dir))

/-- Answers a query. -/
def runLookup (tree : FileTree) (query : String) (scope : Scope) (inputs : List String)
    (dir : String) (options : Options) : Outcome :=
  let prepared := storeFor tree scope inputs dir options
  match prepared.result with
  | .error e => failed prepared.printed e
  | .ok store =>
    match (({} : ScopedStores).set scope store).lookup query scope with
    | .ok found => { exit := 0, stdout := found.text, stderr := prepared.printed }
    | .error e => { exit := 1, stderr := prepared.printed ++ ["error: " ++ e.message] }

/-- The directory of the build output. -/
def outputDir (flag : Option String) (config : Config) : String :=
  (flag.or config.output).getD "."

/-- Runs a command with its configuration. -/
def runCommand (tree : FileTree) (config : Config) : Command → Outcome × FileTree
  | .build inputs output format source =>
    runBuild tree inputs (outputDir output config) format (optionsFor config source)
  | .lookup query inputs scope dir source =>
    (runLookup tree query scope inputs (outputDir dir config) (optionsFor config source), tree)

/-- Runs a command line on a file tree. Malformed arguments end the run with status two. -/
def run (args : List String) (tree : FileTree) : Outcome × FileTree :=
  match Invocation.ofArguments args with
  | none => ({ exit := 2 }, tree)
  | some invocation =>
    match Config.discover tree invocation.config "." with
    | .error failure => (failed [] (.ofFailure failure), tree)
    | .ok config => runCommand tree config invocation.command

end CommandLine

end DocTopics
