import DocTopics.CommandLine.Run

/-!
# The program

Reads the files that a command line may concern into a file tree, runs the command on the tree, and
carries the changes out.
-/

namespace DocTopics.Program

/-- The path of a location. -/
def pathOf : Location → String
  | "/" :: rest => "/" ++ Text.join "/" rest
  | loc => Text.join "/" loc

/-- Reads a directory entry and everything below it. -/
partial def readEntry (dir : Location) (entry : IO.FS.DirEntry) : IO (List (Location × Node)) := do
  let loc := dir ++ [entry.fileName]
  if ← entry.path.isDir then
    let below ← (← entry.path.readDir).toList.mapM (readEntry loc)
    return (loc, .dir) :: below.flatten
  else
    try
      return [(loc, .file (.ofBytes (← IO.FS.readBinFile entry.path)))]
    catch _ => return []

/-- Reads the working directory. -/
def readWorkingDir : IO (List (Location × Node)) := do
  let entries ← (← IO.currentDir).readDir
  return (← entries.toList.mapM (readEntry [])).flatten

/-- A path component without wildcards. -/
def isFixed (piece : String) : Bool :=
  !piece.toList.any fun c => c == '*' || c == '?' || c == '['

/-- The location that a path spells up to its first wildcard. -/
def spelled (path : String) : Location :=
  let (start, pieces) := FileTree.startOf path
  (pieces.takeWhile isFixed).foldl (fun loc piece =>
    if piece = "" || piece = "." then loc
    else if piece = ".." then FileTree.parentOf loc
    else loc ++ [piece]) start

/-- Reads what stands at one location, which is outside the working directory: the entries of its
parent directory of that name. -/
def readOutside (loc : Location) : IO (List (Location × Node)) := do
  match loc.getLast? with
  | none => return []
  | some name =>
    try
      let parent := pathOf loc.dropLast
      let entries ← (← IO.FS.realPath (if parent = "" then "." else parent)).readDir
      return (← (entries.toList.filter (·.fileName == name)).mapM (readEntry loc.dropLast)).flatten
    catch _ => return []

/-- The directories that lead to a location. -/
def ancestors (loc : Location) : List Location :=
  (List.range loc.length).map loc.take

/-- A directory stands at a location. -/
def isDirectory (loc : Location) : IO Bool := do
  try
    (← IO.FS.realPath (pathOf loc)).isDir
  catch _ => return false

/-- Reads what a path leads to if that is outside the working directory. -/
def readPath (path : String) : IO (List (Location × Node)) := do
  let loc := spelled path
  if loc.head? == some "/" || loc.head? == some ".." then
    let above ← ((ancestors loc).filter (!FileTree.isRoot ·)).filterM isDirectory
    return above.map (·, .dir) ++ (← readOutside loc)
  else return []

/-- The paths that an argument may name: the argument and what follows an equals sign in it. -/
def pathsIn (arg : String) : List String :=
  match Text.cutAt (· == '=') arg with
  | some (_, value) => [arg, value]
  | none => [arg]

/-- The output directory that the configuration names. -/
def configuredOutput (args : List String) (tree : FileTree) : List String :=
  match Invocation.ofArguments args with
  | none => []
  | some invocation =>
    match Config.discover tree invocation.config "." with
    | .ok config => config.output.toList
    | .error _ => []

/-- Reads every file that the command line may concern. -/
def readTree (args : List String) : IO FileTree := do
  let inside ← readWorkingDir
  let named ← (args.flatMap pathsIn).mapM readPath
  let tree : FileTree := ⟨inside ++ named.flatten⟩
  let configured ← (configuredOutput args tree).mapM readPath
  return ⟨tree.nodes ++ configured.flatten⟩

/-- Makes one node of the new tree. -/
def makeNode : Location × Node → IO Unit
  | (loc, .dir) => IO.FS.createDirAll (pathOf loc)
  | (loc, .file contents) => IO.FS.writeBinFile (pathOf loc) contents.bytes

/-- Carries out what changed from one tree to the next. -/
def carryOut (old new : FileTree) : IO Unit := do
  for (loc, node) in old.nodes do
    if (new.get? loc).isNone && node != .dir then
      IO.FS.removeFile (pathOf loc)
  for (loc, node) in new.nodes do
    if old.get? loc != some node then
      makeNode (loc, node)

end DocTopics.Program

open DocTopics in
/-- Runs the command line and ends with its exit status. -/
def main (args : List String) : IO UInt32 := do
  let tree ← Program.readTree args
  let (outcome, after) := CommandLine.run args tree
  Program.carryOut tree after
  for line in outcome.stderr do
    IO.eprintln line
  IO.print outcome.stdout
  return outcome.exit.toUInt32
