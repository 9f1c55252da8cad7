import DocTopics.Document.Format
import DocTopics.File.Tree
import DocTopics.Manual.Basic
import DocTopics.Store

/-!
# Build output

A manual is kept in an output directory: one document per topic under `man`, the export
directives, the collation order and the alias table. Documents of an earlier build that no longer
have a topic are removed; they are told by the header in their first line, so documents written by
hand stay.

A failure leaves the tree as it was when the failure happened, so it comes with that tree.

## Main definitions

- `OutputDir.documents` — the documents of a manual with their paths
- `OutputDir.stale` — the documents to be removed
- `OutputDir.write` — writes a manual
- `OutputDir.load` — the store of an output directory
-/

namespace DocTopics.OutputDir

/-- The directory of the documents. -/
def manDir (dir : String) : String :=
  Path.join dir "man"

/-- The file of the alias table. -/
def aliasTable (dir : String) : String :=
  Path.join dir "aliases.tsv"

/-- The character that stands for another in a file name. -/
def fileChar (c : Char) : Char :=
  if ['/', '\\', ':', '*', '?', '"', '<', '>', '|'].contains c then '_' else c

/-- The file name of a topic, without an extension. -/
def fileName (id : String) : String :=
  String.ofList (id.toList.map fileChar)

/-- The file name of the document of a topic. -/
def documentName (format : Format) (t : Topic) : String :=
  fileName t.id ++ "." ++ format.extension

/-- A file to be written. -/
structure Output where
  path : String
  text : String

/-- The documents of a manual, in topic order. -/
def documents (m : Manual) (dir : String) (format : Format) : List Output :=
  m.shownTopics.map fun t => ⟨Path.join (manDir dir) (documentName format t), format.render t⟩

/-- The files beside the documents, in the order in which they are written. -/
def tables (m : Manual) (dir : String) : List Output :=
  [⟨Path.join dir "NAMESPACE", exportFile m.exports⟩,
    ⟨Path.join dir "COLLATE", Text.joinLines m.collation ++ "\n"⟩,
    ⟨aliasTable dir, m.index.toTable⟩]

/-- A failure together with the tree it left. -/
abbrev Attempt := Except (Failure × FileTree)

/-- Makes a change to a tree; a fault becomes a failure that names the path. -/
def attempt (tree : FileTree) (path : String) (change : Except FileFault α) : Attempt α :=
  change.mapError fun fault => (.file path fault, tree)

/-- Makes the directory of the documents. -/
def makeManDir (tree : FileTree) (dir : String) : Attempt FileTree :=
  (tree.makeDirs (manDir dir)).mapError fun (fault, tree) => (.file (manDir dir) fault, tree)

/-- Writes one file. -/
def writeOutput (tree : FileTree) (out : Output) : Attempt FileTree :=
  attempt tree out.path (tree.write out.path out.text)

/-- The text starts with the header of a generated file. -/
def isGenerated (text : String) : Bool :=
  match Text.lines text with
  | [] => false
  | first :: _ => Text.occurs generatedHeader first

/-- The file of this name is a generated document that is not among the current ones. -/
def isStale (tree : FileTree) (man extension : String) (current : List String) (name : String) :
    Bool :=
  Path.extension? name == some extension && !current.contains name &&
    match tree.read (Path.join man name) with
    | .ok text => isGenerated text
    | .error _ => false

/-- The paths of the stale documents, in ascending order of their names. -/
def stale (m : Manual) (dir : String) (format : Format) (tree : FileTree) : List String :=
  let current := m.shownTopics.map (documentName format)
  ((tree.list (manDir dir)).filter (isStale tree (manDir dir) format.extension current)).map
    (Path.join (manDir dir))

/-- Removes one file. -/
def removeFile (tree : FileTree) (path : String) : Attempt FileTree :=
  attempt tree path (tree.remove path)

/-- What was written, in order, and what was removed. -/
structure Summary where
  written : List String
  removed : List String

/-- Writes a manual into an output directory. -/
def write (m : Manual) (dir : String) (format : Format) (tree : FileTree) :
    Attempt (Summary × FileTree) := do
  let tree ← makeManDir tree dir
  let tree ← (documents m dir format).foldlM writeOutput tree
  let removed := stale m dir format tree
  let tree ← removed.foldlM removeFile tree
  let tree ← (tables m dir).foldlM writeOutput tree
  return ({ written := (documents m dir format ++ tables m dir).map (·.path), removed := removed },
    tree)

/-- Reads a file; a fault becomes a failure that names the path. -/
def readFile (tree : FileTree) (path : String) : Except Failure String :=
  (tree.read path).mapError (.file path)

/-- The documents in a directory. Only Rd documents count. -/
def loadDocuments (tree : FileTree) (man : String) : Except Failure (List Rendered) :=
  ((tree.list man).filter fun name => Path.extension? name == some Format.rd.extension).mapM
    fun name => (readFile tree (Path.join man name)).map fun text => ⟨Path.stem name, text⟩

/-- The store of an output directory. -/
def load (tree : FileTree) (dir : String) : Except Failure Store := do
  let table ← readFile tree (aliasTable dir)
  let index ← AliasIndex.ofTable table
  let documents ←
    if tree.isDir (manDir dir) then loadDocuments tree (manDir dir) else .ok []
  return { index := index, documents := documents }

end DocTopics.OutputDir
