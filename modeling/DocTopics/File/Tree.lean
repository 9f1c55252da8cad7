import DocTopics.Failure
import DocTopics.File.Path
import DocTopics.Sorting

/-!
# File trees

A file tree is what a program sees of a file system: files with their contents, and directories. A
file can be read if its contents are a text in UTF-8. Nodes are kept by location, the list of names
that leads to them from the working directory. The root of absolute paths is the location `["/"]`,
and the directories above the working directory are the locations `[".."]`, `["..", ".."]` and so
on; they are always there. Names and paths are bounded in length, as they are in a file system.

## Main definitions

- `FileTree.locate` — the location that a path leads to
- `FileTree.read`, `FileTree.list`, `FileTree.isFile`, `FileTree.isDir` — queries
- `FileTree.write`, `FileTree.remove`, `FileTree.makeDirs` — changes
-/

namespace DocTopics

/-- The names that lead to a node. -/
abbrev Location := List String

/-- What a file holds: a text, or bytes that are no text. -/
inductive Contents where
  | text (s : String)
  | binary (bytes : ByteArray) (notText : ¬bytes.IsValidUTF8)

namespace Contents

instance : DecidableEq Contents
  | .text s, .text t => decidable_of_iff (s = t) (text.injEq s t).to_iff.symm
  | .text _, .binary .. => isFalse Contents.noConfusion
  | .binary .., .text _ => isFalse Contents.noConfusion
  | .binary b h, .binary b' h' =>
    decidable_of_iff (b.data = b'.data)
      (ByteArray.ext_iff.symm.trans (binary.injEq b h b' h').to_iff.symm)

/-- The bytes of a file. -/
def bytes : Contents → ByteArray
  | .text s => s.toUTF8
  | .binary bytes _ => bytes

/-- What a file of these bytes holds. -/
def ofBytes (bytes : ByteArray) : Contents :=
  if h : bytes.IsValidUTF8 then .text (String.fromUTF8 bytes h) else .binary bytes h

/-- Where a text is shown, contents without one show nothing. -/
instance : CoeOut Contents String where
  coe
    | .text s => s
    | .binary .. => ""

theorem bytes_ofBytes (b : ByteArray) : (ofBytes b).bytes = b := by
  unfold ofBytes
  split <;> rfl

/-- Files with the same bytes hold the same. -/
theorem ofBytes_bytes (c : Contents) : ofBytes c.bytes = c := by
  cases c with
  | text s => exact dif_pos s.isValidUTF8
  | binary bytes notText => exact dif_neg notText

end Contents

/-- A file or a directory. -/
inductive Node where
  | dir
  | file (contents : Contents)
deriving DecidableEq

/-- The nodes of a file tree by location. The working directory itself is not listed. -/
structure FileTree where
  nodes : List (Location × Node) := []

namespace FileTree

/-- The working directory or a directory above it. -/
def isAbove (loc : Location) : Bool :=
  loc.all (· == "..")

/-- The working directory, the directories above it and the root directory are always there. -/
def isRoot (loc : Location) : Bool :=
  isAbove loc || loc == ["/"]

/-- The node at a location. -/
def get? (tree : FileTree) (loc : Location) : Option Node :=
  if isRoot loc then some .dir else (tree.nodes.find? (·.1 == loc)).map (·.2)

/-- The list with the node at a location replaced, or added at the end. -/
def setNode (loc : Location) (node : Node) : List (Location × Node) → List (Location × Node)
  | [] => [(loc, node)]
  | x :: xs => if x.1 = loc then (loc, node) :: xs else x :: setNode loc node xs

/-- The tree with a node put at a location. -/
def put (tree : FileTree) (loc : Location) (node : Node) : FileTree :=
  { nodes := setNode loc node tree.nodes }

/-- The tree without the node at a location. -/
def erase (tree : FileTree) (loc : Location) : FileTree :=
  { nodes := tree.nodes.filter (·.1 != loc) }

theorem find?_setNode (loc other : Location) (node : Node) (nodes : List (Location × Node)) :
    ((setNode loc node nodes).find? (·.1 == other)).map (·.2) =
      if other = loc then some node else (nodes.find? (·.1 == other)).map (·.2) := by
  induction nodes with
  | nil =>
    by_cases h : other = loc
    · simp [setNode, h]
    · simp [setNode, h, Ne.symm h]
  | cons x xs ih =>
    by_cases hx : x.1 = loc <;> by_cases h : other = loc <;> grind [setNode]

/-- A node is found where it was put, and no other location changes. -/
theorem get?_put {tree : FileTree} {loc : Location} {node : Node} (h : isRoot loc = false)
    (other : Location) :
    (tree.put loc node).get? other = if other = loc then some node else tree.get? other := by
  simp only [get?, put, find?_setNode]
  by_cases ho : other = loc
  · simp [ho, h]
  · simp [ho]

theorem get?_erase {tree : FileTree} {loc : Location} (h : isRoot loc = false) (other : Location) :
    (tree.erase loc).get? other = if other = loc then none else tree.get? other := by
  by_cases ho : other = loc
  · subst ho
    simp only [get?, erase, h, Bool.false_eq_true, ↓reduceIte, Option.map_eq_none_iff,
      List.find?_eq_none, List.mem_filter]
    grind
  · simp only [get?, erase, ho, ↓reduceIte, List.find?_filter]
    congr 3
    funext x
    grind

/-- The location one level up; the root directory is its own parent. -/
def parentOf (loc : Location) : Location :=
  if isAbove loc then loc ++ [".."] else if loc = ["/"] then loc else loc.dropLast

/-- The pieces of a path and the location they start from. -/
def startOf (path : String) : Location × List String :=
  match Text.splitOn '/' path with
  | "" :: piece :: rest => (["/"], piece :: rest)
  | pieces => ([], pieces)

/-- The number of bytes that a path may have. -/
def maxPathBytes : Nat :=
  4095

/-- The number of bytes that the name of a file or directory may have. -/
def maxNameBytes : Nat :=
  255

/-- Goes from a location along the pieces of a path. Everything that is passed has to be a
directory; the end may be missing. -/
def walk (tree : FileTree) (loc : Location) : List String → Except FileFault Location
  | [] => .ok loc
  | piece :: rest =>
    match tree.get? loc with
    | none => .error .notFound
    | some (.file _) => .error .notDirectory
    | some .dir =>
      if piece = "" || piece = "." then walk tree loc rest
      else if piece = ".." then walk tree (parentOf loc) rest
      else if maxNameBytes < piece.utf8ByteSize then .error .nameTooLong
      else walk tree (loc ++ [piece]) rest

/-- The location that a path leads to. The empty path leads nowhere. -/
def locate (tree : FileTree) (path : String) : Except FileFault Location :=
  if path.toList.contains '\x00' then .error .nulInName
  else if maxPathBytes < path.utf8ByteSize then .error .nameTooLong
  else if path = "" then .error .notFound
  else tree.walk (startOf path).1 (startOf path).2

/-- The node that a path leads to. -/
def nodeAt (tree : FileTree) (path : String) : Except FileFault Node := do
  match tree.get? (← tree.locate path) with
  | some node => .ok node
  | none => .error .notFound

/-- The path leads to a file. -/
def isFile (tree : FileTree) (path : String) : Bool :=
  match tree.nodeAt path with
  | .ok (.file _) => true
  | _ => false

/-- The path leads to a directory. -/
def isDir (tree : FileTree) (path : String) : Bool :=
  match tree.nodeAt path with
  | .ok .dir => true
  | _ => false

/-- The path leads somewhere. -/
def pathExists (tree : FileTree) (path : String) : Bool :=
  match tree.nodeAt path with
  | .ok _ => true
  | .error _ => false

/-- The text of the file that a path leads to. -/
def read (tree : FileTree) (path : String) : Except FileFault String := do
  match ← tree.nodeAt path with
  | .file (.text text) => .ok text
  | .file (.binary ..) => .error .notText
  | .dir => .error .isDirectory

/-- The name of a node if it stands directly in a directory. -/
def childName (dir loc : Location) : Option String :=
  match loc.getLast? with
  | some name => if loc = dir ++ [name] then some name else none
  | none => none

/-- The names in the directory at a location, in ascending order. -/
def children (tree : FileTree) (dir : Location) : List String :=
  sortStrings (tree.nodes.filterMap fun x => childName dir x.1)

/-- The names in the directory that a path leads to. -/
def list (tree : FileTree) (path : String) : List String :=
  match tree.locate path with
  | .ok dir => tree.children dir
  | .error _ => []

/-- Writes a file, new or in place of an old one. Its directory has to exist, or the path leads
nowhere. -/
def write (tree : FileTree) (path text : String) : Except FileFault FileTree := do
  let loc ← tree.locate path
  match tree.get? loc with
  | some .dir => .error .isDirectory
  | _ => .ok (tree.put loc (.file (.text text)))

/-- Removes a file. -/
def remove (tree : FileTree) (path : String) : Except FileFault FileTree := do
  let loc ← tree.locate path
  match tree.get? loc with
  | some (.file _) => .ok (tree.erase loc)
  | some .dir => .error .isDirectory
  | none => .error .notFound

/-- A fault together with the tree it left. -/
abbrev Change := Except (FileFault × FileTree)

/-- Makes the directory that a path leads to. The directory that holds it has to exist. -/
def makeDir (tree : FileTree) (path : String) : Except FileFault FileTree := do
  let loc ← tree.locate path
  match tree.get? loc with
  | some _ => .error .alreadyExists
  | none => .ok (tree.put loc .dir)

/-- The tree, if a path leads to a directory in it; otherwise the fault. -/
def orDir (tree : FileTree) (path : String) (fault : FileFault) : Change FileTree :=
  if tree.isDir path then .ok tree else .error (fault, tree)

/-- Makes the directory of the first path. Where the directory that holds it is missing, that one is
made first, and its path comes next. -/
def makeUpward (tree : FileTree) : List String → Change FileTree
  | [] => .ok tree
  | path :: above =>
    match tree.makeDir path with
    | .ok tree => .ok tree
    | .error .notFound => do
      let tree ← makeUpward tree above
      match tree.makeDir path with
      | .ok tree => .ok tree
      | .error fault => tree.orDir path fault
    | .error fault => tree.orDir path fault

/-- Makes the directory that a path leads to, and every directory on the way, unless they exist.
What was made before a fault stays. -/
def makeDirs (tree : FileTree) (path : String) : Change FileTree :=
  tree.makeUpward (Path.upward path)

end FileTree

end DocTopics
