import DocTopics.Text.Basic

/-!
# Paths

A path is a text of components between slashes. Paths are shown as they were spelled, but compared
by components: repeated slashes, `.` components behind the first and a slash at the end do not
count.

## Main definitions

- `Path.join` — a path with a name appended
- `Path.extension?`, `Path.stem` — the parts of a file name
- `Path.parts`, `Path.before` — the components of a path, and the order of paths
- `Path.upward` — a path and the paths of the directories that lead to it
-/

namespace DocTopics.Path

/-- The path of `name` inside the directory `dir`. -/
def join (dir name : String) : String :=
  match dir.toList.getLast? with
  | none => name
  | some c => if c == '/' then dir ++ name else dir ++ "/" ++ name

/-- The extension and the stem of a file name: what stands behind and in front of its last dot. A
dot at the very start does not count. -/
def splitExtension (name : String) : Option (String × String) :=
  let rev := name.toList.reverse
  match rev.dropWhile (· != '.') with
  | [] => none
  | [_] => none
  | _ :: stem =>
    some (String.ofList (rev.takeWhile (· != '.')).reverse, String.ofList stem.reverse)

/-- The extension of a file name. -/
def extension? (name : String) : Option String :=
  (splitExtension name).map (·.1)

/-- A file name without its extension. -/
def stem (name : String) : String :=
  match splitExtension name with
  | some (_, stem) => stem
  | none => name

/-- A component of a path. -/
inductive Part where
  /-- The slash at the start of an absolute path. -/
  | root
  /-- A `.` at the start of a relative path. -/
  | here
  | parent
  | name (s : String)
deriving DecidableEq

/-- The place of a kind of component in the order of components. -/
def Part.rank : Part → Nat
  | .root => 0
  | .here => 1
  | .parent => 2
  | .name _ => 3

/-- The strict order of components. -/
def Part.before : Part → Part → Bool
  | .name a, .name b => a < b
  | a, b => a.rank < b.rank

/-- The component of a piece behind the start. -/
def Part.ofPiece (piece : String) : Option Part :=
  if piece = "" || piece = "." then none
  else if piece = ".." then some .parent
  else some (.name piece)

/-- The components of a path. -/
def parts (path : String) : List Part :=
  match Text.splitOn '/' path with
  | [] => []
  | first :: rest =>
    let start : List Part :=
      if first = "" then (if rest.isEmpty then [] else [.root])
      else if first = "." then [.here]
      else (Part.ofPiece first).toList
    start ++ rest.filterMap Part.ofPiece

/-- The strict lexicographic order of component lists. -/
def partsBefore : List Part → List Part → Bool
  | _, [] => false
  | [], _ :: _ => true
  | a :: as, b :: bs => a.before b || (a == b && partsBefore as bs)

/-- The strict order of paths. -/
def before (a b : String) : Bool :=
  partsBefore (parts a) (parts b)

/-- Two spellings of one path. -/
def same (a b : String) : Bool :=
  parts a == parts b

/-- The beginnings of a path that end with a component, the longest first. `start` is spelled in
front of the pieces and does not count. -/
def beginnings (start : String) : List String → List String
  | [] => []
  | piece :: rest =>
    let path := start ++ "/" ++ piece
    beginnings path rest ++ if (Part.ofPiece piece).isSome then [path] else []

/-- The path and the paths of the directories on the way to it, from the last to the first. The
working directory is not among them unless it is spelled. -/
def upward (path : String) : List String :=
  match Text.splitOn '/' path with
  | [] => []
  | [""] => []
  | "" :: rest => beginnings "" rest ++ ["/"]
  | first :: rest => beginnings first rest ++ [first]

/-- The last component, if it is a name. -/
def fileName? (path : String) : Option String :=
  match (parts path).getLast? with
  | some (.name s) => some s
  | _ => none

end DocTopics.Path
