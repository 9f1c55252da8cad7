import DocTopics.File.Tree
import DocTopics.Glob.Pattern

/-!
# Searching a file tree

A glob is a path of patterns. The search goes down the tree one component at a time; a `**`
component stays at its place in the glob while it goes down. The entries of a directory come in
ascending order, `..` and `.` in front of them, and a directory comes in front of what it holds.

## Main definitions

- `Glob.ofText` — reads a glob
- `Glob.search` — the paths that a glob stands for
-/

namespace DocTopics

/-- A path of patterns. -/
structure Glob where
  /-- The directory in which the search starts. -/
  start : String
  patterns : List Glob.Pattern
  /-- The glob ends with a slash, so only directories count. -/
  dirsOnly : Bool

namespace Glob

/-- The pieces between slashes without an empty last piece. -/
def components (cs : List Char) : List String :=
  let pieces := (Chars.pieces (· == '/') cs).map String.ofList
  if pieces.getLast? == some "" then pieces.dropLast else pieces

/-- Reads a glob. The text as a whole and each of its components have to be well formed. -/
def ofText (text : String) : Option Glob := do
  let _ ← tokens? text
  let isAbsolute := text.toList.head? == some '/'
  let rest := if isAbsolute then text.toList.drop 1 else text.toList
  let patterns ← (components rest).mapM tokens?
  return { start := if isAbsolute then "/" else "."
           patterns := if patterns.isEmpty then [[]] else patterns
           dirsOnly := text.toList.getLast? == some '/' }

/-- The path of an entry; entries of the working directory go without a leading `.`. -/
def childPath (path name : String) : String :=
  if Path.parts path == [.here] then name else Path.join path name

/-- Drops further recursive patterns behind a recursive one. -/
def collapse (patterns : List Pattern) : List Pattern :=
  patterns.dropWhile Pattern.isRecursive

/-- The paths below `path` that fit the patterns. Every step uses up a pattern or goes down one
level of the tree, so the search ends; `fuel` bounds the number of steps. -/
def searchFrom (tree : FileTree) (dirsOnly : Bool) (fuel : Nat) (path : String)
    (patterns : List Pattern) : List String :=
  match fuel, patterns with
  | 0, _ => []
  | _, [] => []
  | fuel + 1, p :: ps =>
    let found (next : String) : List String :=
      if dirsOnly && !tree.isDir next then [] else [next]
    let add (next : String) : List String :=
      if ps.isEmpty then found next else searchFrom tree dirsOnly fuel next ps
    let matchEntry (child : String) : List Pattern → List String
      | [] => []
      | q :: qs =>
        match Path.fileName? child with
        | none => []
        | some name =>
          if q.matchesName name then
            if qs.isEmpty then found child else searchFrom tree dirsOnly fuel child qs
          else []
    match p.literal? with
    | some name =>
      let next := childPath path name
      if name == "." || name == ".." then (if tree.isDir path then add next else [])
      else if tree.pathExists next then add next else []
    | none =>
      if tree.isDir path then
        (if p.startsWithDot then
          ["..", "."].flatMap fun special =>
            if p.matchesName special then add (Path.join path special) else []
          else []) ++
        (tree.list path).flatMap fun name =>
          let child := childPath path name
          if p.isRecursive then
            let rest := collapse ps
            let matched := matchEntry child rest
            if tree.isDir child then
              (if rest.isEmpty then [child] else matched) ++
                searchFrom tree dirsOnly fuel child (p :: rest)
            else matched
          else matchEntry child (p :: ps)
      else []

/-- The paths that a glob stands for. -/
def search (tree : FileTree) (g : Glob) : List String :=
  searchFrom tree g.dirsOnly ((g.patterns.length + 1) * (tree.nodes.length + 2)) g.start g.patterns

end Glob

end DocTopics
