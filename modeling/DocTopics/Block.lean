import DocTopics.Declaration.Recognition
import DocTopics.Diagnostic

/-!
# Documentation blocks

A line of a unit is a marker line, a plain comment, blank, or code. Consecutive marker lines form a
run. A run is bound to the first line after it that is neither blank nor a plain comment, provided
that line is code and starts a declaration; a run that cannot be bound is discarded with a warning.

## Main definitions

- `LineClass.of` — the class of a line
- `Block` — a run bound to its declaration
- `Block.findings` — one finding per run of a unit, in order
- `Block.ofUnit`, `Block.discarded` — the blocks of a unit and the warnings for discarded runs
- `Block.callables` — the functions and generics that a unit declares, documented or not
-/

namespace DocTopics

/-- The class of a source line. -/
inductive LineClass where
  /-- Documentation: the text behind the marker and at most one blank. -/
  | marker (text : String)
  | comment
  | blank
  | code
deriving DecidableEq

/-- The text behind the marker without one leading blank. -/
def LineClass.afterMarker : List Char → List Char
  | ' ' :: cs => cs
  | cs => cs

/-- The class of a line for a given marker. Indentation does not matter, and the marker is tried
first, so an empty marker makes every line a marker line. -/
def LineClass.of (marker line : String) : LineClass :=
  let cs := Chars.trimStart line.toList
  match Chars.past marker.toList cs with
  | some rest => .marker (String.ofList (LineClass.afterMarker rest))
  | none =>
    match cs with
    | [] => .blank
    | c :: _ => if c == '#' then .comment else .code

/-- A line of documentation and its number in the unit. -/
structure NumberedLine where
  number : Nat
  text : String
deriving DecidableEq

/-- A run of marker lines bound to the declaration it stands in front of. -/
structure Block where
  unit : String
  place : Place
  lines : List NumberedLine
  declaration : Declaration
deriving DecidableEq

namespace Block

/-- The position of the first line of a block. -/
def pos (b : Block) : Position :=
  ⟨b.unit, b.place.line⟩

/-- What became of a run of marker lines. -/
inductive Finding where
  | bound (block : Block)
  | discarded (pos : Position)
deriving DecidableEq

/-- A run that cannot be bound is discarded; there is nothing to discard without a run. -/
def discard (unit : SourceUnit) : List NumberedLine → List Finding
  | [] => []
  | first :: _ => [.discarded ⟨unit.id, first.number⟩]

/-- Binds a run to the code that starts with the given lines, or discards it. -/
def settle (unit : SourceUnit) (ordinal number : Nat) (code : List String) :
    List NumberedLine → List Finding
  | [] => []
  | first :: rest =>
    match Declaration.recognize code number with
    | some declaration =>
      [.bound { unit := unit.id, place := ⟨ordinal, first.number⟩, lines := first :: rest
                declaration := declaration }]
    | none => discard unit (first :: rest)

/-- The findings of the lines from `number` on, with the run that is open in front of them. The run
is `closed` when a blank line or a plain comment has followed it. -/
def scan (unit : SourceUnit) (ordinal : Nat) (marker : String) (number : Nat)
    (run : List NumberedLine) (closed : Bool) : List String → List Finding
  | [] => discard unit run
  | line :: rest =>
    match LineClass.of marker line with
    | .marker text =>
      let entry : NumberedLine := ⟨number, Text.trimEnd text⟩
      if closed then discard unit run ++ scan unit ordinal marker (number + 1) [entry] false rest
      else scan unit ordinal marker (number + 1) (run ++ [entry]) false rest
    | .code =>
      settle unit ordinal number (line :: rest) run ++
        scan unit ordinal marker (number + 1) [] false rest
    | _ => scan unit ordinal marker (number + 1) run (!run.isEmpty) rest

/-- One finding per run of marker lines of a unit, in order. -/
def findings (unit : SourceUnit) (ordinal : Nat) (marker : String) : List Finding :=
  scan unit ordinal marker 1 [] false (Text.lines unit.text)

/-- The block of a finding. -/
def Finding.block? : Finding → Option Block
  | .bound b => some b
  | .discarded _ => none

/-- The warning for a discarded run. -/
def Finding.warning? : Finding → Option Diagnostic
  | .bound _ => none
  | .discarded pos =>
    some (.warning pos "documentation block is not followed by a declaration; discarded")

/-- The blocks of a unit in source order. -/
def ofUnit (unit : SourceUnit) (ordinal : Nat) (marker : String) : List Block :=
  (findings unit ordinal marker).filterMap Finding.block?

/-- The warnings for the runs of a unit that became no block. -/
def discarded (unit : SourceUnit) (ordinal : Nat) (marker : String) : List Diagnostic :=
  (findings unit ordinal marker).filterMap Finding.warning?

/-- The declarations that start on the code lines from `number` on. -/
def declarations (marker : String) (number : Nat) : List String → List Declaration
  | [] => []
  | line :: rest =>
    match LineClass.of marker line with
    | .code =>
      (Declaration.recognize (line :: rest) number).toList ++ declarations marker (number + 1) rest
    | _ => declarations marker (number + 1) rest

/-- The names of the functions and generics that a unit declares, documented or not. -/
def callables (unit : SourceUnit) (marker : String) : List String :=
  (declarations marker 1 (Text.lines unit.text)).filterMap fun d =>
    match d.kind with
    | .function | .generic => d.name
    | _ => none

end Block

end DocTopics
