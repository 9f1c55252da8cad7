import DocTopics.Alias.Index
import DocTopics.Collation
import DocTopics.Export
import DocTopics.Topic.CrossReference
import DocTopics.Topic.Merge
import DocTopics.Topic.OfComment

/-!
# Manuals

A manual is everything that one set of source units gives: the topics, the alias index, the
collation order of the units, the export directives, and the diagnostics.

## Main definitions

- `ParsedUnit` — the blocks of a unit with their comments
- `Inputs` — the units and options of a run, with the steps up to merging as functions of them
- `resolveUnit` — the unit that an include directive means
- `generate` — the manual of a run, or the failure that prevents it
-/

namespace DocTopics

/-- The settings of a run. -/
structure Options where
  /-- What a documentation line starts with. -/
  marker : String := "#'"
  /-- The name of the package. -/
  package : Option String := none
  aliasPolicy : AliasPolicy := .preferSymbol

/-- The blocks of a unit with their comments, and what was wrong with them. -/
structure ParsedUnit where
  blocks : List (Block × Comment)
  diagnostics : List Diagnostic

/-- Reads the blocks of a unit and their comments. -/
def ParsedUnit.of (unit : SourceUnit) (ordinal : Nat) (marker : String) : ParsedUnit :=
  let blocks := Block.ofUnit unit ordinal marker
  { blocks := blocks.map fun b => (b, Comment.ofBlock b)
    diagnostics := Block.discarded unit ordinal marker ++ blocks.flatMap Comment.strayTags }

/-- Pairs every item with its position. -/
def numbered (xs : List α) : List (α × Nat) :=
  xs.zip (List.range xs.length)

/-- The units, in source order, and the settings of a run. -/
structure Inputs where
  units : List SourceUnit
  options : Options := {}

namespace Inputs

/-- The identifiers of the units. -/
def unitIds (inputs : Inputs) : List String :=
  inputs.units.map (·.id)

/-- The units with their blocks read. -/
def parsed (inputs : Inputs) : List ParsedUnit :=
  (numbered inputs.units).map fun (unit, ordinal) =>
    ParsedUnit.of unit ordinal inputs.options.marker

/-- What a block's topic depends on besides the block. -/
def context (inputs : Inputs) : PackageContext :=
  { package := inputs.options.package
    callables := inputs.units.flatMap fun unit => Block.callables unit inputs.options.marker }

/-- Every block of every unit with its comment, in source order. -/
def blocks (inputs : Inputs) : List (Block × Comment) :=
  inputs.parsed.flatMap (·.blocks)

/-- The topics of single blocks, in source order. -/
def blockTopics (inputs : Inputs) : List Topic :=
  let ctx := inputs.context
  inputs.blocks.filterMap fun (b, c) => Topic.ofComment b c ctx

/-- What is wrong with the units one by one. -/
def unitFaults (inputs : Inputs) : List Diagnostic :=
  let ctx := inputs.context
  inputs.parsed.flatMap fun u => u.diagnostics ++ u.blocks.flatMap fun (b, c) => c.faults b ctx

/-- The include directives of all blocks: the including unit and what it wants. -/
def includes (inputs : Inputs) : List (String × Include) :=
  inputs.blocks.flatMap fun (b, c) => c.includes.map fun i => (b.unit, i)

end Inputs

/-! ### Include directives -/

/-- The last component of a path. -/
def lastComponent (path : String) : String :=
  String.ofList (((Chars.pieces (fun c => c == '/' || c == '\\') path.toList).getLast?).getD [])

/-- The unit that a name means: the unit of that identifier, or else the only one of that file
name. -/
def resolveUnit (name : String) (units : List String) : Option String :=
  if units.contains name then some name
  else
    match units.filter fun u => lastComponent u == name with
    | [only] => some only
    | _ => none

/-- The edges that the include directives give. -/
def includeEdges (units : List String) (includes : List (String × Include)) : List Edge :=
  includes.filterMap fun (unit, i) =>
    (resolveUnit i.unit units).map fun before => { before := before, after := unit }

/-- The include directives that mean no unit. -/
def includeFaults (units : List String) (includes : List (String × Include)) : List Diagnostic :=
  (includes.filter fun (_, i) => (resolveUnit i.unit units).isNone).map fun (unit, i) =>
    .warning ⟨unit, i.line⟩ (ticked ("@include " ++ i.unit) ++ ": no such unit")

/-! ### Diagnostics in source order -/

/-- The place of a unit for sorting: a unit that is not in the list comes first. -/
def unitRank (units : List String) (unit : String) : Nat :=
  if units.contains unit then units.idxOf unit + 1 else 0

/-- The diagnostics by unit and line; those of one line keep their order. -/
def sortDiagnostics (units : List String) (diagnostics : List Diagnostic) : List Diagnostic :=
  sortBy (fun a b =>
    let ra := unitRank units a.pos.unit
    let rb := unitRank units b.pos.unit
    ra < rb || (ra == rb && a.pos.line < b.pos.line)) diagnostics

/-! ### Manuals -/

/-- Everything one run gives. -/
structure Manual where
  /-- The topics in order of first appearance. -/
  topics : List Topic
  index : AliasIndex
  /-- The unit identifiers in collation order. -/
  collation : List String
  exports : List Export
  diagnostics : List Diagnostic

namespace Manual

/-- Some diagnostic is an error. -/
def hasErrors (m : Manual) : Bool :=
  m.diagnostics.any (·.isError)

/-- The topics that get a document. -/
def shownTopics (m : Manual) : List Topic :=
  m.topics.filter (·.hasDocument)

end Manual

/-- Notes on a package topic which of its names belong to a symbol. -/
def Topic.withShadowed (index : AliasIndex) (t : Topic) : Topic :=
  if t.docType = .package then { t with shadowedAliases := index.shadowed t } else t

/-- The manual of a run. -/
def generate (inputs : Inputs) : Except Failure Manual := do
  let merged ← Topic.merge inputs.blockTopics
  let topics := Topic.resolve merged
  let index ← AliasIndex.build topics inputs.options.aliasPolicy
  let collation ← collationOf inputs.unitIds (includeEdges inputs.unitIds inputs.includes)
  let topics := topics.map (·.withShadowed index)
  return {
    topics := topics
    index := index
    collation := collation
    exports := exportsOf topics
    diagnostics := sortDiagnostics inputs.unitIds
      (inputs.unitFaults ++ Topic.resolveFaults merged ++
        includeFaults inputs.unitIds inputs.includes) }

end DocTopics
