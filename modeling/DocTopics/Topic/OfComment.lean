import DocTopics.Comment
import DocTopics.Topic.Basic

/-!
# From comments to topics

A block and its comment make one topic, which may later be merged with others of its identifier.
The topic starts with what the preamble and the tags about the declaration say. The other tags are
then applied to it one by one, in the order of the comment, and faults are found on the way.

## Main definitions

- `subject` — the declaration that a comment is about
- `Assembly.apply` — applies one tag to a topic in the making
- `Topic.ofComment` — the topic of a block, if it documents something that has a name
- `includes` — the units that have to be loaded first
- `faults` — everything wrong with a comment
- `Built` — all three together
-/

namespace DocTopics

/-- The names of the tags that have a meaning. -/
def tagVocabulary : List String :=
  ["title", "description", "details", "param", "return", "section", "examples", "export", "name",
    "rdname", "aliases", "family", "references", "seealso", "keywords", "docType", "usage",
    "include", "inheritParams", "noRd", "method", "format", "source", "slot", "field"]

/-- What has to be known beyond a block to build its topic. -/
structure PackageContext where
  /-- The name of the package, for a package comment without a name of its own. -/
  package : Option String := none
  /-- The functions and generics declared anywhere in the input. -/
  callables : List String := []

/-- A unit that a comment wants loaded first, and the line that says so. -/
structure Include where
  unit : String
  line : Nat
deriving DecidableEq

namespace Comment

/-- The words of all tags of a name, in order. -/
def wordsOf (c : Comment) (name : String) : List String :=
  (c.all name).flatMap fun t => Text.words t.content

/-- The first word of the last tag of a name. -/
def lastWord (c : Comment) (name : String) : Option String :=
  (c.last? name).bind fun t => (Text.words t.content).head?

/-- The units to be loaded first, in order. -/
def includes (c : Comment) : List Include :=
  (c.all "include").flatMap fun t => (Text.words t.content).map fun unit => ⟨unit, t.line⟩

/-! ### The declaration a comment is about -/

/-- The generic and the class of a method tag. -/
def methodOf (t : Tag) : Option (String × String) :=
  match Text.words t.content with
  | [generic, type] => some (generic, type)
  | _ => none

/-- The generic and the class that the comment says its function is a method for. -/
def methodTag (c : Comment) : Option (String × String) :=
  (c.last? "method").bind methodOf

/-- The declaration with the method tag applied. -/
def withMethod (c : Comment) (d : Declaration) : Declaration :=
  match c.methodTag with
  | some (generic, type) => { d with kind := .method, name := some generic, dispatch := [type] }
  | none => d

/-- The declaration with the name tag applied; a method keeps the name of its generic. -/
def withName (c : Comment) (d : Declaration) : Declaration :=
  match c.lastWord "name" with
  | some name => if d.kind = .method then d else { d with name := some name }
  | none => d

/-- The declaration with the package's name if it stands for the package and has no name. -/
def withPackage (ctx : PackageContext) (d : Declaration) : Declaration :=
  if d.name.isNone && d.kind = .sentinel .package then { d with name := ctx.package } else d

/-- The declaration that the comment is about. -/
def target (c : Comment) (ctx : PackageContext) (d : Declaration) : Declaration :=
  withPackage ctx (c.withName (c.withMethod d))

/-- The comment holds nothing but collation directives. -/
def directivesOnly (c : Comment) : Bool :=
  Text.blank c.preamble && c.tags.all (·.name == "include")

/-- The documentation type: what the last type tag says, if it can be read, or what the kind of
declaration implies. -/
def docTypeFor (c : Comment) (d : Declaration) : DocType :=
  match c.last? "docType" with
  | some t =>
    match DocType.ofWord t.content with
    | .ok docType => docType
    | .error _ => DocType.ofKind d.kind
  | none => DocType.ofKind d.kind

/-! ### Fields -/

/-- The text of the last tag of a name, unless it is blank. -/
def explicitPassage (c : Comment) (name : String) : Option Passage :=
  (c.last? name).bind fun t =>
    (Text.nonempty (Text.trim t.content)).map fun text => { text := text, explicit := true }

/-- The title that the comment spells: a tag, or the first paragraph. -/
def ownTitle (c : Comment) : Option Passage :=
  (c.explicitPassage "title").orElse fun _ =>
    (paragraphs c.preamble)[0]?.map fun text => { text := text }

/-- The description: a tag, or the second paragraph. -/
def description (c : Comment) : Option Passage :=
  (c.explicitPassage "description").orElse fun _ =>
    (paragraphs c.preamble)[1]?.map fun text => { text := text }

/-- The details: a tag, or all paragraphs from the third on. -/
def details (c : Comment) : Option Passage :=
  (c.explicitPassage "details").orElse fun _ =>
    match (paragraphs c.preamble).drop 2 with
    | [] => none
    | paras => some { text := Text.join "\n\n" paras }

/-- The title; without one of its own a comment is titled by its description. -/
def title (c : Comment) : Option Passage :=
  c.ownTitle.orElse fun _ => c.description.map fun field => { text := field.text }

/-- The entry of a tag that documents an argument, a slot or a field. -/
def entryOf (t : Tag) : Option Param :=
  match Text.cutAt isBlank (Text.trim t.content) with
  | none => none
  | some (name, rest) =>
    if name = "" || Text.blank rest then none
    else some { name := name, description := Text.trim rest }

end Comment

/-! ### Topics -/

/-- The identifier of a topic that is not grouped with others. -/
def defaultId (docType : DocType) (d : Subject) : String :=
  match docType with
  | .package => d.declaration.name.getD "" ++ "-package"
  | .classDef =>
    if d.declaration.kind = .classDef then d.declaration.name.getD "" ++ "-class"
    else d.displayName.getD ""
  | _ => d.displayName.getD ""

/-- The declaration that a block documents, as its comment sees it. -/
def subject (b : Block) (c : Comment) (ctx : PackageContext) : Subject :=
  { unit := b.unit
    declaration := c.target ctx b.declaration
    s3 := c.methodTag.isSome
    exportNames := c.wordsOf "export" }

/-- What a topic says before the other tags are applied. -/
def Topic.ofPreamble (b : Block) (c : Comment) (d : Subject) : Topic :=
  let docType := c.docTypeFor d.declaration
  { id := (c.lastWord "rdname").getD (defaultId docType d)
    place := b.place
    pos := b.pos
    title := c.title
    description := c.description
    details := c.details
    docType := docType
    exported := c.has "export"
    subjects := [d] }

/-! ### Applying tags -/

/-- A topic to which tags are applied, and the faults that were found so far. -/
structure Assembly where
  topic : Topic
  faults : List Diagnostic := []

namespace Assembly

/-- Enters what a tag documents into a list of entries. A tag without an entry is a fault, and so is a
second entry of one name, which does not count. -/
def enter (unit : String) (t : Tag) (entries : List Param) : List Param × List Diagnostic :=
  match Comment.entryOf t with
  | some p =>
    if entries.any (·.name == p.name) then
      (entries, [.warning ⟨unit, t.line⟩
        (ticked ("@" ++ t.name ++ " " ++ p.name) ++ " documented twice; keeping the first")])
    else (entries ++ [p], [])
  | none =>
    (entries, [.validation ⟨unit, t.line⟩
      (ticked ("@" ++ t.name) ++ " needs a name and a description")])

/-- Adds a paragraph to a text, unless it is empty. -/
def addParagraph (text : Option String) (paragraph : String) : Option String :=
  if paragraph = "" then text
  else
    match text with
    | some before => some (before ++ "\n\n" ++ paragraph)
    | none => some paragraph

/-- Applies one tag. Tags that do not belong to a field of the topic change nothing. -/
def apply (unit : String) (a : Assembly) (t : Tag) : Assembly :=
  let content := Text.trim t.content
  match t.name with
  | "param" =>
    let (entries, faults) := enter unit t a.topic.params
    ⟨{ a.topic with params := entries }, a.faults ++ faults⟩
  | "slot" =>
    let (entries, faults) := enter unit t a.topic.slots
    ⟨{ a.topic with slots := entries }, a.faults ++ faults⟩
  | "field" =>
    let (entries, faults) := enter unit t a.topic.fields
    ⟨{ a.topic with fields := entries }, a.faults ++ faults⟩
  | "return" => { a with topic.value := addParagraph a.topic.value content }
  | "section" =>
    match Section.ofText content with
    | some found => { a with topic.sections := a.topic.sections ++ [found] }
    | none =>
      { a with
        faults := a.faults ++
          [.validation ⟨unit, t.line⟩ "`@section` title must end with a colon"] }
  | "examples" => { a with topic.examples := a.topic.examples ++ [t.content] }
  | "aliases" => { a with topic.aliases := extendUnique a.topic.aliases (Text.words content) }
  | "family" =>
    if content = "" then a
    else { a with topic.families := extendUnique a.topic.families [content] }
  | "references" => { a with topic.references := a.topic.references ++ [content] }
  | "seealso" => { a with topic.seeAlso := a.topic.seeAlso ++ [content] }
  | "keywords" => { a with topic.keywords := extendUnique a.topic.keywords (Text.words content) }
  | "usage" => { a with topic.usage := some { text := content, explicit := true } }
  | "inheritParams" =>
    { a with topic.inheritParams := extendUnique a.topic.inheritParams (Text.words content) }
  | "noRd" => { a with topic.noRd := true }
  | "format" => { a with topic.format := addParagraph a.topic.format content }
  | "source" => { a with topic.source := addParagraph a.topic.source content }
  | _ => a

/-- Applies all tags of a comment to the topic of a documented declaration. -/
def ofSubject (b : Block) (c : Comment) (d : Subject) : Assembly :=
  c.tags.foldl (apply b.unit) { topic := Topic.ofPreamble b c d }

end Assembly

/-- The topic of a documented declaration. -/
def Topic.ofSubject (b : Block) (c : Comment) (d : Subject) : Topic :=
  (Assembly.ofSubject b c d).topic

/-- The topic of a block, unless nothing gives its declaration a name. -/
def Topic.ofComment (b : Block) (c : Comment) (ctx : PackageContext) : Option Topic :=
  let d := subject b c ctx
  d.declaration.name.map fun _ => Topic.ofSubject b c d

/-! ### Faults -/

namespace Comment

/-- Tags without a meaning. -/
def unknownTagFaults (unit : String) (c : Comment) : List Diagnostic :=
  (c.tags.filter fun t => !tagVocabulary.contains t.name).map fun t =>
    .validation ⟨unit, t.line⟩ ("unknown tag " ++ ticked ("@" ++ t.name))

/-- Texts with a brace that has no partner. Examples are code and may hold any braces. -/
def braceFaults (b : Block) (c : Comment) : List Diagnostic :=
  (if bracesBalanced c.preamble then []
    else [.validation b.pos "unbalanced braces in the description text"]) ++
  (c.tags.filter fun t => t.name != "examples" && !bracesBalanced t.content).map fun t =>
    .validation ⟨b.unit, t.line⟩ ("unbalanced braces in " ++ ticked ("@" ++ t.name))

/-- A method tag that does not name exactly a generic and a class. -/
def methodFaults (unit : String) (c : Comment) : List Diagnostic :=
  match c.last? "method" with
  | some t =>
    if (methodOf t).isSome then []
    else [.validation ⟨unit, t.line⟩ "`@method` needs exactly a generic and a class"]
  | none => []

/-- A name tag without a name. -/
def nameFaults (unit : String) (c : Comment) : List Diagnostic :=
  match c.last? "name" with
  | some t =>
    if (Text.words t.content).isEmpty then [.validation ⟨unit, t.line⟩ "`@name` is empty"] else []
  | none => []

/-- A comment that says something about a declaration without a name. -/
def unnamedFaults (b : Block) (c : Comment) : List Diagnostic :=
  if c.directivesOnly then []
  else [.validation b.pos "block documents no named declaration; add `@name`"]

/-- A type tag that cannot be read. -/
def docTypeFaults (unit : String) (c : Comment) : List Diagnostic :=
  match c.last? "docType" with
  | some t =>
    match DocType.ofWord t.content with
    | .ok _ => []
    | .error e => [.validation ⟨unit, t.line⟩ e.message]
  | none => []

/-- A method without a signature, and a method of a foreign generic that is not exported. -/
def dispatchFaults (b : Block) (c : Comment) (ctx : PackageContext) (d : Declaration) :
    List Diagnostic :=
  if c.docTypeFor d = .method then
    (if d.dispatch.isEmpty then
      [.validation b.pos "method topic needs a dispatch signature (`setMethod` or `@method`)"]
      else []) ++
    match d.name with
    | some generic =>
      if c.has "export" || ctx.callables.contains generic then []
      else
        [.warning b.pos
          ("method for external generic " ++ ticked generic ++ " has no `@export`; " ++
            "its dispatch registration will not be exported")]
    | none => []
  else []

/-- Everything wrong with the comment of a block. -/
def faults (b : Block) (c : Comment) (ctx : PackageContext) : List Diagnostic :=
  let d := subject b c ctx
  c.unknownTagFaults b.unit ++ c.braceFaults b ++ c.methodFaults b.unit ++ c.nameFaults b.unit ++
    if d.declaration.name.isNone then c.unnamedFaults b
    else
      c.docTypeFaults b.unit ++ c.dispatchFaults b ctx d.declaration ++
        (Assembly.ofSubject b c d).faults

end Comment

/-- All that a block gives. -/
structure Built where
  topic : Option Topic
  includes : List Include
  diagnostics : List Diagnostic

/-- Builds a block from its comment. -/
def Built.of (b : Block) (c : Comment) (ctx : PackageContext) : Built :=
  { topic := Topic.ofComment b c ctx, includes := c.includes, diagnostics := c.faults b ctx }

end DocTopics
