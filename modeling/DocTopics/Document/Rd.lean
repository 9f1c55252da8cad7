import DocTopics.Document.Usage
import DocTopics.Export

/-!
# Rd documents

The canonical document of a topic. Its parts come in a fixed order, and a part without content is
left out. Texts are markup already, so only the comment character `%` is escaped; examples are
verbatim.

## Main definitions

- `Rd.escape` — the text with no `%` that is not preceded by a backslash
- `Rd.render` — the document of a topic
-/

namespace DocTopics.Rd

/-- Puts a backslash in front of every `%` that does not follow one; `prev` is the character in
front of the list. -/
def escapeFrom (prev : Char) : List Char → List Char
  | [] => []
  | c :: cs =>
    if c = '%' ∧ prev ≠ '\\' then '\\' :: c :: escapeFrom c cs else c :: escapeFrom c cs

/-- Escapes the comment character. -/
def escape (text : String) : String :=
  String.ofList (escapeFrom '\x00' text.toList)

/-- A command with its argument on the same line. -/
def command (name argument : String) : String :=
  "\\" ++ name ++ "\x7b" ++ argument ++ "\x7d\n"

/-- A command with its argument on lines of its own. -/
def block (name body : String) : String :=
  "\\" ++ name ++ "\x7b\n" ++ body ++ "\n\x7d\n"

/-- An item of a list. -/
def item (name description : String) : String :=
  "\\item\x7b" ++ name ++ "\x7d\x7b" ++ escape description ++ "\x7d"

/-- The comment lines at the top. -/
def header (t : Topic) : String :=
  "% " ++ generatedHeader ++ "\n" ++
    match t.sourceUnits with
    | [] => ""
    | units => "% Please edit documentation in " ++ Text.join ", " units ++ "\n"

/-- The documentation type, which functions and generics do not state. -/
def docTypeLine : DocType → String
  | .function => ""
  | .generic => ""
  | .method => command "docType" "methods"
  | other => command "docType" other.word

/-- A block for a text, unless it is blank. -/
def passageBlock (name : String) (field : Option Passage) : String :=
  match field.bind fun f => Text.nonempty (Text.trim f.text) with
  | some text => block name (escape text)
  | none => ""

/-- A block for a text that may be missing. -/
def textBlock (name : String) : Option String → String
  | some text => block name (escape text)
  | none => ""

/-- A block for a list of lines or paragraphs, unless there are none. -/
def listBlock (name sep : String) (format : String → String) : List String → String
  | [] => ""
  | texts => block name (format (Text.join sep texts))

/-- A section that lists slots or fields, unless there are none. -/
def describe (title : String) : List Param → String
  | [] => ""
  | items =>
    "\\section\x7b" ++ title ++ "\x7d\x7b\n\\describe\x7b\n" ++
      String.join (items.map fun p =>
        item ("\\code\x7b" ++ escape p.name ++ "\x7d") p.description ++ "\n") ++ "\x7d\n\x7d\n"

/-- The body of a section without line feeds at its ends. -/
def sectionBody (body : String) : String :=
  match Text.nonempty (Text.strip (· == '\n') body) with
  | some text => escape text ++ "\n"
  | none => ""

mutual

/-- A section with everything inside it. -/
def renderSection (name : String) : Section → String
  | ⟨title, body, subsections⟩ =>
    "\\" ++ name ++ "\x7b" ++ escape title ++ "\x7d\x7b\n" ++ sectionBody body ++
      renderSubsections subsections ++ "\x7d\n"

/-- The subsections of a section. -/
def renderSubsections : List Section → String
  | [] => ""
  | s :: rest => renderSection "subsection" s ++ renderSubsections rest

end

/-- The parts of the document of a topic, in order. -/
def parts (t : Topic) : List String :=
  [ header t,
    command "name" (escape t.id),
    docTypeLine t.docType,
    command "title" (escape (Text.trim t.titleText)),
    passageBlock "description" t.description,
    listBlock "usage" "\n" escape t.usageLines,
    listBlock "arguments" "\n\n" id (t.params.map fun p => item (escape p.name) p.description),
    textBlock "value" t.value,
    passageBlock "details" t.details,
    textBlock "format" t.format,
    textBlock "source" t.source,
    describe "Slots" t.slots,
    describe "Fields" t.fields,
    String.join (t.sections.map (renderSection "section")),
    listBlock "examples" "\n\n" id (t.examples.map (Text.strip (· == '\n'))),
    listBlock "references" "\n\n" escape t.references,
    listBlock "seealso" "\n\n" escape t.seeAlso,
    String.join (t.keywords.map fun k => command "keyword" (escape k)),
    String.join (t.aliasLines.map fun a => command "alias" (escape a)) ]

/-- The document of a topic. -/
def render (t : Topic) : String :=
  String.join (parts t)

end DocTopics.Rd
