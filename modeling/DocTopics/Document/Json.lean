import DocTopics.Document.Usage

/-!
# JSON documents

The document of a topic for other tools: all that was written about it, and the usage and alias
lines. Objects keep the order of their fields, and nesting is shown by two blanks per level.

## Main definitions

- `Json` — values of the notation
- `Json.quote` — a string between quotes
- `Json.pretty` — a value over several lines
- `Json.ofTopic`, `Json.render` — the document of a topic
-/

namespace DocTopics

/-- A JSON value. Numbers are line numbers, so they are natural. -/
inductive Json where
  | null
  | bool (b : Bool)
  | num (n : Nat)
  | str (s : String)
  | arr (items : List Json)
  | obj (fields : List (String × Json))

namespace Json

/-- A hexadecimal digit in lower case. -/
def hexDigit (n : Nat) : Char :=
  if n < 10 then Char.ofNat (48 + n) else Char.ofNat (87 + n)

/-- A character inside a string. Quotes, backslashes and control characters are escaped. -/
def escapeChar (c : Char) : List Char :=
  if c = '"' then ['\\', '"']
  else if c = '\\' then ['\\', '\\']
  else if c = '\x08' then ['\\', 'b']
  else if c = '\t' then ['\\', 't']
  else if c = '\n' then ['\\', 'n']
  else if c = '\x0c' then ['\\', 'f']
  else if c = '\r' then ['\\', 'r']
  else if c.toNat < 0x20 then
    ['\\', 'u', '0', '0', hexDigit (c.toNat / 16), hexDigit (c.toNat % 16)]
  else [c]

/-- A string between quotes. -/
def quote (s : String) : String :=
  String.ofList ('"' :: s.toList.flatMap escapeChar ++ ['"'])

/-- The start of a line at a level. -/
def newline (level : Nat) : String :=
  String.ofList ('\n' :: List.replicate (2 * level) ' ')

mutual

/-- A value whose first line stands at a level. -/
def pretty (level : Nat) : Json → String
  | .null => "null"
  | .bool true => "true"
  | .bool false => "false"
  | .num n => toString n
  | .str s => quote s
  | .arr [] => "[]"
  | .arr (x :: xs) =>
    "[" ++ newline (level + 1) ++ pretty (level + 1) x ++ prettyItems (level + 1) xs ++
      newline level ++ "]"
  | .obj [] => "\x7b\x7d"
  | .obj ((k, v) :: fields) =>
    "\x7b" ++ newline (level + 1) ++ quote k ++ ": " ++ pretty (level + 1) v ++
      prettyFields (level + 1) fields ++ newline level ++ "\x7d"

/-- The items of a list behind the first. -/
def prettyItems (level : Nat) : List Json → String
  | [] => ""
  | x :: xs => "," ++ newline level ++ pretty level x ++ prettyItems level xs

/-- The fields of an object behind the first. -/
def prettyFields (level : Nat) : List (String × Json) → String
  | [] => ""
  | (k, v) :: fields =>
    "," ++ newline level ++ quote k ++ ": " ++ pretty level v ++ prettyFields level fields

end

/-! ### Topics -/

/-- A value that may be missing. -/
def ofOption (encode : α → Json) : Option α → Json
  | some a => encode a
  | none => .null

/-- A list of strings. -/
def ofStrings (xs : List String) : Json :=
  .arr (xs.map .str)

/-- A text and whether it is explicit. -/
def ofPassage (f : Passage) : Json :=
  .obj [("text", .str f.text), ("explicit", .bool f.explicit)]

/-- A documented name. -/
def ofParam (p : Param) : Json :=
  .obj [("name", .str p.name), ("description", .str p.description)]

mutual

/-- A section with everything inside it. -/
def ofSection : Section → Json
  | ⟨title, body, subsections⟩ =>
    .obj [("title", .str title), ("body", .str body),
      ("subsections", .arr (ofSections subsections))]

/-- A list of sections. -/
def ofSections : List Section → List Json
  | [] => []
  | s :: rest => ofSection s :: ofSections rest

end

/-- The kind of a declaration. -/
def ofKind : DeclarationKind → Json
  | .function => .str "function"
  | .method => .str "method"
  | .generic => .str "generic"
  | .classDef => .str "class"
  | .data => .str "data"
  | .sentinel .null => .obj [("sentinel", .str "null")]
  | .sentinel .package => .obj [("sentinel", .str "package")]

/-- A declaration. -/
def ofDeclaration (d : Declaration) : Json :=
  .obj [("kind", ofKind d.kind), ("name", ofOption .str d.name),
    ("formals", ofOption .str d.formals), ("dispatch", ofStrings d.dispatch), ("line", .num d.line)]

/-- A documented declaration. -/
def ofSubject (d : Subject) : Json :=
  .obj [("unit", .str d.unit), ("declaration", ofDeclaration d.declaration), ("s3", .bool d.s3),
    ("export_names", ofStrings d.exportNames)]

/-- All that a topic says, with its usage and alias lines. -/
def ofTopic (t : Topic) : Json :=
  .obj [("id", .str t.id), ("title", ofOption ofPassage t.title),
    ("description", ofOption ofPassage t.description), ("details", ofOption ofPassage t.details),
    ("usage", ofOption ofPassage t.usage), ("value", ofOption .str t.value),
    ("params", .arr (t.params.map ofParam)), ("sections", .arr (ofSections t.sections)),
    ("doc_type", .str t.docType.word), ("export", .bool t.exported),
    ("aliases", ofStrings t.aliases), ("families", ofStrings t.families),
    ("references", ofStrings t.references), ("seealso", ofStrings t.seeAlso),
    ("keywords", ofStrings t.keywords), ("examples", ofStrings t.examples),
    ("format", ofOption .str t.format), ("source", ofOption .str t.source),
    ("slots", .arr (t.slots.map ofParam)), ("fields", .arr (t.fields.map ofParam)),
    ("inherit_params", ofStrings t.inheritParams), ("no_rd", .bool t.noRd),
    ("declarations", .arr (t.subjects.map ofSubject)),
    ("rendered_usage", ofStrings t.usageLines), ("rendered_aliases", ofStrings t.aliasLines)]

/-- The document of a topic. -/
def render (t : Topic) : String :=
  pretty 0 (ofTopic t) ++ "\n"

end Json

end DocTopics
