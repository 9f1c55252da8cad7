import DocTopics.Block

/-!
# Documentation comments

The text of a block is a preamble followed by tags. A line whose first non-white characters are `@`
and a tag name opens a tag, and the lines up to the next such line are its content. A doubled `@`
stands for a literal one and opens nothing.

## Main definitions

- `Tag`, `Comment` — the parts of a documentation comment
- `tagLine` — the tag a line opens
- `Comment.ofBlock` — the comment of a block
- `Comment.strayTags` — the lines that start with `@` but open no tag
- `paragraphs` — the paragraphs of a text
-/

namespace DocTopics

/-- A named span of content. -/
structure Tag where
  name : String
  content : String
  line : Nat
deriving DecidableEq

/-- The text of a block: the preamble, and the tags in order. -/
structure Comment where
  preamble : String := ""
  tags : List Tag := []
deriving DecidableEq

namespace Comment

/-- The tags of a given name, in order. -/
def all (c : Comment) (name : String) : List Tag :=
  c.tags.filter (·.name == name)

/-- The first tag of a given name. -/
def first? (c : Comment) (name : String) : Option Tag :=
  (c.all name).head?

/-- The last tag of a given name. -/
def last? (c : Comment) (name : String) : Option Tag :=
  (c.all name).getLast?

/-- There is a tag of a given name. -/
def has (c : Comment) (name : String) : Bool :=
  c.tags.any (·.name == name)

end Comment

/-! ### Lines -/

/-- A character that may continue a tag name. -/
def continuesTagName (c : Char) : Bool :=
  c.isAlphanum || c == '_' || c == '.'

/-- A doubled `@` becomes a single one, from left to right. -/
def unescape : List Char → List Char
  | '@' :: '@' :: cs => '@' :: unescape cs
  | c :: cs => c :: unescape cs
  | [] => []

/-- The content behind a tag name: nothing, or what follows white space, all on one line. -/
def tagContent : List Char → Option (List Char)
  | [] => some []
  | c :: cs =>
    if isBlank c && !(Chars.trimStart cs).contains '\n' then some (Chars.trimStart cs) else none

/-- The name and the content of the tag that a line opens, if it opens one. -/
def tagLine (text : List Char) : Option (List Char × List Char) :=
  match Chars.trimStart text with
  | '@' :: c :: cs =>
    if c.isAlpha then
      (tagContent (cs.dropWhile continuesTagName)).map fun content =>
        (c :: cs.takeWhile continuesTagName, content)
    else none
  | _ => none

/-- The line starts with an `@` that neither opens a tag nor is doubled. -/
def isStrayTag (text : List Char) : Bool :=
  match Chars.trimStart text with
  | '@' :: '@' :: _ => false
  | '@' :: _ => (tagLine text).isNone
  | _ => false

/-- Drops blank entries at both ends. -/
def dropBlankEnds (ls : List (List Char)) : List (List Char) :=
  ((ls.dropWhile Chars.blank).reverse.dropWhile Chars.blank).reverse

/-- The text of a span of lines: blank lines at the ends and white space at line ends are dropped,
indentation and inner blank lines stay. -/
def spanText (ls : List (List Char)) : String :=
  Text.joinLines ((dropBlankEnds ls).map fun l => String.ofList (Chars.trimEnd l))

namespace Comment

/-- The lines in front of the first tag, and the tags. -/
def split : List NumberedLine → List (List Char) × List Tag
  | [] => ([], [])
  | line :: rest =>
    let (lead, tags) := split rest
    match tagLine line.text.toList with
    | some (name, content) =>
      ([], ⟨String.ofList name, spanText (unescape content :: lead), line.number⟩ :: tags)
    | none => (unescape line.text.toList :: lead, tags)

/-- The comment that a list of lines spells. -/
def ofLines (lines : List NumberedLine) : Comment :=
  let (lead, tags) := split lines
  ⟨spanText lead, tags⟩

/-- The comment of a block. -/
def ofBlock (b : Block) : Comment :=
  ofLines b.lines

/-- The parse errors of a block: an `@` that is no tag stays in the text and is reported. -/
def strayTags (b : Block) : List Diagnostic :=
  (b.lines.filter fun line => isStrayTag line.text.toList).map fun line =>
    .parse ⟨b.unit, line.number⟩ "`@` is not followed by a tag name; write `@@` for a literal `@`"

end Comment

/-! ### Paragraphs -/

/-- Groups the lines between blank lines. -/
def paragraphGroups : List String → List (List String)
  | [] => []
  | line :: rest =>
    if Text.blank line then paragraphGroups rest
    else
      match rest with
      | [] => [[line]]
      | next :: _ =>
        if Text.blank next then [line] :: paragraphGroups rest
        else
          match paragraphGroups rest with
          | [] => [[line]]
          | group :: groups => (line :: group) :: groups

/-- The trimmed paragraphs of a text, which blank lines separate. -/
def paragraphs (text : String) : List String :=
  (paragraphGroups (Text.lines text)).map fun group => Text.trim (Text.joinLines group)

end DocTopics
