import DocTopics.Text.Basic

/-!
# Sections

A section has a title, a body and subsections, to any depth. It is written as `Title:` on the first
line and the body from there on; a line of `k` hash signs and a blank starts a subsection, where `k`
is two on the first level and grows by one per level.

## Main definitions

- `Section.heading?` — the title of a heading line of a level
- `Section.nest` — the section tree of a text
- `Section.ofText` — reads a section with its title
-/

namespace DocTopics

/-- A titled text with subsections. -/
structure Section where
  title : String
  body : String := ""
  subsections : List Section := []

namespace Section

/-- The title of a line that is a heading of the given level; indentation does not matter. -/
def heading? (level : Nat) (line : List Char) : Option (List Char) :=
  (Chars.past (List.replicate level '#' ++ [' ']) (Chars.trimStart line)).map Chars.trim

/-- The lines in front of the first heading of a level, and each heading with its lines. -/
def splitHeadings (level : Nat) :
    List (List Char) → List (List Char) × List (List Char × List (List Char))
  | [] => ([], [])
  | line :: rest =>
    let (lead, parts) := splitHeadings level rest
    match heading? level line with
    | some title => ([], (title, lead) :: parts)
    | none => (line :: lead, parts)

/-- The lines as one text. -/
def textOf (ls : List (List Char)) : String :=
  Text.joinLines (ls.map String.ofList)

/-- The section tree of a text. Each level takes at least its heading line off the text, so `fuel`
levels are enough when `fuel` is the length of the text. -/
def nest (fuel : Nat) (title : String) (text : String) (level : Nat) : Section :=
  let (lead, parts) := splitHeadings level (Chars.lines text.toList)
  { title := title
    body := Text.trim (textOf lead)
    subsections := match fuel with
      | 0 => []
      | fuel + 1 => parts.map fun (heading, ls) =>
          nest fuel (String.ofList heading) (textOf ls) (level + 1) }

/-- The text of a section behind the colon of its title. -/
def bodyText (head rest : String) : String :=
  if rest = "" then Text.trim head else Text.trim head ++ "\n" ++ rest

/-- Reads a section. The title is what stands in front of the first colon of the first line and must
not be blank. -/
def ofText (content : String) : Option Section :=
  let (first, rest) := (Text.cutAt (· == '\n') content).getD (content, "")
  match Text.cutAt (· == ':') first with
  | none => none
  | some (title, head) =>
    if Text.blank title then none
    else
      let text := bodyText head rest
      some (nest text.length (Text.trim title) text 2)

end Section

end DocTopics
