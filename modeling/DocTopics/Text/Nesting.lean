import DocTopics.Text.Chars

/-!
# Quotes, brackets and braces

Source code is scanned with two pieces of state: the quote that is open, if any, and the depth of
brackets. Inside a quote only the closing quote counts. The depth is an integer, since a text may
close more brackets than it opened.

Documentation text is scanned for braces instead, where a backslash takes the next character with
it and there are no quotes.

## Main definitions

- `Nesting.step` — the state after one more character
- `Nesting.splitTopLevel` — the parts between top-level commas
- `Nesting.enclosed` — the text up to the parenthesis that closes the open one
- `Nesting.parenDelta` — how many parentheses a line of code leaves open
- `bracesBalanced` — every brace of a documentation text has its partner
-/

namespace DocTopics

/-- A single or a double quote. -/
def isQuote (c : Char) : Bool :=
  c == '"' || c == '\''

/-- The state of a scan over source code: bracket depth and open quote. -/
structure Nesting where
  depth : Int := 0
  quote : Option Char := none

namespace Nesting

/-- The state after reading `c`, for given classes of opening and closing brackets. -/
def step (opens closes : Char → Bool) (s : Nesting) (c : Char) : Nesting :=
  match s.quote with
  | some q => if c = q then { s with quote := none } else s
  | none =>
    if isQuote c then { s with quote := some c }
    else if opens c then { s with depth := s.depth + 1 }
    else if closes c then { s with depth := s.depth - 1 }
    else s

/-- The state after reading `c` where round, square and curly brackets nest. -/
def stepBrackets : Nesting → Char → Nesting :=
  step (fun c => c == '(' || c == '[' || c == '\x7b') (fun c => c == ')' || c == ']' || c == '\x7d')

/-- The state after reading `c` where only round brackets nest. -/
def stepParens : Nesting → Char → Nesting :=
  step (· == '(') (· == ')')

/-- A comma read in this state separates two parts. -/
def separates (s : Nesting) (c : Char) : Bool :=
  s.quote.isNone && s.depth == 0 && c == ','

/-- The pieces between the commas that stand outside quotes and brackets. -/
def topLevelPieces (s : Nesting) : List Char → List (List Char)
  | [] => [[]]
  | c :: cs =>
    if s.separates c then [] :: topLevelPieces s cs
    else Chars.consHead c (topLevelPieces (s.stepBrackets c) cs)

/-- Drops the last part if it is empty. -/
def dropEmptyLast : List (List Char) → List (List Char)
  | [] => []
  | [p] => if p.isEmpty then [] else [p]
  | p :: q :: ps => p :: dropEmptyLast (q :: ps)

/-- The trimmed parts between the commas that stand outside quotes and brackets. An empty last part
does not count; an empty part before a comma does. -/
def splitTopLevel (cs : List Char) : List (List Char) :=
  dropEmptyLast ((topLevelPieces {} cs).map Chars.trim)

/-- The text up to the closing parenthesis that brings the depth to zero, if there is one. -/
def enclosed (s : Nesting) : List Char → Option (List Char)
  | [] => none
  | c :: cs =>
    if s.quote.isNone && c == ')' && s.depth == 1 then some []
    else (enclosed (s.stepParens c) cs).map (c :: ·)

/-- The depth after the code of a line; a `#` outside quotes starts a comment and ends the code. -/
def depthAfter (s : Nesting) : List Char → Int
  | [] => s.depth
  | c :: cs => if s.quote.isNone && c == '#' then s.depth else depthAfter (s.stepParens c) cs

/-- How many more parentheses a line of code opens than it closes. -/
def parenDelta (line : List Char) : Int :=
  depthAfter {} line

end Nesting

/-- Reads braces at depth `n`; a backslash takes the next character with it. -/
def bracesClose (n : Nat) : List Char → Bool
  | [] => n == 0
  | '\\' :: [] => n == 0
  | '\\' :: _ :: cs => bracesClose n cs
  | '\x7b' :: cs => bracesClose (n + 1) cs
  | '\x7d' :: cs => match n with
    | 0 => false
    | m + 1 => bracesClose m cs
  | _ :: cs => bracesClose n cs

/-- Every brace of a documentation text has its partner, escaped characters not counted. -/
def bracesBalanced (s : String) : Bool :=
  bracesClose 0 s.toList

end DocTopics
