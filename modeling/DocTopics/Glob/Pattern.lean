/-!
# Glob patterns

A pattern describes one path component: `?` stands for any character, `*` for any run of
characters, `[a-c]` and `[!a-c]` for a character inside or outside a class. The component `**`
stands for any number of directories.

## Main definitions

- `Glob.Token`, `Glob.Pattern` — what a pattern is made of
- `Glob.tokens?` — reads a pattern, which may span several components
- `Glob.Pattern.matchesName` — a name fits a pattern
-/

namespace DocTopics.Glob

/-- A range of characters in a class. -/
structure CharRange where
  first : Char
  last : Char
deriving DecidableEq

/-- A part of a pattern. -/
inductive Token where
  | char (c : Char)
  | anyChar
  | anyRun
  /-- Any number of directories. -/
  | anyDirs
  | within (ranges : List CharRange)
  | except (ranges : List CharRange)
deriving DecidableEq

/-- The ranges of a character class. -/
def ranges : List Char → List CharRange
  | a :: '-' :: b :: cs => ⟨a, b⟩ :: ranges cs
  | c :: cs => ⟨c, c⟩ :: ranges cs
  | [] => []

/-- The text of a class up to the closing bracket; the first character always belongs to it. -/
def classText : List Char → Option (List Char × List Char)
  | [] => none
  | c :: cs =>
    match cs.dropWhile (· != ']') with
    | [] => none
    | _ :: rest => some (c :: cs.takeWhile (· != ']'), rest)

/-- Reads a class behind its opening bracket. -/
def charClass : List Char → Option (Token × List Char)
  | '!' :: cs => (classText cs).map fun (text, rest) => (.except (ranges text), rest)
  | cs => (classText cs).map fun (text, rest) => (.within (ranges text), rest)

/-- Reads a pattern. `atStart` tells whether a component starts here. Two stars have to make up a
whole component, and more than two are refused. Every token takes at least one character, so `fuel`
tokens are enough when `fuel` is the length of the pattern. -/
def tokensFrom (fuel : Nat) (atStart : Bool) (cs : List Char) : Option (List Token) :=
  match fuel, cs with
  | _, [] => some []
  | 0, _ => none
  | fuel + 1, c :: cs =>
    if c = '?' then (tokensFrom fuel false cs).map (.anyChar :: ·)
    else if c = '*' then
      match cs with
      | '*' :: '*' :: _ => none
      | '*' :: rest =>
        if atStart then
          match rest with
          | [] => some [.anyDirs]
          | '/' :: rest => (tokensFrom fuel true rest).map (.anyDirs :: ·)
          | _ => none
        else none
      | rest => (tokensFrom fuel false rest).map (.anyRun :: ·)
    else if c = '[' then
      match charClass cs with
      | some (token, rest) => (tokensFrom fuel false rest).map (token :: ·)
      | none => none
    else (tokensFrom fuel (c == '/') cs).map (.char c :: ·)

/-- Reads a pattern, unless it is malformed. -/
def tokens? (pattern : String) : Option (List Token) :=
  tokensFrom pattern.length true pattern.toList

/-- The character is in one of the ranges. -/
def inRanges (c : Char) (rs : List CharRange) : Bool :=
  rs.any fun r => r.first ≤ c && c ≤ r.last

/-- The token stands for this single character. -/
def Token.accepts : Token → Char → Bool
  | .char a, c => a == c
  | .anyChar, _ => true
  | .within rs, c => inRanges c rs
  | .except rs, c => !inRanges c rs
  | .anyRun, _ => false
  | .anyDirs, _ => false

/-- The character that a token spells, if it is no wildcard. -/
def Token.literal? : Token → Option Char
  | .char c => some c
  | _ => none

/-- The token stands for a run of characters. -/
def Token.isRun : Token → Bool
  | .anyRun => true
  | .anyDirs => true
  | _ => false

/-- Some end of the text satisfies a test. -/
def anySuffix (test : List Char → Bool) : List Char → Bool
  | [] => test []
  | c :: cs => test (c :: cs) || anySuffix test cs

/-- A name fits a list of tokens. -/
def fits : List Token → List Char → Bool
  | [], cs => cs.isEmpty
  | t :: ts, cs =>
    if t.isRun then anySuffix (fits ts) cs
    else
      match cs with
      | [] => false
      | c :: cs => t.accepts c && fits ts cs

/-- The pattern of one path component. -/
abbrev Pattern := List Token

/-- The pattern stands for any number of directories. -/
def Pattern.isRecursive (p : Pattern) : Bool :=
  p.contains .anyDirs

/-- A name fits the pattern. -/
def Pattern.matchesName (p : Pattern) (name : String) : Bool :=
  fits p name.toList

/-- The characters of a pattern without wildcards. -/
def Pattern.literal? (p : Pattern) : Option String :=
  (p.mapM Token.literal?).map String.ofList

/-- The pattern starts with a dot, and so may stand for the entries `.` and `..`. -/
def Pattern.startsWithDot (p : Pattern) : Bool :=
  p.head? == some (.char '.')

end DocTopics.Glob
