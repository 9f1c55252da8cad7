import DocTopics.Text.Basic

/-!
# Settings in TOML

A configuration is a TOML document that sets keys to texts. A text that is one of a few words may
also be written as a choice: a table whose one key is the word and whose value there is empty. This
module reads exactly such documents: blank lines, comments, assignments of basic, literal and
multi-line strings and of choices to bare, quoted and dotted keys, and tables under headers as far
as they spell a choice. A document with any other value is refused.

## Main definitions

- `Toml.basic`, `Toml.literal`, `Toml.multiBasic`, `Toml.multiLiteral` — the rest of a string behind
  its opening quotes, with its text
- `Toml.value`, `Toml.keyPath` — a value and a key
- `Toml.Document` — the assignments of a document and the tables below them
- `Toml.Document.settings` — what a document sets its keys to
- `Toml.settings` — reads a text
-/

namespace DocTopics.Toml

/-- A blank or a tab. -/
def isGap (c : Char) : Bool :=
  c == ' ' || c == '\t'

/-- A character that may stand in a comment: everything but control characters other than tabs. -/
def isPrintable (c : Char) : Bool :=
  c == '\t' || (0x20 ≤ c.toNat && c.toNat != 0x7F)

/-- Drops blanks and tabs. -/
def skipGaps (cs : List Char) : List Char :=
  cs.dropWhile isGap

/-- What follows a line end at the start of the text. -/
def pastNewline : List Char → Option (List Char)
  | '\n' :: cs => some cs
  | '\r' :: '\n' :: cs => some cs
  | _ => none

/-! ### Strings -/

/-- The value of a hexadecimal digit. -/
def hexValue (c : Char) : Option Nat :=
  let n := c.toNat
  if 48 ≤ n ∧ n ≤ 57 then some (n - 48)
  else if 65 ≤ n ∧ n ≤ 70 then some (n - 55)
  else if 97 ≤ n ∧ n ≤ 102 then some (n - 87)
  else none

/-- The character of a hexadecimal code point; surrogates are no characters. -/
def codePoint (digits : List Char) : Option Char := do
  let values ← digits.mapM hexValue
  let n := values.foldl (fun n d => 16 * n + d) 0
  if h : n.isValidChar then some (Char.ofNatAux n h) else none

/-- The character of a one-letter escape. -/
def escaped : Char → Option Char
  | 'b' => some '\x08'
  | 't' => some '\t'
  | 'n' => some '\n'
  | 'f' => some '\x0c'
  | 'r' => some '\r'
  | '"' => some '"'
  | '\\' => some '\\'
  | _ => none

/-- Puts a character, if there is one, in front of the text that was read. -/
def prepend (c : Option Char) (r : Option (List Char × List Char)) :
    Option (List Char × List Char) :=
  match c, r with
  | some c, some (text, rest) => some (c :: text, rest)
  | _, _ => none

/-- The rest of a basic string. -/
def basic : List Char → Option (List Char × List Char)
  | [] => none
  | '"' :: cs => some ([], cs)
  | '\\' :: 'u' :: a :: b :: c :: d :: cs => prepend (codePoint [a, b, c, d]) (basic cs)
  | '\\' :: 'U' :: a :: b :: c :: d :: e :: f :: g :: h :: cs =>
    prepend (codePoint [a, b, c, d, e, f, g, h]) (basic cs)
  | '\\' :: e :: cs => prepend (escaped e) (basic cs)
  | c :: cs => if isPrintable c then prepend (some c) (basic cs) else none

/-- The rest of a literal string. -/
def literal : List Char → Option (List Char × List Char)
  | [] => none
  | '\'' :: cs => some ([], cs)
  | c :: cs => if isPrintable c then prepend (some c) (literal cs) else none

/-- The text and the rest behind three closing quotes: up to two more quotes belong to the text. -/
def closing (q : Char) : List Char → List Char × List Char
  | a :: b :: cs =>
    if a = q then (if b = q then ([q, q], cs) else ([q], b :: cs)) else ([], a :: b :: cs)
  | [a] => if a = q then ([q], []) else ([], [a])
  | [] => ([], [])

/-- The rest of a multi-line basic string. After a backslash at a line end, white space is skipped
up to the next character. -/
def multiBasic (skipping : Bool) : List Char → Option (List Char × List Char)
  | [] => none
  | '"' :: '"' :: '"' :: cs => some (closing '"' cs)
  | '\n' :: cs => if skipping then multiBasic true cs else prepend (some '\n') (multiBasic false cs)
  | '\r' :: '\n' :: cs =>
    if skipping then multiBasic true cs else prepend (some '\n') (multiBasic false cs)
  | '\\' :: 'u' :: a :: b :: c :: d :: cs =>
    prepend (codePoint [a, b, c, d]) (multiBasic false cs)
  | '\\' :: 'U' :: a :: b :: c :: d :: e :: f :: g :: h :: cs =>
    prepend (codePoint [a, b, c, d, e, f, g, h]) (multiBasic false cs)
  | '\\' :: e :: cs =>
    if (pastNewline (skipGaps (e :: cs))).isSome then multiBasic true cs
    else prepend (escaped e) (multiBasic false cs)
  | c :: cs =>
    if skipping && isGap c then multiBasic true cs
    else if isPrintable c then prepend (some c) (multiBasic false cs)
    else none

/-- The rest of a multi-line literal string. -/
def multiLiteral : List Char → Option (List Char × List Char)
  | [] => none
  | '\'' :: '\'' :: '\'' :: cs => some (closing '\'' cs)
  | '\n' :: cs => prepend (some '\n') (multiLiteral cs)
  | '\r' :: '\n' :: cs => prepend (some '\n') (multiLiteral cs)
  | c :: cs => if isPrintable c then prepend (some c) (multiLiteral cs) else none

/-- Drops one line end behind the opening quotes of a multi-line string. -/
def afterOpening (cs : List Char) : List Char :=
  (pastNewline cs).getD cs

/-- Reads a string. -/
def text : List Char → Option (List Char × List Char)
  | '"' :: '"' :: '"' :: cs => multiBasic false (afterOpening cs)
  | '"' :: cs => basic cs
  | '\'' :: '\'' :: '\'' :: cs => multiLiteral (afterOpening cs)
  | '\'' :: cs => literal cs
  | _ => none

/-! ### Keys -/

/-- A character of a bare key. -/
def isBareKey (c : Char) : Bool :=
  c.isAlphanum || c == '-' || c == '_'

/-- Reads a part of a key. -/
def key : List Char → Option (List Char × List Char)
  | '"' :: cs => basic cs
  | '\'' :: cs => literal cs
  | cs =>
    if (cs.takeWhile isBareKey).isEmpty then none
    else some (cs.takeWhile isBareKey, cs.dropWhile isBareKey)

/-- Reads a key and the blanks behind it. Dots separate its parts. Every part takes at least one
character, so `fuel` parts are enough when `fuel` is the length of the text. -/
def keyPath (fuel : Nat) (cs : List Char) : Option (List String × List Char) :=
  match fuel with
  | 0 => none
  | fuel + 1 => do
    let (part, rest) ← key cs
    match skipGaps rest with
    | '.' :: rest =>
      let (parts, rest) ← keyPath fuel (skipGaps rest)
      return (String.ofList part :: parts, rest)
    | rest => return ([String.ofList part], rest)

/-! ### Line ends -/

/-- Drops a comment, if one starts here. -/
def skipComment : List Char → List Char
  | '#' :: cs => cs.dropWhile isPrintable
  | cs => cs

/-- What follows the rest of a line that holds only blanks and a comment. -/
def lineEnd (cs : List Char) : Option (List Char) :=
  match skipComment (skipGaps cs) with
  | [] => some []
  | rest => pastNewline rest

/-- Drops blanks, comments and line ends, as they may stand inside an array. Every line takes at
least one character, so `fuel` lines are enough when `fuel` is the length of the text. -/
def skipLines (fuel : Nat) (cs : List Char) : List Char :=
  match fuel, pastNewline (skipComment (skipGaps cs)) with
  | fuel + 1, some rest => skipLines fuel rest
  | _, _ => skipGaps cs

/-! ### Values -/

/-- A value in a document. -/
inductive Value where
  | text (s : String)
  /-- A table or an array without elements. -/
  | empty
  /-- A table with one key, at which stands an empty value. -/
  | choice (word : String)
deriving DecidableEq

/-- Reads an empty table or an empty array. -/
def emptyValue : List Char → Option (List Char)
  | '\x7b' :: cs => Chars.past ['\x7d'] (skipGaps cs)
  | '[' :: cs => Chars.past [']'] (skipLines cs.length cs)
  | _ => none

/-- The rest of a table with one key behind its opening brace. -/
def choice (cs : List Char) : Option (Value × List Char) := do
  let (word, rest) ← key (skipGaps cs)
  let rest ← Chars.past ['='] (skipGaps rest)
  let rest ← emptyValue (skipGaps rest)
  let rest ← Chars.past ['\x7d'] (skipGaps rest)
  return (.choice (String.ofList word), rest)

/-- Reads a value. -/
def value (cs : List Char) : Option (Value × List Char) :=
  match emptyValue cs, cs with
  | some rest, _ => some (.empty, rest)
  | none, '\x7b' :: cs => choice cs
  | none, cs => (text cs).map fun (s, rest) => (.text (String.ofList s), rest)

/-! ### Documents -/

/-- An assignment of a value to a key. -/
structure Entry where
  key : List String
  value : Value
deriving DecidableEq

/-- A table under a header. -/
structure Table where
  header : List String
  entries : List Entry := []
deriving DecidableEq

/-- The assignments in front of the first header, and the tables in order. -/
structure Document where
  entries : List Entry := []
  tables : List Table := []
deriving DecidableEq

/-- A line of a document. -/
inductive Line where
  | entry (e : Entry)
  | header (key : List String)
deriving DecidableEq

/-- The document with a line put in front. -/
def Document.cons : Line → Document → Document
  | .entry e, d => { d with entries := e :: d.entries }
  | .header key, d => { tables := { header := key, entries := d.entries } :: d.tables }

/-- Reads an assignment up to the end of its line. -/
def entry (cs : List Char) : Option (Line × List Char) := do
  let (path, rest) ← keyPath cs.length cs
  let rest ← Chars.past ['='] rest
  let (v, rest) ← value (skipGaps rest)
  return (.entry ⟨path, v⟩, ← lineEnd rest)

/-- Reads the header of a table behind its opening bracket up to the end of its line. -/
def header (cs : List Char) : Option (Line × List Char) := do
  let (path, rest) ← keyPath cs.length (skipGaps cs)
  let rest ← Chars.past [']'] rest
  return (.header path, ← lineEnd rest)

/-- Reads a line that is neither blank nor a comment. -/
def line : List Char → Option (Line × List Char)
  | '[' :: cs => header cs
  | cs => entry cs

/-- Reads the lines of a text. Every line takes at least one character, so `fuel` lines are enough
when `fuel` is the length of the text. -/
def documentFrom (fuel : Nat) (cs : List Char) : Option Document :=
  match skipGaps cs with
  | [] => some {}
  | c :: cs =>
    match fuel with
    | 0 => none
    | fuel + 1 =>
      if c = '#' || c = '\n' || c = '\r' then
        (lineEnd (c :: cs)).bind (documentFrom fuel)
      else
        (line (c :: cs)).bind fun (l, rest) => (documentFrom fuel rest).map (Document.cons l)

/-- Drops a byte order mark. -/
def skipMark : List Char → List Char
  | '\uFEFF' :: cs => cs
  | cs => cs

/-- Reads a document. -/
def document (text : String) : Option Document :=
  documentFrom text.length (skipMark text.toList)

/-! ### Settings -/

/-- What a key is set to. -/
inductive Setting where
  | text (s : String)
  | choice (word : String)
deriving DecidableEq

/-- The setting of an assignment that belongs to no table. -/
def Entry.setting : Entry → Option (String × Setting)
  | ⟨[k], .text s⟩ => some (k, .text s)
  | ⟨[k], .choice word⟩ => some (k, .choice word)
  | ⟨[k, word], .empty⟩ => some (k, .choice word)
  | _ => none

/-- The choices that a table spells: at most one, and none if another table spells it. -/
def Table.choices : Table → Option (List (String × Setting))
  | ⟨[k, word], []⟩ => some [(k, .choice word)]
  | ⟨[k], [⟨[word], .empty⟩]⟩ => some [(k, .choice word)]
  | ⟨[_], []⟩ => some []
  | _ => none

/-- The key that a table stands for. -/
def Table.opened? : Table → Option String
  | ⟨[k], _⟩ => some k
  | _ => none

/-- What a document sets its keys to, in order. A table stands for a key at most once, and some
table spells a choice for that key. -/
def Document.settings (d : Document) : Option (List (String × Setting)) := do
  let set ← d.entries.mapM Entry.setting
  let chosen := (← d.tables.mapM Table.choices).flatten
  let opened := d.tables.filterMap Table.opened?
  if opened.Nodup ∧ ∀ k ∈ opened, k ∈ chosen.map (·.1) then some (set ++ chosen) else none

/-- What a text sets its keys to, if it is a document that holds nothing else. -/
def settings (text : String) : Option (List (String × Setting)) :=
  (document text).bind Document.settings

end DocTopics.Toml
