import DocTopics.Declaration.Basic
import DocTopics.Text.Word

/-!
# Recognising declarations in R code

A declaration is recognised at the start of a line of code. Sentinels and plain assignments are read
off the line alone; all other forms are read off the statement, which runs on over the following
lines until its parentheses close.

Readers take a list of characters and return what they read together with the rest, or nothing.

## Main definitions

- `statement` — the text of the statement that starts on a line
- `functionHeader`, `genericCall`, `methodCall`, `classCall`, `assignment` — the forms
- `functionFormals`, `methodSignature` — the parts of a form
- `recognize` — the declaration that starts on a line, if any
-/

namespace DocTopics.Declaration

/-- At most this many lines are read for one statement. -/
def maxStatementLines : Nat := 200

/-- The lines of a statement: lines are added while parentheses are open, `fuel` lines at most. -/
def statementLines (fuel : Nat) (depth : Int) : List String → List String
  | [] => []
  | line :: rest =>
    match fuel with
    | 0 => []
    | fuel + 1 =>
      let depth := depth + Nesting.parenDelta line.toList
      line :: if depth ≤ 0 then [] else statementLines fuel depth rest

/-- The text of the statement that starts on the first of the given lines. -/
def statement (lines : List String) : List Char :=
  (Text.joinLines (statementLines maxStatementLines 0 lines)).toList

/-! ### Readers -/

/-- An ASCII letter or a dot, which may start a plain name. -/
def startsName (c : Char) : Bool :=
  c.isAlpha || c == '.'

/-- A word character or a dot, which may continue a plain name. -/
def continuesName (c : Char) : Bool :=
  isWord c || c == '.'

/-- Reads a literal and the white space after it. -/
def keyword (lit : String) (cs : List Char) : Option (List Char) :=
  (Chars.past lit.toList cs).map Chars.trimStart

/-- Reads past `name =` if it stands there, and nothing otherwise. -/
def skipArgumentName (name : String) (cs : List Char) : List Char :=
  ((keyword name cs).bind (keyword "=")).getD cs

/-- Reads a quoted text without quotes inside; the two quotes may differ. -/
def quotedText : List Char → Option (List Char × List Char)
  | [] => none
  | c :: cs =>
    if isQuote c then
      match cs.dropWhile (!isQuote ·) with
      | [] => none
      | _ :: rest => some (cs.takeWhile (!isQuote ·), rest)
    else none

/-- Reads a quoted text that is not empty. -/
def quotedName (cs : List Char) : Option (List Char × List Char) :=
  (quotedText cs).filter fun (name, _) => !name.isEmpty

/-- Reads a plain name. -/
def plainName : List Char → Option (List Char × List Char)
  | [] => none
  | c :: cs =>
    if startsName c then some (c :: cs.takeWhile continuesName, cs.dropWhile continuesName)
    else none

/-- Reads a name between backquotes. -/
def backquotedName : List Char → Option (List Char × List Char)
  | '`' :: cs =>
    match cs.takeWhile (· != '`'), cs.dropWhile (· != '`') with
    | c :: name, _ :: rest => some (c :: name, rest)
    | _, _ => none
  | _ => none

/-- Reads an assignment sign and the white space after it. -/
def assignSign (cs : List Char) : Option (List Char) :=
  (keyword "<-" cs).orElse fun _ => (keyword "<<-" cs).orElse fun _ => keyword "=" cs

/-- Reads past the assignment of a class generator, `name <-` or `name =`. -/
def generatorAssignment (cs : List Char) : Option (List Char) :=
  if (cs.takeWhile continuesName).isEmpty then none
  else
    let rest := Chars.trimStart (cs.dropWhile continuesName)
    (keyword "<-" rest).orElse fun _ => keyword "=" rest

/-! ### Forms -/

/-- The name of a function assigned at the start of the text. -/
def functionHeader (cs : List Char) : Option String := do
  let cs := Chars.trimStart cs
  let (name, rest) ← (plainName cs).orElse fun _ => backquotedName cs
  let rest ← assignSign (Chars.trimStart rest)
  let rest ← keyword "function" rest
  let _ ← keyword "(" rest
  return String.ofList name

/-- The name of a variable assigned at the start of the text. -/
def assignment (cs : List Char) : Option String := do
  let (name, rest) ← plainName (Chars.trimStart cs)
  let _ ← assignSign (Chars.trimStart rest)
  return String.ofList name

/-- Reads the call of a defining function up to its first argument, a quoted name, which may be
given as `argument = "name"`. -/
def definingCall (function argument : String) (cs : List Char) :
    Option (List Char × List Char) := do
  let rest ← keyword function cs
  let rest ← keyword "(" rest
  quotedName (skipArgumentName argument rest)

/-- The name of a generic that is set at the start of the text. -/
def genericCall (cs : List Char) : Option String := do
  let (name, _) ← definingCall "setGeneric" "name" (Chars.trimStart cs)
  return String.ofList name

/-- The generic of a method that is set at the start of the text, and the text from its signature
on. -/
def methodCall (cs : List Char) : Option (String × List Char) := do
  let (name, rest) ← definingCall "setMethod" "f" (Chars.trimStart cs)
  let rest ← keyword "," (Chars.trimStart rest)
  return (String.ofList name, skipArgumentName "signature" rest)

/-- The name of a class that is set at the start of the text, with or without a generator. -/
def classCall (cs : List Char) : Option String := do
  let cs := Chars.trimStart cs
  let cs := (generatorAssignment cs).getD cs
  let (name, _) ← (definingCall "setClass" "Class" cs).orElse fun _ =>
    definingCall "setRefClass" "Class" cs
  return String.ofList name

/-! ### Parts -/

/-- The text from the parenthesis after the first keyword `function` on, parenthesis not included.
The keyword may not continue a word; `inWord` tells whether the character before does. -/
def afterFunctionKeyword (inWord : Bool) : List Char → Option (List Char)
  | [] => none
  | c :: cs =>
    let here := if inWord then none else
      (keyword "function" (c :: cs)).bind (Chars.past ['('])
    here.orElse fun _ => afterFunctionKeyword (isWord c) cs

/-- The formal arguments of the first function in the text, with white space collapsed. -/
def functionFormals (cs : List Char) : Option String := do
  let rest ← afterFunctionKeyword false cs
  let inner ← Nesting.enclosed { depth := 1 } rest
  return Text.collapse (String.ofList inner)

/-- The first quoted text of one entry of a signature. -/
def signatureType (part : List Char) : Option String :=
  (quotedText (part.dropWhile (!isQuote ·))).map fun (type, _) => String.ofList type

/-- The types listed in a call of `constructor` at the start of the text. -/
def typesIn (constructor : String) (cs : List Char) : Option (List String) := do
  let rest ← keyword constructor cs
  let rest ← Chars.past ['('] rest
  let inner ← Nesting.enclosed { depth := 1 } rest
  return (Nesting.splitTopLevel inner).filterMap signatureType

/-- The types a method dispatches on: `signature("A", y = "B")`, `c("A", "B")` or `"A"`. -/
def methodSignature (cs : List Char) : List String :=
  let cs := Chars.trimStart cs
  ((typesIn "signature" cs).orElse fun _ => (typesIn "c" cs).orElse fun _ =>
    (quotedText cs).map fun (type, _) => [String.ofList type]).getD []

/-! ### Recognition -/

/-- The sentinel that makes up a line, if any. -/
def sentinelOf (line : String) : Option Sentinel :=
  match Chars.trim line.toList with
  | ['N', 'U', 'L', 'L'] => some .null
  | [q, '_', 'P', 'A', 'C', 'K', 'A', 'G', 'E', r] =>
    if isQuote q && isQuote r then some .package else none
  | _ => none

/-- The declaration made by a statement over one or more lines. -/
def ofStatement (stmt : List Char) (number : Nat) : Option Declaration :=
  match genericCall stmt with
  | some name =>
    some { kind := .generic, name := name, formals := functionFormals stmt, line := number }
  | none =>
    match methodCall stmt with
    | some (name, rest) =>
      some { kind := .method, name := name, formals := functionFormals rest
             dispatch := methodSignature rest, line := number }
    | none =>
      match classCall stmt with
      | some name => some { kind := .classDef, name := name, line := number }
      | none =>
        (functionHeader stmt).map fun name =>
          { kind := .function, name := name, formals := functionFormals stmt, line := number }

/-- The declaration that starts on the first of the given lines, whose number is `number`. -/
def recognize (lines : List String) (number : Nat) : Option Declaration :=
  match lines with
  | [] => none
  | line :: _ =>
    match sentinelOf line with
    | some s => some { kind := .sentinel s, line := number }
    | none =>
      (ofStatement (statement lines) number).orElse fun _ =>
        (assignment line.toList).map fun name => { kind := .data, name := name, line := number }

end DocTopics.Declaration
