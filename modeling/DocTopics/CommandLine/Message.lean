import DocTopics.Diagnostic
import DocTopics.Failure

/-!
# Messages of a run

A run prints warnings and errors to its error channel. Control characters that could steer a
terminal are spelled out in warnings. The message that ends a run is followed by its causes.

## Main definitions

- `CommandLine.warningLine`, `CommandLine.diagnosticLine` — messages that do not end the run
- `CommandLine.Fatal` — a message that ends the run, with its causes
- `CommandLine.Fatal.lines` — what is printed for it
-/

namespace DocTopics.CommandLine

/-! ### Warnings -/

/-- The hexadecimal digits of a number. -/
def hexDigits (n : Nat) : String :=
  String.ofList (Nat.toDigits 16 n)

/-- A character as warnings show it. The bell, the backspace, the form feed, the escape and the
delete character and the control characters from `U+0080` to `U+009F` are spelled out. -/
def shownChar (c : Char) : String :=
  if ['\x07', '\x08', '\x0c'].contains c then "\\x0" ++ hexDigits c.toNat
  else if ['\x1b', '\x7f'].contains c then "\\x" ++ hexDigits c.toNat
  else if 0x80 ≤ c.toNat && c.toNat ≤ 0x9F then "\\u\x7b" ++ hexDigits c.toNat ++ "\x7d"
  else c.toString

/-- A warning as it is printed. -/
def warningLine (text : String) : String :=
  "WARN " ++ String.join (text.toList.map shownChar)

/-- A diagnostic as it is printed. -/
def diagnosticLine (d : Diagnostic) : String :=
  if d.isError then "error: " ++ d.message else warningLine d.message

/-! ### The message that ends a run -/

/-- A message that ends a run, with the messages that explain it. -/
structure Fatal where
  message : String
  causes : List String := []

namespace Fatal

/-- The message of a failure; a file fault is explained by the system's words. -/
def ofFailure (e : Failure) : Fatal :=
  { message := e.message
    causes := match e with
      | .file _ fault => [fault.message]
      | _ => [] }

/-- A message that says what was being done. -/
def within (e : Fatal) (message : String) : Fatal :=
  { message := message, causes := e.message :: e.causes }

/-- The lines of a text behind a label; further lines are indented by `margin`. -/
def hanging (label margin text : String) : List String :=
  match Text.splitOn '\n' text with
  | [] => [label]
  | first :: rest => (label ++ first) :: rest.map (margin ++ ·)

/-- The lines of the causes: one cause stands alone, several are numbered. -/
def causeLines : List String → List String
  | [] => []
  | [cause] => ["", "Caused by:"] ++ hanging "    " "    " cause
  | causes =>
    ["", "Caused by:"] ++ causes.zipIdx.flatMap fun (cause, i) =>
      hanging ("    " ++ toString i ++ ": ") "       " cause

/-- The lines printed for a message that ends a run. -/
def lines (e : Fatal) : List String :=
  ("Error: " ++ e.message) :: causeLines e.causes

end Fatal

end DocTopics.CommandLine
