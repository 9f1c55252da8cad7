import DocTopics.Position

/-!
# Diagnostics

A diagnostic reports a fault of the documentation at a position; the run goes on. Only warnings are
not errors.
-/

namespace DocTopics

/-- How serious a diagnostic is. -/
inductive Level where
  /-- The block could not be read as written. -/
  | parse
  /-- The block was read but breaks a rule. -/
  | validation
  /-- Something was dropped or looks unintended. -/
  | warning
deriving DecidableEq

/-- A fault reported at a position. -/
structure Diagnostic where
  level : Level
  pos : Position
  text : String
deriving DecidableEq

namespace Diagnostic

/-- Everything but a warning is an error. -/
def isError (d : Diagnostic) : Bool :=
  d.level != .warning

/-- What stands between the position and the text. -/
def label : Level → String
  | .parse => "parse error: "
  | .validation => ""
  | .warning => "warning: "

/-- The diagnostic as it is printed. -/
def message (d : Diagnostic) : String :=
  d.pos.render ++ ": " ++ label d.level ++ d.text

/-- A parse error. -/
def parse (pos : Position) (text : String) : Diagnostic :=
  ⟨.parse, pos, text⟩

/-- A broken rule. -/
def validation (pos : Position) (text : String) : Diagnostic :=
  ⟨.validation, pos, text⟩

/-- A warning. -/
def warning (pos : Position) (text : String) : Diagnostic :=
  ⟨.warning, pos, text⟩

end Diagnostic

/-- A name between backquotes, as messages quote it. -/
def ticked (s : String) : String :=
  "`" ++ s ++ "`"

end DocTopics
