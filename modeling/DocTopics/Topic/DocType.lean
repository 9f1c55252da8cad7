import DocTopics.Declaration.Basic
import DocTopics.UnknownWord

/-!
# Documentation types

Every topic has one documentation type. It follows from the kind of the documented declaration
unless the comment names another.
-/

namespace DocTopics

/-- What kind of thing a topic documents. -/
inductive DocType where
  | function
  | method
  | generic
  | classDef
  | data
  | package
deriving DecidableEq

namespace DocType

/-- The word for a documentation type. -/
def word : DocType → String
  | .function => "function"
  | .method => "method"
  | .generic => "generic"
  | .classDef => "class"
  | .data => "data"
  | .package => "package"

/-- Reads a documentation type; white space around the word does not matter, and the plural
`methods` is accepted. -/
def ofWord (text : String) : Except UnknownWord DocType :=
  match Text.trim text with
  | "function" => .ok .function
  | "method" => .ok .method
  | "methods" => .ok .method
  | "generic" => .ok .generic
  | "class" => .ok .classDef
  | "data" => .ok .data
  | "package" => .ok .package
  | other => .error (.docType other)

/-- The documentation type of a kind of declaration. -/
def ofKind : DeclarationKind → DocType
  | .function => .function
  | .method => .method
  | .generic => .generic
  | .classDef => .classDef
  | .data => .data
  | .sentinel .null => .data
  | .sentinel .package => .package

end DocType

end DocTopics
