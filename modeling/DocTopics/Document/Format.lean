import DocTopics.Document.Json
import DocTopics.Document.Rd
import DocTopics.Failure

/-!
# Document formats

A topic is written as an Rd document or as a JSON document.
-/

namespace DocTopics

/-- The format of a document. -/
inductive Format where
  | rd
  | json
deriving DecidableEq

namespace Format

/-- The format of a name. -/
def ofName : String → Except Failure Format
  | "rd" => .ok .rd
  | "json" => .ok .json
  | other => .error (.unknownFormat other)

/-- The extension of the files of a format. -/
def extension : Format → String
  | .rd => "Rd"
  | .json => "json"

/-- The document of a topic. -/
def render : Format → Topic → String
  | .rd => Rd.render
  | .json => Json.render

end Format

end DocTopics
