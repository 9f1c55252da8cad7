import DocTopics.Diagnostic
import DocTopics.Sorting
import DocTopics.Topic.Basic

/-!
# Cross-references between topics

Once all topics are known, a topic takes over the descriptions of parameters it inherits, and the
members of a family link to each other.

## Main definitions

- `Topic.paramTable` — the parameters of all topics by name
- `Topic.inherited` — the parameters of a topic with the inherited ones added
- `Topic.familyLinks` — the cross-links of a topic, one line per family
- `Topic.resolve` — all topics with both applied
- `Topic.resolveFaults` — topics without a title, and sources that do not exist
-/

namespace DocTopics.Topic

/-- Parameters by the name they are found under. -/
abbrev ParamTable := List (String × List Param)

/-- Enters parameters under a name, unless the name is taken. -/
def enterParams (params : List Param) (table : ParamTable) (name : String) : ParamTable :=
  if table.any (·.1 == name) then table else table ++ [(name, params)]

/-- The names that a topic goes by: its identifier, and those of its declarations. -/
def ownNames (t : Topic) : List String :=
  t.id :: t.subjects.filterMap (·.declaration.name)

/-- The parameters of all topics under all their names. A name belongs to the first topic that goes
by it. -/
def paramTable (topics : List Topic) : ParamTable :=
  topics.foldl (fun table t => t.ownNames.foldl (enterParams t.params) table) []

/-- The parameters that are found under a name. -/
def paramsOf (topics : List Topic) (name : String) : Option (List Param) :=
  ((paramTable topics).find? (·.1 == name)).map (·.2)

/-- The formal arguments of all declarations of a topic, each once. -/
def formals (t : Topic) : List String :=
  extendUnique [] (t.subjects.flatMap (·.declaration.formalNames))

/-- The parameters with the description of one formal argument taken over, if it has none yet. -/
def inheritFormal (source : List Param) (params : List Param) (formal : String) : List Param :=
  if params.any (·.covers formal) then params
  else
    match source.find? (·.covers formal) with
    | some p => params ++ [{ name := formal, description := p.description }]
    | none => params

/-- The parameters of a topic, followed by those it inherits, source by source. -/
def inherited (topics : List Topic) (t : Topic) : List Param :=
  t.inheritParams.foldl (fun params name =>
    match paramsOf topics name with
    | some source => t.formals.foldl (inheritFormal source) params
    | none => params) t.params

/-- The identifiers of the topics of a family, in ascending order. -/
def familyMembers (topics : List Topic) (family : String) : List String :=
  sortStrings (topics.flatMap fun t => (t.families.filter (· == family)).map fun _ => t.id)

/-- The link to a topic. -/
def link (id : String) : String :=
  "\\code\x7b\\link\x7b" ++ id ++ "\x7d\x7d"

/-- The line that links a topic to the other members of a family, if there are any. -/
def familyLink (topics : List Topic) (t : Topic) (family : String) : Option String :=
  match (familyMembers topics family).filter (· != t.id) with
  | [] => none
  | others => some ("Other " ++ family ++ ": " ++ Text.join ", " (others.map link))

/-- The cross-links of a topic, one line per family. -/
def familyLinks (topics : List Topic) (t : Topic) : List String :=
  t.families.filterMap (familyLink topics t)

/-- The topics with inherited parameters and family links. -/
def resolve (topics : List Topic) : List Topic :=
  topics.map fun t =>
    { t with params := inherited topics t, seeAlso := t.seeAlso ++ familyLinks topics t }

/-- The topic has no title although a document is wanted. -/
def titleFaults (topics : List Topic) : List Diagnostic :=
  (topics.filter fun t => Text.blank t.titleText && !t.noRd).map fun t =>
    .validation t.pos ("topic " ++ ticked t.id ++ " has no title; it will not be rendered")

/-- The topic inherits from a name that no topic goes by. -/
def inheritFaults (topics : List Topic) : List Diagnostic :=
  topics.flatMap fun t =>
    (t.inheritParams.filter fun name => (paramsOf topics name).isNone).map fun name =>
      .warning t.pos (ticked ("@inheritParams " ++ name) ++ ": no such topic")

/-- Everything wrong with the topics as a whole. -/
def resolveFaults (topics : List Topic) : List Diagnostic :=
  titleFaults topics ++ inheritFaults topics

end DocTopics.Topic
