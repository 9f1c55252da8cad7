import DocTopics.Failure
import DocTopics.Sorting
import DocTopics.Topic.Basic

/-!
# Merging topics

Topics of one identifier become one topic. They are taken in source order, so the result does not
depend on the order in which they were built.

## Main definitions

- `Topic.extendWith` — one topic with a later one of the same identifier added
- `Topic.merge` — one topic per identifier, in order of first appearance
-/

namespace DocTopics

/-- The last explicit text wins; without one the first text stays. -/
def Passage.merge (earlier later : Option Passage) : Option Passage :=
  match later with
  | none => earlier
  | some field => if field.explicit || earlier.isNone then some field else earlier

namespace Topic

/-- The topic with everything a later one says added. Both must be of one documentation type. -/
def extendWith (t later : Topic) : Except Failure Topic :=
  if t.docType = later.docType then
    let earlier := later.place.before t.place
    .ok
      { t with
        place := if earlier then later.place else t.place
        pos := if earlier then later.pos else t.pos
        title := Passage.merge t.title later.title
        description := Passage.merge t.description later.description
        details := Passage.merge t.details later.details
        usage := Passage.merge t.usage later.usage
        value := t.value.or later.value
        params := Param.extendByName t.params later.params
        sections := t.sections ++ later.sections
        exported := t.exported || later.exported
        aliases := extendUnique t.aliases later.aliases
        families := extendUnique t.families later.families
        references := t.references ++ later.references
        seeAlso := t.seeAlso ++ later.seeAlso
        keywords := extendUnique t.keywords later.keywords
        examples := t.examples ++ later.examples
        format := t.format.or later.format
        source := t.source.or later.source
        slots := Param.extendByName t.slots later.slots
        fields := Param.extendByName t.fields later.fields
        inheritParams := extendUnique t.inheritParams later.inheritParams
        noRd := t.noRd || later.noRd
        subjects := t.subjects ++ later.subjects }
  else .error (.docTypeConflict t.id t.docType t.pos later.docType later.pos)

/-- Adds a topic to the one of its identifier, or to the end. -/
def mergeInto (groups : List Topic) (t : Topic) : Except Failure (List Topic) :=
  match groups with
  | [] => .ok [t]
  | g :: rest =>
    if g.id = t.id then (g.extendWith t).map (· :: rest) else (mergeInto rest t).map (g :: ·)

/-- The topics in source order; topics of one place keep their relative order. -/
def inSourceOrder (topics : List Topic) : List Topic :=
  sortBy (fun a b => a.place.before b.place) topics

/-- One topic per identifier, in source order of the first of each. -/
def merge (topics : List Topic) : Except Failure (List Topic) :=
  (inSourceOrder topics).foldlM mergeInto []

end Topic

end DocTopics
