import DocTopics.Alias.Index

/-!
# The alias table as text

An index is kept as a table of lines `namespace`, tab, `key`, tab, `topic`. Blank lines do not count
when a table is read, and a topic may hold tabs.
-/

namespace DocTopics

/-- The line of an entry. -/
def AliasEntry.row (e : AliasEntry) : String :=
  e.space.word ++ "\t" ++ e.key ++ "\t" ++ e.topic ++ "\n"

/-- Reads the line of an entry. -/
def AliasEntry.ofRow (line : String) : Option AliasEntry :=
  match Text.cutAt (· == '\t') line with
  | none => none
  | some (space, rest) =>
    match Text.cutAt (· == '\t') rest with
    | none => none
    | some (key, topic) =>
      match Namespace.ofWord space with
      | .ok space => some ⟨space, key, topic⟩
      | .error _ => none

namespace AliasIndex

/-- The table of an index. -/
def toTable (index : AliasIndex) : String :=
  String.join (index.entries.map AliasEntry.row)

/-- Adds the entries of the lines from `number` on. -/
def addRows (index : AliasIndex) (number : Nat) : List String → Except Failure AliasIndex
  | [] => .ok index
  | line :: rest =>
    if Text.blank line then addRows index (number + 1) rest
    else
      match AliasEntry.ofRow line with
      | none => .error (.aliasTable number line)
      | some e =>
        match index.insert e with
        | .ok index => addRows index (number + 1) rest
        | .error failure => .error failure

/-- Reads a table. -/
def ofTable (text : String) : Except Failure AliasIndex :=
  addRows {} 1 (Text.lines text)

end AliasIndex

end DocTopics
