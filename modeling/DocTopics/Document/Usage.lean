import DocTopics.Topic.Basic

/-!
# Usage and alias lines

Every document shows how the declarations of its topic are used, and the names they are found by.
-/

namespace DocTopics

/-- The call of a method form, with the generic and its types in braces. -/
def methodUsage (form generic formals : String) (dispatch : List String) : String :=
  "\\" ++ form ++ "\x7b" ++ generic ++ "\x7d\x7b" ++ Text.join "," dispatch ++ "\x7d(" ++ formals ++
    ")"

/-- The usage line of a declaration in a topic of some documentation type, if it has one. -/
def Subject.usageLine (docType : DocType) (d : Subject) : Option String :=
  d.declaration.name.bind fun name =>
    let formals := d.declaration.formals.getD ""
    match docType, d.declaration.kind with
    | .classDef, _ => none
    | .package, _ => none
    | .data, _ => some name
    | _, .method =>
      some (methodUsage (if d.s3 then "method" else "S4method") name formals d.declaration.dispatch)
    | _, .function => some (name ++ "(" ++ formals ++ ")")
    | _, .generic => some (name ++ "(" ++ formals ++ ")")
    | _, _ => none

/-- The usage lines: those given explicitly, or one per declaration, each once. -/
def Topic.usageLines (t : Topic) : List String :=
  match t.usage with
  | some field => Text.lines field.text
  | none => extendUnique [] (t.subjects.filterMap (Subject.usageLine t.docType))

/-- The names by which a declaration is found in a topic. -/
def Topic.aliasesOf (t : Topic) (d : Subject) : List String :=
  match d.declaration.name with
  | none => []
  | some name =>
    match t.docType with
    | .package => (if t.shadowedAliases.contains name then [] else [name]) ++ ["package-" ++ name]
    | .classDef => [name ++ "-class"]
    | _ => d.displayName.toList

/-- The names by which a topic is found: its identifier, its declarations, its explicit aliases. -/
def Topic.aliasLines (t : Topic) : List String :=
  extendUnique [t.id] (t.subjects.flatMap t.aliasesOf ++ t.aliases)

end DocTopics
