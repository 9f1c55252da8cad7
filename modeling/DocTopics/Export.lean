import DocTopics.Sorting
import DocTopics.Topic.Basic

/-!
# Export lists

An exported topic contributes one directive per declaration: a symbol, the registration of a method,
or a class.

## Main definitions

- `Export`, `Export.Before` — a directive, and the order of directives
- `exportsOf` — the directives of a list of topics, sorted and without repetition
- `exportFile` — the directives as the text of a file
-/

namespace DocTopics

/-- An export directive. -/
inductive Export where
  | symbol (name : String)
  | s3Method (generic type : String)
  | s4Methods (generic : String)
  | classDef (name : String)
deriving DecidableEq

namespace Export

/-- The place of a kind of directive in a list. -/
def rank : Export → Nat
  | .symbol _ => 0
  | .s3Method _ _ => 1
  | .s4Methods _ => 2
  | .classDef _ => 3

/-- The names in a directive. -/
def names : Export → String × String
  | .symbol name => (name, "")
  | .s3Method generic type => (generic, type)
  | .s4Methods generic => (generic, "")
  | .classDef name => (name, "")

/-- The strict order of directives: by kind, then by names. -/
def Before (a b : Export) : Prop :=
  a.rank < b.rank ∨ (a.rank = b.rank ∧
    (a.names.1 < b.names.1 ∨ (a.names.1 = b.names.1 ∧ a.names.2 < b.names.2)))

instance (a b : Export) : Decidable (a.Before b) :=
  inferInstanceAs (Decidable (_ ∨ _))

/-- A name that needs no quotes. -/
def isSyntactic (name : String) : Bool :=
  match name.toList with
  | [] => false
  | c :: cs =>
    (c.isAlpha || c == '.') && (c :: cs).all fun c => c.isAlphanum || c == '.' || c == '_'

/-- A name that is not syntactic stands between backquotes. -/
def quote (name : String) : String :=
  if isSyntactic name then name else "`" ++ name ++ "`"

/-- The directive as it is written. -/
def render : Export → String
  | .symbol name => "export(" ++ quote name ++ ")"
  | .s3Method generic type => "S3method(" ++ quote generic ++ "," ++ quote type ++ ")"
  | .s4Methods generic => "exportMethods(" ++ quote generic ++ ")"
  | .classDef name => "exportClasses(" ++ quote name ++ ")"

/-- The directive of a declaration without export names of its own. -/
def ofDeclaration (docType : DocType) (d : Subject) : Option Export :=
  d.declaration.name.bind fun name =>
    if docType = .package then none
    else if d.declaration.kind = .method then
      if d.s3 then some (.s3Method name (Text.join "." d.declaration.dispatch))
      else some (.s4Methods name)
    else if docType = .classDef || d.declaration.kind = .classDef then some (.classDef name)
    else some (.symbol name)

/-- The directives of a declaration. Names given to export are symbols and replace its own. -/
def ofSubject (docType : DocType) (d : Subject) : List Export :=
  match d.exportNames with
  | [] => (ofDeclaration docType d).toList
  | names => names.map .symbol

end Export

/-- Puts a directive into its place in a sorted list, unless it is there. -/
def insertExport (e : Export) : List Export → List Export
  | [] => [e]
  | x :: xs =>
    if e.Before x then e :: x :: xs
    else if x.Before e then x :: insertExport e xs
    else x :: xs

/-- The directives of a topic. -/
def Topic.exports (t : Topic) : List Export :=
  if t.exported then t.subjects.flatMap (Export.ofSubject t.docType) else []

/-- The directives of a list of topics, in order and each once. -/
def exportsOf (topics : List Topic) : List Export :=
  (topics.flatMap Topic.exports).foldl (fun acc e => insertExport e acc) []

/-- The first line of a generated file, after its comment sign. -/
def generatedHeader : String :=
  "Generated by topicgen: do not edit by hand"

/-- The directives as the text of a file, in ascending order of their lines. -/
def exportFile (exports : List Export) : String :=
  "# " ++ generatedHeader ++ "\n\n" ++
    String.join ((sortStrings (exports.map Export.render)).map (· ++ "\n"))

end DocTopics
