import DocTopics.Alias.Key

/-!
# Queries

A query is a plain name, a name qualified by `package?` or `class?`, or a combination
`generic(type, ...)`. A question mark with nothing in front of it makes any text a plain name.
-/

namespace DocTopics

/-- Why a query has no answer. -/
inductive LookupError where
  | notFound (query : String)
  | ambiguous (query : String) (candidates : List String)
  /-- The topic is known but has no document. -/
  | notRendered (query topic : String)
  | scopeUnavailable (scope : String)
deriving DecidableEq

/-- The message for a query without an answer. -/
def LookupError.message : LookupError → String
  | .notFound query => "no topic matches `" ++ query ++ "`"
  | .ambiguous query candidates =>
    "`" ++ query ++ "` is ambiguous: " ++ Text.join ", " candidates
  | .notRendered query topic =>
    "topic `" ++ topic ++ "` matched `" ++ query ++ "` but has no rendered document"
  | .scopeUnavailable scope => "the " ++ scope ++ " scope is not loaded"

/-- What is asked for. -/
inductive Query where
  | plain (name : String)
  | qualified (space : Namespace) (name : String)
  | combination (c : Combination)
deriving DecidableEq

namespace Query

/-- Reads a query of which everything in front of the first question mark is `qualifier`. -/
def ofQualified (text qualifier name : String) : Except LookupError Query :=
  match Text.trim qualifier with
  | "" => .ok (.plain (Text.trim name))
  | "package" => .ok (.qualified .package (Text.trim name))
  | "class" => .ok (.qualified .classDef (Text.trim name))
  | _ => .error (.notFound text)

/-- Reads a query; white space around it does not matter. -/
def ofText (text : String) : Except LookupError Query :=
  let text := Text.trim text
  match Text.cutAt (· == '?') text with
  | some (qualifier, name) => ofQualified text qualifier name
  | none =>
    match Combination.ofKey text with
    | some c => .ok (.combination c)
    | none => .ok (.plain text)

end Query

end DocTopics
