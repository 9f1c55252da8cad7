import DocTopics.Alias.Table
import DocTopics.Document.Format
import DocTopics.Query

/-!
# Topic stores

A store answers queries with documents. It holds an alias index and the document of every topic that
has one. Up to two stores are open at a time: one for the topics built now, one for the topics of an
earlier build.

## Main definitions

- `Store.resolve` — the topic that a query leads to
- `Store.lookup` — the document that answers a query
- `ScopedStores.lookup` — the same in one of two scopes
-/

namespace DocTopics

/-- A document and the topic it is about. -/
structure Rendered where
  id : String
  text : String
deriving DecidableEq

/-- An alias index with the documents of its topics. Of several documents of one topic the last
counts. -/
structure Store where
  index : AliasIndex := {}
  documents : List Rendered := []

namespace Store

/-- The document of a topic. -/
def document? (s : Store) (id : String) : Option String :=
  (s.documents.reverse.find? (·.id == id)).map (·.text)

/-- The store of a list of topics. -/
def ofTopics (index : AliasIndex) (topics : List Topic) (format : Format) : Store :=
  { index := index
    documents := (topics.filter (·.hasDocument)).map fun t => ⟨t.id, format.render t⟩ }

/-- The number of types two lists share when one is a prefix of the other and neither is empty. -/
def sharedTypes (signature query : List String) : Option Nat :=
  let n := min signature.length query.length
  if 0 < n ∧ signature.take n = query.take n then some n else none

/-- The best matches so far: the most types that an entry shared with the query, and the entries that
shared as many, in order. -/
structure Matches where
  most : Option Nat := none
  candidates : List (List String × String) := []

/-- Takes in an entry that shares `n` types with the query. Fewer than the most so far do not count,
and more of them drop all earlier candidates. -/
def Matches.add (m : Matches) (n : Nat) (entry : List String × String) : Matches :=
  match m.most with
  | some most =>
    if n < most then m
    else if n = most then { m with candidates := m.candidates ++ [entry] }
    else { most := some n, candidates := [entry] }
  | none => { most := some n, candidates := [entry] }

/-- Looks at the next entry of a generic. An entry of exactly the types of the query ends the search
with its topic. -/
def consider (types : List String) (m : Matches) (entry : List String × String) :
    Except String Matches :=
  if entry.1 = types then .error entry.2
  else
    match sharedTypes entry.1 types with
    | some n => .ok (m.add n entry)
    | none => .ok m

/-- The answer of a search that no entry has ended: the topic of the only candidate. -/
def Matches.answer (m : Matches) (generic text : String) : Except LookupError String :=
  match m.candidates with
  | [] => .error (.notFound text)
  | [(_, topic)] => .ok topic
  | candidates =>
    .error (.ambiguous text (candidates.map fun (types, _) => Combination.key ⟨generic, types⟩))

/-- The topic that a combination leads to: that of an exact signature, or of the only best match. -/
def resolveCombination (s : Store) (c : Combination) (text : String) :
    Except LookupError String :=
  match (s.index.combinations c.generic).foldlM (consider c.types) {} with
  | .error topic => .ok topic
  | .ok found => found.answer c.generic text

/-- The topic of a key, or an error that quotes the text of the query. -/
def resolveKey (s : Store) (space : Namespace) (name text : String) : Except LookupError String :=
  match s.index.get? space name with
  | some topic => .ok topic
  | none => .error (.notFound text)

/-- The topic that a query leads to; errors quote the `text` of the query. -/
def resolve (s : Store) (query : Query) (text : String) : Except LookupError String :=
  match query with
  | .plain name => s.resolveKey .plain name text
  | .qualified space name => s.resolveKey space name text
  | .combination c => s.resolveCombination c text

/-- The document that answers a query. -/
def lookup (s : Store) (text : String) : Except LookupError Rendered := do
  let query ← Query.ofText text
  let id ← s.resolve query text
  match s.document? id with
  | some doc => .ok ⟨id, doc⟩
  | none => .error (.notRendered text id)

end Store

/-- Where topics come from. -/
inductive Scope where
  /-- Topics built from sources now. -/
  | source
  /-- Topics of an earlier build. -/
  | compiled
deriving DecidableEq

namespace Scope

/-- The word for a scope. -/
def word : Scope → String
  | .source => "source"
  | .compiled => "compiled"

/-- Reads the word for a scope. -/
def ofWord : String → Except UnknownWord Scope
  | "source" => .ok .source
  | "compiled" => .ok .compiled
  | other => .error (.scope other)

end Scope

/-- A store per scope, as far as they are loaded. -/
structure ScopedStores where
  source : Option Store := none
  compiled : Option Store := none

namespace ScopedStores

/-- The store of a scope. -/
def store? (r : ScopedStores) : Scope → Option Store
  | .source => r.source
  | .compiled => r.compiled

/-- Installs a store in place of the one before. -/
def set (r : ScopedStores) (scope : Scope) (store : Store) : ScopedStores :=
  match scope with
  | .source => { r with source := some store }
  | .compiled => { r with compiled := some store }

/-- The document that answers a query in a scope. -/
def lookup (r : ScopedStores) (query : String) (scope : Scope) : Except LookupError Rendered :=
  match r.store? scope with
  | some store => store.lookup query
  | none => .error (.scopeUnavailable scope.word)

end ScopedStores

end DocTopics
