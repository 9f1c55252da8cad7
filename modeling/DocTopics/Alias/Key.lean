import DocTopics.Text.Basic
import DocTopics.Text.Nesting
import DocTopics.UnknownWord

/-!
# Lookup keys

A key leads to a topic inside one of four namespaces. Combination keys name a generic and the types
one of its methods dispatches on, as in `area(Circle,Square)`.

## Main definitions

- `Namespace` — where a key is looked up, in the order in which tables list them
- `AliasPolicy` — what happens when a symbol has the name of the package
- `Combination` — a generic and a type list, with `Combination.key` and `Combination.ofKey`
-/

namespace DocTopics

/-- Where a key is looked up. Keys are unique inside one namespace only. -/
inductive Namespace where
  | plain
  | package
  | classDef
  | combination
deriving DecidableEq

namespace Namespace

/-- The word for a namespace. -/
def word : Namespace → String
  | .plain => "plain"
  | .package => "package"
  | .classDef => "class"
  | .combination => "combination"

/-- Reads the word for a namespace. -/
def ofWord : String → Except UnknownWord Namespace
  | "plain" => .ok .plain
  | "package" => .ok .package
  | "class" => .ok .classDef
  | "combination" => .ok .combination
  | other => .error (.aliasNamespace other)

/-- The place of a namespace in a table. -/
def rank : Namespace → Nat
  | .plain => 0
  | .package => 1
  | .classDef => 2
  | .combination => 3

theorem rank_injective {a b : Namespace} (h : a.rank = b.rank) : a = b := by
  cases a <;> cases b <;> first | rfl | cases h

end Namespace

/-- What to do when the plain name of a package is taken by a symbol. -/
inductive AliasPolicy where
  /-- The symbol keeps the key. -/
  | preferSymbol
  /-- The package claims the key all the same. -/
  | strict
deriving DecidableEq

namespace AliasPolicy

/-- The word for a policy. -/
def word : AliasPolicy → String
  | .preferSymbol => "prefer-symbol"
  | .strict => "strict"

/-- Reads the word for a policy. -/
def ofWord : String → Except UnknownWord AliasPolicy
  | "prefer-symbol" => .ok .preferSymbol
  | "strict" => .ok .strict
  | other => .error (.aliasPolicy other)

end AliasPolicy

/-- A generic together with the types that one of its methods dispatches on. -/
structure Combination where
  generic : String
  types : List String
deriving DecidableEq

namespace Combination

/-- The key of a combination: `generic(type1,type2)`. -/
def key (c : Combination) : String :=
  c.generic ++ "(" ++ Text.join "," c.types ++ ")"

/-- The text in front of a closing parenthesis at the very end. -/
def withoutClosing (cs : List Char) : Option (List Char) :=
  match cs.reverse with
  | ')' :: rest => some rest.reverse
  | _ => none

/-- A type as it is written in a key: white space, and then quotes, around it do not count. -/
def typeOf (cs : List Char) : List Char :=
  Chars.strip isQuote (Chars.trim cs)

/-- The generic and the types of a text of the form `generic(type, ...)`. Blank types are left out;
a blank generic is refused. -/
def ofKey (text : String) : Option Combination :=
  match Chars.cutAt (· == '(') text.toList with
  | none => none
  | some (generic, rest) =>
    match withoutClosing rest with
    | none => none
    | some inner =>
      if Chars.blank generic then none
      else
        some
          { generic := String.ofList (Chars.trim generic)
            types := (((Chars.pieces (· == ',') inner).map typeOf).filter (!·.isEmpty)).map
              String.ofList }

end Combination

end DocTopics
