import DocTopics.Text.Basic
import DocTopics.Text.Nesting

/-!
# Declarations

A documentation block stands in front of a declaration: a function, a generic, a method, a class, a
data assignment, or one of two sentinel statements that stand in for one.

## Main definitions

- `DeclarationKind`, `Declaration` — what was declared
- `Declaration.formalNames` — the names of the formal arguments
-/

namespace DocTopics

/-- A statement that stands in for a declaration when data or a package is documented. -/
inductive Sentinel where
  /-- The statement `NULL`. -/
  | null
  /-- The statement `"_PACKAGE"`. -/
  | package
deriving DecidableEq

/-- The kind of a declaration. -/
inductive DeclarationKind where
  | function
  | method
  | generic
  | classDef
  | data
  | sentinel (s : Sentinel)
deriving DecidableEq

/-- A declaration as it was recognised in a unit. -/
structure Declaration where
  kind : DeclarationKind
  /-- The declared name; the name of the generic for a method, nothing for a sentinel. -/
  name : Option String := none
  /-- The formal arguments without the parentheses around them. -/
  formals : Option String := none
  /-- The types a method dispatches on, in order. -/
  dispatch : List String := []
  /-- The line of the declaration. -/
  line : Nat := 0
deriving DecidableEq

namespace Declaration

/-- The declaration is a sentinel statement. -/
def isSentinel (d : Declaration) : Bool :=
  match d.kind with
  | .sentinel _ => true
  | _ => false

/-- The name in front of the default value of one argument. -/
def argumentName (arg : List Char) : List Char :=
  Chars.trim (arg.takeWhile (· != '='))

/-- The argument names of a list of formal arguments. -/
def namesOfFormals (formals : String) : List String :=
  (((Nesting.splitTopLevel formals.toList).map argumentName).filter (!·.isEmpty)).map String.ofList

/-- The names of the formal arguments in order, `...` included. -/
def formalNames (d : Declaration) : List String :=
  match d.formals with
  | some formals => namesOfFormals formals
  | none => []

end Declaration

end DocTopics
