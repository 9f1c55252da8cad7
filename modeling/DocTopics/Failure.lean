import DocTopics.Alias.Key
import DocTopics.Position
import DocTopics.Topic.DocType

/-!
# Failures

A failure ends a run without a result, unlike a diagnostic. A failed access to a file carries the
reason that the file system gave.
-/

namespace DocTopics

/-- Why a file could not be read or written. -/
inductive FileFault where
  | notFound
  | notDirectory
  | isDirectory
  | alreadyExists
  /-- A name, or the path as a whole, is longer than names and paths may be. -/
  | nameTooLong
  /-- The path holds the character `U+0000`, which no file name has. -/
  | nulInName
  /-- The bytes of the file are no text in UTF-8. -/
  | notText
deriving DecidableEq

/-- The system's words for a file fault. -/
def FileFault.message : FileFault → String
  | .notFound => "No such file or directory (os error 2)"
  | .notDirectory => "Not a directory (os error 20)"
  | .isDirectory => "Is a directory (os error 21)"
  | .alreadyExists => "File exists (os error 17)"
  | .nameTooLong => "File name too long (os error 36)"
  | .nulInName => "file name contained an unexpected NUL byte"
  | .notText => "stream did not contain valid UTF-8"

/-- Why a run ended without a result. -/
inductive Failure where
  /-- Two comments of one topic disagree on its type. -/
  | docTypeConflict (id : String) (first : DocType) (firstPos : Position) (second : DocType)
      (secondPos : Position)
  /-- Two topics claim one key. -/
  | collision (space : Namespace) (key first second : String)
  /-- Units include each other in a circle. -/
  | cycle (chain : List String)
  /-- A line of an alias table cannot be read. -/
  | aliasTable (line : Nat) (text : String)
  | unknownFormat (name : String)
  /-- A configuration file cannot be understood. -/
  | config (path : String)
  /-- A file or directory could not be read or written. -/
  | file (path : String) (fault : FileFault)
deriving DecidableEq

/-- The message for a failure. -/
def Failure.message : Failure → String
  | .docTypeConflict id first firstPos second secondPos =>
    "topic `" ++ id ++ "` mixes doc types: `" ++ first.word ++ "` at " ++ firstPos.render ++
      " and `" ++ second.word ++ "` at " ++ secondPos.render
  | .collision space key first second =>
    "alias `" ++ key ++ "` in the " ++ space.word ++ " namespace is claimed by both `" ++ first ++
      "` and `" ++ second ++ "`"
  | .cycle chain => "collation cycle: " ++ Text.join " -> " chain
  | .aliasTable line text => "malformed alias table line " ++ toString line ++ ": " ++ text
  | .unknownFormat name => "unknown format: " ++ name ++ ". Use rd or json"
  | .config path => "invalid config " ++ path
  | .file path _ => "failed to read " ++ path

end DocTopics
