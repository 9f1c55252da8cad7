/-!
# Words outside a closed vocabulary

Documentation types, alias namespaces, alias policies and lookup scopes are each written as one of a
few words. Any other word is refused with a message that quotes it.
-/

namespace DocTopics

/-- A word that is not in the vocabulary it was read for. -/
inductive UnknownWord where
  | docType (word : String)
  | aliasNamespace (word : String)
  | aliasPolicy (word : String)
  | scope (word : String)
deriving DecidableEq

/-- The message for a word outside its vocabulary. -/
def UnknownWord.message : UnknownWord → String
  | .docType w => "unknown doc type `" ++ w ++ "`"
  | .aliasNamespace w => "unknown namespace `" ++ w ++ "`"
  | .aliasPolicy w => "unknown alias policy `" ++ w ++ "` (use prefer-symbol or strict)"
  | .scope w => "unknown scope `" ++ w ++ "` (use source or compiled)"

end DocTopics
