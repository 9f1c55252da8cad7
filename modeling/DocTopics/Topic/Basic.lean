import DocTopics.Position
import DocTopics.Topic.DocType
import DocTopics.Topic.Section

/-!
# Topics

A topic is one unit of documentation. It covers one or more declarations, and everything that is
written about them.

## Main definitions

- `Passage` — a text and whether a tag set it
- `Param` — a documented argument, slot or field
- `Subject` — a declaration together with what its comment says about it
- `Topic` — a unit of documentation
- `extendUnique` — the list union that keeps first occurrences
-/

namespace DocTopics

/-- A text, and whether a tag set it rather than the preamble. -/
structure Passage where
  text : String
  explicit : Bool := false
deriving DecidableEq

/-- A documented argument, slot or field. The name may list several names between commas. -/
structure Param where
  name : String
  description : String
deriving DecidableEq

/-- The entry documents the formal argument of this name. -/
def Param.covers (p : Param) (formal : String) : Bool :=
  (Text.splitOn ',' p.name).any fun name => Text.trim name == formal

/-- The entries followed by the later ones whose name is not taken yet, in order. -/
def Param.extendByName (entries later : List Param) : List Param :=
  later.foldl (fun acc p => if acc.any (·.name == p.name) then acc else acc ++ [p]) entries

/-- A documented declaration and the unit it came from. -/
structure Subject where
  unit : String := ""
  declaration : Declaration
  /-- A method of a generic that dispatches on the class of its first argument by name. -/
  s3 : Bool := false
  /-- The names given to export in place of the declared one. -/
  exportNames : List String := []
deriving DecidableEq

/-- The name a declaration is known by; a method is `generic,A,B-method` or `generic.A`. -/
def Subject.displayName (d : Subject) : Option String :=
  d.declaration.name.map fun name =>
    if d.s3 then name ++ "." ++ Text.join "." d.declaration.dispatch
    else if d.declaration.kind = .method then
      name ++ "," ++ Text.join "," d.declaration.dispatch ++ "-method"
    else name

/-- A unit of documentation. -/
structure Topic where
  /-- The identifier that groups declarations; also the name of the document. -/
  id : String
  /-- The place of the topic's first block in the input. -/
  place : Place := {}
  pos : Position
  title : Option Passage := none
  description : Option Passage := none
  details : Option Passage := none
  usage : Option Passage := none
  value : Option String := none
  params : List Param := []
  sections : List Section := []
  docType : DocType
  exported : Bool := false
  aliases : List String := []
  families : List String := []
  references : List String := []
  seeAlso : List String := []
  keywords : List String := []
  examples : List String := []
  format : Option String := none
  source : Option String := none
  slots : List Param := []
  fields : List Param := []
  inheritParams : List String := []
  /-- No document is wanted. -/
  noRd : Bool := false
  subjects : List Subject := []
  /-- Package names whose plain key belongs to a symbol of the same name. -/
  shadowedAliases : List String := []

/-- The list with the items that are not in it yet appended, each once and in order. -/
def extendUnique [BEq α] (list items : List α) : List α :=
  items.foldl (fun acc x => if acc.contains x then acc else acc ++ [x]) list

@[simp]
theorem mem_extendUnique [BEq α] [LawfulBEq α] {list items : List α} {x : α} :
    x ∈ extendUnique list items ↔ x ∈ list ∨ x ∈ items := by
  unfold extendUnique
  induction items generalizing list with
  | nil => simp
  | cons y ys ih =>
    rw [List.foldl_cons, ih]
    split <;> grind

theorem nodup_extendUnique [BEq α] [LawfulBEq α] {list : List α} (h : list.Nodup)
    (items : List α) : (extendUnique list items).Nodup := by
  unfold extendUnique
  induction items generalizing list with
  | nil => exact h
  | cons y ys ih =>
    rw [List.foldl_cons]
    apply ih
    split
    · exact h
    · rename_i hy
      simp only [List.contains_eq_mem, decide_eq_true_eq] at hy
      exact List.nodup_append.2 ⟨h, by simp, by grind⟩

namespace Topic

/-- The title, or the empty text. -/
def titleText (t : Topic) : String :=
  match t.title with
  | some field => field.text
  | none => ""

/-- The units a topic draws from, in order of first appearance. -/
def sourceUnits (t : Topic) : List String :=
  extendUnique [] (t.subjects.map (·.unit))

/-- A topic has a document when one is wanted and the title is not blank. -/
def hasDocument (t : Topic) : Bool :=
  !t.noRd && !Text.blank t.titleText

end Topic

end DocTopics
