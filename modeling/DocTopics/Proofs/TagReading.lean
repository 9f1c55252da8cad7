import DocTopics.Proofs.FirstOccurrences
import DocTopics.Proofs.Pieces
import DocTopics.Proofs.Trimming
import DocTopics.Topic.OfComment

/-!
# What tags say to a topic

Tags are applied to a topic one by one, each to the topic that those in front of it left. All the
same every field holds what the tags of a few names say, in the order they have among themselves, and
of the tags in front of a tag only those of its own name matter for its fault.

## Main definitions

- `Comment.contents`, `Comment.joinedText`, `Comment.entries`, `Comment.usage` — what the tags of one
  name say together
- `Topic.withTags` — a topic with all its fields read off a comment
- `Comment.tagFaults` — the faults of single tags

## Main statements

- `Assembly.apply_withTags` — one more tag is applied
- `Assembly.ofSubject_eq` — the topic and the faults of a whole comment
-/

namespace DocTopics

/-- White space around a text holds no words. -/
theorem Text.words_trim (s : String) : Text.words (Text.trim s) = Text.words s := by
  obtain ⟨lead, tail, hs, hlead, htail⟩ := Chars.exists_eq_append_trim s.toList
  have hfront : ∀ gap : List Char, (∀ c ∈ gap, isBlank c = true) → ∀ cs,
      Chars.words (gap ++ cs) = Chars.words cs := by
    intro gap hgap cs
    induction gap with
    | nil => rfl
    | cons c gap ih =>
      obtain ⟨hc, hgap⟩ := List.forall_mem_cons.1 hgap
      exact (Chars.words_append_cons hc [] (gap ++ cs)).trans (ih hgap)
  have hback : ∀ cs, Chars.words (cs ++ tail) = Chars.words cs := by
    intro cs
    cases tail with
    | nil => rw [List.append_nil]
    | cons c tail =>
      obtain ⟨hc, htail⟩ := List.forall_mem_cons.1 htail
      have hnone : Chars.words tail = [] := by
        have hwords := hfront tail htail []
        rwa [List.append_nil] at hwords
      rw [Chars.words_append_cons hc, hnone, List.append_nil]
  rw [Text.words, Text.words, Text.trim, String.toList_ofList]
  conv_rhs => rw [hs]
  rw [hback, hfront lead hlead]

namespace Comment

/-! ### The tags of one name -/

/-- The trimmed contents of the tags of a name, in order. -/
def contents (c : Comment) (name : String) : List String :=
  (c.all name).map fun t => Text.trim t.content

/-- The non-empty texts as paragraphs. -/
def joinedText (c : Comment) (name : String) : Option String :=
  match (c.contents name).filter (· != "") with
  | [] => none
  | texts => some (Text.join "\n\n" texts)

/-- The entries of the tags of a name; of several entries with one name the first stays. -/
def entries (c : Comment) (name : String) : List Param :=
  Param.extendByName [] ((c.all name).filterMap entryOf)

/-- The explicit usage, which the last tag sets. -/
def usage (c : Comment) : Option Passage :=
  (c.contents "usage").getLast?.map fun text => { text := text, explicit := true }

/-- The comment with one more tag. -/
def concat (c : Comment) (t : Tag) : Comment :=
  { c with tags := c.tags ++ [t] }

section Concat

variable (c : Comment) (t : Tag) (name : String)

theorem all_concat :
    (c.concat t).all name = if t.name = name then c.all name ++ [t] else c.all name := by
  split <;> simp [all, concat, *]

theorem has_concat :
    (c.concat t).has name = if t.name = name then true else c.has name := by
  split <;> simp [has, concat, *]

theorem contents_concat :
    (c.concat t).contents name =
      if t.name = name then c.contents name ++ [Text.trim t.content] else c.contents name := by
  unfold contents
  rw [all_concat]
  split <;> simp

theorem wordsOf_concat :
    (c.concat t).wordsOf name =
      if t.name = name then c.wordsOf name ++ Text.words (Text.trim t.content)
      else c.wordsOf name := by
  unfold wordsOf
  rw [all_concat, Text.words_trim]
  split <;> simp

theorem usage_concat :
    (c.concat t).usage =
      if t.name = "usage" then some { text := Text.trim t.content, explicit := true }
      else c.usage := by
  unfold usage
  rw [contents_concat]
  split <;> simp

theorem joinedText_concat :
    (c.concat t).joinedText name =
      if t.name = name then Assembly.addParagraph (c.joinedText name) (Text.trim t.content)
      else c.joinedText name := by
  unfold joinedText
  rw [contents_concat]
  by_cases hname : t.name = name
  · rw [if_pos hname, if_pos hname, List.filter_append]
    unfold Assembly.addParagraph
    by_cases hempty : Text.trim t.content = ""
    · simp [hempty]
    · have hkept : [Text.trim t.content].filter (· != "") = [Text.trim t.content] := by
        simp [hempty]
      rw [if_neg hempty, hkept]
      rcases (c.contents name).filter (· != "") with _ | ⟨text, texts⟩
      · rfl
      · exact congrArg some (Text.join_concat _ _ _ _)
  · rw [if_neg hname, if_neg hname]

/-- An entry is added if its name is not taken by the tags of the same name in front. -/
theorem entries_concat (unit : String) :
    (c.concat t).entries name =
      if t.name = name then (Assembly.enter unit t (c.entries name)).1 else c.entries name := by
  unfold entries Assembly.enter
  rw [all_concat]
  split
  · rw [List.filterMap_append]
    cases hentry : entryOf t with
    | none => simp [hentry]
    | some p =>
      have hlast : [t].filterMap entryOf = [p] := by simp [hentry]
      rw [hlast, Param.extendByName_concat]
      dsimp only
      split <;> rfl
  · rfl

end Concat

/-! ### Faults of single tags -/

/-- The faults of one tag, given the tags in front of it. -/
def faultsOf (unit : String) (before : List Tag) (t : Tag) : List Diagnostic :=
  if t.name ∈ ["param", "slot", "field"] then
    (Assembly.enter unit t (entries { tags := before } t.name)).2
  else if t.name = "section" ∧ Section.ofText (Text.trim t.content) = none then
    [.validation ⟨unit, t.line⟩ "`@section` title must end with a colon"]
  else []

/-- The faults of single tags, in order. -/
def tagFaults (unit : String) (before : List Tag) : List Tag → List Diagnostic
  | [] => []
  | t :: rest => faultsOf unit before t ++ tagFaults unit (before ++ [t]) rest

theorem tagFaults_concat (unit : String) (before tags : List Tag) (t : Tag) :
    tagFaults unit before (tags ++ [t]) =
      tagFaults unit before tags ++ faultsOf unit (before ++ tags) t := by
  induction tags generalizing before with
  | nil => simp [tagFaults]
  | cons s tags ih =>
    rw [List.cons_append, tagFaults, ih, tagFaults, List.append_assoc, List.append_assoc,
      List.singleton_append]

end Comment

/-! ### Fields -/

/-- The topic with every field that tags are applied to read off the tags of its own name. -/
def Topic.withTags (t : Topic) (c : Comment) : Topic :=
  { t with
    usage := c.usage
    value := c.joinedText "return"
    params := c.entries "param"
    sections := (c.contents "section").filterMap Section.ofText
    aliases := extendUnique [] (c.wordsOf "aliases")
    families := extendUnique [] ((c.contents "family").filter (· != ""))
    references := c.contents "references"
    seeAlso := c.contents "seealso"
    keywords := extendUnique [] (c.wordsOf "keywords")
    examples := (c.all "examples").map (·.content)
    format := c.joinedText "format"
    source := c.joinedText "source"
    slots := c.entries "slot"
    fields := c.entries "field"
    inheritParams := extendUnique [] (c.wordsOf "inheritParams")
    noRd := c.has "noRd" }

namespace Assembly

open Comment

/-- A tag adds to the field of its name what it says there. -/
theorem apply_withTags (unit : String) (topic : Topic) (c : Comment) (faults : List Diagnostic)
    (t : Tag) :
    apply unit ⟨topic.withTags c, faults⟩ t =
      ⟨topic.withTags (c.concat t), faults ++ faultsOf unit c.tags t⟩ := by
  unfold apply
  simp only [Topic.withTags, usage_concat, joinedText_concat, entries_concat _ _ _ unit,
    contents_concat, wordsOf_concat, all_concat, has_concat, faultsOf]
  -- the cases stand in the order of the tag names in `apply`
  split
  case h_1 h | h_2 h | h_3 h =>
    simp [h]
    rfl
  case h_5 h =>
    simp only [h]
    cases hread : Section.ofText (Text.trim t.content) <;> simp [hread]
  case h_7 h | h_11 h | h_13 h => simp [h, extendUnique_append]
  case h_8 h =>
    by_cases hempty : Text.trim t.content = "" <;> simp [h, hempty, extendUnique_append]
  case h_4 h | h_6 h | h_9 h | h_10 h | h_12 h | h_14 h | h_15 h | h_16 h => simp [h]
  case h_17 => simp_all

/-- All tags are applied to a topic whose fields are empty. -/
theorem foldl_apply (unit : String) {topic : Topic} (hempty : topic.withTags {} = topic)
    (tags : List Tag) :
    tags.foldl (apply unit) { topic := topic } =
      ⟨topic.withTags { tags := tags }, tagFaults unit [] tags⟩ := by
  induction tags using List.reverseRecOn with
  | nil =>
    rw [List.foldl_nil, hempty]
    rfl
  | append_singleton tags t ih =>
    rw [List.foldl_append, ih, List.foldl_cons, List.foldl_nil, apply_withTags, tagFaults_concat]
    rfl

theorem ofSubject_eq (b : Block) (c : Comment) (d : Subject) :
    ofSubject b c d = ⟨(Topic.ofPreamble b c d).withTags c, tagFaults b.unit [] c.tags⟩ :=
  foldl_apply b.unit rfl c.tags

end Assembly

/-- The topic that tags were applied to one by one has all its fields read off the comment. -/
theorem Topic.ofSubject_eq (b : Block) (c : Comment) (d : Subject) :
    Topic.ofSubject b c d = (Topic.ofPreamble b c d).withTags c :=
  congrArg Assembly.topic (Assembly.ofSubject_eq b c d)

end DocTopics
