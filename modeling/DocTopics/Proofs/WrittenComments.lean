import DocTopics.Manual.Basic
import DocTopics.Proofs.FunctionHeaders
import DocTopics.Proofs.MarkerRuns

/-!
# Reading written comments back

A draft is a comment before it is written: the lines of its preamble, and the names and lines of its
tags. It is written behind markers, with every `@` of a line doubled, in front of a function. Reading
a unit of written drafts gives exactly their comments back, whatever their lines look like.

## Main definitions

- `Span`, `DraftTag`, `Draft` — what can be written
- `Draft.source`, `draftText` — how it is written
- `Draft.comment`, `draftComments` — what is to be read

## Main statements

- `unescape_doubled`, `tagLine_doubled` — a doubled text is read as itself and opens no tag
- `Draft.ofLines_entries` — the comment of a written draft
- `parsedUnit_draftText` — the blocks of a unit of written drafts
-/

namespace DocTopics

/-! ### Drafts -/

/-- Lines without line feeds and without white space at their ends, of which the first and the last
are not blank. -/
structure Span where
  lines : List String
  newline_notMem : ∀ l ∈ lines, '\n' ∉ l.toList
  getLast_notBlank : ∀ l ∈ lines, ∀ c ∈ l.toList.getLast?, isBlank c = false
  first_notBlank : ∀ l ∈ lines.head?, Text.blank l = false
  last_notBlank : ∀ l ∈ lines.getLast?, Text.blank l = false

/-- A tag name and the lines of its content. -/
structure DraftTag where
  name : String
  span : Span
  isName : ∃ c cs, name.toList = c :: cs ∧ c.isAlpha = true ∧ ∀ d ∈ cs, continuesTagName d = true

/-- A preamble and tags, not both of them empty. -/
structure Draft where
  preamble : Span
  tags : List DraftTag
  ne_nil : preamble.lines ≠ [] ∨ tags ≠ []

/-- Every `@` is doubled. -/
def doubled (cs : List Char) : List Char :=
  cs.flatMap fun c => if c = '@' then ['@', '@'] else [c]

/-- The text of the lines of a span, behind the markers. -/
def Span.texts (s : Span) : List String :=
  s.lines.map fun l => String.ofList (doubled l.toList)

def DraftTag.texts (t : DraftTag) : List String :=
  ("@" ++ t.name) :: t.span.texts

def Draft.texts (d : Draft) : List String :=
  d.preamble.texts ++ d.tags.flatMap DraftTag.texts

/-- The name of the `i`th function. -/
def functionName (i : Nat) : String :=
  "f_" ++ toString i

/-- The line that declares the `i`th function. -/
def functionLine (i : Nat) : String :=
  functionName i ++ " <- function() NULL"

/-- The lines of a draft that documents the `i`th function. -/
def Draft.source (i : Nat) (d : Draft) : List String :=
  d.texts.map ("#' " ++ ·) ++ [functionLine i]

/-- The lines of drafts that document the functions from the `i`th on. -/
def draftLines (i : Nat) : List Draft → List String
  | [] => []
  | d :: ds => d.source i ++ draftLines (i + 1) ds

/-- The text of a unit of drafts that document the functions from the `i`th on. -/
def draftText (i : Nat) (ds : List Draft) : String :=
  String.join ((draftLines i ds).map (· ++ "\n"))

/-- The tags of a draft, for tags that are written from line `number` on. -/
def DraftTag.tags (number : Nat) : List DraftTag → List Tag
  | [] => []
  | t :: ts =>
    ⟨t.name, Text.joinLines t.span.lines, number⟩ ::
      DraftTag.tags (number + 1 + t.span.lines.length) ts

/-- The comment of a draft that is written from line `number` on. -/
def Draft.comment (number : Nat) (d : Draft) : Comment :=
  ⟨Text.joinLines d.preamble.lines, DraftTag.tags (number + d.preamble.lines.length) d.tags⟩

/-- The documented functions and their comments, for drafts that are written from the `i`th function
and from line `number` on. -/
def draftComments (i number : Nat) : List Draft → List (Option String × Comment)
  | [] => []
  | d :: ds =>
    (some (functionName i), d.comment number) ::
      draftComments (i + 1) (number + (d.source i).length) ds

/-! ### Doubled texts -/

theorem doubled_cons (c : Char) (cs : List Char) :
    doubled (c :: cs) = (if c = '@' then ['@', '@'] else [c]) ++ doubled cs :=
  List.flatMap_cons

theorem mem_doubled {c : Char} {cs : List Char} : c ∈ doubled cs ↔ c ∈ cs := by
  induction cs with
  | nil => rfl
  | cons d cs ih =>
    rw [doubled_cons, List.mem_append, ih, List.mem_cons]
    split <;> simp_all

theorem unescape_cons {c : Char} (h : c ≠ '@') (cs : List Char) :
    unescape (c :: cs) = c :: unescape cs :=
  unescape.eq_2 c cs fun _ hc => absurd hc h

theorem unescape_doubled (cs : List Char) : unescape (doubled cs) = cs := by
  induction cs with
  | nil => rfl
  | cons c cs ih =>
    rw [doubled_cons]
    by_cases hc : c = '@'
    · rw [if_pos hc, hc]
      exact congrArg ('@' :: ·) ih
    · rw [if_neg hc, List.singleton_append, unescape_cons hc, ih]

theorem getLast?_doubled (cs : List Char) : (doubled cs).getLast? = cs.getLast? := by
  rcases List.eq_nil_or_concat cs with rfl | ⟨front, c, rfl⟩
  · rfl
  · by_cases hc : c = '@'
    · simp [doubled, hc]
    · simp [doubled, hc]

theorem trimStart_doubled (cs : List Char) :
    Chars.trimStart (doubled cs) = doubled (Chars.trimStart cs) := by
  induction cs with
  | nil => rfl
  | cons c cs ih =>
    by_cases hblank : isBlank c = true
    · have hc : c ≠ '@' := by
        rintro rfl
        exact absurd hblank (by decide)
      rw [doubled_cons, if_neg hc, List.singleton_append, Chars.trimStart, Chars.trimStart,
        List.dropWhile_cons_of_pos hblank, List.dropWhile_cons_of_pos hblank]
      exact ih
    · -- what the first character is doubled to starts with that character, so nothing is dropped
      have hhead : ∃ rest, doubled (c :: cs) = c :: rest := by
        rw [doubled_cons]
        by_cases hc : c = '@'
        · exact ⟨'@' :: doubled cs, by rw [if_pos hc, hc]; rfl⟩
        · exact ⟨doubled cs, by rw [if_neg hc]; rfl⟩
      obtain ⟨rest, hrest⟩ := hhead
      rw [Chars.trimStart, Chars.trimStart, List.dropWhile_cons_of_neg hblank, hrest,
        List.dropWhile_cons_of_neg hblank]

/-- A doubled text starts with another character than `@`, or with two of these. -/
theorem doubled_cases (cs : List Char) :
    (∃ rest, Chars.trimStart (doubled cs) = '@' :: '@' :: rest) ∨
      ∀ rest, Chars.trimStart (doubled cs) ≠ '@' :: rest := by
  rw [trimStart_doubled]
  cases Chars.trimStart cs with
  | nil => exact .inr fun rest h => by cases h
  | cons c rest =>
    by_cases hc : c = '@'
    · exact .inl ⟨doubled rest, by rw [doubled_cons, if_pos hc]; rfl⟩
    · refine .inr fun rest' h => hc ?_
      rw [doubled_cons, if_neg hc] at h
      exact (List.cons.inj h).1

theorem tagLine_doubled (cs : List Char) : tagLine (doubled cs) = none := by
  unfold tagLine
  rcases doubled_cases cs with ⟨rest, h⟩ | h
  · rw [h]
    rfl
  · split
    · rename_i hstart
      exact absurd hstart (h _)
    · rfl

theorem isStrayTag_doubled (cs : List Char) : isStrayTag (doubled cs) = false := by
  unfold isStrayTag
  rcases doubled_cases cs with ⟨rest, h⟩ | h
  · rw [h]
    rfl
  · split
    · rfl
    · rename_i hstart
      exact absurd hstart (h _)
    · rfl

/-! ### Tag names -/

theorem isBlank_of_toNat {c : Char} (h : 33 ≤ c.toNat ∧ c.toNat ≤ 126) : isBlank c = false := by
  simp only [isBlank, Bool.or_eq_false_iff, Bool.and_eq_false_iff, decide_eq_false_iff_not,
    beq_eq_false_iff_ne, ne_eq]
  omega

theorem toNat_of_isAlphanum {c : Char} (h : c.isAlphanum = true) :
    48 ≤ c.toNat ∧ c.toNat ≤ 122 := by
  -- upper case, lower case or a digit, by the definitions
  change (decide (_ ∧ _) || decide _ && decide _ || decide _ && decide _) = true at h
  simp only [Bool.or_eq_true, Bool.and_eq_true, decide_eq_true_eq, ge_iff_le,
    UInt32.le_iff_toNat_le] at h
  change (65 ≤ c.toNat ∧ c.toNat ≤ 90 ∨ 97 ≤ c.toNat ∧ c.toNat ≤ 122) ∨
    48 ≤ c.toNat ∧ c.toNat ≤ 57 at h
  omega

theorem isBlank_of_continuesTagName {c : Char} (h : continuesTagName c = true) :
    isBlank c = false := by
  simp only [continuesTagName, Bool.or_eq_true, beq_iff_eq] at h
  rcases h with (h | rfl) | rfl
  · have := toNat_of_isAlphanum h
    exact isBlank_of_toNat (by omega)
  · decide
  · decide

namespace DraftTag

theorem continuesTagName_of_mem (t : DraftTag) {c : Char} (h : c ∈ t.name.toList) :
    continuesTagName c = true := by
  obtain ⟨d, ds, hname, hd, hds⟩ := t.isName
  rw [hname] at h
  rcases List.mem_cons.1 h with rfl | h
  · simp [continuesTagName, Char.isAlphanum, hd]
  · exact hds c h

theorem tagLine_name (t : DraftTag) : tagLine ("@" ++ t.name).toList = some (t.name.toList, []) := by
  obtain ⟨c, cs, hname, hc, hcs⟩ := t.isName
  have hstart : Chars.trimStart ("@" ++ t.name).toList = '@' :: c :: cs := by
    rw [String.toList_append, hname]
    rfl
  have hdrop : cs.dropWhile continuesTagName = [] := List.dropWhile_eq_nil_iff.2 hcs
  have htake : cs.takeWhile continuesTagName = cs := List.takeWhile_eq_self_iff.2 hcs
  simp only [tagLine, hstart, hc, if_true, hdrop, htake, tagContent, Option.map_some, hname]

theorem isStrayTag_name (t : DraftTag) : isStrayTag ("@" ++ t.name).toList = false := by
  unfold isStrayTag
  rw [t.tagLine_name]
  split <;> rfl

end DraftTag

/-! ### The comment of a draft -/

/-- The lines of a block that hold the given texts from line `number` on. -/
def entriesFrom (number : Nat) (texts : List String) : List NumberedLine :=
  (texts.zipIdx number).map fun x => ⟨x.2, x.1⟩

theorem entriesFrom_cons (number : Nat) (text : String) (texts : List String) :
    entriesFrom number (text :: texts) = ⟨number, text⟩ :: entriesFrom (number + 1) texts := by
  simp [entriesFrom]

theorem entriesFrom_append (number : Nat) (texts texts' : List String) :
    entriesFrom number (texts ++ texts') =
      entriesFrom number texts ++ entriesFrom (number + texts.length) texts' := by
  simp [entriesFrom, List.zipIdx_append]

theorem map_text_entriesFrom (number : Nat) (texts : List String) :
    (entriesFrom number texts).map NumberedLine.text = texts := by
  rw [entriesFrom, List.map_map]
  exact List.zipIdx_map_fst number texts

/-- Lines that open no tag belong to what stands in front of them. -/
theorem Comment.split_append_of_tagLine {lead : List NumberedLine}
    (h : ∀ text ∈ lead.map NumberedLine.text, tagLine text.toList = none)
    (rest : List NumberedLine) :
    Comment.split (lead ++ rest) =
      ((lead.map NumberedLine.text).map (fun text => unescape text.toList) ++
        (Comment.split rest).1, (Comment.split rest).2) := by
  induction lead with
  | nil => rfl
  | cons line lead ih =>
    rw [List.map_cons, List.forall_mem_cons] at h
    rw [List.cons_append, Comment.split, ih h.2]
    simp only [h.1, List.map_cons, List.cons_append]

/-- Doubled lines are read as themselves. -/
theorem Comment.split_append (lines : List String) (number : Nat) (rest : List NumberedLine) :
    Comment.split
        (entriesFrom number (lines.map fun l => String.ofList (doubled l.toList)) ++ rest) =
      (lines.map String.toList ++ (Comment.split rest).1, (Comment.split rest).2) := by
  have htexts := map_text_entriesFrom number (lines.map fun l => String.ofList (doubled l.toList))
  rw [Comment.split_append_of_tagLine, htexts, List.map_map]
  · simp [Function.comp_def, unescape_doubled]
  · rw [htexts, List.forall_mem_map]
    intro l _
    rw [String.toList_ofList, tagLine_doubled]

theorem dropBlankEnds_eq_self {ls : List (List Char)}
    (hfirst : ∀ l ∈ ls.head?, Chars.blank l = false)
    (hlast : ∀ l ∈ ls.getLast?, Chars.blank l = false) : dropBlankEnds ls = ls := by
  rw [dropBlankEnds, dropWhile_eq_self hfirst, dropWhile_eq_self (by rwa [List.head?_reverse]),
    List.reverse_reverse]

theorem Span.trimEnd_line (s : Span) {l : String} (hl : l ∈ s.lines) :
    String.ofList (Chars.trimEnd l.toList) = l := by
  rw [Chars.trimEnd_eq_self (s.getLast_notBlank l hl), String.ofList_toList]

theorem Span.spanText_lines (s : Span) :
    spanText (s.lines.map String.toList) = Text.joinLines s.lines := by
  have hends : dropBlankEnds (s.lines.map String.toList) = s.lines.map String.toList := by
    refine dropBlankEnds_eq_self ?_ ?_
    · intro l hl
      rw [List.head?_map] at hl
      obtain ⟨l', hl', rfl⟩ := Option.map_eq_some_iff.1 hl
      exact s.first_notBlank l' hl'
    · intro l hl
      rw [List.getLast?_map] at hl
      obtain ⟨l', hl', rfl⟩ := Option.map_eq_some_iff.1 hl
      exact s.last_notBlank l' hl'
  have hlines : (s.lines.map fun l => String.ofList (Chars.trimEnd l.toList)) = s.lines :=
    (List.map_congr_left fun l hl => s.trimEnd_line hl).trans (List.map_id s.lines)
  rw [spanText, hends, List.map_map]
  exact congrArg Text.joinLines hlines

theorem DraftTag.split_entriesFrom (ts : List DraftTag) (number : Nat) :
    Comment.split (entriesFrom number (ts.flatMap DraftTag.texts)) =
      ([], DraftTag.tags number ts) := by
  induction ts generalizing number with
  | nil => rfl
  | cons t ts ih =>
    rw [List.flatMap_cons, DraftTag.texts, List.cons_append, entriesFrom_cons, entriesFrom_append,
      Comment.split, Span.texts, Comment.split_append, ih]
    -- the first line of the content is empty, and is dropped as a blank line
    have hcontent : spanText (unescape [] :: t.span.lines.map String.toList) =
        Text.joinLines t.span.lines := t.span.spanText_lines
    simp only [t.tagLine_name, List.append_nil, String.ofList_toList, hcontent, DraftTag.tags,
      List.length_map]

/-- The comment of a written draft. -/
theorem Draft.ofLines_entries (d : Draft) (number : Nat) :
    Comment.ofLines (entriesFrom number d.texts) = d.comment number := by
  rw [Draft.texts, entriesFrom_append, Comment.ofLines, Span.texts, Comment.split_append,
    DraftTag.split_entriesFrom, List.length_map]
  simp only [List.append_nil, d.preamble.spanText_lines]
  rfl

/-! ### The documented functions -/

/-- What follows the name of a documented function. -/
def functionBody : List Char :=
  " <- function() NULL".toList

/-- The characters of the name of the `i`th function behind the first. -/
def nameRest (i : Nat) : List Char :=
  '_' :: Nat.toDigits 10 i

theorem toList_functionName (i : Nat) : (functionName i).toList = 'f' :: nameRest i := by
  simp [functionName, nameRest]

theorem toList_functionLine (i : Nat) :
    (functionLine i).toList = 'f' :: (nameRest i ++ functionBody) := by
  rw [functionLine, String.toList_append, toList_functionName]
  rfl

theorem getLast?_functionLine (i : Nat) : (functionLine i).toList.getLast? = some 'L' := by
  rw [toList_functionLine, ← List.cons_append, List.getLast?_append]
  rfl

theorem isWord_of_isDigit {c : Char} (h : c.isDigit = true) : isWord c = true := by
  simp only [Char.isDigit, Bool.and_eq_true, decide_eq_true_eq, ge_iff_le,
    UInt32.le_iff_toNat_le] at h
  change 48 ≤ c.toNat ∧ c.toNat ≤ 57 at h
  change (if c.toNat < 48 then false else (decide (c.toNat ≤ 57) || inRanges c.toNat _)) = true
  rw [if_neg (by omega), decide_eq_true h.2, Bool.true_or]

theorem continuesName_of_mem_nameRest {c : Char} {i : Nat} (h : c ∈ nameRest i) :
    Declaration.continuesName c = true := by
  rcases List.mem_cons.1 h with rfl | h
  · decide +kernel
  · have hdigit : c.isDigit = true := Nat.isDigit_of_mem_toDigits (by decide) (by decide) h
    rw [Declaration.continuesName, isWord_of_isDigit hdigit, Bool.true_or]

namespace Declaration

/-- The start of the line of a documented function. -/
def draftHead (i : Nat) : FunctionHead :=
  .ofName (functionName i) ⟨'f', nameRest i, toList_functionName i, by decide,
    fun _ => continuesName_of_mem_nameRest⟩

theorem toList_functionLine_eq_append (i : Nat) :
    (functionLine i).toList = (draftHead i).text ++ ") NULL".toList := by
  have hafter : " <- function() NULL".toList = " ".toList ++ ("<-".toList ++ (" ".toList ++
      ("function".toList ++ ("".toList ++ '(' :: ") NULL".toList)))) := by decide
  rw [functionLine, String.toList_append, FunctionHead.text_append, hafter]
  rfl

theorem recognize_functionLine (i number : Nat) (below : List String) :
    ∃ d, recognize (functionLine i :: below) number = some d ∧ d.name = some (functionName i) := by
  obtain ⟨tail, hstatement⟩ := exists_statement_eq .nil (by decide) (functionLine i) below
  obtain ⟨more, htext⟩ := exists_joinLines_append [] (functionLine i) below
  have hline : (Text.joinLines ([] ++ [functionLine i])).toList =
      (draftHead i).text ++ ") NULL".toList := toList_functionLine_eq_append i
  rw [hline, List.append_assoc] at hstatement htext
  exact ⟨_, (draftHead i).recognize_of_statement htext hstatement, rfl⟩

end Declaration

/-! ### Units of drafts -/

/-- What a line has to be like to be read back as it was written. -/
def Plain (text : String) : Prop :=
  '\n' ∉ text.toList ∧ ∀ c ∈ text.toList.getLast?, isBlank c = false

theorem Span.plain_of_mem_texts (s : Span) {text : String} (h : text ∈ s.texts) : Plain text := by
  obtain ⟨l, hl, rfl⟩ := List.mem_map.1 h
  rw [Plain, String.toList_ofList, mem_doubled, getLast?_doubled]
  exact ⟨s.newline_notMem l hl, s.getLast_notBlank l hl⟩

theorem DraftTag.plain_name (t : DraftTag) : Plain ("@" ++ t.name) := by
  have hblank : ∀ c ∈ ("@" ++ t.name).toList, isBlank c = false := by
    intro c hc
    rw [String.toList_append, List.mem_append] at hc
    rcases hc with hc | hc
    · rw [List.mem_singleton.1 hc]
      decide
    · exact isBlank_of_continuesTagName (t.continuesTagName_of_mem hc)
  refine ⟨fun hnewline => ?_, fun c hc => hblank c (List.mem_of_getLast? hc)⟩
  exact absurd (hblank _ hnewline) (by decide)

/-- The text of a line is a doubled line of a span, or it opens a tag. -/
theorem Draft.texts_cases (d : Draft) {text : String} (h : text ∈ d.texts) :
    (∃ s : Span, text ∈ s.texts) ∨ ∃ t : DraftTag, text = "@" ++ t.name := by
  rcases List.mem_append.1 h with h | h
  · exact .inl ⟨d.preamble, h⟩
  · obtain ⟨t, -, h⟩ := List.mem_flatMap.1 h
    rcases List.mem_cons.1 h with h | h
    · exact .inr ⟨t, h⟩
    · exact .inl ⟨t.span, h⟩

theorem Draft.plain_of_mem_texts (d : Draft) {text : String} (h : text ∈ d.texts) : Plain text := by
  rcases d.texts_cases h with ⟨s, h⟩ | ⟨t, rfl⟩
  · exact s.plain_of_mem_texts h
  · exact t.plain_name

theorem Draft.isStrayTag_of_mem_texts (d : Draft) {text : String} (h : text ∈ d.texts) :
    isStrayTag text.toList = false := by
  rcases d.texts_cases h with ⟨s, h⟩ | ⟨t, rfl⟩
  · obtain ⟨l, -, rfl⟩ := List.mem_map.1 h
    rw [String.toList_ofList]
    exact isStrayTag_doubled l.toList
  · exact t.isStrayTag_name

theorem Draft.texts_ne_nil (d : Draft) : d.texts ≠ [] := by
  intro h
  obtain ⟨hpreamble, htags⟩ := List.append_eq_nil_iff.1 h
  rcases d.ne_nil with hne | hne
  · exact hne (List.map_eq_nil_iff.1 hpreamble)
  · obtain ⟨t, ht⟩ := List.exists_mem_of_ne_nil _ hne
    have := List.flatMap_eq_nil_iff.1 htags t ht
    cases this

theorem markerLine?_of_plain {text : String} (h : Plain text) (number : Nat) :
    markerLine? "#'" number ("#' " ++ text) = some ⟨number, text⟩ := by
  have hclass : LineClass.of "#'" ("#' " ++ text) = .marker text := by
    rw [LineClass.of, String.toList_append]
    exact congrArg LineClass.marker (String.ofList_toList)
  simp only [markerLine?, hclass, Text.trimEnd, Chars.trimEnd_eq_self h.2, String.ofList_toList]

theorem lineClass_functionLine (i : Nat) : LineClass.of "#'" (functionLine i) = .code := by
  rw [LineClass.of, toList_functionLine]
  rfl

theorem holdEntries_entriesFrom {texts : List String} (h : ∀ text ∈ texts, Plain text)
    (number : Nat) :
    HoldEntries "#'" number (texts.map ("#' " ++ ·)) (entriesFrom number texts) := by
  induction texts generalizing number with
  | nil => exact .nil
  | cons text texts ih =>
    obtain ⟨htext, hmore⟩ := List.forall_mem_cons.1 h
    rw [entriesFrom_cons, List.map_cons, holdEntries_cons_iff]
    exact ⟨markerLine?_of_plain htext number, ih hmore (number + 1)⟩

/-- A written draft is one run of marker lines, and the function below is its declaration. -/
theorem Draft.markerRuns_source (d : Draft) (i number : Nat) (below : List String) :
    ∃ r, r.lines = entriesFrom number d.texts ∧
      (∃ decl, declarationBelow "#'" r.next r.below = some decl ∧
        decl.name = some (functionName i)) ∧
      markerRuns "#'" number (d.source i ++ below) =
        r :: markerRuns "#'" (number + (d.source i).length) below := by
  obtain ⟨text, texts, htexts⟩ := List.exists_cons_of_ne_nil d.texts_ne_nil
  have hlines : entriesFrom number d.texts = ⟨number, text⟩ :: entriesFrom (number + 1) texts := by
    rw [htexts, entriesFrom_cons]
  have hwithin := holdEntries_entriesFrom (fun _ => d.plain_of_mem_texts) number
  rw [hlines] at hwithin
  have hbelow : ∀ line ∈ (functionLine i :: below).head?, ¬IsMarkerLine "#'" line := by
    rintro line ⟨⟩ ⟨text, htext⟩
    rw [lineClass_functionLine] at htext
    cases htext
  have hruns := markerRuns_append hwithin hbelow
  rw [List.length_map] at hruns
  obtain ⟨decl, hdecl, hname⟩ :=
    Declaration.recognize_functionLine i (number + d.texts.length) below
  refine ⟨⟨⟨number, text⟩, entriesFrom (number + 1) texts, number + d.texts.length,
    functionLine i :: below⟩, hlines.symm, ⟨decl, ?_, hname⟩, ?_⟩
  · rw [declarationBelow, lineClass_functionLine]
    exact hdecl
  · rw [source, List.append_assoc, List.singleton_append, hruns, markerRuns]
    simp only [markerLine?, lineClass_functionLine, List.length_append, List.length_map,
      List.length_singleton, Nat.add_assoc]

theorem Draft.strayTags_eq_nil (d : Draft) {b : Block} {number : Nat}
    (h : b.lines = entriesFrom number d.texts) : Comment.strayTags b = [] := by
  rw [Comment.strayTags, List.map_eq_nil_iff, List.filter_eq_nil_iff, h]
  intro entry hentry
  obtain ⟨⟨text, k⟩, hmem, rfl⟩ := List.mem_map.1 hentry
  simp [d.isStrayTag_of_mem_texts (List.fst_mem_of_mem_zipIdx hmem)]

/-- The runs of a unit of drafts become one block per draft, in order, with the draft's comment. -/
theorem findings_draftLines (unit : SourceUnit) (ordinal i number : Nat) (ds : List Draft) :
    ∃ blocks : List Block,
      (markerRuns "#'" number (draftLines i ds)).map (MarkerRun.finding unit ordinal "#'") =
        blocks.map .bound ∧
      blocks.map (fun b => (b.declaration.name, Comment.ofBlock b)) = draftComments i number ds ∧
      ∀ b ∈ blocks, Comment.strayTags b = [] := by
  induction ds generalizing i number with
  | nil => exact ⟨[], rfl, rfl, by simp⟩
  | cons d ds ih =>
    obtain ⟨r, hlines, ⟨decl, hdecl, hname⟩, hruns⟩ :=
      d.markerRuns_source i number (draftLines (i + 1) ds)
    obtain ⟨blocks, hfindings, hcomments, hstray⟩ := ih (i + 1) (number + (d.source i).length)
    have hfinding : r.finding unit ordinal "#'" =
        .bound ⟨unit.id, ⟨ordinal, r.first.number⟩, r.lines, decl⟩ := by
      rw [MarkerRun.finding, hdecl]
    refine ⟨⟨unit.id, ⟨ordinal, r.first.number⟩, r.lines, decl⟩ :: blocks, ?_, ?_, ?_⟩
    · rw [draftLines, hruns, List.map_cons, List.map_cons, hfinding, hfindings]
    · rw [List.map_cons, hcomments, draftComments, hname, Comment.ofBlock, hlines,
        d.ofLines_entries]
    · rw [List.forall_mem_cons]
      exact ⟨d.strayTags_eq_nil hlines, hstray⟩

theorem ended_functionLine (i : Nat) :
    '\n' ∉ (functionLine i).toList ∧ (functionLine i).toList.getLast? ≠ some '\r' := by
  rw [getLast?_functionLine, toList_functionLine, List.mem_cons, List.mem_append]
  refine ⟨?_, by decide⟩
  rintro (h | h | h)
  · exact absurd h (by decide)
  · exact absurd (continuesName_of_mem_nameRest h) (by decide +kernel)
  · exact absurd h (by decide)

theorem ended_of_plain {text : String} (h : Plain text) :
    '\n' ∉ ("#' " ++ text).toList ∧ ("#' " ++ text).toList.getLast? ≠ some '\r' := by
  rw [String.toList_append]
  refine ⟨?_, fun hlast => ?_⟩
  · rw [List.mem_append, not_or]
    exact ⟨by decide, h.1⟩
  · rw [List.getLast?_append] at hlast
    cases htext : text.toList.getLast? with
    | none =>
      rw [htext] at hlast
      exact absurd hlast (by decide)
    | some c =>
      rw [htext, Option.some_or, Option.some_inj] at hlast
      exact absurd (h.2 c htext) (by rw [hlast]; decide)

theorem ended_of_mem_draftLines {i : Nat} {ds : List Draft} :
    ∀ line ∈ draftLines i ds, '\n' ∉ line.toList ∧ line.toList.getLast? ≠ some '\r' := by
  induction ds generalizing i with
  | nil => simp [draftLines]
  | cons d ds ih =>
    intro line hline
    rw [draftLines, Draft.source, List.append_assoc, List.singleton_append, List.mem_append,
      List.mem_cons] at hline
    rcases hline with hline | rfl | hline
    · obtain ⟨text, htext, rfl⟩ := List.mem_map.1 hline
      exact ended_of_plain (d.plain_of_mem_texts htext)
    · exact ended_functionLine i
    · exact ih line hline

/-- The lines of drafts are the lines of the text that is made of them. -/
theorem lines_draftText (i : Nat) (ds : List Draft) :
    Text.lines (draftText i ds) = draftLines i ds :=
  Text.lines_join ended_of_mem_draftLines

/-- Reading a unit of written drafts gives exactly the comments of the drafts, each bound to its
function, and nothing is reported. -/
theorem parsedUnit_draftText (drafts : List Draft) (i : Nat) (id : String) (ordinal : Nat) :
    (ParsedUnit.of ⟨id, draftText i drafts⟩ ordinal "#'").blocks.map
        (fun x => (x.1.declaration.name, x.2)) = draftComments i 1 drafts ∧
      (ParsedUnit.of ⟨id, draftText i drafts⟩ ordinal "#'").diagnostics = [] := by
  obtain ⟨blocks, hfindings, hcomments, hstray⟩ :=
    findings_draftLines ⟨id, draftText i drafts⟩ ordinal i 1 drafts
  have hbound : Block.findings ⟨id, draftText i drafts⟩ ordinal "#'" = blocks.map .bound := by
    rw [findings_eq_map, lines_draftText, hfindings]
  have hblocks : Block.ofUnit ⟨id, draftText i drafts⟩ ordinal "#'" = blocks := by
    rw [Block.ofUnit, hbound, List.filterMap_map]
    exact List.filterMap_some
  have hdiscarded : Block.discarded ⟨id, draftText i drafts⟩ ordinal "#'" = [] := by
    rw [Block.discarded, hbound, List.filterMap_map]
    exact List.filterMap_eq_nil_iff.2 fun _ _ => rfl
  constructor
  · rw [ParsedUnit.of, hblocks, List.map_map]
    exact hcomments
  · rw [ParsedUnit.of, hblocks, hdiscarded, List.nil_append, List.flatMap_eq_nil_iff]
    exact hstray

/-- A line that looks like a tag, an empty one and one that looks like a marker line, and a tag with
doubled signs. -/
def signsDraft : Draft where
  preamble := ⟨["@param", "", "#' x"], by decide +kernel, by simp; decide, by decide +kernel,
    by decide +kernel⟩
  tags := [⟨"return", ⟨["a@@b"], by decide +kernel, by simp; decide, by decide +kernel,
    by decide +kernel⟩, 'r', "eturn".toList, rfl, rfl, List.all_eq_true.1 rfl⟩]
  ne_nil := .inr (List.cons_ne_nil _ _)

theorem parsedUnit_signsDraft :
    draftText 1 [signsDraft] =
        "#' @@param\n#' \n#' #' x\n#' @return\n#' a@@@@b\nf_1 <- function() NULL\n" ∧
      (ParsedUnit.of ⟨"R/a.R", draftText 1 [signsDraft]⟩ 0 "#'").blocks.map
          (fun x => (x.1.declaration.name, x.2)) =
        [(some "f_1", ⟨"@param\n\n#' x", [⟨"return", "a@@b", 4⟩]⟩)] ∧
      (ParsedUnit.of ⟨"R/a.R", draftText 1 [signsDraft]⟩ 0 "#'").diagnostics = [] := by
  have htext : draftText 1 [signsDraft] =
      "#' @@param\n#' \n#' #' x\n#' @return\n#' a@@@@b\nf_1 <- function() NULL\n" := by
    decide +kernel
  have hcomments : draftComments 1 1 [signsDraft] =
      [(some "f_1", ⟨"@param\n\n#' x", [⟨"return", "a@@b", 4⟩]⟩)] := by
    decide +kernel
  have hread := parsedUnit_draftText [signsDraft] 1 "R/a.R" 0
  rw [hcomments] at hread
  exact ⟨htext, hread⟩

end DocTopics
