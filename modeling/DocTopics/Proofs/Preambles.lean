import DocTopics.Proofs.GroupTitles
import DocTopics.Proofs.WrittenComments

/-!
# The fields of a preamble

The lines in front of the first tag of a comment spell paragraphs, with blank lines around them. The
first paragraph is the title, the second the description, and the others are the details, unless a
tag says otherwise. On the way from the lines to the fields, the lines are joined, trimmed and split
again; no paragraph is lost, joined with its neighbour or moved to another field.

## Main definitions

- `Paragraph` — lines that make one paragraph
- `Spaced` — groups of lines with blank lines around them
- `LastSays`, `Chosen` — the field that the last tag of a name sets, or what stands in its place

## Main statements

- `paragraphs_spanText` — joining and trimming keeps the groups of lines
- `Spaced.paragraphGroups_eq` — spaced groups are read as they were laid out
- `Topic.fields_of_spaced` — title, description and details of a block
-/

namespace DocTopics

/-- Lines that are not blank, without line feeds and without white space at their ends, of which the
first is not indented. -/
structure Paragraph where
  lines : List String
  ne_nil : lines ≠ []
  notBlank : ∀ l ∈ lines, Text.blank l = false
  newline_notMem : ∀ l ∈ lines, '\n' ∉ l.toList
  getLast_notBlank : ∀ l ∈ lines, ∀ c ∈ l.toList.getLast?, isBlank c = false
  head_notBlank : ∀ l ∈ lines.head?, ∀ c ∈ l.toList.head?, isBlank c = false

/-- The text of a paragraph. -/
def Paragraph.text (p : Paragraph) : String :=
  Text.joinLines p.lines

/-- The lines of a paragraph as a comment spells them. -/
def Paragraph.written (p : Paragraph) : List String :=
  p.lines.map fun l => String.ofList (doubled l.toList)

/-- The groups stand in the lines in order, with any number of blank lines around them and at least
one between two of them. -/
inductive Spaced : List (List String) → List String → Prop
  | nil : Spaced [] []
  | blank {line : String} {groups : List (List String)} {ls : List String}
      (hline : Text.blank line = true) (h : Spaced groups ls) : Spaced groups (line :: ls)
  | last (group : List String) : Spaced [group] group
  | cons (group : List String) {line : String} {groups : List (List String)} {ls : List String}
      (hline : Text.blank line = true) (h : Spaced groups ls) :
      Spaced (group :: groups) (group ++ line :: ls)

/-! ### Groups of lines -/

theorem paragraphGroups_blank {line : String} (h : Text.blank line = true) (ls : List String) :
    paragraphGroups (line :: ls) = paragraphGroups ls := by
  rw [paragraphGroups.eq_def]
  simp only [h, if_true]

/-- Lines that are not blank make one group, up to a blank line or the end. -/
theorem paragraphGroups_append {group rest : List String} (hne : group ≠ [])
    (hgroup : ∀ l ∈ group, Text.blank l = false) (hrest : ∀ l ∈ rest.head?, Text.blank l = true) :
    paragraphGroups (group ++ rest) = group :: paragraphGroups rest := by
  induction group with
  | nil => exact absurd rfl hne
  | cons line group ih =>
    obtain ⟨hline, hgroup⟩ := List.forall_mem_cons.1 hgroup
    cases group with
    | nil =>
      cases rest with
      | nil => simp [paragraphGroups, hline]
      | cons next rest =>
        rw [List.singleton_append, paragraphGroups.eq_def]
        simp [hline, hrest next rfl]
    | cons next group =>
      have hnext := (List.forall_mem_cons.1 hgroup).1
      have hgroups := ih (List.cons_ne_nil next group) hgroup
      rw [List.cons_append, paragraphGroups.eq_def]
      simp only [hline, List.cons_append, hnext, Bool.false_eq_true, if_false] at hgroups ⊢
      rw [hgroups]

/-- Groups of lines that are not blank are read as they were laid out. -/
theorem Spaced.paragraphGroups_eq {groups : List (List String)} {ls : List String}
    (h : Spaced groups ls)
    (hgroups : ∀ group ∈ groups, group ≠ [] ∧ ∀ l ∈ group, Text.blank l = false) :
    paragraphGroups ls = groups := by
  induction h with
  | nil => rfl
  | blank hline _ ih => rw [paragraphGroups_blank hline, ih hgroups]
  | last group =>
    obtain ⟨hne, hblank⟩ := hgroups group List.mem_cons_self
    rw [← List.append_nil group, paragraphGroups_append hne hblank (by simp), List.append_nil]
    rfl
  | cons group hline _ ih =>
    obtain ⟨⟨hne, hblank⟩, hgroups⟩ := List.forall_mem_cons.1 hgroups
    rw [paragraphGroups_append hne hblank (by simpa using hline), paragraphGroups_blank hline,
      ih hgroups]

/-- Spaced groups stay so when the lines are changed, if blank lines stay blank. -/
theorem Spaced.map {groups : List (List String)} {ls : List String} (h : Spaced groups ls)
    {f : String → String} (hf : ∀ l, Text.blank l = true → Text.blank (f l) = true) :
    Spaced (groups.map (List.map f)) (ls.map f) := by
  induction h with
  | nil => exact .nil
  | blank hline _ ih => exact .blank (hf _ hline) ih
  | last group => exact .last (group.map f)
  | cons group hline _ ih =>
    rw [List.map_append, List.map_cons]
    exact .cons (group.map f) (hf _ hline) ih

theorem Spaced.mem {groups : List (List String)} {ls : List String} (h : Spaced groups ls)
    {l : String} (hl : l ∈ ls) : Text.blank l = true ∨ ∃ group ∈ groups, l ∈ group := by
  induction h with
  | nil => cases hl
  | blank hline _ ih =>
    rcases List.mem_cons.1 hl with rfl | hl
    · exact .inl hline
    · exact ih hl
  | last group => exact .inr ⟨group, List.mem_cons_self, hl⟩
  | cons group hline _ ih =>
    rcases List.mem_append.1 hl with hl | hl
    · exact .inr ⟨group, List.mem_cons_self, hl⟩
    · rcases List.mem_cons.1 hl with rfl | hl
      · exact .inl hline
      · rcases ih hl with hblank | ⟨other, hother, hmem⟩
        · exact .inl hblank
        · exact .inr ⟨other, List.mem_cons_of_mem group hother, hmem⟩

/-! ### Blank lines at the ends -/

theorem paragraphGroups_append_of_blank {lead : List String}
    (h : ∀ l ∈ lead, Text.blank l = true) (ls : List String) :
    paragraphGroups (lead ++ ls) = paragraphGroups ls := by
  induction lead with
  | nil => rfl
  | cons line lead ih =>
    obtain ⟨hline, hlead⟩ := List.forall_mem_cons.1 h
    rw [List.cons_append, paragraphGroups_blank hline, ih hlead]

theorem paragraphGroups_append_blank (ls : List String) {tail : List String}
    (h : ∀ l ∈ tail, Text.blank l = true) : paragraphGroups (ls ++ tail) = paragraphGroups ls := by
  induction ls with
  | nil => exact paragraphGroups_eq_nil_iff.2 h
  | cons line ls ih =>
    by_cases hline : Text.blank line = true
    · rw [List.cons_append, paragraphGroups_blank hline, paragraphGroups_blank hline, ih]
    · cases ls with
      | nil =>
        have hone : ∀ l ∈ [line], Text.blank l = false := by
          rw [List.forall_mem_singleton]
          exact Bool.eq_false_iff.2 hline
        have halone : paragraphGroups ([line] ++ []) = [line] :: paragraphGroups [] :=
          paragraphGroups_append (List.cons_ne_nil line []) hone (by simp)
        rw [paragraphGroups_append (List.cons_ne_nil line []) hone
          fun l hl => h l (List.mem_of_mem_head? hl), paragraphGroups_eq_nil_iff.2 h]
        exact halone.symm
      | cons next ls =>
        rw [List.cons_append] at ih
        rw [List.cons_append, List.cons_append, paragraphGroups.eq_def]
        conv_rhs => rw [paragraphGroups.eq_def]
        simp only [ih]

theorem blank_trimEnd_line (l : List Char) :
    Text.blank (String.ofList (Chars.trimEnd l)) = Chars.blank l := by
  rw [Text.blank, String.toList_ofList, Chars.blank_trimEnd]

/-- The text of a span is read as the lines it was joined of. -/
theorem lines_spanText {ls : List (List Char)}
    (h : ∀ l ∈ dropBlankEnds ls, '\n' ∉ Chars.trimEnd l) :
    Text.lines (spanText ls) =
      (dropBlankEnds ls).map fun l => String.ofList (Chars.trimEnd l) := by
  have hended : ∀ l ∈ (dropBlankEnds ls).map fun l => String.ofList (Chars.trimEnd l),
      '\n' ∉ l.toList ∧ l.toList.getLast? ≠ some '\r' := by
    rw [List.forall_mem_map]
    intro l hl
    rw [String.toList_ofList]
    refine ⟨h l hl, fun hreturn => ?_⟩
    exact absurd (Chars.getLast?_trimEnd l _ hreturn) (by decide)
  have hlast : ∀ l ∈ ((dropBlankEnds ls).map fun l => String.ofList (Chars.trimEnd l)).getLast?,
      l ≠ "" := by
    intro l hl hempty
    rw [List.getLast?_map] at hl
    obtain ⟨last, hlast, rfl⟩ := Option.map_eq_some_iff.1 hl
    have hnot := getLast?_rdropWhile Chars.blank (ls.dropWhile Chars.blank) last hlast
    rw [← blank_trimEnd_line, hempty] at hnot
    cases hnot
  rw [Text.lines, spanText, Text.lines_joinLines hended hlast, List.map_map]
  simp [Function.comp_def]

/-- Lines that are joined to the text of a span keep their groups: blank lines at the ends make no
difference, and neither does white space at the end of a line. -/
theorem paragraphs_spanText {ls : List (List Char)} (h : ∀ l ∈ ls, '\n' ∉ Chars.trimEnd l) :
    paragraphs (spanText ls) =
      (paragraphGroups (ls.map fun l => String.ofList (Chars.trimEnd l))).map fun group =>
        Text.trim (Text.joinLines group) := by
  obtain ⟨lead, tail, heq, hlead, htail⟩ :
      ∃ lead tail, ls = lead ++ dropBlankEnds ls ++ tail ∧ (∀ l ∈ lead, Chars.blank l = true) ∧
        ∀ l ∈ tail, Chars.blank l = true := exists_eq_append_dropEnds Chars.blank ls
  have hmiddle : ∀ l ∈ dropBlankEnds ls, '\n' ∉ Chars.trimEnd l := by
    intro l hl
    refine h l ?_
    rw [heq]
    exact List.mem_append_left _ (List.mem_append_right _ hl)
  have hgroups : paragraphGroups (ls.map fun l => String.ofList (Chars.trimEnd l)) =
      paragraphGroups ((dropBlankEnds ls).map fun l => String.ofList (Chars.trimEnd l)) := by
    conv_lhs => rw [heq]
    rw [List.map_append, List.map_append, paragraphGroups_append_blank,
      paragraphGroups_append_of_blank]
    · rw [List.forall_mem_map]
      exact fun l hl => (blank_trimEnd_line l).trans (hlead l hl)
    · rw [List.forall_mem_map]
      exact fun l hl => (blank_trimEnd_line l).trans (htail l hl)
  rw [paragraphs, lines_spanText hmiddle, hgroups]

/-! ### The text of a paragraph -/

theorem head?_joinLines {l : String} (h : l.toList ≠ []) (ls : List String) :
    (Text.joinLines (l :: ls)).toList.head? = l.toList.head? := by
  cases ls with
  | nil => rfl
  | cons next ls => rw [Text.toList_joinLines_cons, List.head?_append_of_ne_nil _ h]

theorem exists_joinLines_concat (ls : List String) (last : String) :
    ∃ front, (Text.joinLines (ls ++ [last])).toList = front ++ last.toList := by
  induction ls with
  | nil => exact ⟨[], rfl⟩
  | cons l ls ih =>
    obtain ⟨front, hfront⟩ := ih
    obtain ⟨next, more, hmore⟩ := List.exists_cons_of_ne_nil (List.concat_ne_nil last ls)
    rw [hmore] at hfront
    refine ⟨l.toList ++ '\n' :: front, ?_⟩
    rw [List.cons_append, hmore, Text.toList_joinLines_cons, hfront, List.append_assoc,
      List.cons_append]

namespace Paragraph

theorem toList_ne_nil (p : Paragraph) {l : String} (h : l ∈ p.lines) : l.toList ≠ [] := by
  intro hnil
  have hblank := p.notBlank l h
  rw [Text.blank, hnil] at hblank
  cases hblank

/-- A paragraph starts and ends with other characters than white space. -/
theorem trim_text (p : Paragraph) : Text.trim p.text = p.text := by
  rw [Text.trim_eq_self_iff, Chars.trim, Chars.strip_eq_self_iff, text]
  constructor
  · obtain ⟨first, rest, heq⟩ := List.exists_cons_of_ne_nil p.ne_nil
    have hfirst : first ∈ p.lines.head? := by rw [heq]; rfl
    rw [heq, head?_joinLines (p.toList_ne_nil (List.mem_of_mem_head? hfirst)),
      Option.any_eq_false]
    exact p.head_notBlank first hfirst
  · obtain ⟨front, last, heq⟩ := (List.eq_nil_or_concat' p.lines).resolve_left p.ne_nil
    have hlast : last ∈ p.lines := by rw [heq]; exact List.mem_concat_self
    obtain ⟨before, hbefore⟩ := exists_joinLines_concat front last
    rw [heq, hbefore, List.getLast?_append_of_ne_nil _ (p.toList_ne_nil hlast),
      Option.any_eq_false]
    exact p.getLast_notBlank last hlast

theorem map_trimEnd_lines (p : Paragraph) : p.lines.map Text.trimEnd = p.lines := by
  have hline : ∀ l ∈ p.lines, Text.trimEnd l = l := by
    intro l hl
    rw [Text.trimEnd, Chars.trimEnd_eq_self (p.getLast_notBlank l hl), String.ofList_toList]
  rw [List.map_congr_left hline, List.map_id']

end Paragraph

/-! ### Written paragraphs -/

theorem unescape_of_notMem {cs : List Char} (h : '@' ∉ cs) : unescape cs = cs := by
  induction cs with
  | nil => rfl
  | cons c cs ih =>
    rw [List.mem_cons, not_or] at h
    rw [unescape_cons (Ne.symm h.1), ih h.2]

/-- A blank line opens no tag and is read as itself. -/
theorem tagLine_of_blank {l : String} (h : Text.blank l = true) :
    tagLine l.toList = none ∧ unescape l.toList = l.toList := by
  have hstart : Chars.trimStart l.toList = [] :=
    List.dropWhile_eq_nil_iff.2 fun c hc => List.all_eq_true.1 h c hc
  refine ⟨by rw [tagLine, hstart], unescape_of_notMem fun hat => ?_⟩
  exact absurd (List.all_eq_true.1 h _ hat) (by decide)

/-- What a line of a comment reads as. -/
def plainLine (text : String) : String :=
  String.ofList (unescape text.toList)

theorem blank_plainLine {text : String} (h : Text.blank text = true) :
    Text.blank (plainLine text) = true := by
  rwa [plainLine, (tagLine_of_blank h).2, String.ofList_toList]

theorem Paragraph.map_plainLine_written (p : Paragraph) : p.written.map plainLine = p.lines := by
  rw [written, List.map_map]
  have hline : ∀ l ∈ p.lines,
      (plainLine ∘ fun l => String.ofList (doubled l.toList)) l = l := by
    intro l _
    simp [plainLine, unescape_doubled]
  rw [List.map_congr_left hline, List.map_id']

section Spaced

variable {ps : List Paragraph} {texts : List String}

theorem Spaced.tagLine_eq_none (h : Spaced (ps.map Paragraph.written) texts) :
    ∀ text ∈ texts, tagLine text.toList = none := by
  intro text htext
  rcases h.mem htext with hblank | ⟨group, hgroup, hmem⟩
  · exact (tagLine_of_blank hblank).1
  · obtain ⟨p, -, rfl⟩ := List.mem_map.1 hgroup
    obtain ⟨l, -, rfl⟩ := List.mem_map.1 hmem
    rw [String.toList_ofList, tagLine_doubled]

/-- Written paragraphs are read as their lines. -/
theorem Spaced.plain (h : Spaced (ps.map Paragraph.written) texts) :
    Spaced (ps.map Paragraph.lines) (texts.map plainLine) := by
  have hmap := h.map fun _ => blank_plainLine
  rw [List.map_map] at hmap
  simpa only [Function.comp_def, Paragraph.map_plainLine_written] using hmap

theorem Spaced.newline_notMem (h : Spaced (ps.map Paragraph.written) texts) :
    ∀ l ∈ texts.map fun text => unescape text.toList, '\n' ∉ Chars.trimEnd l := by
  rw [List.forall_mem_map]
  intro text htext hnewline
  have hmem := (List.rdropWhile_prefix isBlank (unescape text.toList)).subset hnewline
  rcases h.plain.mem (List.mem_map_of_mem htext) with hblank | ⟨group, hgroup, hline⟩
  · -- nothing is left of a blank line
    rw [plainLine, Text.blank, String.toList_ofList] at hblank
    have hnil : Chars.trimEnd (unescape text.toList) = [] :=
      List.rdropWhile_eq_nil_iff.2 (List.all_eq_true.1 hblank)
    rw [hnil] at hnewline
    cases hnewline
  · obtain ⟨p, -, rfl⟩ := List.mem_map.1 hgroup
    have hnot := p.newline_notMem _ hline
    rw [plainLine, String.toList_ofList] at hnot
    exact hnot hmem

/-- The paragraphs of the text of a preamble are those that its lines spell. -/
theorem Spaced.paragraphs_spanText_eq (h : Spaced (ps.map Paragraph.written) texts) :
    paragraphs (spanText (texts.map fun text => unescape text.toList)) =
      ps.map Paragraph.text := by
  have hblank : ∀ l, Text.blank l = true → Text.blank (Text.trimEnd l) = true := by
    intro l hl
    rwa [Text.trimEnd, blank_trimEnd_line]
  have hspaced : Spaced (ps.map Paragraph.lines)
      ((texts.map fun text => unescape text.toList).map
        fun l => String.ofList (Chars.trimEnd l)) := by
    have hmap := h.plain.map hblank
    rw [List.map_map, List.map_map] at hmap
    rw [List.map_map]
    simpa only [Function.comp_def, Paragraph.map_trimEnd_lines, Text.trimEnd, plainLine,
      String.toList_ofList] using hmap
  have hgroups : ∀ group ∈ ps.map Paragraph.lines,
      group ≠ [] ∧ ∀ l ∈ group, Text.blank l = false := by
    rw [List.forall_mem_map]
    exact fun p _ => ⟨p.ne_nil, p.notBlank⟩
  rw [paragraphs_spanText h.newline_notMem, hspaced.paragraphGroups_eq hgroups, List.map_map]
  exact List.map_congr_left fun p _ => p.trim_text

end Spaced

/-! ### The fields of a block -/

/-- The last tag of a name is not blank and says `text`. -/
def LastSays (tags : List Tag) (name text : String) : Prop :=
  ∃ before tag after, tags = before ++ tag :: after ∧ tag.name = name ∧
    (∀ later ∈ after, later.name ≠ name) ∧ Text.blank tag.content = false ∧
    text = Text.trim tag.content

/-- A field is what the last tag of a name says, or `other` if that tag is blank or missing. -/
def Chosen (tags : List Tag) (name : String) (other field : Option Passage) : Prop :=
  (∃ text, LastSays tags name text ∧ field = some { text := text, explicit := true }) ∨
    (∀ text, ¬LastSays tags name text) ∧ field = other

namespace Comment

theorem last?_eq_some_iff {c : Comment} {name : String} {tag : Tag} :
    c.last? name = some tag ↔
      ∃ before after, c.tags = before ++ tag :: after ∧ tag.name = name ∧
        ∀ later ∈ after, later.name ≠ name := by
  rw [last?, all, ← List.head?_reverse, ← List.filter_reverse, List.head?_filter,
    List.find?_eq_some_iff_append]
  constructor
  · rintro ⟨hname, after, before, heq, hafter⟩
    refine ⟨before.reverse, after.reverse, ?_, eq_of_beq hname, ?_⟩
    · rw [← List.reverse_reverse c.tags, heq]
      simp
    · intro later hlater
      simpa using hafter later (List.mem_reverse.1 hlater)
  · rintro ⟨before, after, heq, hname, hafter⟩
    refine ⟨beq_iff_eq.2 hname, after.reverse, before.reverse, ?_, ?_⟩
    · rw [heq]
      simp
    · intro later hlater
      simpa using hafter later (List.mem_reverse.1 hlater)

theorem explicitPassage_eq_some_iff {c : Comment} {name : String} {p : Passage} :
    c.explicitPassage name = some p ↔ LastSays c.tags name p.text ∧ p.explicit = true := by
  rw [explicitPassage, Option.bind_eq_some_iff]
  constructor
  · rintro ⟨tag, hlast, hmap⟩
    obtain ⟨text, htext, rfl⟩ := Option.map_eq_some_iff.1 hmap
    obtain ⟨before, after, heq, hname, hafter⟩ := last?_eq_some_iff.1 hlast
    obtain ⟨hblank, rfl⟩ := Text.nonempty_trim_eq_some_iff.1 htext
    exact ⟨⟨before, tag, after, heq, hname, hafter, hblank, rfl⟩, rfl⟩
  · rintro ⟨⟨before, tag, after, heq, hname, hafter, hblank, htext⟩, hexplicit⟩
    refine ⟨tag, last?_eq_some_iff.2 ⟨before, after, heq, hname, hafter⟩, ?_⟩
    rw [Text.nonempty_trim_eq_some_iff.2 ⟨hblank, htext⟩, ← hexplicit]
    rfl

/-- A field that falls back on something else is chosen between the two. -/
theorem chosen_orElse (c : Comment) (name : String) (other : Option Passage) :
    Chosen c.tags name other ((c.explicitPassage name).orElse fun _ => other) := by
  cases htag : c.explicitPassage name with
  | some p =>
    obtain ⟨htext, hexplicit⟩ := explicitPassage_eq_some_iff.1 htag
    refine .inl ⟨p.text, htext, ?_⟩
    rw [Option.orElse_some, ← hexplicit]
  | none =>
    refine .inr ⟨fun text htext => ?_, rfl⟩
    have hsome : c.explicitPassage name = some ⟨text, true⟩ :=
      explicitPassage_eq_some_iff.2 ⟨htext, rfl⟩
    rw [htag] at hsome
    cases hsome

theorem chosen_description (c : Comment) :
    Chosen c.tags "description" ((paragraphs c.preamble)[1]?.map fun text => { text := text })
      c.description :=
  c.chosen_orElse "description" _

theorem chosen_details (c : Comment) :
    Chosen c.tags "details"
      (if 3 ≤ (paragraphs c.preamble).length then
        some { text := Text.join "\n\n" ((paragraphs c.preamble).drop 2) }
      else none) c.details := by
  rw [details]
  split_ifs with hlength
  · obtain ⟨para, paras, hdrop⟩ := List.exists_cons_of_length_pos
      (l := (paragraphs c.preamble).drop 2) (by rw [List.length_drop]; omega)
    rw [hdrop]
    exact c.chosen_orElse "details" _
  · rw [List.drop_eq_nil_of_le (by omega)]
    exact c.chosen_orElse "details" none

/-- The title is chosen between its tag, the first paragraph and the description. -/
theorem chosen_title (c : Comment) :
    Chosen c.tags "title"
      (((paragraphs c.preamble)[0]?.map fun text => { text := text }).or
        (c.description.map fun field => { text := field.text })) c.title := by
  have hfield := c.chosen_orElse "title"
    (((paragraphs c.preamble)[0]?.map fun text => { text := text }).or
      (c.description.map fun field => { text := field.text }))
  rw [title, ownTitle]
  cases htag : c.explicitPassage "title" with
  | some p =>
    rw [htag] at hfield
    exact hfield
  | none =>
    rw [htag, Option.orElse_none] at hfield
    rw [Option.orElse_none, Option.orElse_eq_or]
    exact hfield

end Comment

/-- The comment of a block whose first lines spell paragraphs. -/
theorem Comment.ofBlock_of_spaced {b : Block} {lead rest : List NumberedLine} {ps : List Paragraph}
    (hlines : b.lines = lead ++ rest)
    (hlead : Spaced (ps.map Paragraph.written) (lead.map NumberedLine.text))
    (hrest : ∀ line ∈ rest.head?, (tagLine line.text.toList).isSome = true) :
    paragraphs (Comment.ofBlock b).preamble = ps.map Paragraph.text ∧
      (Comment.ofBlock b).tags = (Comment.ofLines rest).tags := by
  -- what follows opens a tag, so none of its lines belongs to the preamble
  have hnone : (Comment.split rest).1 = [] := by
    cases rest with
    | nil => rfl
    | cons line rest =>
      obtain ⟨tag, htag⟩ := Option.isSome_iff_exists.1 (hrest line rfl)
      rw [Comment.split, htag]
  rw [Comment.ofBlock, hlines, Comment.ofLines,
    Comment.split_append_of_tagLine hlead.tagLine_eq_none, hnone, List.append_nil]
  exact ⟨hlead.paragraphs_spanText_eq, rfl⟩

/-- The title, the description and the details of a block that documents something with a name: what
the last tag says, unless it is blank, and else the paragraphs of the preamble. -/
theorem Topic.fields_of_spaced {b : Block} (ctx : PackageContext) {lead rest : List NumberedLine}
    {ps : List Paragraph} (hlines : b.lines = lead ++ rest)
    (hlead : Spaced (ps.map Paragraph.written) (lead.map NumberedLine.text))
    (hrest : ∀ line ∈ rest.head?, (tagLine line.text.toList).isSome = true)
    (hname : ((Comment.ofBlock b).target ctx b.declaration).name.isSome = true) :
    ∃ t, (Built.of b (Comment.ofBlock b) ctx).topic = some t ∧
      Chosen (Comment.ofLines rest).tags "description"
        (ps[1]?.map fun p => { text := p.text, explicit := false }) t.description ∧
      Chosen (Comment.ofLines rest).tags "details"
        (if 3 ≤ ps.length then
          some { text := Text.join "\n\n" ((ps.drop 2).map Paragraph.text), explicit := false }
        else none) t.details ∧
      Chosen (Comment.ofLines rest).tags "title"
        ((ps[0]?.map fun p => { text := p.text, explicit := false }).or
          (t.description.map fun field => { text := field.text, explicit := false })) t.title := by
  obtain ⟨hparagraphs, htags⟩ := Comment.ofBlock_of_spaced hlines hlead hrest
  obtain ⟨name, hsome⟩ := Option.isSome_iff_exists.1 hname
  refine ⟨_, Option.map_eq_some_iff.2 ⟨name, hsome, Topic.ofSubject_eq _ _ _⟩, ?_, ?_, ?_⟩
  · have hfield := (Comment.ofBlock b).chosen_description
    rwa [htags, hparagraphs, List.getElem?_map, Option.map_map] at hfield
  · have hfield := (Comment.ofBlock b).chosen_details
    rwa [htags, hparagraphs, List.length_map, ← List.map_drop] at hfield
  · have hfield := (Comment.ofBlock b).chosen_title
    rwa [htags, hparagraphs, List.getElem?_map, Option.map_map] at hfield

/-- Paragraphs with blank lines of all kinds around them, one of them with an address. -/
def mailLines : List NumberedLine :=
  [⟨1, ""⟩, ⟨2, "Send a frame"⟩, ⟨3, "  by mail"⟩, ⟨4, " \t"⟩, ⟨5, ""⟩, ⟨6, "To a@@b.org."⟩,
    ⟨7, ""⟩, ⟨8, "One."⟩, ⟨9, ""⟩, ⟨10, "Two."⟩, ⟨11, " "⟩]

/-- A title that a later tag takes back, and a description. -/
def mailTags : List NumberedLine :=
  [⟨12, "@title Mail"⟩, ⟨13, "@description"⟩, ⟨14, "To a friend."⟩, ⟨15, "@title  "⟩]

def mailBlock : Block :=
  { unit := "R/mail.R", place := ⟨0, 1⟩, lines := mailLines ++ mailTags
    declaration := { kind := .function, name := some "mail" } }

def mailParagraphs : List Paragraph :=
  [⟨["Send a frame", "  by mail"], by decide, by decide +kernel, by decide, by simp; decide,
      by simp; decide⟩,
    ⟨["To a@b.org."], by decide, by decide +kernel, by decide, by simp; decide, by simp; decide⟩,
    ⟨["One."], by decide, by decide +kernel, by decide, by simp; decide, by simp; decide⟩,
    ⟨["Two."], by decide, by decide +kernel, by decide, by simp; decide, by simp; decide⟩]

theorem spaced_mailLines :
    Spaced (mailParagraphs.map Paragraph.written) (mailLines.map NumberedLine.text) := by
  have hblank : Text.blank "" = true := by decide +kernel
  have htwo : Spaced [["Two."]] ["Two.", " "] := .cons ["Two."] (by decide +kernel) .nil
  have hone : Spaced [["One."], ["Two."]] ["One.", "", "Two.", " "] := .cons ["One."] hblank htwo
  have hwritten : mailParagraphs.map Paragraph.written =
      [["Send a frame", "  by mail"], ["To a@@b.org."], ["One."], ["Two."]] := by decide +kernel
  rw [hwritten]
  exact .blank hblank (.cons ["Send a frame", "  by mail"] (by decide +kernel)
    (.blank hblank (.cons ["To a@@b.org."] hblank hone)))

theorem Topic.fields_of_mailBlock :
    ∃ t, (Built.of mailBlock (Comment.ofBlock mailBlock) {}).topic = some t ∧
      Chosen (Comment.ofLines mailTags).tags "description" (some ⟨"To a@b.org.", false⟩)
        t.description ∧
      Chosen (Comment.ofLines mailTags).tags "details" (some ⟨"One.\n\nTwo.", false⟩) t.details ∧
      Chosen (Comment.ofLines mailTags).tags "title" (some ⟨"Send a frame\n  by mail", false⟩)
        t.title ∧
      t.description = some ⟨"To a friend.", true⟩ ∧ t.details = some ⟨"One.\n\nTwo.", false⟩ ∧
      t.title = some ⟨"Send a frame\n  by mail", false⟩ := by
  have heval : (Built.of mailBlock (Comment.ofBlock mailBlock) {}).topic.map
        (fun t => (t.description, t.details, t.title)) =
      some (some ⟨"To a friend.", true⟩, some ⟨"One.\n\nTwo.", false⟩,
        some ⟨"Send a frame\n  by mail", false⟩) := by decide +kernel
  obtain ⟨t, ht, hdescription, hdetails, htitle⟩ :=
    Topic.fields_of_spaced (b := mailBlock) {} rfl spaced_mailLines
      (by simp [mailTags]; decide +kernel) (by decide +kernel)
  rw [ht, Option.map_some, Option.some_inj, Prod.mk.injEq, Prod.mk.injEq] at heval
  exact ⟨t, ht, hdescription, hdetails, htitle, heval⟩

end DocTopics
