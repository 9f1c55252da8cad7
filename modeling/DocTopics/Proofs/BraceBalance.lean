import DocTopics.Proofs.FirstOccurrences
import DocTopics.Proofs.GroupTitles
import DocTopics.Proofs.SectionTrees
import DocTopics.Proofs.TextCuts

/-!
# Balanced texts

The braces of a comment are checked on whole texts: on the preamble and on the content of each tag.
A document, however, puts the pieces between braces of its own that these texts are cut into. A cut
loses no brace, so the pieces of a checked text are balanced when they are read one after another;
each piece is balanced on its own exactly if no cut falls between a brace and its partner. The check
does not look at a backslash at the end of a text either.

## Main definitions

- `braces` — the braces of a text that are not escaped
- `depthFrom` — how many of them are open at the end
- `BalancedTogether` — texts are balanced when read one after another
- `Topic.markup` — the texts of a topic that a document puts between braces
- `CutsOutsideBraces` — no text of a topic was cut where braces or a backslash were open

## Main statements

- `balancedTogether_append_iff` — if a text is balanced, one half is exactly if the other is
- `braces_paragraphs`, `braces_entryOf`, `braces_ofText` — no cut loses a brace
- `endsOpen_entryOf`, `Section.forall_endsOpen_iff` — what ends in an open backslash behind a cut
- `Topic.markup_closed_iff` — when the checked texts of a comment give closed texts of a topic
-/

namespace DocTopics

/-- A curly brace. -/
def isBrace (c : Char) : Bool :=
  c == '\x7b' || c == '\x7d'

/-- The braces of a text that are met on their own. -/
def braces (cs : List Char) : List Char :=
  (liveChars cs).filter isBrace

/-- The depth behind one more character, unless it is a brace that closes nothing. -/
def braceStep (n : Nat) (c : Char) : Option Nat :=
  if c = '\x7b' then some (n + 1)
  else if c = '\x7d' then
    match n with
    | 0 => none
    | m + 1 => some m
  else some n

/-- The depth behind a list of characters that starts at depth `n`. -/
def depthFrom (n : Nat) (cs : List Char) : Option Nat :=
  cs.foldlM braceStep n

/-- The texts are balanced when they are read one after another, each from its start. -/
def BalancedTogether (texts : List String) : Prop :=
  depthFrom 0 (texts.flatMap fun s => braces s.toList) = some 0

/-! ### Depth -/

theorem braceStep_of_isBrace {c : Char} (h : isBrace c = false) (n : Nat) :
    braceStep n c = some n := by
  rw [isBrace, Bool.or_eq_false_iff, beq_eq_false_iff_ne, beq_eq_false_iff_ne] at h
  rw [braceStep.eq_def, if_neg h.1, if_neg h.2]

/-- What is open in front of a character stays open behind it. -/
theorem braceStep_add {n m : Nat} {c : Char} (h : braceStep n c = some m) (k : Nat) :
    braceStep (n + k) c = some (m + k) := by
  unfold braceStep at h ⊢
  split
  · rename_i hopen
    rw [if_pos hopen, Option.some_inj] at h
    rw [← h, Nat.add_right_comm]
  · rename_i hopen
    rw [if_neg hopen] at h
    split
    · rename_i hclose
      rw [if_pos hclose] at h
      cases n with
      | zero => cases h
      | succ n =>
        rw [Nat.add_right_comm, ← Option.some_inj.1 h]
    · rename_i hclose
      rw [if_neg hclose, Option.some_inj] at h
      rw [h]

theorem depthFrom_cons (n : Nat) (c : Char) (cs : List Char) :
    depthFrom n (c :: cs) = (braceStep n c).bind fun m => depthFrom m cs :=
  List.foldlM_cons

theorem depthFrom_append (n : Nat) (front back : List Char) :
    depthFrom n (front ++ back) = (depthFrom n front).bind fun m => depthFrom m back :=
  List.foldlM_append

/-- Only braces change the depth. -/
theorem depthFrom_filter (n : Nat) (cs : List Char) :
    depthFrom n (cs.filter isBrace) = depthFrom n cs := by
  induction cs generalizing n with
  | nil => rfl
  | cons c cs ih =>
    by_cases hc : isBrace c = true
    · rw [List.filter_cons_of_pos hc, depthFrom_cons, depthFrom_cons]
      simp only [ih]
    · rw [List.filter_cons_of_neg hc, ih, depthFrom_cons,
        braceStep_of_isBrace (Bool.eq_false_iff.2 hc), Option.bind_some]

/-- What is open in front of a text stays open behind it. -/
theorem depthFrom_add {n m : Nat} {cs : List Char} (h : depthFrom n cs = some m) (k : Nat) :
    depthFrom (n + k) cs = some (m + k) := by
  induction cs generalizing n with
  | nil => rw [Option.some_inj.1 h]; rfl
  | cons c cs ih =>
    rw [depthFrom_cons] at h ⊢
    obtain ⟨next, hstep, hrest⟩ := Option.bind_eq_some_iff.1 h
    rw [braceStep_add hstep k, Option.bind_some]
    exact ih hrest

/-- Behind a text that ends at the depth where it started, reading goes on as at its start. -/
theorem depthFrom_append_of_zero {front : List Char} (h : depthFrom 0 front = some 0)
    (back : List Char) : depthFrom 0 (front ++ back) = depthFrom 0 back := by
  rw [depthFrom_append, h]
  rfl

/-- If a text is balanced, one half of it is balanced exactly if the other is. -/
theorem depthFrom_halves {front back : List Char} (h : depthFrom 0 (front ++ back) = some 0) :
    depthFrom 0 back = some 0 ↔ depthFrom 0 front = some 0 := by
  constructor
  · intro hback
    rw [depthFrom_append] at h
    obtain ⟨m, hfront, hm⟩ := Option.bind_eq_some_iff.1 h
    have hshift := depthFrom_add hback m
    rw [Nat.zero_add, hm] at hshift
    have hzero : m = 0 := by
      have := Option.some_inj.1 hshift
      omega
    rw [hfront, hzero]
  · intro hfront
    rwa [depthFrom_append_of_zero hfront] at h

/-- The check of a text reads its braces and nothing else. -/
theorem bracesClose_iff (n : Nat) (cs : List Char) :
    bracesClose n cs = true ↔ depthFrom n (braces cs) = some 0 := by
  rw [braces, depthFrom_filter]
  fun_induction bracesClose n cs with
  | case1 n => simp [liveChars, depthFrom]
  | case2 n => simp [liveChars, depthFrom]
  | case3 n c cs ih => rw [ih, liveChars]
  | case4 n cs ih =>
    rw [ih, liveChars_cons (by decide), depthFrom_cons]
    rfl
  | case5 cs =>
    rw [liveChars_cons (by decide), depthFrom_cons]
    simp [braceStep]
  | case6 cs m ih =>
    rw [ih, liveChars_cons (by decide), depthFrom_cons]
    rfl
  | case7 n c cs hlast hpair hopen hclose ih =>
    have hc := ne_backslash_of_cases hlast hpair
    rw [ih, liveChars_cons hc, depthFrom_cons, braceStep.eq_def, if_neg hopen,
      if_neg hclose,
      Option.bind_some]

theorem bracesBalanced_iff {text : String} :
    bracesBalanced text = true ↔ depthFrom 0 (braces text.toList) = some 0 :=
  bracesClose_iff 0 text.toList

/-! ### Texts that are balanced together -/

theorem balancedTogether_singleton {text : String} :
    BalancedTogether [text] ↔ bracesBalanced text = true := by
  rw [bracesBalanced_iff, BalancedTogether, List.flatMap_cons, List.flatMap_nil, List.append_nil]

/-- If texts are balanced together, the first of them are exactly if the others are. -/
theorem balancedTogether_append_iff {front back : List String}
    (h : BalancedTogether (front ++ back)) : BalancedTogether back ↔ BalancedTogether front := by
  rw [BalancedTogether, List.flatMap_append] at h
  exact depthFrom_halves h

theorem balancedTogether_of_forall {texts : List String}
    (h : ∀ text ∈ texts, bracesBalanced text = true) : BalancedTogether texts := by
  induction texts with
  | nil => rfl
  | cons text texts ih =>
    obtain ⟨htext, htexts⟩ := List.forall_mem_cons.1 h
    rw [BalancedTogether, List.flatMap_cons,
      depthFrom_append_of_zero (bracesBalanced_iff.1 htext)]
    exact ih htexts

/-- Of texts that are balanced together, the last one needs no check of its own. -/
theorem forall_balanced_iff_dropLast {texts : List String} (h : BalancedTogether texts) :
    (∀ text ∈ texts, bracesBalanced text = true) ↔
      ∀ text ∈ texts.dropLast, bracesBalanced text = true := by
  constructor
  · exact fun hall text htext => hall text (List.dropLast_subset texts htext)
  · intro hfront
    rcases List.eq_nil_or_concat' texts with rfl | ⟨front, last, rfl⟩
    · exact hfront
    · rw [List.dropLast_concat] at hfront
      have hlast := (balancedTogether_append_iff h).2 (balancedTogether_of_forall hfront)
      rw [List.forall_mem_append, List.forall_mem_singleton]
      exact ⟨hfront, balancedTogether_singleton.1 hlast⟩

/-! ### Cuts -/

/-- A character that neither is a brace nor takes one along. -/
def isNeutral (c : Char) : Bool :=
  c != '\\' && !isBrace c

theorem isNeutral_iff {c : Char} : isNeutral c = true ↔ c ≠ '\\' ∧ isBrace c = false := by
  simp [isNeutral]

theorem isNeutral_of_isBlank {c : Char} (h : isBlank c = true) : isNeutral c = true := by
  have hne : ∀ d, isBlank d = false → c ≠ d := fun _ => Chars.ne_of_class h
  rw [isNeutral_iff, isBrace, beq_false_of_ne (hne '\x7b' (by decide)),
    beq_false_of_ne (hne '\x7d' (by decide))]
  exact ⟨hne '\\' (by decide), rfl⟩

theorem braces_cons {c : Char} (h : isNeutral c = true) (cs : List Char) :
    braces (c :: cs) = braces cs := by
  obtain ⟨hc, hbrace⟩ := isNeutral_iff.1 h
  rw [braces, liveChars_cons hc, List.filter_cons_of_neg (by simp [hbrace]), braces]

/-- A cut at a neutral character loses no brace, also where a backslash takes that character. -/
theorem braces_append_cons {c : Char} (h : isNeutral c = true) (front back : List Char) :
    braces (front ++ c :: back) = braces front ++ braces back := by
  cases hopen : endsOpen front with
  | true => rw [braces, liveChars_append_cons hopen, List.filter_append, braces, braces]
  | false =>
    rw [← braces_cons h back, braces, liveChars_append hopen, List.filter_append, braces, braces]

theorem braces_append_of_neutral {lead : List Char} (h : ∀ c ∈ lead, isNeutral c = true)
    (cs : List Char) : braces (lead ++ cs) = braces cs := by
  induction lead with
  | nil => rfl
  | cons c lead ih =>
    obtain ⟨hc, hlead⟩ := List.forall_mem_cons.1 h
    rw [List.cons_append, braces_cons hc, ih hlead]

theorem braces_of_neutral {cs : List Char} (h : ∀ c ∈ cs, isNeutral c = true) : braces cs = [] := by
  rw [← List.append_nil cs, braces_append_of_neutral h]
  rfl

theorem cutsAtBlanks_braces : CutsAtBlanks fun met cs => met ++ braces cs where
  nil met := List.append_nil met
  cut met front c back hc := by
    rw [braces_append_cons (isNeutral_of_isBlank hc), List.append_assoc]

theorem braces_trimStart (cs : List Char) : braces (Chars.trimStart cs) = braces cs := by
  have hlead : ∀ c ∈ cs.takeWhile isBlank, isNeutral c = true := fun c hc =>
    isNeutral_of_isBlank (List.mem_takeWhile_imp hc)
  rw [← braces_append_of_neutral hlead, Chars.trimStart, List.takeWhile_append_dropWhile]

theorem braces_trim (cs : List Char) : braces (Chars.trim cs) = braces cs :=
  cutsAtBlanks_braces.trim [] cs

/-- The lines of a text hold all of its braces. -/
theorem braces_lines (cs : List Char) : (Chars.lines cs).flatMap braces = braces cs := by
  rw [List.flatMap_eq_foldl]
  exact cutsAtBlanks_braces.lines [] cs

/-- So do the texts that were joined to one, with white space in between. -/
theorem braces_join {sep : String} (hne : sep.toList ≠ []) (hsep : Text.blank sep = true)
    (texts : List String) :
    braces (Text.join sep texts).toList = texts.flatMap fun s => braces s.toList := by
  rw [List.flatMap_eq_foldl]
  exact cutsAtBlanks_braces.join [] hne hsep texts

theorem braces_joinLines (ls : List String) :
    braces (Text.joinLines ls).toList = ls.flatMap fun l => braces l.toList :=
  braces_join (by decide) (by decide) ls

/-! ### Paragraphs -/

/-- The paragraphs of a text hold exactly its lines that are not blank. -/
theorem flatten_paragraphGroups (ls : List String) :
    (paragraphGroups ls).flatten = ls.filter fun l => !Text.blank l := by
  induction ls with
  | nil => rfl
  | cons line rest ih =>
    rw [paragraphGroups.eq_def]
    by_cases hline : Text.blank line = true
    · simp [hline, ih]
    · cases rest with
      | nil => simp [hline]
      | cons next rest =>
        by_cases hnext : Text.blank next = true
        · simp only [hline, hnext]
          simpa [hline] using ih
        · simp only [hline, hnext]
          cases hgroups : paragraphGroups (next :: rest) with
          | nil =>
            rw [hgroups] at ih
            simp [hline, ← ih]
          | cons group groups =>
            rw [hgroups] at ih
            simp [hline, ← ih]

/-- The paragraphs of a text hold all of its braces. -/
theorem braces_paragraphs (text : String) :
    ((paragraphs text).flatMap fun s => braces s.toList) = braces text.toList := by
  have hgroup : ∀ group : List String,
      braces (Text.trim (Text.joinLines group)).toList =
        group.flatMap fun l => braces l.toList := by
    intro group
    rw [Text.trim, String.toList_ofList, braces_trim, braces_joinLines]
  have hkept : ∀ ls : List String,
      ((ls.filter fun l => !Text.blank l).flatMap fun l => braces l.toList) =
        ls.flatMap fun l => braces l.toList := by
    intro ls
    induction ls with
    | nil => rfl
    | cons l ls ih =>
      by_cases hl : Text.blank l = true
      · have hnone : braces l.toList = [] := braces_of_neutral fun c hc =>
          isNeutral_of_isBlank (List.all_eq_true.1 hl c hc)
        rw [List.filter_cons_of_neg (by simp [hl]), ih, List.flatMap_cons, hnone, List.nil_append]
      · rw [List.filter_cons_of_pos (by simp [hl]), List.flatMap_cons, ih, List.flatMap_cons]
  calc ((paragraphs text).flatMap fun s => braces s.toList)
      = (paragraphGroups (Text.lines text)).flatten.flatMap fun l => braces l.toList := by
        rw [paragraphs, List.flatMap_map, List.flatten_eq_flatMap, List.flatMap_assoc]
        simp only [hgroup, id]
    _ = (Text.lines text).flatMap fun l => braces l.toList := by
        rw [flatten_paragraphGroups, hkept]
    _ = (Chars.lines text.toList).flatMap braces := by
        rw [Text.lines, List.flatMap_map]
        simp only [String.toList_ofList]
    _ = braces text.toList := braces_lines text.toList

/-! ### Entries and sections -/

/-- The name and the description of an entry hold all of the braces of its tag. -/
theorem braces_entryOf {t : Tag} {p : Param} (h : Comment.entryOf t = some p) :
    braces p.name.toList ++ braces p.description.toList = braces t.content.toList := by
  rw [Comment.entryOf] at h
  split at h
  · cases h
  · rename_i name rest hcut
    split at h
    · cases h
    · cases h
      obtain ⟨c, hc, -, heq⟩ := Text.cutAt_eq_some_iff.1 hcut
      rw [Text.trim, String.toList_ofList] at heq
      rw [← braces_trim t.content.toList, heq, braces_append_cons (isNeutral_of_isBlank hc),
        Text.trim, String.toList_ofList, braces_trim]

/-- The description of an entry ends as its tag. -/
theorem endsOpen_entryOf {t : Tag} {p : Param} (h : Comment.entryOf t = some p) :
    endsOpen p.description.toList = endsOpen (Text.trim t.content).toList := by
  rw [Comment.entryOf] at h
  split at h
  · cases h
  · rename_i name rest hcut
    split at h
    · cases h
    · rename_i hvalid
      cases h
      have hrest : Chars.blank rest.toList = false := by
        rw [← Bool.not_eq_true]
        exact fun hblank => hvalid (Bool.or_eq_true_iff.2 (.inr hblank))
      obtain ⟨c, hc, -, heq⟩ := Text.cutAt_eq_some_iff.1 hcut
      have hcontent : endsOpen (Text.trim t.content).toList =
          openAfter false (Text.trim t.content).toList := by
        rw [openAfter_false, Text.trim_eq_self_iff.1 (Text.trim_trim t.content)]
      rw [hcontent, heq, cutsAtBlanks_openAfter.cut _ _ _ hc, openAfter_of_not_blank hrest,
        Text.trim, String.toList_ofList]

namespace Section

mutual

/-- The titles and bodies of a section and of everything inside it, in the order of the text. -/
def texts : Section → List String
  | ⟨title, body, subsections⟩ => title :: body :: textsInside subsections

/-- The titles and bodies of sections, in the order of the text. -/
def textsInside : List Section → List String
  | [] => []
  | s :: rest => s.texts ++ textsInside rest

end

theorem texts_eq (s : Section) : s.texts = s.title :: s.body :: textsInside s.subsections := by
  cases s
  rfl

theorem textsInside_eq_flatMap (sections : List Section) :
    textsInside sections = sections.flatMap texts := by
  induction sections with
  | nil => rfl
  | cons s rest ih => rw [textsInside, ih, List.flatMap_cons]

/-- The title of a heading holds all of the braces of its line. -/
theorem braces_heading {level : Nat} {line title : List Char}
    (h : heading? level line = some title) : braces title = braces line := by
  obtain ⟨rest, hstart, rfl⟩ := heading?_eq_some_iff.1 h
  have hhashes : ∀ c ∈ List.replicate level '#', isNeutral c = true := by
    intro c hc
    rw [List.eq_of_mem_replicate hc]
    decide
  rw [braces_trim, ← braces_trimStart line, hstart, braces_append_of_neutral hhashes,
    braces_cons (by decide)]

/-- Splitting at headings loses no brace. -/
theorem braces_splitHeadings (level : Nat) (ls : List (List Char)) :
    (splitHeadings level ls).1.flatMap braces ++
        ((splitHeadings level ls).2.flatMap fun part => braces part.1 ++ part.2.flatMap braces) =
      ls.flatMap braces := by
  induction ls with
  | nil => rfl
  | cons line rest ih =>
    rw [splitHeadings, List.flatMap_cons, ← ih]
    cases hheading : heading? level line with
    | none => simp
    | some title => simp [braces_heading hheading]

theorem braces_textOf (ls : List (List Char)) :
    braces (textOf ls).toList = ls.flatMap braces := by
  rw [List.flatMap_eq_foldl]
  exact cutsAtBlanks_braces.textOf [] ls

/-- The part of a text below a heading has fewer lines than the text. -/
theorem length_lines_textOf_lt {level : Nat} {cs : List Char}
    {part : List Char × List (List Char)} (h : part ∈ (splitHeadings level (Chars.lines cs)).2) :
    (Chars.lines (textOf part.2).toList).length < (Chars.lines cs).length := by
  obtain ⟨line, hsublist⟩ := (sublist_splitHeadings level (Chars.lines cs)).2 part h
  have hnewline : ∀ l ∈ part.2.map String.ofList, '\n' ∉ l.toList := by
    rw [List.forall_mem_map]
    intro l hl
    rw [String.toList_ofList]
    exact Chars.newline_notMem_of_mem_lines (hsublist.subset (List.mem_cons_of_mem line hl))
  have hjoined := Text.length_lines_joinLines_le hnewline
  have hlength := hsublist.length_le
  rw [List.length_map] at hjoined
  rw [List.length_cons] at hlength
  rw [textOf]
  omega

/-- A section tree holds all of the braces of its text, given fuel for each line. -/
theorem braces_nest {fuel : Nat} {text : String} (title : String) (level : Nat)
    (hfuel : (Chars.lines text.toList).length ≤ fuel) :
    ((nest fuel title text level).texts.flatMap fun s => braces s.toList) =
      braces title.toList ++ braces text.toList := by
  have hbody : ∀ ls : List (List Char),
      braces (Text.trim (textOf ls)).toList = ls.flatMap braces := by
    intro ls
    rw [Text.trim, String.toList_ofList, braces_trim, braces_textOf]
  induction fuel generalizing title text level with
  | zero =>
    have hnone : Chars.lines text.toList = [] := List.length_eq_zero_iff.1 (by omega)
    rw [nest_zero, texts, textsInside, ← braces_lines text.toList, hnone]
    simp [hbody, splitHeadings]
  | succ fuel ih =>
    have hparts : ∀ part ∈ (splitHeadings level (Chars.lines text.toList)).2,
        ((nest fuel (String.ofList part.1) (textOf part.2) (level + 1)).texts.flatMap
          fun s => braces s.toList) = braces part.1 ++ part.2.flatMap braces := by
      intro part hpart
      have hlt := length_lines_textOf_lt hpart
      rw [ih _ _ (by omega), String.toList_ofList, braces_textOf]
    rw [nest_succ, texts, textsInside_eq_flatMap, List.flatMap_cons, List.flatMap_cons, hbody,
      List.flatMap_map, List.flatMap_assoc, List.flatMap_congr hparts, braces_splitHeadings,
      braces_lines]

/-- The titles and bodies of a section hold all of the braces of its text. -/
theorem braces_ofText {content : String} {s : Section} (h : ofText content = some s) :
    (s.texts.flatMap fun text => braces text.toList) = braces content.toList := by
  obtain ⟨first, rest, title, head, hline, hcolon, -, rfl⟩ := ofText_eq_some_iff.1 h
  have hcontent : braces content.toList = braces first.toList ++ braces rest.toList :=
    cutsAtBlanks_braces.firstLine [] hline
  have hbody : braces (bodyText head rest).toList = braces head.toList ++ braces rest.toList :=
    cutsAtBlanks_braces.bodyText [] head rest
  have hfirst : braces title.toList ++ braces head.toList = braces first.toList := by
    obtain ⟨c, hc, -, heq⟩ := Text.cutAt_eq_some_iff.1 hcolon
    rw [heq, eq_of_beq hc, braces_append_cons (by decide)]
  have hfuel : (Chars.lines (bodyText head rest).toList).length ≤ (bodyText head rest).length := by
    rw [← String.length_toList]
    exact Chars.length_lines_le _
  rw [braces_nest _ _ hfuel, hbody, Text.trim, String.toList_ofList, braces_trim,
    ← List.append_assoc, hfirst, hcontent]

/-! ### Ends of texts -/

/-- Behind a heading a backslash is open exactly if its title ends in one. -/
theorem openAfter_heading {level : Nat} (hlevel : 0 < level) {line title : List Char}
    (h : heading? level line = some title) (isOpen : Bool) :
    openAfter isOpen line = endsOpen title := by
  obtain ⟨rest, hstart, rfl⟩ := heading?_eq_some_iff.1 h
  obtain ⟨hashes, rfl⟩ := Nat.exists_eq_add_of_lt hlevel
  have hlead : ∀ c ∈ line.takeWhile isBlank, isBlank c = true := fun c hc =>
    List.mem_takeWhile_imp hc
  rw [← List.takeWhile_append_dropWhile (p := isBlank) (l := line),
    cutsAtBlanks_openAfter.blank_append _ hlead]
  change openAfter isOpen (Chars.trimStart line) = _
  rw [hstart, Nat.zero_add, List.replicate_succ', List.append_assoc, List.singleton_append,
    openAfter_append_cons (by decide) (by decide), ← openAfter_false]
  exact cutsAtBlanks_openAfter.cut false [] rest (by decide)

/-- Lines without a heading stay as they are, or they end with a heading and its lines. -/
theorem splitHeadings_cases (level : Nat) (ls : List (List Char)) :
    splitHeadings level ls = (ls, []) ∨
      ∃ parts title below front line,
        (splitHeadings level ls).2 = parts ++ [(title, below)] ∧ ls = front ++ line :: below ∧
          heading? level line = some title := by
  induction ls with
  | nil => exact .inl rfl
  | cons line rest ih =>
    cases hheading : heading? level line with
    | none =>
      rcases ih with hrest | ⟨parts, title, below, front, last, hparts, hls, hlast⟩
      · refine .inl ?_
        rw [splitHeadings, hrest, hheading]
      · refine .inr ⟨parts, title, below, line :: front, last, ?_, by rw [hls]; rfl, hlast⟩
        rw [splitHeadings, hheading]
        exact hparts
    | some heading =>
      rcases ih with hrest | ⟨parts, title, below, front, last, hparts, hls, hlast⟩
      · refine .inr ⟨[], heading, rest, [], line, ?_, rfl, hheading⟩
        rw [splitHeadings, hrest, hheading]
        rfl
      · refine .inr ⟨(heading, (splitHeadings level rest).1) :: parts, title, below, line :: front,
          last, ?_, by rw [hls]; rfl, hlast⟩
        rw [splitHeadings, hheading]
        exact congrArg _ hparts

/-- A body without headings ends as its text. -/
theorem endsOpen_trim_textOf_lines (text : String) :
    endsOpen (Text.trim (textOf (Chars.lines text.toList))).toList =
      openAfter false text.toList := by
  rw [Text.trim, String.toList_ofList, ← openAfter_false, cutsAtBlanks_openAfter.textOf,
    cutsAtBlanks_openAfter.lines]

/-- A text that ends in an open backslash is cut into texts of which one does, and if the last of
these does, so does the text. -/
theorem nest_ends {fuel : Nat} {text : String} (title : String) {level : Nat} (hlevel : 0 < level)
    (hfuel : (Chars.lines text.toList).length ≤ fuel) :
    (∀ last ∈ (nest fuel title text level).texts.getLast?,
        endsOpen last.toList = true → openAfter false text.toList = true) ∧
      (openAfter false text.toList = true →
        ∃ piece ∈ (nest fuel title text level).texts, endsOpen piece.toList = true) := by
  -- the last section below holds the end of the text, so the induction goes into that one only
  induction fuel generalizing title text level with
  | zero =>
    have hnone : Chars.lines text.toList = [] := List.length_eq_zero_iff.1 (by omega)
    rw [nest_zero, texts, textsInside, ← endsOpen_trim_textOf_lines, hnone, splitHeadings]
    exact ⟨by simp, fun h => ⟨_, by simp, h⟩⟩
  | succ fuel ih =>
    rw [nest_succ, texts, textsInside_eq_flatMap, List.flatMap_map]
    rcases splitHeadings_cases level (Chars.lines text.toList) with
      hsplit | ⟨parts, heading, below, front, line, hparts, hls, hline⟩
    · rw [hsplit, List.flatMap_nil, ← endsOpen_trim_textOf_lines]
      exact ⟨by simp, fun h => ⟨_, by simp, h⟩⟩
    · have hmem : (heading, below) ∈ (splitHeadings level (Chars.lines text.toList)).2 :=
        hparts ▸ List.mem_concat_self
      have hbelow : (Chars.lines (textOf below).toList).length ≤ fuel := by
        have hlt := length_lines_textOf_lt hmem
        dsimp only at hlt
        omega
      obtain ⟨hlast, hopen⟩ := ih (String.ofList heading) (Nat.succ_pos level) hbelow
      have htext : openAfter false text.toList =
          openAfter (endsOpen heading) (textOf below).toList := by
        rw [← cutsAtBlanks_openAfter.lines, hls, List.foldl_append, List.foldl_cons,
          openAfter_heading hlevel hline, cutsAtBlanks_openAfter.textOf]
      rw [hparts, List.flatMap_append, List.flatMap_cons, List.flatMap_nil, List.append_nil, htext,
        ← List.cons_append, ← List.cons_append]
      constructor
      · intro last hmem hends
        rw [List.getLast?_append_of_ne_nil _ (texts_eq _ ▸ List.cons_ne_nil _ _)] at hmem
        exact openAfter_of_false (hlast last hmem hends) _
      · intro hends
        cases hheading : endsOpen heading with
        | true =>
          refine ⟨String.ofList heading, List.mem_append_right _ ?_, by simpa using hheading⟩
          rw [texts_eq, nest]
          exact List.mem_cons_self
        | false =>
          rw [hheading] at hends
          obtain ⟨piece, hpiece, hpieceEnds⟩ := hopen hends
          exact ⟨piece, List.mem_append_right _ hpiece, hpieceEnds⟩

/-- The texts of a section end in no open backslash exactly if those in front of others do not and
the whole text does not either. -/
theorem forall_endsOpen_iff {content : String} {s : Section} (h : ofText content = some s) :
    (∀ text ∈ s.texts, endsOpen text.toList = false) ↔
      (∀ text ∈ s.texts.dropLast, endsOpen text.toList = false) ∧
        endsOpen (Text.trim content).toList = false := by
  obtain ⟨first, rest, title, head, hline, hcolon, -, rfl⟩ := ofText_eq_some_iff.1 h
  have hfuel : (Chars.lines (bodyText head rest).toList).length ≤ (bodyText head rest).length := by
    rw [← String.length_toList]
    exact Chars.length_lines_le _
  obtain ⟨hlast, hopen⟩ := nest_ends (Text.trim title) (Nat.succ_pos 1) hfuel
  have hcontent : endsOpen (Text.trim content).toList =
      openAfter false (bodyText head rest).toList := by
    obtain ⟨c, hc, -, hfirst⟩ := Text.cutAt_eq_some_iff.1 hcolon
    rw [Text.trim, String.toList_ofList, ← openAfter_false,
      cutsAtBlanks_openAfter.firstLine false hline, cutsAtBlanks_openAfter.bodyText, hfirst,
      eq_of_beq hc, openAfter_append_cons (by decide) (by decide)]
  rw [hcontent]
  constructor
  · intro hall
    refine ⟨fun text htext => hall text (List.dropLast_subset _ htext), ?_⟩
    rw [← Bool.not_eq_true]
    intro hends
    obtain ⟨piece, hpiece, hpieceEnds⟩ := hopen hends
    rw [hall piece hpiece] at hpieceEnds
    cases hpieceEnds
  · rintro ⟨hfront, hends⟩
    rcases List.eq_nil_or_concat'
      (nest (bodyText head rest).length (Text.trim title) (bodyText head rest) 2).texts with
      hnil | ⟨front, last, htexts⟩
    · rw [hnil]
      simp
    · rw [htexts, List.dropLast_concat] at hfront
      rw [htexts, List.getLast?_concat] at hlast
      rw [htexts, List.forall_mem_append, List.forall_mem_singleton]
      refine ⟨hfront, ?_⟩
      rw [← Bool.not_eq_true]
      intro hlastEnds
      rw [hlast last rfl hlastEnds] at hends
      cases hends

end Section

/-! ### Checked texts -/

/-- A diagnostic for a text with a brace that has no partner. -/
def Diagnostic.IsBraceFault (d : Diagnostic) : Prop :=
  ∃ what, d.text = "unbalanced braces in " ++ what

namespace Comment

/-- Every text of the comment that is no code is balanced as a whole. -/
structure Checked (c : Comment) : Prop where
  preamble : bracesBalanced c.preamble = true
  tags : ∀ t ∈ c.tags, t.name ≠ "examples" → bracesBalanced t.content = true

/-- Every whole text that is not balanced is reported. -/
theorem checked_of_forall_not_isBraceFault {b : Block} {c : Comment} {ctx : PackageContext}
    (h : ∀ d ∈ c.faults b ctx, ¬d.IsBraceFault) : c.Checked := by
  have hbraces : ∀ d ∈ c.braceFaults b, ¬d.IsBraceFault := by
    intro d hd
    refine h d ?_
    rw [faults]
    simp only [List.mem_append, hd, or_true, true_or]
  rw [braceFaults, List.forall_mem_append] at hbraces
  obtain ⟨hpreamble, htags⟩ := hbraces
  constructor
  · by_contra hnot
    rw [if_neg hnot, List.forall_mem_singleton] at hpreamble
    exact hpreamble ⟨"the description text", rfl⟩
  · intro t ht hname
    by_contra hnot
    refine htags _ (List.mem_map_of_mem (List.mem_filter.2 ⟨ht, ?_⟩)) ⟨ticked ("@" ++ t.name), rfl⟩
    simpa [hname] using hnot

namespace Checked

variable {c : Comment}

/-- The trimmed content of a checked tag is balanced. -/
theorem balanced_trim (h : c.Checked) {name : String} (hname : name ≠ "examples") {t : Tag}
    (ht : t ∈ c.all name) : bracesBalanced (Text.trim t.content) = true := by
  obtain ⟨hmem, heq⟩ := List.mem_filter.1 ht
  have hcontent := h.tags t hmem (by rwa [eq_of_beq heq])
  rw [bracesBalanced_iff] at hcontent ⊢
  rwa [Text.trim, String.toList_ofList, braces_trim]

theorem balanced_explicitPassage (h : c.Checked) {name : String} (hname : name ≠ "examples")
    {p : Passage} (hp : c.explicitPassage name = some p) : bracesBalanced p.text = true := by
  obtain ⟨t, hlast, ht⟩ := Option.bind_eq_some_iff.1 hp
  obtain ⟨text, htext, rfl⟩ := Option.map_eq_some_iff.1 ht
  obtain ⟨-, rfl⟩ := Text.nonempty_trim_eq_some_iff.1 htext
  exact h.balanced_trim hname (List.mem_of_getLast? hlast)

theorem balanced_paragraphs (h : c.Checked) : BalancedTogether (paragraphs c.preamble) := by
  rw [BalancedTogether, braces_paragraphs]
  exact bracesBalanced_iff.1 h.preamble

/-- The description of an entry is balanced exactly if its name is. -/
theorem balanced_description_iff (h : c.Checked) {t : Tag} (ht : t ∈ c.tags)
    (hname : t.name ≠ "examples") {p : Param} (hentry : entryOf t = some p) :
    bracesBalanced p.description = true ↔ bracesBalanced p.name = true := by
  have htogether : BalancedTogether ([p.name] ++ [p.description]) := by
    have hcontent := h.tags t ht hname
    rw [bracesBalanced_iff, ← braces_entryOf hentry] at hcontent
    simpa [BalancedTogether] using hcontent
  rw [← balancedTogether_singleton, ← balancedTogether_singleton]
  exact balancedTogether_append_iff htogether

/-- The texts of a section are balanced together. -/
theorem balanced_texts (h : c.Checked) {t : Tag} (ht : t ∈ c.all "section") {s : Section}
    (hread : Section.ofText (Text.trim t.content) = some s) : BalancedTogether s.texts := by
  rw [BalancedTogether, Section.braces_ofText hread]
  exact bracesBalanced_iff.1 (h.balanced_trim (by decide) ht)

end Checked

end Comment

/-! ### Texts of a topic -/

/-- The text is balanced and ends in no open backslash, so that a brace written behind it closes the
one written in front of it. -/
def Closed (text : String) : Prop :=
  bracesBalanced text = true ∧ endsOpen text.toList = false

instance (text : String) : Decidable (Closed text) :=
  inferInstanceAs (Decidable (_ ∧ _))

namespace Topic

/-- The documented arguments, slots and fields. -/
def entries (t : Topic) : List Param :=
  t.params ++ t.slots ++ t.fields

/-- The texts of a topic that a document puts between braces. -/
def markup (t : Topic) : List String :=
  [t.title, t.description, t.details].flatMap (fun field => field.toList.map (·.text)) ++
    t.entries.map (·.description) ++ t.sections.flatMap Section.texts

theorem forall_mem_markup {t : Topic} {P : String → Prop} :
    (∀ text ∈ t.markup, P text) ↔
      (∀ p ∈ t.title, P p.text) ∧ (∀ p ∈ t.description, P p.text) ∧ (∀ p ∈ t.details, P p.text) ∧
        (∀ p ∈ t.entries, P p.description) ∧ ∀ s ∈ t.sections, ∀ text ∈ s.texts, P text := by
  simp only [markup, List.forall_mem_append, List.forall_mem_flatMap, List.forall_mem_map,
    List.forall_mem_cons, List.not_mem_nil, false_implies, implies_true, true_and,
    Option.mem_toList, Option.mem_def, and_assoc]

end Topic

/-- Neither a brace nor a backslash is open where the texts of a comment are cut off to make the
topic. -/
structure CutsOutsideBraces (c : Comment) (t : Topic) : Prop where
  /-- The first paragraph is closed if it is the title. -/
  title : c.explicitPassage "title" = none →
    ∀ text ∈ (paragraphs c.preamble)[0]?, Closed text
  /-- The second paragraph is closed if it is the description. -/
  description : c.explicitPassage "description" = none →
    ∀ text ∈ (paragraphs c.preamble)[1]?, Closed text
  /-- No brace is open in front of the third paragraph if the details start there, and no backslash
  behind the last one. -/
  details : c.explicitPassage "details" = none → 2 < (paragraphs c.preamble).length →
    BalancedTogether ((paragraphs c.preamble).take 2) ∧
      ∀ text ∈ (paragraphs c.preamble).getLast?, endsOpen text.toList = false
  /-- No tag for one of these texts ends in an open backslash. -/
  passageTags : ∀ name ∈ ["title", "description", "details"], ∀ tag ∈ c.last? name,
    endsOpen (Text.trim tag.content).toList = false
  /-- No brace is open between a name and its description. -/
  entries : ∀ p ∈ t.entries, bracesBalanced p.name = true
  /-- No tag with an entry of the topic ends in an open backslash. -/
  entryTags : ∀ tag ∈ c.tags, ∀ p ∈ Comment.entryOf tag, p ∈ t.entries →
    endsOpen (Text.trim tag.content).toList = false
  /-- Neither is open where a title or a body ends and another follows. -/
  sections : ∀ s ∈ t.sections, ∀ text ∈ s.texts.dropLast, Closed text
  /-- No tag with a section ends in an open backslash. -/
  sectionTags : ∀ tag ∈ c.all "section", (Section.ofText (Text.trim tag.content)).isSome →
    endsOpen (Text.trim tag.content).toList = false

/-- Joined texts end as the last of them. -/
theorem endsOpen_join_concat (texts : List String) (last : String) :
    endsOpen (Text.join "\n\n" (texts ++ [last])).toList = endsOpen last.toList := by
  cases texts with
  | nil => rfl
  | cons text texts =>
    rw [Text.join_concat, String.toList_append, String.toList_append, List.append_assoc]
    exact (endsOpen_append_cut (by decide) _ _).trans (endsOpen_cons (by decide) _)

namespace Comment.Checked

variable {c : Comment}

theorem closed_explicitPassage_iff (h : c.Checked) {name : String} (hname : name ≠ "examples") :
    (∀ p ∈ c.explicitPassage name, Closed p.text) ↔
      ∀ tag ∈ c.last? name, endsOpen (Text.trim tag.content).toList = false := by
  constructor
  · intro hclosed tag htag
    by_cases hempty : Text.trim tag.content = ""
    · rw [hempty]
      rfl
    · refine (hclosed ⟨Text.trim tag.content, true⟩ ?_).2
      rw [Option.mem_def, explicitPassage, htag, Option.bind_some, Text.nonempty, if_neg hempty,
        Option.map_some]
  · intro hends p hp
    refine ⟨h.balanced_explicitPassage hname hp, ?_⟩
    obtain ⟨tag, htag, hread⟩ := Option.bind_eq_some_iff.1 hp
    obtain ⟨text, htext, rfl⟩ := Option.map_eq_some_iff.1 hread
    obtain ⟨-, rfl⟩ := Text.nonempty_trim_eq_some_iff.1 htext
    exact hends tag htag

theorem closed_description_iff (h : c.Checked) :
    (∀ p ∈ c.description, Closed p.text) ↔
      (∀ tag ∈ c.last? "description", endsOpen (Text.trim tag.content).toList = false) ∧
      (c.explicitPassage "description" = none →
        ∀ text ∈ (paragraphs c.preamble)[1]?, Closed text) := by
  rw [← h.closed_explicitPassage_iff (by decide), Comment.description]
  cases c.explicitPassage "description" <;> simp

/-- The title is closed if the description is, which may stand in for it. -/
theorem closed_title_iff (h : c.Checked) (hdescription : ∀ p ∈ c.description, Closed p.text) :
    (∀ p ∈ c.title, Closed p.text) ↔
      (∀ tag ∈ c.last? "title", endsOpen (Text.trim tag.content).toList = false) ∧
      (c.explicitPassage "title" = none →
        ∀ text ∈ (paragraphs c.preamble)[0]?, Closed text) := by
  rw [← h.closed_explicitPassage_iff (by decide), Comment.title, Comment.ownTitle]
  cases c.explicitPassage "title" with
  | some p => simp
  | none =>
    cases (paragraphs c.preamble)[0]? with
    | some text => simp
    | none => simpa using hdescription

/-- The details are the paragraphs from the third on, and the first two are what is left. -/
theorem closed_join_drop_iff (h : c.Checked) (hlong : 2 < (paragraphs c.preamble).length) :
    Closed (Text.join "\n\n" ((paragraphs c.preamble).drop 2)) ↔
      BalancedTogether ((paragraphs c.preamble).take 2) ∧
        ∀ text ∈ (paragraphs c.preamble).getLast?, endsOpen text.toList = false := by
  have htogether := h.balanced_paragraphs
  rw [← List.take_append_drop 2 (paragraphs c.preamble)] at htogether
  refine and_congr ?_ ?_
  · rw [bracesBalanced_iff, braces_join (by decide) (by decide)]
    exact balancedTogether_append_iff htogether
  · have hlast : ((paragraphs c.preamble).drop 2).getLast? = (paragraphs c.preamble).getLast? := by
      rw [List.getLast?_drop, if_neg (by omega)]
    rw [← hlast]
    rcases List.eq_nil_or_concat' ((paragraphs c.preamble).drop 2) with hnil | ⟨front, last, hdrop⟩
    · rw [List.drop_eq_nil_iff] at hnil
      omega
    · rw [hdrop, endsOpen_join_concat, List.getLast?_concat]
      simp

theorem closed_details_iff (h : c.Checked) :
    (∀ p ∈ c.details, Closed p.text) ↔
      (∀ tag ∈ c.last? "details", endsOpen (Text.trim tag.content).toList = false) ∧
      (c.explicitPassage "details" = none → 2 < (paragraphs c.preamble).length →
        BalancedTogether ((paragraphs c.preamble).take 2) ∧
          ∀ text ∈ (paragraphs c.preamble).getLast?, endsOpen text.toList = false) := by
  rw [← h.closed_explicitPassage_iff (by decide), Comment.details]
  cases c.explicitPassage "details" with
  | some p => simp
  | none =>
    have hshort : (paragraphs c.preamble).drop 2 = [] ↔ ¬2 < (paragraphs c.preamble).length := by
      rw [List.drop_eq_nil_iff, not_lt]
    by_cases hlong : 2 < (paragraphs c.preamble).length
    · have hjoin := h.closed_join_drop_iff hlong
      cases hdrop : (paragraphs c.preamble).drop 2 with
      | nil => exact absurd hlong (hshort.1 hdrop)
      | cons third rest =>
        rw [hdrop] at hjoin
        simpa [hlong] using hjoin
    · simp [hshort.2 hlong, hlong]

end Comment.Checked

namespace Topic

variable {c : Comment}

/-- Every entry of a topic is that of a tag. -/
theorem exists_entryOf {t : Topic} {p : Param} (h : p ∈ (t.withTags c).entries) :
    ∃ tag ∈ c.tags, tag.name ≠ "examples" ∧ Comment.entryOf tag = some p := by
  have hread : ∀ name ≠ "examples", p ∈ c.entries name →
      ∃ tag ∈ c.tags, tag.name ≠ "examples" ∧ Comment.entryOf tag = some p := by
    intro name hname hp
    rcases Param.mem_of_mem_extendByName hp with hp | hp
    · cases hp
    obtain ⟨tag, htag, hentry⟩ := List.mem_filterMap.1 hp
    obtain ⟨hmem, heq⟩ := List.mem_filter.1 htag
    exact ⟨tag, hmem, by rwa [eq_of_beq heq], hentry⟩
  rw [entries, List.mem_append, List.mem_append] at h
  rcases h with (h | h) | h
  · exact hread "param" (by decide) h
  · exact hread "slot" (by decide) h
  · exact hread "field" (by decide) h

theorem closed_entries_iff (h : c.Checked) (t : Topic) :
    (∀ p ∈ (t.withTags c).entries, Closed p.description) ↔
      (∀ p ∈ (t.withTags c).entries, bracesBalanced p.name = true) ∧
      ∀ tag ∈ c.tags, ∀ p ∈ Comment.entryOf tag, p ∈ (t.withTags c).entries →
        endsOpen (Text.trim tag.content).toList = false := by
  constructor
  · intro hclosed
    refine ⟨fun p hp => ?_, fun tag _ p hentry hp => ?_⟩
    · obtain ⟨tag, htag, hname, hentry⟩ := exists_entryOf hp
      exact (h.balanced_description_iff htag hname hentry).1 (hclosed p hp).1
    · rw [← endsOpen_entryOf hentry]
      exact (hclosed p hp).2
  · rintro ⟨hnames, hends⟩ p hp
    obtain ⟨tag, htag, hname, hentry⟩ := exists_entryOf hp
    refine ⟨(h.balanced_description_iff htag hname hentry).2 (hnames p hp), ?_⟩
    rw [endsOpen_entryOf hentry]
    exact hends tag htag p hentry hp

/-- Of the texts of a section, those in front of others need to be closed, and the tag must not end
in an open backslash. -/
theorem closed_texts_iff (h : c.Checked) {tag : Tag} (htag : tag ∈ c.all "section") {s : Section}
    (hread : Section.ofText (Text.trim tag.content) = some s) :
    (∀ text ∈ s.texts, Closed text) ↔
      (∀ text ∈ s.texts.dropLast, Closed text) ∧
        endsOpen (Text.trim tag.content).toList = false := by
  have hbalanced := forall_balanced_iff_dropLast (h.balanced_texts htag hread)
  have hends := Section.forall_endsOpen_iff hread
  rw [Text.trim_trim] at hends
  simp only [Closed, forall_and, hbalanced, hends, and_assoc]

theorem closed_sections_iff (h : c.Checked) (t : Topic) :
    (∀ s ∈ (t.withTags c).sections, ∀ text ∈ s.texts, Closed text) ↔
      (∀ s ∈ (t.withTags c).sections, ∀ text ∈ s.texts.dropLast, Closed text) ∧
      ∀ tag ∈ c.all "section", (Section.ofText (Text.trim tag.content)).isSome →
        endsOpen (Text.trim tag.content).toList = false := by
  have hmem : ∀ s, s ∈ (t.withTags c).sections ↔
      ∃ tag ∈ c.all "section", Section.ofText (Text.trim tag.content) = some s := by
    intro s
    simp only [withTags, Comment.contents, List.filterMap_map, List.mem_filterMap,
      Function.comp_apply]
  constructor
  · intro hclosed
    refine ⟨fun s hs text htext => hclosed s hs text (List.dropLast_subset _ htext), ?_⟩
    intro tag htag hsome
    obtain ⟨s, hread⟩ := Option.isSome_iff_exists.1 hsome
    exact ((closed_texts_iff h htag hread).1 (hclosed s ((hmem s).2 ⟨tag, htag, hread⟩))).2
  · rintro ⟨hfront, hends⟩ s hs
    obtain ⟨tag, htag, hread⟩ := (hmem s).1 hs
    exact (closed_texts_iff h htag hread).2
      ⟨hfront s hs, hends tag htag (Option.isSome_iff_exists.2 ⟨s, hread⟩)⟩

end Topic

/-- For a comment without a brace fault, the texts of its topic are closed exactly if they were cut
off where neither a brace nor a backslash was open. -/
theorem Topic.markup_closed_iff {b : Block} {c : Comment} {ctx : PackageContext} {t : Topic}
    (htopic : (Built.of b c ctx).topic = some t)
    (hfaults : ∀ d ∈ (Built.of b c ctx).diagnostics, ¬d.IsBraceFault) :
    (∀ text ∈ t.markup, Closed text) ↔ CutsOutsideBraces c t := by
  have hchecked := Comment.checked_of_forall_not_isBraceFault hfaults
  obtain ⟨name, -, rfl⟩ := Option.map_eq_some_iff.1 htopic
  rw [Topic.ofSubject_eq, Topic.forall_mem_markup, closed_entries_iff hchecked,
    closed_sections_iff hchecked]
  constructor
  · rintro ⟨htitle, hdescription, hdetails, ⟨hnames, hentries⟩, hsections, htags⟩
    have htitle := (hchecked.closed_title_iff hdescription).1 htitle
    have hdescription := hchecked.closed_description_iff.1 hdescription
    have hdetails := hchecked.closed_details_iff.1 hdetails
    refine ⟨htitle.2, hdescription.2, hdetails.2, ?_, hnames, hentries, hsections, htags⟩
    simp only [List.forall_mem_cons]
    exact ⟨htitle.1, hdescription.1, hdetails.1, by simp⟩
  · intro h
    have hdescription := hchecked.closed_description_iff.2
      ⟨h.passageTags "description" (by simp), h.description⟩
    exact ⟨(hchecked.closed_title_iff hdescription).2 ⟨h.passageTags "title" (by simp), h.title⟩,
      hdescription, hchecked.closed_details_iff.2 ⟨h.passageTags "details" (by simp), h.details⟩,
      ⟨h.entries, h.entryTags⟩, h.sections, h.sectionTags⟩

/-- A function whose comments are given apart. -/
def sortBlock : Block :=
  { unit := "R/sort.R", place := ⟨0, 1⟩, lines := []
    declaration := { kind := .function, name := some "sort_rows", formals := some "df" } }

/-- Braces inside a paragraph, a description, a body and the title of a subsection, and a backslash
that takes another one along. -/
def sortComment : Comment :=
  ⟨"Sort \\code\x7brows\x7d\n\nIn place.\n\nStable.",
    [⟨"param", "df A \\code\x7bframe\x7d.", 6⟩,
      ⟨"section", "Ties: Kept \x7bas\n they were\x7d.\n## \\emph\x7bMore\x7d\nNone \\\\", 7⟩]⟩

theorem Topic.markup_closed_sortComment :
    ∃ t, (Built.of sortBlock sortComment {}).topic = some t ∧
      (Built.of sortBlock sortComment {}).diagnostics = [] ∧
      t.markup = ["Sort \\code\x7brows\x7d", "In place.", "Stable.", "A \\code\x7bframe\x7d.",
        "Ties", "Kept \x7bas\n they were\x7d.", "\\emph\x7bMore\x7d", "None \\\\"] ∧
      CutsOutsideBraces sortComment t := by
  have hnone : (Built.of sortBlock sortComment {}).diagnostics = [] := by decide +kernel
  have heval : (Built.of sortBlock sortComment {}).topic.map Topic.markup =
      some ["Sort \\code\x7brows\x7d", "In place.", "Stable.", "A \\code\x7bframe\x7d.",
        "Ties", "Kept \x7bas\n they were\x7d.", "\\emph\x7bMore\x7d", "None \\\\"] := by
    decide +kernel
  obtain ⟨t, ht, hmarkup⟩ := Option.map_eq_some_iff.1 heval
  refine ⟨t, ht, hnone, hmarkup, (Topic.markup_closed_iff ht (by rw [hnone]; simp)).1 ?_⟩
  rw [hmarkup]
  decide +kernel

/-- A preamble that opens a brace in its first paragraph and closes it in its second has no fault,
but neither the title nor the description that are cut out of it is balanced. -/
theorem Topic.exists_unbalanced_paragraphs :
    (Built.of sortBlock ⟨"Sort \x7brows\n\nby\x7d column", []⟩ {}).diagnostics = [] ∧
      (Built.of sortBlock ⟨"Sort \x7brows\n\nby\x7d column", []⟩ {}).topic.map Topic.markup =
        some ["Sort \x7brows", "by\x7d column"] ∧
      bracesBalanced "Sort \x7brows" = false ∧ bracesBalanced "by\x7d column" = false := by
  decide +kernel

end DocTopics
