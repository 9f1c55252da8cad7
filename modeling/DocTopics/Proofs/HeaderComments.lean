import DocTopics.Proofs.FunctionHeaders
import DocTopics.Proofs.Pieces

/-!
# Comments inside function headers

A comment may stand at the end of each line of a function header. The lines of the statement are
collected without regard to it. The search for the formal arguments does read it, so a comment
becomes part of the formal arguments, and what it holds may end them or keep them open.

## Main definitions

- `Declaration.HeaderLine` — a line of a header, with or without a comment
- `Declaration.headerSource` — the lines of a header and those below it

## Main statements

- `Declaration.exists_comment_split` — where the first comment of a header stands
- `Declaration.recognize_headerSource_iff` — a comment never leaves a declaration as it is
-/

namespace DocTopics

/-- What follows a comment sign is no code. -/
theorem Nesting.Inside.head?_trimStart_ne {d e : Nat} {cs : List Char} (h : Inside d cs e) :
    (Chars.trimStart cs).head? ≠ some '#' := by
  induction h with
  | nil => exact fun h => by cases h
  | @plain d e c cs hc _ ih =>
    by_cases hblank : isBlank c = true
    · rwa [Chars.trimStart, List.dropWhile_cons_of_pos hblank]
    · rw [Chars.trimStart, List.dropWhile_cons_of_neg hblank]
      intro heq
      exact (isPlain_iff.1 hc).2.2.2 (Option.some_inj.1 heq)
  | @quoted d e q text cs hq _ _ _ _ =>
    have hblank : ¬isBlank q = true := by
      rw [isQuote, Bool.or_eq_true, beq_iff_eq, beq_iff_eq] at hq
      rcases hq with rfl | rfl <;> decide
    rw [Chars.trimStart, List.dropWhile_cons_of_neg hblank]
    intro heq
    exact (ne_of_isQuote hq).2.2.2 (Option.some_inj.1 heq)
  | opening _ _ => exact fun h => absurd (Option.some_inj.1 h) (by decide)
  | closing _ _ => exact fun h => absurd (Option.some_inj.1 h) (by decide)

/-- The search for the closing parenthesis passes over characters that are neither quotes nor
parentheses, comment signs included. -/
theorem Nesting.enclosed_append_of_forall {cs : List Char}
    (h : ∀ c ∈ cs, isQuote c = false ∧ c ≠ '(' ∧ c ≠ ')') (d : Int) (rest : List Char) :
    enclosed ⟨d, none⟩ (cs ++ rest) = (enclosed ⟨d, none⟩ rest).map (cs ++ ·) := by
  induction cs with
  | nil => simp
  | cons c cs ih =>
    obtain ⟨⟨hquote, hopen, hclose⟩, hcs⟩ := List.forall_mem_cons.1 h
    have hstep : stepParens ⟨d, none⟩ c = ⟨d, none⟩ := by
      simp [stepParens, step, hquote, hopen, hclose]
    simp [enclosed, hstep, hclose, ih hcs, Function.comp_def]

namespace Declaration

open Nesting (Inside)

/-! ### Lines with comments -/

/-- A line of a function header: its code, and the text of the comment behind it, if any. -/
structure HeaderLine where
  code : String
  comment : Option String := none

namespace HeaderLine

/-- The comment as it is written behind the code. -/
def remark (l : HeaderLine) : List Char :=
  match l.comment with
  | none => []
  | some text => " # ".toList ++ text.toList

/-- The line as it is written. -/
def text (l : HeaderLine) : String :=
  l.code ++ String.ofList l.remark

/-- The line without its comment. -/
def bare (l : HeaderLine) : HeaderLine :=
  { l with comment := none }

theorem toList_text (l : HeaderLine) : l.text.toList = l.code.toList ++ l.remark := by
  rw [text, String.toList_append, String.toList_ofList]

theorem text_bare (l : HeaderLine) : l.bare.text = l.code := by
  rw [← String.toList_inj, toList_text]
  exact List.append_nil _

theorem bare_eq_self {l : HeaderLine} (h : l.comment = none) : l.bare = l := by
  rw [bare, ← h]

/-- A comment does not count for the depth of its line. -/
theorem depthAfter_remark (l : HeaderLine) (d : Int) :
    Nesting.depthAfter ⟨d, none⟩ l.remark = d := by
  unfold remark
  split <;> rfl

end HeaderLine

/-- The lines of a function header in front of the line on which its formal arguments end, that line,
and the lines below. -/
def headerSource (head : FunctionHead) (first : HeaderLine) (middle : List HeaderLine)
    (last : String) (below : List String) : List String :=
  (String.ofList head.text ++ first.text) :: (middle.map HeaderLine.text ++ last :: below)

/-- The text of some lines and of the code that stands in front of the closing parenthesis. -/
def formalsText (lines : List String) (closing : String) : List Char :=
  (Text.joinLines (lines ++ [closing])).toList

theorem formalsText_cons (line : String) (lines : List String) (closing : String) :
    formalsText (line :: lines) closing = line.toList ++ '\n' :: formalsText lines closing := by
  rw [formalsText, List.cons_append, Text.toList_joinLines_of_ne_nil _ (by simp)]
  rfl

variable {k e : Nat} {lines : List HeaderLine} {closing : String}

/-- All lines of a header stay open, whatever their comments hold. -/
theorem staysOpen_text (hk : 0 < k) (h : Inside k (formalsText (lines.map (·.code)) closing) e) :
    ∃ m, StaysOpen k (lines.map HeaderLine.text) m := by
  induction lines generalizing k with
  | nil => exact ⟨k, .nil⟩
  | cons l lines ih =>
    rw [List.map_cons, formalsText_cons] at h
    obtain ⟨m, hcode, hrest⟩ := h.of_newline
    have hdepth : (k : Int) + Nesting.parenDelta l.text.toList = m := by
      rw [Nesting.parenDelta, ← Nesting.depthAfter_eq_add, l.toList_text, hcode.depthAfter_append,
        l.depthAfter_remark]
    obtain ⟨m', hopen⟩ := ih (hcode.pos hk) hrest
    refine ⟨m', .cons ?_ (hdepth ▸ hopen)⟩
    rw [hdepth]
    exact Int.natCast_pos.2 (hcode.pos hk)

/-- In front of the first comment of a header the text with and without comments is the same; behind
it stands a comment sign in the one and the end of the line in the other. -/
theorem exists_comment_split (h : Inside k (formalsText (lines.map (·.code)) closing) e)
    (hcomment : ∃ l ∈ lines, l.comment ≠ none) :
    ∃ front more back m,
      formalsText (lines.map HeaderLine.text) closing = front ++ ' ' :: '#' :: more ∧
      formalsText (lines.map (·.code)) closing = front ++ '\n' :: back ∧
      Inside k front m ∧ Inside m back e := by
  induction lines generalizing k with
  | nil =>
    obtain ⟨l, hl, -⟩ := hcomment
    cases hl
  | cons l lines ih =>
    rw [List.map_cons, formalsText_cons] at h
    obtain ⟨m, hcode, hrest⟩ := h.of_newline
    rw [List.map_cons, List.map_cons, formalsText_cons, formalsText_cons, l.toList_text]
    cases hl : l.comment with
    | some text =>
      refine ⟨l.code.toList,
        ' ' :: (text.toList ++ '\n' :: formalsText (lines.map HeaderLine.text) closing), _, m, ?_, rfl,
        hcode, hrest⟩
      rw [HeaderLine.remark, hl, List.append_assoc]
      rfl
    | none =>
      have hlater : ∃ l' ∈ lines, l'.comment ≠ none := by
        obtain ⟨l', hmem, hl'⟩ := hcomment
        rcases List.mem_cons.1 hmem with rfl | hmem
        · exact absurd hl hl'
        · exact ⟨l', hmem, hl'⟩
      obtain ⟨front, more, back, m', htext, hplain, hfront, hback⟩ := ih hrest hlater
      refine ⟨l.code.toList ++ '\n' :: front, more, back, m', ?_, ?_,
        hcode.append (.plain (by decide) hfront), hback⟩
      · rw [HeaderLine.remark, hl, htext, List.append_nil, List.append_assoc]
        rfl
      · rw [hplain, List.append_assoc]
        rfl

/-- A text that goes on with a comment sign has other words than one that goes on with code. -/
theorem collapse_comment_ne {front more back : List Char} {m e : Nat} (h : Inside m back e) :
    Text.collapse (String.ofList (front ++ ' ' :: '#' :: more)) ≠
      Text.collapse (String.ofList (front ++ '\n' :: back)) := by
  intro heq
  have hwords := congrArg (fun s : String => Chars.words s.toList) heq
  simp only [Text.words_collapse, String.toList_ofList] at hwords
  rw [Chars.words_append_cons (by decide), Chars.words_append_cons (by decide),
    List.append_cancel_left_eq] at hwords
  apply h.head?_trimStart_ne
  rw [← Chars.head?_words, ← hwords, Chars.head?_words]
  rfl

/-- Comments without quotes and parentheses are part of the text up to the closing parenthesis. -/
theorem enclosed_formalsText (hk : 0 < k)
    (h : Inside k (formalsText (lines.map (·.code)) closing) 1)
    (hremark : ∀ l ∈ lines, ∀ c ∈ l.remark, isQuote c = false ∧ c ≠ '(' ∧ c ≠ ')')
    (rest : List Char) :
    Nesting.enclosed ⟨k, none⟩ (formalsText (lines.map HeaderLine.text) closing ++ ')' :: rest) =
      some (formalsText (lines.map HeaderLine.text) closing) := by
  induction lines generalizing k with
  | nil =>
    rw [List.map_nil] at h ⊢
    rw [h.enclosed_append hk]
    simp [Nesting.enclosed]
  | cons l lines ih =>
    obtain ⟨hl, hlines⟩ := List.forall_mem_cons.1 hremark
    rw [List.map_cons, formalsText_cons] at h
    obtain ⟨m, hcode, hrest⟩ := h.of_newline
    have hend : ∀ c ∈ ['\n'], isQuote c = false ∧ c ≠ '(' ∧ c ≠ ')' := by simp [isQuote]
    rw [List.map_cons, formalsText_cons, l.toList_text, List.append_assoc, List.append_assoc,
      hcode.enclosed_append hk, Nesting.enclosed_append_of_forall hl, List.cons_append,
      ← List.singleton_append, Nesting.enclosed_append_of_forall hend, ih (hcode.pos hk) hrest hlines]
    simp

/-- A comment sign is part of the text that is found behind it. -/
theorem exists_comment_of_enclosed {front more inner : List Char} {m : Nat} (hk : 0 < k)
    (h : Inside k front m)
    (hinner : Nesting.enclosed ⟨k, none⟩ (front ++ ' ' :: '#' :: more) = some inner) :
    ∃ more', inner = front ++ ' ' :: '#' :: more' := by
  have hsign : ∀ c ∈ [' ', '#'], isQuote c = false ∧ c ≠ '(' ∧ c ≠ ')' := by simp [isQuote]
  have hsplit : ' ' :: '#' :: more = [' ', '#'] ++ more := rfl
  rw [h.enclosed_append hk, hsplit, Nesting.enclosed_append_of_forall hsign, Option.map_map,
    Option.map_eq_some_iff] at hinner
  obtain ⟨more', -, rfl⟩ := hinner
  exact ⟨more', rfl⟩

/-! ### Recognition -/

theorem formalsText_append (lines : List String) (closing : String) (rest : String) :
    formalsText lines (closing ++ ")" ++ rest) = formalsText lines closing ++ ')' :: rest.toList := by
  induction lines with
  | nil => simp [formalsText, Text.joinLines, Text.join]
  | cons line lines ih => rw [formalsText_cons, formalsText_cons, ih, List.append_assoc]; rfl

section

variable (head : FunctionHead) {first : HeaderLine} {middle : List HeaderLine}
  (rest : String) (below : List String) (number : Nat)

/-- The statement of a header goes at least to the end of its last line. -/
theorem exists_statement_headerSource
    (h : Inside 1 (formalsText ((first :: middle).map (·.code)) closing) 1)
    (hlength : (first :: middle).length < 200) :
    ∃ tail, statement (headerSource head first middle (closing ++ ")" ++ rest) below) =
      head.text ++ (formalsText ((first :: middle).map HeaderLine.text) closing ++ ')' :: tail) := by
  rw [List.map_cons, formalsText_cons] at h
  obtain ⟨m, hcode, hmiddle⟩ := h.of_newline
  have hdepth : (0 : Int) + Nesting.parenDelta (String.ofList head.text ++ first.text).toList =
      m := by
    have hline := head.inside_text.append hcode
    have hafter := hline.depthAfter_append first.remark
    rw [first.depthAfter_remark] at hafter
    rw [Nesting.parenDelta, String.toList_append, String.toList_ofList, first.toList_text,
      ← List.append_assoc, ← hafter]
    exact Int.zero_add _
  obtain ⟨m', hopen⟩ := staysOpen_text (hcode.pos Nat.one_pos) hmiddle
  have hall : StaysOpen 0 ((String.ofList head.text ++ first.text) :: middle.map HeaderLine.text)
      m' := by
    refine .cons ?_ (hdepth ▸ hopen)
    rw [hdepth]
    exact Int.natCast_pos.2 (hcode.pos Nat.one_pos)
  have hcount : ((String.ofList head.text ++ first.text) ::
      middle.map HeaderLine.text).length < maxStatementLines := by
    rw [List.length_cons, List.length_map]
    exact hlength
  obtain ⟨tail, htail⟩ := exists_statement_eq hall hcount (closing ++ ")" ++ rest) below
  refine ⟨rest.toList ++ tail, ?_⟩
  rw [headerSource, ← List.cons_append, htail, ← formalsText, formalsText_append, formalsText_cons,
    List.map_cons, formalsText_cons]
  simp

theorem exists_recognize_headerSource
    (h : Inside 1 (formalsText ((first :: middle).map (·.code)) closing) 1)
    (hlength : (first :: middle).length < 200) :
    ∃ tail, recognize (headerSource head first middle (closing ++ ")" ++ rest) below) number =
      some { kind := .function, name := head.name, line := number
             formals := (Nesting.enclosed { depth := 1 }
                 (formalsText ((first :: middle).map HeaderLine.text) closing ++ ')' :: tail)).map
               fun inner => Text.collapse (String.ofList inner) } := by
  obtain ⟨tail, htail⟩ := exists_statement_headerSource head rest below h hlength
  refine ⟨tail, recognize_of_ofStatement ?_ ?_⟩
  · simp [FunctionHead.text]
  · rw [← headerSource, htail]
    exact head.ofStatement_text _ number

/-- Without comments, the formal arguments are the code up to the closing parenthesis. -/
theorem recognize_headerSource_bare
    (h : Inside 1 (formalsText ((first :: middle).map (·.code)) closing) 1)
    (hlength : (first :: middle).length < 200) :
    recognize (headerSource head first.bare (middle.map HeaderLine.bare) (closing ++ ")" ++ rest)
        below) number =
      some { kind := .function, name := head.name, line := number
             formals := some (Text.collapse (String.ofList
               (formalsText ((first :: middle).map (·.code)) closing))) } := by
  have hbare : (first.bare :: middle.map HeaderLine.bare).map (·.code) =
      (first :: middle).map (·.code) := by
    simp [HeaderLine.bare, Function.comp_def]
  have htext : (first.bare :: middle.map HeaderLine.bare).map HeaderLine.text =
      (first :: middle).map (·.code) := by
    simp [HeaderLine.text_bare, Function.comp_def]
  obtain ⟨tail, htail⟩ := exists_recognize_headerSource head rest below number
    (hbare ▸ h) (by simpa using hlength)
  rw [htail, htext, h.enclosed_closing]
  rfl

/-- The kind, the name and the line of a function do not depend on the comments in its header. Its
formal arguments do: they are changed by every comment, and a comment without quotes and parentheses
becomes a part of them. -/
theorem recognize_headerSource_iff
    (h : Inside 1 (formalsText ((first :: middle).map (·.code)) closing) 1)
    (hlength : (first :: middle).length < 200) :
    (∃ formals, recognize (headerSource head first middle (closing ++ ")" ++ rest) below) number =
      some { kind := .function, name := head.name, formals := formals, line := number }) ∧
    (recognize (headerSource head first middle (closing ++ ")" ++ rest) below) number =
        recognize (headerSource head first.bare (middle.map HeaderLine.bare) (closing ++ ")" ++ rest)
          below) number ↔
      ∀ l ∈ first :: middle, l.comment = none) ∧
    ((∀ l ∈ first :: middle, ∀ c ∈ l.remark, isQuote c = false ∧ c ≠ '(' ∧ c ≠ ')') →
      recognize (headerSource head first middle (closing ++ ")" ++ rest) below) number =
        some { kind := .function, name := head.name, line := number
               formals := some (Text.collapse (String.ofList
                 (formalsText ((first :: middle).map HeaderLine.text) closing))) }) := by
  obtain ⟨tail, htail⟩ := exists_recognize_headerSource head rest below number h hlength
  refine ⟨⟨_, htail⟩, ⟨fun heq => ?_, fun hnone => ?_⟩, fun hremark => ?_⟩
  · -- the text up to the first comment is the same, so the first words behind it are compared
    by_contra hall
    have hsome : ∃ l ∈ first :: middle, l.comment ≠ none := by
      simpa only [not_forall, exists_prop] using hall
    obtain ⟨front, more, back, m, htext, hplain, hfront, hback⟩ := exists_comment_split h hsome
    rw [htail, recognize_headerSource_bare head rest below number h hlength] at heq
    obtain ⟨inner, hinner, hcollapse⟩ :=
      Option.map_eq_some_iff.1 (congrArg Declaration.formals (Option.some_inj.1 heq))
    rw [htext, List.append_assoc, ← Int.natCast_one] at hinner
    obtain ⟨more', rfl⟩ := exists_comment_of_enclosed Nat.one_pos hfront hinner
    rw [hplain] at hcollapse
    exact collapse_comment_ne hback hcollapse
  · obtain ⟨hfirst, hmiddle⟩ := List.forall_mem_cons.1 hnone
    rw [HeaderLine.bare_eq_self hfirst,
      List.map_congr_left fun l hl => HeaderLine.bare_eq_self (hmiddle l hl), List.map_id']
  · rw [htail, ← Int.natCast_one, enclosed_formalsText Nat.one_pos h hremark]
    rfl

end

def scaleHead : FunctionHead :=
  .ofName "scale" ⟨'s', "cale".toList, rfl, by decide, List.all_eq_true.1 (by decide +kernel)⟩

/-- The first of three lines has a comment. -/
theorem recognize_scale_commented :
    recognize ["scale <- function(x, # the values", "  by = c(2,", "    3)) x", "y"] 7 =
        some { kind := .function, name := "scale", line := 7
               formals := some "x, # the values by = c(2, 3)" } ∧
      recognize ["scale <- function(x, # the values", "  by = c(2,", "    3)) x", "y"] 7 ≠
        recognize ["scale <- function(x,", "  by = c(2,", "    3)) x", "y"] 7 := by
  let first : HeaderLine := { code := "x,", comment := some "the values" }
  let second : HeaderLine := { code := "  by = c(2," }
  have hcode : formalsText ([first, second].map (·.code)) "    3)" =
      "x,\n  by = c".toList ++ '(' :: ("2,\n    3".toList ++ [')']) := by decide +kernel
  have hinside : Inside 1 (formalsText ([first, second].map (·.code)) "    3)") 1 := by
    rw [hcode]
    exact (Inside.of_forall_plain (by decide) 1).append <| .opening <|
      (Inside.of_forall_plain (by decide) 2).append <| .closing .nil
  have hquiet : first.remark.all (fun c => !isQuote c && c != '(' && c != ')') = true := by decide
  obtain ⟨-, hiff, hread⟩ :=
    recognize_headerSource_iff scaleHead " x" ["y"] 7 hinside (by decide)
  have hcollapse : Text.collapse (String.ofList
      (formalsText ([first, second].map HeaderLine.text) "    3)")) =
      "x, # the values by = c(2, 3)" := by decide +kernel
  have hsource : headerSource scaleHead first [second] ("    3)" ++ ")" ++ " x") ["y"] =
      ["scale <- function(x, # the values", "  by = c(2,", "    3)) x", "y"] := by decide +kernel
  have hbare : headerSource scaleHead first.bare [second.bare] ("    3)" ++ ")" ++ " x") ["y"] =
      ["scale <- function(x,", "  by = c(2,", "    3)) x", "y"] := by decide +kernel
  rw [List.map_singleton, hsource, hbare] at hiff
  rw [hsource, hcollapse] at hread
  refine ⟨hread ?_, fun heq => ?_⟩
  · rw [List.forall_mem_cons, List.forall_mem_singleton]
    refine ⟨fun c hc => ?_, fun c hc => by cases hc⟩
    simpa [and_assoc] using List.all_eq_true.1 hquiet c hc
  · exact absurd (hiff.1 heq first List.mem_cons_self) (by simp [first])

/-- An apostrophe in a comment opens a quote that hides the end of the formal arguments. -/
theorem recognize_scale_apostrophe :
    recognize ["scale <- function(x, # don't touch", "  by = 2) x"] 1 =
        some { kind := .function, name := "scale", formals := none, line := 1 } ∧
      recognize ["scale <- function(x,", "  by = 2) x"] 1 =
        some { kind := .function, name := "scale", formals := some "x, by = 2", line := 1 } := by
  decide +kernel

end Declaration

end DocTopics
