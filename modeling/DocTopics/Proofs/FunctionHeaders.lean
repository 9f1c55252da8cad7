import DocTopics.Proofs.Lines
import DocTopics.Proofs.Parentheses
import DocTopics.Proofs.Readers

/-!
# Function headers

The formal arguments of a function may stand on many lines. The lines of the statement are collected
first, one by one, as long as parentheses are open; the arguments are then searched for in the text
of all these lines. The statement is long enough: it goes at least to the line on which the
arguments end.

## Main definitions

- `Declaration.FunctionHead` — the start of the line that assigns a function
- `Declaration.StaysOpen` — lines behind each of which parentheses are open

## Main statements

- `Declaration.statementLines_append` — a statement goes on over lines that leave it open
- `Declaration.FunctionHead.ofStatement_text` — what is read behind the start of a function
- `Declaration.recognize_functionHeader` — the formal arguments are those up to the closing
  parenthesis, on whatever line it stands
-/

namespace DocTopics.Declaration

open Nesting (Inside isPlain)

/-! ### The start of a function -/

/-- The start of the line that assigns a function, up to the parenthesis in front of its formal
arguments: a name, an assignment sign and the keyword, with white space around them. -/
structure FunctionHead where
  indent : String
  name : String
  beforeSign : String
  sign : String
  afterSign : String
  beforeParen : String
  isName : IsName name.toList
  isSign : sign ∈ ["<-", "<<-", "="]
  isGap : ∀ gap ∈ [indent, beforeSign, afterSign, beforeParen],
    Text.blank gap = true ∧ '\n' ∉ gap.toList

/-- The start of the line as it is usually written. -/
def FunctionHead.ofName (name : String) (isName : IsName name.toList) : FunctionHead where
  indent := ""
  name := name
  beforeSign := " "
  sign := "<-"
  afterSign := " "
  beforeParen := ""
  isName := isName
  isSign := by decide
  isGap := by decide

/-- A class of characters without quotes, parentheses and the comment sign. -/
theorem isPlain_of_class {p : Char → Bool}
    (hp : ['"', '\'', '(', ')', '#'].all (!p ·) = true) {c : Char} (hc : p c = true) :
    isPlain c = true := by
  have hne : ∀ d ∈ ['"', '\'', '(', ')', '#'], c ≠ d := by
    intro d hd
    exact Chars.ne_of_class hc (by simpa using List.all_eq_true.1 hp d hd)
  simp only [List.forall_mem_cons] at hne
  simp [isPlain, isQuote, hne]

theorem isPlain_of_continuesName {c : Char} (h : continuesName c = true) : isPlain c = true :=
  isPlain_of_class (by decide +kernel) h

theorem isPlain_of_isBlank {c : Char} (h : isBlank c = true) : isPlain c = true :=
  isPlain_of_class (by decide) h

theorem paren_notMem_of_blank {gap : List Char} (h : Chars.blank gap = true) : '(' ∉ gap :=
  Chars.notMem_of_class (List.all_eq_true.1 h) (by decide)

namespace FunctionHead

variable (head : FunctionHead)

/-- The text of the start of a function. -/
def text : List Char :=
  head.indent.toList ++ (head.name.toList ++ (head.beforeSign.toList ++ (head.sign.toList ++
    (head.afterSign.toList ++ ("function".toList ++ (head.beforeParen.toList ++ ['(']))))))

/-- The text behind the name, followed by another text. -/
def afterName (rest : List Char) : List Char :=
  head.beforeSign.toList ++ (head.sign.toList ++ (head.afterSign.toList ++ ("function".toList ++
    (head.beforeParen.toList ++ '(' :: rest))))

theorem text_append (rest : List Char) :
    head.text ++ rest = head.indent.toList ++ (head.name.toList ++ head.afterName rest) := by
  simp [text, afterName]

theorem blank_gaps :
    Chars.blank head.indent.toList = true ∧ Chars.blank head.beforeSign.toList = true ∧
      Chars.blank head.afterSign.toList = true ∧ Chars.blank head.beforeParen.toList = true := by
  have h := head.isGap
  simp only [List.forall_mem_cons] at h
  exact ⟨h.1.1, h.2.1.1, h.2.2.1.1, h.2.2.2.1.1⟩

/-- The first character of an assignment sign. -/
theorem exists_sign_eq_cons :
    ∃ z more, head.sign.toList = z :: more ∧ (z = '<' ∨ z = '=') := by
  have h := head.isSign
  simp only [List.mem_cons, List.not_mem_nil, or_false] at h
  rcases h with h | h | h <;> rw [h]
  · exact ⟨'<', ['-'], rfl, .inl rfl⟩
  · exact ⟨'<', ['<', '-'], rfl, .inl rfl⟩
  · exact ⟨'=', [], rfl, .inr rfl⟩

/-- The last character of an assignment sign. -/
theorem exists_sign_eq_concat :
    ∃ front z, head.sign.toList = front ++ [z] ∧ '(' ∉ front ∧ (z = '-' ∨ z = '=') := by
  have h := head.isSign
  simp only [List.mem_cons, List.not_mem_nil, or_false] at h
  rcases h with h | h | h <;> rw [h]
  · exact ⟨['<'], '-', rfl, by decide, .inl rfl⟩
  · exact ⟨['<', '<'], '-', rfl, by decide, .inl rfl⟩
  · exact ⟨[], '=', rfl, by decide, .inr rfl⟩

theorem inside_text : Inside 0 head.text 1 := by
  obtain ⟨hindent, hbefore, hafter, hparen⟩ := head.blank_gaps
  have hgap : ∀ gap : List Char, Chars.blank gap = true → gap.all isPlain = true := fun gap h =>
    List.all_eq_true.2 fun c hc => isPlain_of_isBlank (List.all_eq_true.1 h c hc)
  have hname : head.name.toList.all isPlain = true :=
    List.all_eq_true.2 fun c hc => isPlain_of_continuesName (head.isName.continuesName c hc)
  have hsign : head.sign.toList.all isPlain = true := by
    have h := head.isSign
    simp only [List.mem_cons, List.not_mem_nil, or_false] at h
    rcases h with h | h | h <;> rw [h] <;> rfl
  have hfront : (head.indent.toList ++ (head.name.toList ++ (head.beforeSign.toList ++
      (head.sign.toList ++ (head.afterSign.toList ++ ("function".toList ++
        head.beforeParen.toList)))))).all isPlain = true := by
    simp only [List.all_append, hgap _ hindent, hgap _ hbefore, hgap _ hafter, hgap _ hparen, hname,
      hsign, Bool.true_and, Bool.and_true]
    rfl
  have htext := (Inside.of_forall_plain hfront 0).append (.opening (.nil (d := 1)))
  simpa only [text, List.append_assoc] using htext

theorem newline_notMem_text : '\n' ∉ head.text := by
  have hgap := head.isGap
  simp only [List.forall_mem_cons] at hgap
  have hname : '\n' ∉ head.name.toList :=
    Chars.notMem_of_class head.isName.continuesName (by decide +kernel)
  have hsign : '\n' ∉ head.sign.toList := by
    have h := head.isSign
    simp only [List.mem_cons, List.not_mem_nil, or_false] at h
    rcases h with h | h | h <;> rw [h] <;> decide
  simp only [text, List.mem_append, not_or]
  exact ⟨hgap.1.2, hname, hgap.2.1.2, hsign, hgap.2.2.1.2, by decide, hgap.2.2.2.1.2, by decide⟩

/-! ### Reading the start of a function -/

theorem trimStart_text (rest : List Char) :
    Chars.trimStart (head.text ++ rest) = head.name.toList ++ head.afterName rest := by
  rw [text_append, trimStart_append head.blank_gaps.1, head.isName.trimStart_append]

/-- The text behind the name does not continue it. -/
theorem head?_afterName (rest : List Char) :
    ∀ c ∈ (head.afterName rest).head?, continuesName c = false := by
  obtain ⟨-, hbefore, -, -⟩ := head.blank_gaps
  obtain ⟨z, more, hsign, hz⟩ := head.exists_sign_eq_cons
  intro c hc
  rw [afterName, hsign] at hc
  cases hgap : head.beforeSign.toList with
  | nil =>
    rw [hgap] at hc
    cases hc
    rcases hz with rfl | rfl <;> decide +kernel
  | cons d gap =>
    rw [hgap] at hc hbefore
    cases hc
    rw [Chars.blank, List.all_cons, Bool.and_eq_true] at hbefore
    rw [Bool.eq_false_iff]
    intro hcontinues
    rw [isBlank_of_continuesName hcontinues] at hbefore
    cases hbefore.1

/-- The text in front of the assignment sign is not the start of a call. -/
theorem definingCall_eq_none {function argument : String}
    (hfunction : '<' ∉ function.toList ∧ '=' ∉ function.toList) (rest : List Char) :
    definingCall function argument (head.name.toList ++ head.afterName rest) = none := by
  obtain ⟨-, hbefore, -, -⟩ := head.blank_gaps
  obtain ⟨z, more, hsign, hz⟩ := head.exists_sign_eq_cons
  have hfront : '(' ∉ head.name.toList ++ head.beforeSign.toList := by
    rw [List.mem_append, not_or]
    exact ⟨Chars.notMem_of_class head.isName.continuesName (by decide +kernel),
      paren_notMem_of_blank hbefore⟩
  have hnone : ∀ tail, (keyword function ((head.name.toList ++ head.beforeSign.toList) ++
      z :: tail)).bind (Chars.past ['(']) = none := by
    intro tail
    rcases hz with rfl | rfl
    · exact bind_keyword_eq_none hfront (by decide) (by decide) hfunction.1 tail
    · exact bind_keyword_eq_none hfront (by decide) (by decide) hfunction.2 tail
  apply Declaration.definingCall_eq_none
  rw [afterName, hsign, List.cons_append, ← List.append_assoc]
  exact hnone _

theorem trimStart_afterName (rest : List Char) :
    Chars.trimStart (head.afterName rest) = head.sign.toList ++ (head.afterSign.toList ++
      ("function".toList ++ (head.beforeParen.toList ++ '(' :: rest))) := by
  obtain ⟨-, hbefore, -, -⟩ := head.blank_gaps
  obtain ⟨z, more, hsign, hz⟩ := head.exists_sign_eq_cons
  rw [afterName, trimStart_append hbefore, hsign, List.cons_append, trimStart_cons]
  rcases hz with rfl | rfl <;> decide

theorem assignSign_sign {c : Char} (hc : isBlank c = false) (rest : List Char) :
    assignSign (head.sign.toList ++ (head.afterSign.toList ++ c :: rest)) = some (c :: rest) := by
  obtain ⟨-, -, hafter, -⟩ := head.blank_gaps
  have h := head.isSign
  simp only [List.mem_cons, List.not_mem_nil, or_false] at h
  rcases h with h | h | h <;> rw [h, assignSign, keyword_append _ hafter hc] <;> rfl

theorem functionHeader_text (rest : List Char) :
    functionHeader (head.text ++ rest) = some head.name := by
  obtain ⟨-, -, -, hparen⟩ := head.blank_gaps
  have hname : plainName (Chars.trimStart (head.text ++ rest)) =
      some (head.name.toList, head.afterName rest) := by
    rw [trimStart_text, plainName_append head.isName (head.head?_afterName rest)]
  have hassign : assignSign (Chars.trimStart (head.afterName rest)) =
      some ("function".toList ++ (head.beforeParen.toList ++ '(' :: rest)) := by
    rw [trimStart_afterName]
    exact head.assignSign_sign (c := 'f') (by decide) _
  have hkeyword := keyword_append "function" hparen (c := '(') (by decide) rest
  rw [functionHeader, hname]
  simp only [Option.orElse_some, Option.bind_eq_bind, Option.bind_some, hassign, hkeyword]
  rw [String.ofList_toList]
  rfl

/-- The assignment is read as that of a class generator, or not at all. -/
theorem generatorAssignment_text (rest : List Char) :
    generatorAssignment (head.name.toList ++ head.afterName rest) = none ∨
      generatorAssignment (head.name.toList ++ head.afterName rest) =
        some ("function".toList ++ (head.beforeParen.toList ++ '(' :: rest)) := by
  obtain ⟨-, -, hafter, -⟩ := head.blank_gaps
  obtain ⟨c, cs, hname, -⟩ := head.isName
  obtain ⟨htake, hdrop⟩ :=
    span_continuesName head.isName.continuesName (head.head?_afterName rest)
  have hnonempty : head.name.toList.isEmpty = false := by rw [hname]; rfl
  simp only [generatorAssignment, htake, hdrop, hnonempty, trimStart_afterName, Bool.false_eq_true,
    if_false]
  have h := head.isSign
  simp only [List.mem_cons, List.not_mem_nil, or_false] at h
  have hread : ∀ lit : String, keyword lit (lit.toList ++ (head.afterSign.toList ++
      ("function".toList ++ (head.beforeParen.toList ++ '(' :: rest)))) =
        some ("function".toList ++ (head.beforeParen.toList ++ '(' :: rest)) := fun lit =>
    keyword_append lit hafter (c := 'f') (by decide) _
  rcases h with h | h | h <;> rw [h]
  · refine .inr ?_
    rw [hread]
    rfl
  · exact .inl rfl
  · refine .inr ?_
    rw [hread]
    rfl

theorem classCall_text (rest : List Char) : classCall (head.text ++ rest) = none := by
  have hcalls : ∀ cs, definingCall "setClass" "Class" cs = none →
      definingCall "setRefClass" "Class" cs = none →
      ((definingCall "setClass" "Class" cs).orElse fun _ =>
        definingCall "setRefClass" "Class" cs) = none := by
    intro cs hclass href
    rw [hclass, href]
    rfl
  rw [classCall, trimStart_text]
  rcases head.generatorAssignment_text rest with h | h <;> rw [h]
  · simp only [Option.getD_none, hcalls _ (head.definingCall_eq_none (by decide) rest)
      (head.definingCall_eq_none (by decide) rest), Option.bind_eq_bind, Option.bind_none]
  · -- no class is made on the right of the assignment
    simp only [Option.getD_some]
    rfl

/-- The formal arguments are searched for right behind the start of a function. -/
theorem functionFormals_text (rest : List Char) :
    functionFormals (head.text ++ rest) =
      (Nesting.enclosed { depth := 1 } rest).map fun inner =>
        Text.collapse (String.ofList inner) := by
  obtain ⟨hindent, hbefore, hafter, hparen⟩ := head.blank_gaps
  obtain ⟨front, z, hsign, hfront, hz⟩ := head.exists_sign_eq_concat
  -- the search passes over everything up to the end of the assignment sign
  have hpassed : '(' ∉ head.indent.toList ++ head.name.toList ++ head.beforeSign.toList ++ front := by
    simp only [List.mem_append, not_or]
    exact ⟨⟨⟨paren_notMem_of_blank hindent,
      Chars.notMem_of_class head.isName.continuesName (by decide +kernel)⟩,
      paren_notMem_of_blank hbefore⟩, hfront⟩
  have htext : head.text ++ rest =
      (head.indent.toList ++ head.name.toList ++ head.beforeSign.toList ++ front) ++
        z :: (head.afterSign.toList ++ ("function".toList ++
          (head.beforeParen.toList ++ '(' :: rest))) := by
    simp [text, hsign]
  have hsearch : afterFunctionKeyword false (head.text ++ rest) = some rest := by
    have hword : isWord z = false := by rcases hz with rfl | rfl <;> decide +kernel
    rw [htext, afterFunctionKeyword_append hpassed (by rcases hz with rfl | rfl <;> decide)
      (by rcases hz with rfl | rfl <;> decide) (by rcases hz with rfl | rfl <;> decide), hword,
      afterFunctionKeyword_gap hafter, afterFunctionKeyword_function hparen]
  exact functionFormals_of_afterFunctionKeyword hsearch

/-- What is read behind the start of a function: its formal arguments, if they end. -/
theorem ofStatement_text (rest : List Char) (number : Nat) :
    ofStatement (head.text ++ rest) number =
      some { kind := .function, name := head.name, line := number
             formals := (Nesting.enclosed { depth := 1 } rest).map fun inner =>
               Text.collapse (String.ofList inner) } := by
  have hgeneric : genericCall (head.text ++ rest) = none := by
    rw [genericCall, trimStart_text, head.definingCall_eq_none (by decide)]
    rfl
  have hmethod : methodCall (head.text ++ rest) = none := by
    rw [methodCall, trimStart_text, head.definingCall_eq_none (by decide)]
    rfl
  simp only [ofStatement, hgeneric, hmethod, classCall_text, functionHeader_text,
    functionFormals_text]
  rfl

end FunctionHead

/-! ### The lines of a statement -/

/-- `StaysOpen d lines e` says that the lines lead from depth `d` to depth `e`, with parentheses open
behind each of them. -/
inductive StaysOpen : Int → List String → Int → Prop
  | nil {d : Int} : StaysOpen d [] d
  | cons {d e : Int} {line : String} {lines : List String}
      (hopen : 0 < d + Nesting.parenDelta line.toList)
      (h : StaysOpen (d + Nesting.parenDelta line.toList) lines e) : StaysOpen d (line :: lines) e

/-- A statement goes on over lines that leave it open, as long as lines may be read. -/
theorem statementLines_append {d e : Int} {opened : List String} (h : StaysOpen d opened e)
    (fuel : Nat) (rest : List String) :
    statementLines (opened.length + fuel) d (opened ++ rest) =
      opened ++ statementLines fuel e rest := by
  induction h with
  | nil => simp
  | @cons d e line lines hopen _ ih =>
    have hfuel : (line :: lines).length + fuel = (lines.length + fuel) + 1 := by
      rw [List.length_cons]
      omega
    rw [hfuel, List.cons_append, statementLines]
    simp only [Int.not_le.2 hopen, if_false, ih, List.cons_append]

theorem exists_joinLines_append (opened : List String) (line : String) (more : List String) :
    ∃ tail, (Text.joinLines (opened ++ line :: more)).toList =
      (Text.joinLines (opened ++ [line])).toList ++ tail := by
  induction opened with
  | nil =>
    cases more with
    | nil => exact ⟨[], (List.append_nil _).symm⟩
    | cons next more => exact ⟨_, Text.toList_joinLines_cons line next more⟩
  | cons first opened ih =>
    obtain ⟨tail, htail⟩ := ih
    refine ⟨tail, ?_⟩
    rw [List.cons_append, Text.toList_joinLines_of_ne_nil _ (by simp), htail, List.cons_append,
      Text.toList_joinLines_of_ne_nil _ (by simp), List.append_assoc, List.cons_append]

/-- A statement that is left open goes on at least to the end of the next line. -/
theorem exists_statement_eq {e : Int} {opened : List String} (h : StaysOpen 0 opened e)
    (hlength : opened.length < maxStatementLines) (line : String) (below : List String) :
    ∃ tail, statement (opened ++ line :: below) =
      (Text.joinLines (opened ++ [line])).toList ++ tail := by
  obtain ⟨fuel, hfuel⟩ := Nat.exists_eq_add_of_lt hlength
  rw [statement, hfuel, Nat.add_assoc, statementLines_append h, statementLines]
  exact exists_joinLines_append opened line _

/-- The depth behind a line of code inside parentheses. -/
theorem add_parenDelta {d m : Nat} {line : List Char} (h : Inside d line m) :
    (d : Int) + Nesting.parenDelta line = m := by
  have hdepth := h.depthAfter_append []
  rw [List.append_nil] at hdepth
  rw [Nesting.parenDelta, ← Nesting.depthAfter_eq_add, hdepth]
  rfl

/-- Where code inside parentheses is followed by the parenthesis that closes them, all lines in front
of this parenthesis leave the statement open. -/
theorem exists_staysOpen {lines : List String} {d k e : Nat} {lead code rest : List Char}
    (hlead : Inside d lead k) (hline : '\n' ∉ lead) (hk : 0 < k) (hcode : Inside k code e)
    (htext : (Text.joinLines lines).toList = lead ++ code ++ ')' :: rest) :
    ∃ opened line below m more, lines = opened ++ line :: below ∧ StaysOpen d opened m ∧
      opened.length ≤ code.count '\n' ∧
      (Text.joinLines (opened ++ [line])).toList = lead ++ code ++ ')' :: more := by
  induction lines generalizing d k lead code with
  | nil => exact absurd htext (by simp [Text.joinLines, Text.join])
  | cons line lines ih =>
    cases lines with
    | nil => exact ⟨[], line, [], d, rest, rfl, .nil, Nat.zero_le _, htext⟩
    | cons next lines =>
      rw [Text.toList_joinLines_cons] at htext
      rcases List.append_eq_append_iff.1 htext with ⟨after, hfront, hrest⟩ | ⟨after, hfront, hrest⟩
      · -- the parenthesis stands on a later line
        cases after with
        | nil => exact absurd (List.cons.inj hrest).1 (by decide)
        | cons c after =>
          obtain ⟨rfl, hnext⟩ := List.cons.inj hrest
          obtain ⟨here, hhere, hcut⟩ := Nesting.exists_append_of_notMem hline hfront.symm
          subst hcut
          obtain ⟨m, hbefore, hafter⟩ := hcode.of_newline
          have hdepth : (d : Int) + Nesting.parenDelta line.toList = m := by
            rw [hhere]
            exact add_parenDelta (hlead.append hbefore)
          obtain ⟨opened, last, below, m', more, heq, hopen, hcount, hjoin⟩ :=
            ih (.nil (d := m)) List.not_mem_nil (hbefore.pos hk) hafter hnext
          refine ⟨line :: opened, last, below, m', more, by rw [heq]; rfl, ?_, ?_, ?_⟩
          · refine .cons ?_ (hdepth ▸ hopen)
            rw [hdepth]
            exact Int.natCast_pos.2 (hbefore.pos hk)
          · rw [List.count_append, List.count_cons_self, List.length_cons]
            omega
          · rw [List.cons_append, Text.toList_joinLines_of_ne_nil _ (by simp), hjoin, hhere]
            simp
      · -- the parenthesis stands on this line
        cases after with
        | nil => exact absurd (List.cons.inj hrest).1 (by decide)
        | cons c after =>
          obtain ⟨rfl, -⟩ := List.cons.inj hrest
          exact ⟨[], line, next :: lines, d, after, rfl, .nil, Nat.zero_le _, hfront⟩

/-! ### Recognition -/

theorem sentinelOf_of_paren {line : String} (h : '(' ∈ line.toList) : sentinelOf line = none := by
  have htrim : '(' ∈ Chars.trim line.toList := by
    obtain ⟨lead, tail, heq, hlead, htail⟩ := Chars.exists_eq_append_trim line.toList
    rw [heq, List.mem_append, List.mem_append] at h
    rcases h with (h | h) | h
    · exact absurd (hlead _ h) (by decide)
    · exact h
    · exact absurd (htail _ h) (by decide)
  unfold sentinelOf
  split
  · rename_i hnull
    rw [hnull] at htrim
    exact absurd htrim (by decide)
  · rename_i q r hpackage
    rw [hpackage] at htrim
    rw [if_neg]
    intro hquotes
    rw [Bool.and_eq_true] at hquotes
    have hmem : '(' = q ∨ '(' = r := by
      simpa using htrim
    rcases hmem with rfl | rfl
    · exact absurd hquotes.1 (by decide)
    · exact absurd hquotes.2 (by decide)
  · rfl

theorem recognize_of_ofStatement {first : String} {rest : List String} {number : Nat}
    {d : Declaration} (hfirst : '(' ∈ first.toList)
    (h : ofStatement (statement (first :: rest)) number = some d) :
    recognize (first :: rest) number = some d := by
  rw [recognize, sentinelOf_of_paren hfirst, h]
  rfl

/-- A line that starts with a function is recognised by its statement. -/
theorem FunctionHead.recognize_of_statement (head : FunctionHead) {lines : List String}
    {number : Nat} {code rest : List Char}
    (htext : (Text.joinLines lines).toList = head.text ++ code)
    (hstatement : statement lines = head.text ++ rest) :
    recognize lines number =
      some { kind := .function, name := head.name, line := number
             formals := (Nesting.enclosed { depth := 1 } rest).map fun inner =>
               Text.collapse (String.ofList inner) } := by
  have hparen : '(' ∈ head.text := by simp [FunctionHead.text]
  cases lines with
  | nil =>
    have hempty : '(' ∈ (Text.joinLines []).toList := htext ▸ List.mem_append_left code hparen
    exact absurd hempty List.not_mem_nil
  | cons first below =>
    have hfirst : ∃ more, first.toList = head.text ++ more := by
      cases below with
      | nil => exact ⟨code, htext⟩
      | cons next below =>
        rw [Text.toList_joinLines_cons] at htext
        obtain ⟨more, hmore, -⟩ :=
          Nesting.exists_append_of_notMem head.newline_notMem_text htext
        exact ⟨more, hmore⟩
    obtain ⟨more, hmore⟩ := hfirst
    apply recognize_of_ofStatement
    · rw [hmore]
      exact List.mem_append_left more hparen
    · rw [hstatement]
      exact head.ofStatement_text rest number

/-- The formal arguments of a function go up to the parenthesis that closes them, on whatever of the
first two hundred lines it stands, and what follows does not matter. -/
theorem recognize_functionHeader (lines : List String) (i : Nat) (head : FunctionHead)
    (formals rest : List Char) (hinside : Inside 1 formals 1)
    (hlines : formals.count '\n' < 200)
    (htext : (Text.joinLines (lines.drop i)).toList = head.text ++ formals ++ ')' :: rest) :
    recognize (lines.drop i) (i + 1) =
      some { kind := .function, name := head.name, line := i + 1
             formals := some (Text.collapse (String.ofList formals)) } := by
  obtain ⟨opened, line, below, m, more, hsplit, hopen, hcount, hjoin⟩ :=
    exists_staysOpen head.inside_text head.newline_notMem_text Nat.one_pos hinside htext
  obtain ⟨tail, hstatement⟩ :=
    exists_statement_eq hopen (Nat.lt_of_le_of_lt hcount hlines) line below
  rw [← hsplit, hjoin, List.append_assoc, List.append_assoc, List.cons_append] at hstatement
  rw [List.append_assoc] at htext
  have hformals : Nesting.enclosed { depth := 1 } (formals ++ ')' :: (more ++ tail)) =
      some formals := hinside.enclosed_closing _
  rw [head.recognize_of_statement htext hstatement, hformals]
  rfl

/-- A function over three lines, with parentheses between quotes and an open end. -/
def areaLines : List String :=
  ["n <- 1", "  area.of <<- function(shape,", "    label = \"a ) (\",",
    "    scale = c(1, (2))) \x7b print(\")(", "\x7d"]

def areaHead : FunctionHead where
  indent := "  "
  name := "area.of"
  beforeSign := " "
  sign := "<<-"
  afterSign := " "
  beforeParen := ""
  isName := ⟨'a', "rea.of".toList, rfl, by decide, List.all_eq_true.1 (by decide +kernel)⟩
  isSign := by decide
  isGap := by decide

def areaFormals : List Char :=
  "shape,\n    label = ".toList ++ ('"' :: ("a ) (".toList ++ '"' :: (",\n    scale = c".toList ++
    '(' :: ("1, ".toList ++ '(' :: ("2".toList ++ [')', ')'])))))

theorem inside_areaFormals : Inside 1 areaFormals 1 :=
  (Inside.of_forall_plain (by decide) 1).append <| .quoted (by decide) (by decide) (by decide) <|
    (Inside.of_forall_plain (by decide) 1).append <| .opening <|
      (Inside.of_forall_plain (by decide) 2).append <| .opening <|
        (Inside.of_forall_plain (by decide) 3).append <| .closing <| .closing .nil

theorem recognize_areaLines :
    Inside 1 areaFormals 1 ∧ recognize (areaLines.drop 1) 2 =
      some { kind := .function, name := "area.of", line := 2
             formals := some "shape, label = \"a ) (\", scale = c(1, (2))" } := by
  have hcollapse : Text.collapse (String.ofList areaFormals) =
      "shape, label = \"a ) (\", scale = c(1, (2))" := by decide +kernel
  rw [← hcollapse]
  exact ⟨inside_areaFormals, recognize_functionHeader areaLines 1 areaHead areaFormals
    " \x7b print(\")(\n\x7d".toList inside_areaFormals (by decide) (by decide +kernel)⟩

end DocTopics.Declaration
