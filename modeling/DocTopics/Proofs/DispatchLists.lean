import DocTopics.Proofs.CommaLists
import DocTopics.Proofs.FunctionHeaders
import DocTopics.Proofs.Pieces

/-!
# Dispatch lists

A method names its generic, the types it dispatches on, and a function. The types are quoted and
stand alone or in a list, where each may be given to an argument by name. The search for the end of
the list, the split at its commas and the search for the function all run over the quoted types, and
none of them takes a character of a type for anything else.

## Main definitions

- `Declaration.TypeName`, `Declaration.DispatchEntry`, `Declaration.Dispatch` — what can be written
- `Declaration.methodLine` — how it is written

## Main statements

- `Declaration.splitTopLevel_entriesText` — a dispatch list is split into its entries
- `Declaration.methodSignature_text` — the types are read in order
- `Declaration.recognize_methodLine` — so are the generic and the formal arguments
-/

namespace DocTopics.Declaration

open Nesting (Inside Passes)

theorem isInert_of_continuesName {c : Char} (hc : continuesName c = true) :
    Nesting.isInert c = true := by
  have hclass : ['"', '\'', '(', ')', '[', ']', '\x7b', '\x7d', ','].all (!continuesName ·) = true := by
    decide +kernel
  have hne : ∀ d ∈ ['"', '\'', '(', ')', '[', ']', '\x7b', '\x7d', ','], c ≠ d := by
    intro d hd
    exact Chars.ne_of_class hc (by simpa using List.all_eq_true.1 hclass d hd)
  simp only [List.forall_mem_cons] at hne
  simp [Nesting.isInert, Nesting.isOpening, Nesting.isClosing, isQuote, hne]

/-! ### Types and lists of types -/

/-- A type that can be written between quotes: it has no quotes, no line feed and no parenthesis that
opens. -/
structure TypeName where
  name : String
  quote_notMem : name.toList.all (!isQuote ·) = true
  newline_notMem : '\n' ∉ name.toList
  paren_notMem : '(' ∉ name.toList

/-- An entry of a dispatch list: a type, and the name of the argument that has it, if given. -/
structure DispatchEntry where
  argument : Option String := none
  type : TypeName
  isName : ∀ name ∈ argument, name ≠ "" ∧ name.toList.all continuesName = true

/-- The types a method dispatches on, as they are written: in a call of `signature` or `c`, or one
type alone. -/
inductive Dispatch where
  | call (constructor : String) (first : DispatchEntry) (rest : List DispatchEntry)
      (isConstructor : constructor = "signature" ∨ constructor = "c")
  | alone (type : TypeName)

/-- The type between quotes. -/
def TypeName.text (t : TypeName) : List Char :=
  '"' :: (t.name.toList ++ ['"'])

/-- The name of the argument and the sign behind it. -/
def DispatchEntry.lead (e : DispatchEntry) : List Char :=
  match e.argument with
  | none => []
  | some name => name.toList ++ " = ".toList

def DispatchEntry.text (e : DispatchEntry) : List Char :=
  e.lead ++ e.type.text

/-- The entries of a list with a comma and a blank between neighbours. -/
def entriesText (first : DispatchEntry) : List DispatchEntry → List Char
  | [] => first.text
  | next :: rest => first.text ++ ',' :: ' ' :: entriesText next rest

def Dispatch.text : Dispatch → List Char
  | .call constructor first rest _ => constructor.toList ++ '(' :: (entriesText first rest ++ [')'])
  | .alone type => type.text

/-- The types in the order in which they are written. -/
def Dispatch.types : Dispatch → List String
  | .call _ first rest _ => (first :: rest).map (·.type.name)
  | .alone type => [type.name]

namespace TypeName

variable (t : TypeName)

theorem isQuote_of_mem : ∀ c ∈ t.name.toList, isQuote c = false := by
  intro c hc
  simpa using List.all_eq_true.1 t.quote_notMem c hc

theorem doubleQuote_notMem : '"' ∉ t.name.toList := by
  intro hmem
  exact absurd (t.isQuote_of_mem _ hmem) (by decide)

theorem inside_text (d : Nat) : Inside d t.text d :=
  .quoted (by decide) t.doubleQuote_notMem t.newline_notMem .nil

theorem passes_text : Passes {} t.text {} :=
  Nesting.passes_quoted (by decide) t.doubleQuote_notMem 0

theorem paren_notMem_text : '(' ∉ t.text := by
  simp [text, t.paren_notMem]

theorem quotedText_text (rest : List Char) :
    quotedText (t.text ++ rest) = some (t.name.toList, rest) := by
  have hread := quotedText_append (q := '"') (r := '"') (by decide) (by decide) t.isQuote_of_mem rest
  rw [text, List.cons_append, List.append_assoc]
  exact hread

end TypeName

namespace DispatchEntry

variable (e : DispatchEntry)

theorem lead_cases : e.lead = [] ∨ ∃ (c : Char) (cs : List Char),
    (∀ d ∈ c :: cs, continuesName d = true) ∧ e.lead = c :: cs ++ " = ".toList := by
  unfold lead
  split
  · exact .inl rfl
  · rename_i name hname
    obtain ⟨hne, hall⟩ := e.isName name hname
    obtain ⟨c, cs, hcs⟩ := List.exists_cons_of_ne_nil (mt String.toList_eq_nil_iff.1 hne)
    rw [hcs] at hall
    exact .inr ⟨c, cs, List.all_eq_true.1 hall, by rw [hcs]⟩

theorem inside_text (d : Nat) : Inside d e.text d := by
  refine .append ?_ (e.type.inside_text d)
  rcases e.lead_cases with h | ⟨c, cs, hname, h⟩ <;> rw [h]
  · exact .nil
  · have hplain : (c :: cs).all Nesting.isPlain = true :=
      List.all_eq_true.2 fun d hd => isPlain_of_continuesName (hname d hd)
    exact (Inside.of_forall_plain hplain d).append (.of_forall_plain (by decide) d)

theorem passes_text : Passes {} e.text {} := by
  refine .append ?_ e.type.passes_text
  rcases e.lead_cases with h | ⟨c, cs, hname, h⟩ <;> rw [h]
  · exact .nil
  · have hinert : (c :: cs).all Nesting.isInert = true :=
      List.all_eq_true.2 fun d hd => isInert_of_continuesName (hname d hd)
    exact (Nesting.passes_inert hinert 0).append (Nesting.passes_inert (by decide) 0)

theorem paren_notMem_text : '(' ∉ e.text := by
  rw [text, List.mem_append, not_or]
  refine ⟨?_, e.type.paren_notMem_text⟩
  rcases e.lead_cases with h | ⟨c, cs, hname, h⟩ <;> rw [h]
  · exact List.not_mem_nil
  · rw [List.mem_append, not_or]
    exact ⟨Chars.notMem_of_class hname (by decide +kernel), by decide⟩

/-- An entry has no white space at its ends. -/
theorem trim_text : Chars.trim e.text = e.text := by
  rw [Chars.trim, Chars.strip_eq_self_iff]
  constructor
  · rcases e.lead_cases with h | ⟨c, cs, hname, h⟩ <;> rw [text, h]
    · rfl
    · exact isBlank_of_continuesName (hname c List.mem_cons_self)
  · rw [text, TypeName.text, ← List.cons_append, ← List.append_assoc, List.getLast?_concat]
    rfl

/-- The type of an entry is what stands between its quotes. -/
theorem signatureType_text : signatureType e.text = some e.type.name := by
  have hlead : ∀ c ∈ e.lead, (!isQuote c) = true := by
    rcases e.lead_cases with h | ⟨c, cs, hname, h⟩ <;> rw [h]
    · exact fun d hd => by cases hd
    · rw [List.forall_mem_append]
      refine ⟨fun d hd => ?_, List.all_eq_true.1 (by decide)⟩
      rw [(Nesting.isPlain_iff.1 (isPlain_of_continuesName (hname d hd))).1]
      rfl
  have hdrop : e.text.dropWhile (!isQuote ·) = e.type.text := by
    rw [text, List.dropWhile_append_of_pos hlead]
    rfl
  have hread := e.type.quotedText_text []
  rw [List.append_nil] at hread
  rw [signatureType, hdrop, hread]
  exact congrArg some String.ofList_toList

end DispatchEntry

/-! ### Reading a list of types -/

theorem inside_entriesText (first : DispatchEntry) (rest : List DispatchEntry) :
    Inside 1 (entriesText first rest) 1 := by
  induction rest generalizing first with
  | nil => exact first.inside_text 1
  | cons next rest ih =>
    exact (first.inside_text 1).append (.plain (by decide) (.plain (by decide) (ih next)))

theorem paren_notMem_entriesText (first : DispatchEntry) (rest : List DispatchEntry) :
    '(' ∉ entriesText first rest := by
  induction rest generalizing first with
  | nil => exact first.paren_notMem_text
  | cons next rest ih =>
    rw [entriesText, List.mem_append, not_or]
    exact ⟨first.paren_notMem_text, by simp [ih next]⟩

theorem entriesText_eq_intercalate (first : DispatchEntry) (rest : List DispatchEntry) :
    entriesText first rest = [',', ' '].intercalate ((first :: rest).map (·.text)) := by
  induction rest generalizing first with
  | nil => simp [entriesText, List.intercalate]
  | cons next rest ih =>
    simp only [entriesText, ih next, List.map_cons, List.intercalate_cons_cons, List.append_assoc,
      List.cons_append, List.nil_append]

/-- A dispatch list is split into its entries. -/
theorem splitTopLevel_entriesText (first : DispatchEntry) (rest : List DispatchEntry) :
    Nesting.splitTopLevel (entriesText first rest) = (first :: rest).map (·.text) := by
  have htrim : ((first :: rest).map (·.text)).map Chars.trim = (first :: rest).map (·.text) := by
    rw [List.map_map]
    exact List.map_congr_left fun e _ => e.trim_text
  rw [entriesText_eq_intercalate, Nesting.splitTopLevel_intercalate, htrim]
  · intro p hp
    obtain ⟨e, -, rfl⟩ := List.mem_map.1 hp
    exact e.passes_text
  · intro p hp
    obtain ⟨e, -, rfl⟩ := List.mem_map.1 hp
    rw [e.trim_text]
    simp [DispatchEntry.text, TypeName.text]

/-- The types of a list are read in order. -/
theorem typesIn_entriesText (constructor : String) (first : DispatchEntry)
    (rest : List DispatchEntry) (more : List Char) :
    typesIn constructor (constructor.toList ++ '(' :: (entriesText first rest ++ ')' :: more)) =
      some ((first :: rest).map (·.type.name)) := by
  have hkeyword : keyword constructor (constructor.toList ++ '(' ::
      (entriesText first rest ++ ')' :: more)) = some ('(' :: (entriesText first rest ++ ')' :: more)) :=
    keyword_eq_some_iff.2 ⟨_, rfl, trimStart_cons (by decide) _⟩
  have hpast : Chars.past ['('] ('(' :: (entriesText first rest ++ ')' :: more)) =
      some (entriesText first rest ++ ')' :: more) := rfl
  have htypes : ((first :: rest).map (·.text)).filterMap signatureType =
      (first :: rest).map (·.type.name) := by
    rw [List.filterMap_map, ← List.filterMap_eq_map]
    exact List.filterMap_congr fun e _ => e.signatureType_text
  simp only [typesIn, hkeyword, hpast, Option.bind_eq_bind, Option.bind_some,
    (inside_entriesText first rest).enclosed_closing, splitTopLevel_entriesText, htypes]
  rfl

namespace Dispatch

variable (d : Dispatch)

theorem text_append (rest : List Char) : d.text ++ rest = match d with
    | .call constructor first entries _ =>
      constructor.toList ++ '(' :: (entriesText first entries ++ ')' :: rest)
    | .alone type => type.text ++ rest := by
  cases d <;> simp [text]

theorem trimStart_text (rest : List Char) : Chars.trimStart (d.text ++ rest) = d.text ++ rest := by
  rw [text_append]
  rcases d with ⟨_, _, _, rfl | rfl⟩ | _ <;> rfl

/-- The types are read in the order in which they are written. -/
theorem methodSignature_text (rest : List Char) : methodSignature (d.text ++ rest) = d.types := by
  rw [methodSignature, trimStart_text, text_append]
  rcases d with ⟨_, first, entries, rfl | rfl⟩ | type
  · simp only [typesIn_entriesText]
    rfl
  · have hsignature : typesIn "signature" ("c".toList ++ '(' :: (entriesText first entries ++
        ')' :: rest)) = none := rfl
    simp only [hsignature, typesIn_entriesText]
    rfl
  · have hsignature : typesIn "signature" (type.text ++ rest) = none := rfl
    have hc : typesIn "c" (type.text ++ rest) = none := rfl
    simp only [hsignature, hc, type.quotedText_text]
    exact congrArg (fun name => [name]) String.ofList_toList

/-- The search for `function` passes over the types. -/
theorem afterFunctionKeyword_text (rest : List Char) :
    afterFunctionKeyword false (d.text ++ ',' :: rest) = afterFunctionKeyword false rest := by
  have hcomma : isWord ',' = false := by decide +kernel
  rw [text_append]
  rcases d with ⟨constructor, first, entries, hconstructor⟩ | type
  · have hf : 'f' ∉ constructor.toList := by rcases hconstructor with rfl | rfl <;> decide
    have hopen : isWord '(' = false := by decide +kernel
    have hlist : '(' ∉ entriesText first entries ++ [')'] := by
      simp [paren_notMem_entriesText first entries]
    have hsplit : entriesText first entries ++ ')' :: ',' :: rest =
        (entriesText first entries ++ [')']) ++ ',' :: rest := by simp
    rw [afterFunctionKeyword_append_of_notMem hf (by decide), hopen, hsplit,
      afterFunctionKeyword_append hlist (by decide) (by decide) (by decide), hcomma]
  · rw [afterFunctionKeyword_append type.paren_notMem_text (by decide) (by decide) (by decide),
      hcomma]

end Dispatch

/-! ### Recognition -/

/-- What stands in front of the types of a method that are given by name. -/
def argumentText (byName : Bool) : String :=
  if byName then "signature = " else ""

/-- The line that sets a method: its generic, the types it dispatches on, which may be given by name,
and the formal arguments of its function. -/
def methodLine (generic : String) (byName : Bool) (dispatch : Dispatch) (formals rest : String) :
    String :=
  "setMethod(\"" ++ generic ++ "\", " ++ argumentText byName ++ String.ofList dispatch.text ++
    ", function(" ++ formals ++ ")" ++ rest

theorem toList_methodLine (generic : String) (byName : Bool) (dispatch : Dispatch)
    (formals rest : String) :
    (methodLine generic byName dispatch formals rest).toList =
      "setMethod".toList ++ '(' :: '"' :: (generic.toList ++ '"' :: ',' :: ' ' ::
        ((argumentText byName).toList ++ (dispatch.text ++ ',' :: ([' '] ++ ("function".toList ++
          ([] ++ '(' :: (formals.toList ++ ')' :: rest.toList))))))) := by
  have hset : "setMethod(\"".toList = "setMethod".toList ++ ['(', '"'] := by decide
  have hquote : "\", ".toList = ['"', ',', ' '] := by decide
  have hfunction : ", function(".toList = ',' :: ' ' :: ("function".toList ++ ['(']) := by decide
  have hclose : ")".toList = [')'] := by decide
  unfold methodLine
  simp only [String.toList_append, String.toList_ofList, hset, hquote, hfunction, hclose,
    List.append_assoc, List.cons_append, List.nil_append]

/-- Types that are given by name are read as those that are not. -/
theorem skipArgumentName_argumentText (byName : Bool) (d : Dispatch) (rest : List Char) :
    skipArgumentName "signature" (Chars.trimStart ((argumentText byName).toList ++
      (d.text ++ rest))) = d.text ++ rest := by
  cases byName with
  | true =>
    have hlist : Chars.trimStart ((argumentText true).toList ++ (d.text ++ rest)) =
        "signature".toList ++ ([' '] ++ '=' :: ([' '] ++ (d.text ++ rest))) := rfl
    have hblank : Chars.blank [' '] = true := rfl
    have hname := keyword_append "signature" hblank (c := '=') (by decide)
      ([' '] ++ (d.text ++ rest))
    have hsign : keyword "=" ('=' :: ([' '] ++ (d.text ++ rest))) = some (d.text ++ rest) :=
      keyword_eq_some_iff.2 ⟨_, rfl, d.trimStart_text rest⟩
    rw [hlist, skipArgumentName, hname, Option.bind_some, hsign, Option.getD_some]
  | false =>
    have hread : (argumentText false).toList ++ (d.text ++ rest) = d.text ++ rest := rfl
    rw [hread, d.trimStart_text, Dispatch.text_append]
    rcases d with ⟨_, _, _, rfl | rfl⟩ | _ <;> rfl

theorem methodCall_append {generic : String} (hne : generic ≠ "")
    (hquote : ∀ c ∈ generic.toList, isQuote c = false) (rest : List Char) :
    methodCall ("setMethod".toList ++ '(' :: '"' :: (generic.toList ++ '"' :: ',' :: ' ' :: rest)) =
      some (generic, skipArgumentName "signature" (Chars.trimStart rest)) := by
  have hread : quotedName ('"' :: (generic.toList ++ '"' :: ',' :: ' ' :: rest)) =
      some (generic.toList, ',' :: ' ' :: rest) := by
    rw [quotedName, quotedText_append (by decide) (by decide) hquote]
    simp [Option.filter, hne]
  have hcall : definingCall "setMethod" "f" (Chars.trimStart ("setMethod".toList ++
      '(' :: '"' :: (generic.toList ++ '"' :: ',' :: ' ' :: rest))) =
        some (generic.toList, ',' :: ' ' :: rest) := hread
  simp only [methodCall, hcall, Option.bind_eq_bind, Option.bind_some]
  rw [String.ofList_toList]
  rfl

/-- A statement that starts with a method starts with its whole line. -/
theorem exists_statement_methodLine (generic : String) (byName : Bool) (dispatch : Dispatch)
    (formals rest : String) (below : List String) :
    ∃ tail, statement (methodLine generic byName dispatch formals rest :: below) =
      "setMethod".toList ++ '(' :: '"' :: (generic.toList ++ '"' :: ',' :: ' ' ::
        ((argumentText byName).toList ++ (dispatch.text ++ ',' :: ([' '] ++ ("function".toList ++
          ([] ++ '(' :: (formals.toList ++ ')' :: (rest.toList ++ tail)))))))) := by
  obtain ⟨tail, hstatement⟩ := exists_statement_eq .nil (by decide)
    (methodLine generic byName dispatch formals rest) below
  refine ⟨tail, hstatement.trans ?_⟩
  have hline : (Text.joinLines ([] ++ [methodLine generic byName dispatch formals rest])).toList =
      (methodLine generic byName dispatch formals rest).toList := rfl
  rw [hline, toList_methodLine]
  simp

theorem paren_mem_methodLine (generic : String) (byName : Bool) (dispatch : Dispatch)
    (formals rest : String) : '(' ∈ (methodLine generic byName dispatch formals rest).toList := by
  rw [toList_methodLine]
  simp

theorem recognize_namedMethod {generic : String} (hne : generic ≠ "")
    (hquote : ∀ c ∈ generic.toList, isQuote c = false) (byName : Bool) (dispatch : Dispatch)
    {formals : String} (hformals : Inside 1 formals.toList 1) (rest : String) (below : List String)
    (number : Nat) :
    recognize (methodLine generic byName dispatch formals rest :: below) number =
      some { kind := .method, name := generic, formals := some (Text.collapse formals)
             dispatch := dispatch.types, line := number } := by
  obtain ⟨tail, htext⟩ :=
    exists_statement_methodLine generic byName dispatch formals rest below
  have hfunction : functionFormals (dispatch.text ++ ',' :: ([' '] ++ ("function".toList ++
      ([] ++ '(' :: (formals.toList ++ ')' :: (rest.toList ++ tail)))))) =
        some (Text.collapse formals) := by
    have hsearch : afterFunctionKeyword false (dispatch.text ++ ',' :: ([' '] ++
        ("function".toList ++ ([] ++ '(' :: (formals.toList ++ ')' :: (rest.toList ++ tail)))))) =
          some (formals.toList ++ ')' :: (rest.toList ++ tail)) := by
      rw [dispatch.afterFunctionKeyword_text, afterFunctionKeyword_gap rfl,
        afterFunctionKeyword_function rfl]
    rw [functionFormals_of_afterFunctionKeyword hsearch, hformals.enclosed_closing,
      Option.map_some, String.ofList_toList]
  apply recognize_of_ofStatement (paren_mem_methodLine _ _ _ _ _)
  have hgeneric : genericCall (statement (methodLine generic byName dispatch formals rest ::
      below)) = none := by
    rw [htext]
    rfl
  have hmethod := methodCall_append hne hquote ((argumentText byName).toList ++
    (dispatch.text ++ ',' :: ([' '] ++ ("function".toList ++
        ([] ++ '(' :: (formals.toList ++ ')' :: (rest.toList ++ tail)))))))
  rw [← htext, skipArgumentName_argumentText] at hmethod
  simp only [ofStatement, hgeneric, hmethod, dispatch.methodSignature_text, hfunction]

/-- A method without the name of a generic is no declaration of any kind. -/
theorem recognize_unnamedMethod (byName : Bool) (dispatch : Dispatch) (formals rest : String)
    (below : List String) (number : Nat) :
    recognize (methodLine "" byName dispatch formals rest :: below) number = none := by
  obtain ⟨tail, htext⟩ := exists_statement_methodLine "" byName dispatch formals rest below
  have hstatement : ofStatement (statement (methodLine "" byName dispatch formals rest :: below))
      number = none := by
    rw [htext]
    rfl
  have hassignment : assignment (methodLine "" byName dispatch formals rest).toList = none := by
    rw [toList_methodLine]
    rfl
  rw [recognize, sentinelOf_of_paren (paren_mem_methodLine _ _ _ _ _), hstatement, hassignment]
  rfl

/-- The generic, the types and the formal arguments of a method are read off its line. Without the
name of a generic nothing is, whatever the formal arguments are. -/
theorem recognize_methodLine {generic : String}
    (hquote : ∀ c ∈ generic.toList, isQuote c = false) (byName : Bool) (dispatch : Dispatch)
    {formals : String} (hformals : generic ≠ "" → Inside 1 formals.toList 1) (rest : String)
    (below : List String) (number : Nat) :
    recognize (methodLine generic byName dispatch formals rest :: below) number =
      if generic = "" then none
      else
        some { kind := .method, name := generic, formals := some (Text.collapse formals)
               dispatch := dispatch.types, line := number } := by
  by_cases hname : generic = ""
  · rw [if_pos hname, hname]
    exact recognize_unnamedMethod byName dispatch formals rest below number
  · rw [if_neg hname]
    exact recognize_namedMethod hname hquote byName dispatch (hformals hname) rest below number

/-- A list of two types, one of which holds a comma, a parenthesis and a comment sign. -/
def overlayTypes : Dispatch :=
  .call "signature"
    { argument := some "x", type := ⟨"a, b) #c", by decide, by decide, by decide⟩
      isName := by
        rintro _ ⟨⟩
        exact ⟨by decide, by decide +kernel⟩ }
    [{ type := ⟨"numeric", by decide, by decide, by decide⟩
       isName := by rintro _ ⟨⟩ }]
    (.inl rfl)

theorem recognize_overlay :
    recognize ["setMethod(\"[+(\", signature = signature(x = \"a, b) #c\", \"numeric\"), " ++
        "function(x,  y = c(1, 2)) x + (y", "z"] 3 =
      some { kind := .method, name := "[+(", formals := some "x, y = c(1, 2)"
             dispatch := ["a, b) #c", "numeric"], line := 3 } := by
  have hline : methodLine "[+(" true overlayTypes "x,  y = c(1, 2)" " x + (y" =
      "setMethod(\"[+(\", signature = signature(x = \"a, b) #c\", \"numeric\"), " ++
        "function(x,  y = c(1, 2)) x + (y" := by decide +kernel
  have hcollapse : Text.collapse "x,  y = c(1, 2)" = "x, y = c(1, 2)" := by decide +kernel
  have hquote : "[+(".toList.all (!isQuote ·) = true := by decide
  have hcode : "x,  y = c(1, 2)".toList = "x,  y = c".toList ++ '(' :: ("1, 2".toList ++ [')']) := by
    decide
  have hformals : Inside 1 "x,  y = c(1, 2)".toList 1 := by
    rw [hcode]
    exact (Inside.of_forall_plain (by decide) 1).append <| .opening <|
      (Inside.of_forall_plain (by decide) 2).append <| .closing .nil
  rw [← hline, ← hcollapse]
  exact recognize_methodLine (fun c hc => by simpa using List.all_eq_true.1 hquote c hc) true
    overlayTypes (fun _ => hformals) _ ["z"] 3

/-- A method without the name of a generic is no declaration. -/
theorem recognize_unnamed_method :
    recognize ["setMethod(\"\", signature(\"numeric\"), function(x) x)"] 1 = none := by
  decide +kernel

end DocTopics.Declaration
