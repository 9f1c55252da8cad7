import DocTopics.Declaration.Basic
import DocTopics.Proofs.CommaLists
import DocTopics.Proofs.Pieces
import DocTopics.Proofs.Trimming

/-!
# Names of formal arguments

A formal argument is a name, or a name with a default value behind an equals sign. Defaults are
arbitrary expressions: calls, blocks, comparisons, texts with commas and brackets. The names are
found again all the same, since a default that closes what it opens neither ends nor splits its
argument, and the name stands in front of the first equals sign.

## Main definitions

- `Declaration.Argument` — an argument that can be written
- `Declaration.argumentsText` — how a list of arguments is written

## Main statements

- `Declaration.argumentName_text` — the name of an argument is read off its text
- `Declaration.formalNames_argumentsText` — so are the names of a list of arguments, in order
-/

namespace DocTopics.Declaration

open Nesting (Passes Closes)

/-- A character that may stand in the name of an argument: no comma, equals sign, quote or bracket. -/
def isNameChar (c : Char) : Bool :=
  Nesting.isInert c && c != '='

/-- A formal argument: a name without white space around it, and the code of its default value, if
there is one. The code closes its quotes and brackets and has all its commas inside them. -/
structure Argument where
  name : String
  value : Option String := none
  ne_empty : name ≠ ""
  trimmed : Text.trim name = name
  isName : name.toList.all isNameChar = true
  closes : ∀ code ∈ value, Closes 0 code.toList

/-- The argument as it is written: `name` or `name = default`. -/
def Argument.text (a : Argument) : String :=
  match a.value with
  | none => a.name
  | some code => a.name ++ " = " ++ code

/-- The arguments with a comma and a blank between neighbours. -/
def argumentsText (arguments : List Argument) : String :=
  Text.join ", " (arguments.map (·.text))

/-! ### Reading one argument -/

/-- White space around an argument does not change its name. -/
theorem argumentName_trim (cs : List Char) : argumentName (Chars.trim cs) = argumentName cs := by
  obtain ⟨lead, tail, hcs, hlead, htail⟩ := Chars.exists_eq_append_trim cs
  have hsign : ∀ c, isBlank c = true → (c != '=') = true := by
    rintro c hc
    simpa using Chars.ne_of_class hc (d := '=') (by decide)
  by_cases hmem : '=' ∈ Chars.trim cs
  · -- the sign ends the name in front of the white space behind it
    have hstop : ((Chars.trim cs).takeWhile (· != '=')).length ≠ (Chars.trim cs).length := by
      intro hlength
      have hall := (List.takeWhile_prefix _).eq_of_length hlength
      have hne := List.takeWhile_eq_self_iff.1 hall '=' hmem
      cases hne
    have hwhole : cs.takeWhile (· != '=') = lead ++ (Chars.trim cs).takeWhile (· != '=') := by
      conv_lhs => rw [hcs]
      rw [List.append_assoc, List.takeWhile_append_of_pos fun c hc => hsign c (hlead c hc),
        List.takeWhile_append, if_neg hstop]
    rw [argumentName, argumentName, hwhole, Chars.trim_append_left hlead]
  · have hinner : ∀ c ∈ Chars.trim cs, (c != '=') = true := by
      intro c hc
      simpa using fun heq : c = '=' => hmem (heq ▸ hc)
    have hall : ∀ c ∈ cs, (c != '=') = true := by
      intro c hc
      rw [hcs, List.mem_append, List.mem_append] at hc
      rcases hc with (hc | hc) | hc
      · exact hsign c (hlead c hc)
      · exact hinner c hc
      · exact hsign c (htail c hc)
    rw [argumentName, argumentName, List.takeWhile_eq_self_iff.2 hinner,
      List.takeWhile_eq_self_iff.2 hall]
    exact Chars.strip_strip isBlank cs

namespace Argument

variable (a : Argument)

theorem all_isInert : a.name.toList.all Nesting.isInert = true := by
  refine List.all_eq_true.2 fun c hc => ?_
  have hc := List.all_eq_true.1 a.isName c hc
  rw [isNameChar, Bool.and_eq_true] at hc
  exact hc.1

theorem ne_sign : ∀ c ∈ a.name.toList, (c != '=') = true := by
  intro c hc
  have hc := List.all_eq_true.1 a.isName c hc
  rw [isNameChar, Bool.and_eq_true] at hc
  exact hc.2

theorem trim_name : Chars.trim a.name.toList = a.name.toList :=
  Text.trim_eq_self_iff.1 a.trimmed

theorem toList_text : a.text.toList = a.name.toList ∨
    ∃ code, Closes 0 code ∧ a.text.toList = a.name.toList ++ (' ' :: '=' :: ' ' :: code) := by
  unfold text
  split
  · exact .inl rfl
  · rename_i code hcode
    refine .inr ⟨code.toList, a.closes code hcode, ?_⟩
    simp

/-- The splitter passes over an argument. -/
theorem passes_text : Passes {} a.text.toList {} := by
  have hname := Nesting.passes_inert a.all_isInert 0
  rcases a.toList_text with htext | ⟨code, hcode, htext⟩ <;> rw [htext]
  · exact hname
  · have hsign : Passes {} [' ', '=', ' '] {} := Nesting.passes_inert (by decide) 0
    exact hname.append (hsign.append hcode.passes)

theorem trim_text_ne_nil : Chars.trim a.text.toList ≠ [] := by
  rw [Ne, Chars.trim_eq_nil_iff, Bool.not_eq_true]
  have hname : Chars.blank a.name.toList = false := by
    rw [Bool.eq_false_iff, Ne, ← Chars.trim_eq_nil_iff, a.trim_name, String.toList_eq_nil_iff]
    exact a.ne_empty
  rcases a.toList_text with htext | ⟨code, -, htext⟩ <;> rw [htext]
  · exact hname
  · rw [Chars.blank, List.all_append, ← Chars.blank, hname, Bool.false_and]

/-- The name of an argument stands in front of its first equals sign. -/
theorem argumentName_text : argumentName a.text.toList = a.name.toList := by
  rcases a.toList_text with htext | ⟨code, -, htext⟩ <;> rw [htext, argumentName]
  · rw [List.takeWhile_eq_self_iff.2 a.ne_sign, a.trim_name]
  · have hsign : (' ' :: '=' :: ' ' :: code).takeWhile (· != '=') = [' '] := rfl
    rw [List.takeWhile_append_of_pos a.ne_sign, hsign,
      Chars.trim_append_right _ (List.forall_mem_singleton.2 (by decide)), a.trim_name]

end Argument

/-! ### Reading a list of arguments -/

/-- The names of the formal arguments are the names that were written, in order. -/
theorem formalNames_argumentsText (d : Declaration) (arguments : List Argument) :
    formalNames { d with formals := some (argumentsText arguments) } = arguments.map (·.name) := by
  have hsplit : Nesting.splitTopLevel (argumentsText arguments).toList =
      arguments.map fun a => Chars.trim a.text.toList := by
    rw [argumentsText, Text.toList_join, List.map_map]
    refine (Nesting.splitTopLevel_intercalate ?_ ?_).trans List.map_map
    · intro p hp
      obtain ⟨a, -, rfl⟩ := List.mem_map.1 hp
      exact a.passes_text
    · intro p hp
      obtain ⟨a, -, rfl⟩ := List.mem_map.1 hp
      exact a.trim_text_ne_nil
  have hnames : (arguments.map fun a => Chars.trim a.text.toList).map argumentName =
      arguments.map fun a => a.name.toList := by
    rw [List.map_map]
    refine List.map_congr_left fun a _ => ?_
    exact (argumentName_trim a.text.toList).trans a.argumentName_text
  have hkept : ∀ name ∈ arguments.map fun a => a.name.toList, (!name.isEmpty) = true := by
    intro name hname
    obtain ⟨a, -, rfl⟩ := List.mem_map.1 hname
    simpa using a.ne_empty
  have hformals : formalNames { d with formals := some (argumentsText arguments) } =
      namesOfFormals (argumentsText arguments) := rfl
  rw [hformals, namesOfFormals, hsplit, hnames, List.filter_eq_self.2 hkept, List.map_map]
  simp

/-- A name alone, a call whose quoted text holds a comma and brackets, a comparison inside a block,
and dots. -/
def plotArguments : List Argument :=
  [{ name := "x", ne_empty := by decide, trimmed := by decide, isName := by decide
     closes := by rintro _ ⟨⟩ },
   { name := "labels", value := some "c('a, b](', n = 2)"
     ne_empty := by decide, trimmed := by decide, isName := by decide
     closes := by
       rintro _ ⟨⟩
       have hcode : "c('a, b](', n = 2)".toList =
           "c".toList ++ '(' :: '\'' :: ("a, b](".toList ++ '\'' :: ',' ::
             (" n = 2".toList ++ [')'])) := by decide
       rw [hcode]
       exact .inert_append (by decide) <| .opening (by decide) <| .quoted (by decide) (by decide) <|
         .comma <| .inert_append (by decide) <| .closing (by decide) .nil },
   { name := "test", value := some "\x7b x == 1 \x7d"
     ne_empty := by decide, trimmed := by decide, isName := by decide
     closes := by
       rintro _ ⟨⟩
       have hcode : "\x7b x == 1 \x7d".toList = '\x7b' :: (" x == 1 ".toList ++ ['\x7d']) := by
         decide
       rw [hcode]
       exact .opening (by decide) <| .inert_append (by decide) <| .closing (by decide) .nil },
   { name := "...", ne_empty := by decide, trimmed := by decide, isName := by decide
     closes := by rintro _ ⟨⟩ }]

theorem formalNames_plotArguments :
    formalNames { kind := .function
                  formals := some "x, labels = c('a, b](', n = 2), test = \x7b x == 1 \x7d, ..." } =
      ["x", "labels", "test", "..."] := by
  have htext : argumentsText plotArguments =
      "x, labels = c('a, b](', n = 2), test = \x7b x == 1 \x7d, ..." := by decide
  rw [← htext]
  exact formalNames_argumentsText { kind := .function } plotArguments

end DocTopics.Declaration
