import DocTopics.Declaration.Recognition
import DocTopics.Proofs.Trimming
import Mathlib.Data.List.TakeWhile

/-!
# Readers of declarations

What the readers of declarations find in a text that is put together from names, white space and
literals. The keyword `function` is searched for all over a statement, so the search has to pass
over everything in front of it.

## Main statements

- `Declaration.plainName_append` — a name is read up to the first character that cannot continue it
- `Declaration.bind_keyword_eq_none` — no call where another character comes before the parenthesis
- `Declaration.afterFunctionKeyword_append` — the search for `function` passes over such a text
-/

namespace DocTopics

/-! ### Classes of characters -/

theorem isWord_of_isBlank {c : Char} (h : isBlank c = true) : isWord c = false := by
  have hcode : c.toNat ∈ [0x9, 0xA, 0xB, 0xC, 0xD, 0x20, 0x85, 0xA0, 0x1680, 0x2000, 0x2001, 0x2002,
      0x2003, 0x2004, 0x2005, 0x2006, 0x2007, 0x2008, 0x2009, 0x200A, 0x2028, 0x2029, 0x202F, 0x205F,
      0x3000] := by
    simp only [isBlank, Bool.or_eq_true, Bool.and_eq_true, decide_eq_true_eq, beq_iff_eq] at h
    simp only [List.mem_cons, List.not_mem_nil, or_false]
    omega
  have hranges : ∀ n ∈ [0x9, 0xA, 0xB, 0xC, 0xD, 0x20, 0x85, 0xA0, 0x1680, 0x2000, 0x2001, 0x2002,
      0x2003, 0x2004, 0x2005, 0x2006, 0x2007, 0x2008, 0x2009, 0x200A, 0x2028, 0x2029, 0x202F, 0x205F,
      0x3000], inRanges n wordRanges = false := by decide +kernel
  exact hranges _ hcode

theorem isWord_of_isAlpha {c : Char} (h : c.isAlpha = true) : isWord c = true := by
  have hcode : 65 ≤ c.toNat ∧ c.toNat ≤ 90 ∨ 97 ≤ c.toNat ∧ c.toNat ≤ 122 := by
    change (decide (_ ∧ _) || decide _ && decide _) = true at h
    simp only [Bool.or_eq_true, Bool.and_eq_true, decide_eq_true_eq, ge_iff_le,
      UInt32.le_iff_toNat_le] at h
    exact h
  have hranges : ∀ n < 123, 65 ≤ n ∧ n ≤ 90 ∨ 97 ≤ n ∧ n ≤ 122 →
      inRanges n wordRanges = true := by decide +kernel
  exact hranges _ (by omega) hcode

namespace Declaration

theorem isBlank_of_continuesName {c : Char} (h : continuesName c = true) : isBlank c = false := by
  rw [Bool.eq_false_iff]
  intro hblank
  rw [continuesName, isWord_of_isBlank hblank, Bool.false_or, beq_iff_eq] at h
  rw [h] at hblank
  exact absurd hblank (by decide)

theorem continuesName_of_startsName {c : Char} (h : startsName c = true) :
    continuesName c = true := by
  rw [startsName, Bool.or_eq_true] at h
  rw [continuesName, Bool.or_eq_true]
  exact h.imp_left isWord_of_isAlpha

/-! ### Literals and names -/

theorem trimStart_append {gap : List Char} (h : Chars.blank gap = true) (cs : List Char) :
    Chars.trimStart (gap ++ cs) = Chars.trimStart cs :=
  List.dropWhile_append_of_pos (List.all_eq_true.1 h)

theorem trimStart_cons {c : Char} (h : isBlank c = false) (cs : List Char) :
    Chars.trimStart (c :: cs) = c :: cs :=
  List.dropWhile_cons_of_neg (by simp [h])

theorem keyword_eq_some_iff {lit : String} {cs rest : List Char} :
    keyword lit cs = some rest ↔ ∃ more, cs = lit.toList ++ more ∧ Chars.trimStart more = rest := by
  simp only [keyword, Option.map_eq_some_iff, Chars.past_eq_some_iff]

theorem keyword_append (lit : String) {gap : List Char} (hgap : Chars.blank gap = true) {c : Char}
    (hc : isBlank c = false) (rest : List Char) :
    keyword lit (lit.toList ++ (gap ++ c :: rest)) = some (c :: rest) := by
  rw [keyword_eq_some_iff]
  exact ⟨gap ++ c :: rest, rfl, by rw [trimStart_append hgap, trimStart_cons hc]⟩

/-- A letter or a dot, and then word characters and dots. -/
def IsName (name : List Char) : Prop :=
  ∃ c cs, name = c :: cs ∧ startsName c = true ∧ ∀ d ∈ cs, continuesName d = true

theorem IsName.continuesName {name : List Char} (h : IsName name) :
    ∀ c ∈ name, continuesName c = true := by
  obtain ⟨c, cs, rfl, hc, hcs⟩ := h
  exact List.forall_mem_cons.2 ⟨continuesName_of_startsName hc, hcs⟩

theorem IsName.trimStart_append {name : List Char} (h : IsName name) (rest : List Char) :
    Chars.trimStart (name ++ rest) = name ++ rest := by
  obtain ⟨c, cs, rfl, hc, -⟩ := h
  exact trimStart_cons (isBlank_of_continuesName (continuesName_of_startsName hc)) _

theorem span_continuesName {name rest : List Char} (h : ∀ c ∈ name, continuesName c = true)
    (hrest : ∀ c ∈ rest.head?, continuesName c = false) :
    (name ++ rest).takeWhile continuesName = name ∧
      (name ++ rest).dropWhile continuesName = rest := by
  rw [List.takeWhile_append_of_pos h, List.dropWhile_append_of_pos h, dropWhile_eq_self hrest]
  cases rest with
  | nil => exact ⟨List.append_nil name, rfl⟩
  | cons c rest =>
    rw [List.takeWhile_cons_of_neg (by simp [hrest c rfl]), List.append_nil]
    exact ⟨rfl, rfl⟩

/-- A name is read up to the first character that cannot continue it. -/
theorem plainName_append {name rest : List Char} (h : IsName name)
    (hrest : ∀ c ∈ rest.head?, continuesName c = false) :
    plainName (name ++ rest) = some (name, rest) := by
  obtain ⟨c, cs, rfl, hc, hcs⟩ := h
  obtain ⟨htake, hdrop⟩ := span_continuesName hcs hrest
  rw [List.cons_append, plainName, if_pos hc, htake, hdrop]

theorem quotedText_append {q r : Char} (hq : isQuote q = true) (hr : isQuote r = true)
    {text : List Char} (htext : ∀ c ∈ text, isQuote c = false) (rest : List Char) :
    quotedText (q :: (text ++ r :: rest)) = some (text, rest) := by
  have hnot : ∀ c ∈ text, (!isQuote c) = true := fun c hc => by rw [htext c hc, Bool.not_false]
  have hdrop : (text ++ r :: rest).dropWhile (!isQuote ·) = r :: rest := by
    rw [List.dropWhile_append_of_pos hnot, List.dropWhile_cons_of_neg (by simp [hr])]
  have htake : (text ++ r :: rest).takeWhile (!isQuote ·) = text := by
    rw [List.takeWhile_append_of_pos hnot, List.takeWhile_cons_of_neg (by simp [hr]),
      List.append_nil]
  simp only [quotedText, hq, if_true, hdrop, htake]

/-! ### Calls -/

/-- No call of `lit` is read where another character stands in front of the first parenthesis. -/
theorem bind_keyword_eq_none {lit : String} {front : List Char} {z : Char} (hfront : '(' ∉ front)
    (hz : isBlank z = false) (hparen : z ≠ '(') (hlit : z ∉ lit.toList) (rest : List Char) :
    (keyword lit (front ++ z :: rest)).bind (Chars.past ['(']) = none := by
  rw [Option.eq_none_iff_forall_ne_some]
  intro found hfound
  obtain ⟨more, hkeyword, hpast⟩ := Option.bind_eq_some_iff.1 hfound
  obtain ⟨tail, heq, htrim⟩ := keyword_eq_some_iff.1 hkeyword
  obtain rfl := Chars.past_eq_some_iff.1 hpast
  -- the text is the literal, white space and the parenthesis; `z` is none of them
  have hgap : tail = tail.takeWhile isBlank ++ '(' :: found := by
    rw [Chars.trimStart, List.singleton_append] at htrim
    rw [← htrim, List.takeWhile_append_dropWhile]
  rw [hgap, ← List.append_assoc] at heq
  have hmem : z ∉ lit.toList ++ tail.takeWhile isBlank := by
    rw [List.mem_append, not_or]
    refine ⟨hlit, fun hmem => ?_⟩
    rw [List.mem_takeWhile_imp hmem] at hz
    cases hz
  rcases List.append_eq_append_iff.1 heq with ⟨between, hlonger, hrest⟩ | ⟨between, hlonger, hrest⟩
  · cases between with
    | nil => exact hparen (List.cons.inj hrest).1
    | cons x between =>
      obtain ⟨rfl, -⟩ := List.cons.inj hrest
      exact hmem (hlonger ▸ by simp)
  · cases between with
    | nil => exact hparen (List.cons.inj hrest).1.symm
    | cons x between =>
      obtain ⟨rfl, -⟩ := List.cons.inj hrest
      exact hfront (hlonger ▸ by simp)

theorem definingCall_eq_none {function argument : String} {cs : List Char}
    (h : (keyword function cs).bind (Chars.past ['(']) = none) :
    definingCall function argument cs = none := by
  cases hfunction : keyword function cs with
  | none => simp [definingCall, hfunction]
  | some rest =>
    rw [hfunction, Option.bind_some] at h
    have hparen : keyword "(" rest = none := by
      change (Chars.past ['('] rest).map Chars.trimStart = none
      rw [h]
      rfl
    simp [definingCall, hfunction, hparen]

/-! ### The keyword `function` -/

theorem afterFunctionKeyword_cons {inWord : Bool} {c : Char} {cs : List Char}
    (h : (keyword "function" (c :: cs)).bind (Chars.past ['(']) = none) :
    afterFunctionKeyword inWord (c :: cs) = afterFunctionKeyword (isWord c) cs := by
  rw [afterFunctionKeyword, h]
  cases inWord <;> rfl

/-- The search for `function` passes over a text without a parenthesis. -/
theorem afterFunctionKeyword_append {inWord : Bool} {front : List Char} {z : Char}
    (hfront : '(' ∉ front) (hz : isBlank z = false) (hparen : z ≠ '(')
    (hlit : z ∉ "function".toList) (rest : List Char) :
    afterFunctionKeyword inWord (front ++ z :: rest) = afterFunctionKeyword (isWord z) rest := by
  induction front generalizing inWord with
  | nil =>
    exact afterFunctionKeyword_cons (bind_keyword_eq_none List.not_mem_nil hz hparen hlit rest)
  | cons c front ih =>
    have hnone := bind_keyword_eq_none hfront hz hparen hlit rest
    rw [List.cons_append] at hnone ⊢
    rw [afterFunctionKeyword_cons hnone]
    exact ih fun hmem => hfront (List.mem_cons_of_mem c hmem)

theorem keyword_function_eq_none {c : Char} (hc : c ≠ 'f') (cs : List Char) :
    keyword "function" (c :: cs) = none := by
  rw [Option.eq_none_iff_forall_ne_some]
  intro found hfound
  obtain ⟨more, heq, -⟩ := keyword_eq_some_iff.1 hfound
  exact hc (List.cons.inj heq).1

/-- The search for `function` passes over a text without its first letter. -/
theorem afterFunctionKeyword_append_of_notMem {inWord : Bool} {front : List Char} {z : Char}
    (hfront : 'f' ∉ front) (hz : z ≠ 'f') (rest : List Char) :
    afterFunctionKeyword inWord (front ++ z :: rest) = afterFunctionKeyword (isWord z) rest := by
  induction front generalizing inWord with
  | nil => exact afterFunctionKeyword_cons (by rw [keyword_function_eq_none hz]; rfl)
  | cons c front ih =>
    obtain ⟨hc, hrest⟩ := List.ne_and_not_mem_of_not_mem_cons hfront
    rw [List.cons_append,
      afterFunctionKeyword_cons (by rw [keyword_function_eq_none hc.symm]; rfl)]
    exact ih hrest

theorem afterFunctionKeyword_gap {gap : List Char} (h : Chars.blank gap = true)
    (rest : List Char) :
    afterFunctionKeyword false (gap ++ rest) = afterFunctionKeyword false rest := by
  induction gap with
  | nil => rfl
  | cons c gap ih =>
    rw [Chars.blank, List.all_cons, Bool.and_eq_true] at h
    have hc : c ≠ 'f' := by
      rintro rfl
      exact absurd h.1 (by decide)
    rw [List.cons_append, afterFunctionKeyword_cons (by rw [keyword_function_eq_none hc]; rfl),
      isWord_of_isBlank h.1, ih h.2]

theorem afterFunctionKeyword_function {gap : List Char} (h : Chars.blank gap = true)
    (rest : List Char) :
    afterFunctionKeyword false ("function".toList ++ (gap ++ '(' :: rest)) = some rest := by
  have hcall : (keyword "function" ("function".toList ++ (gap ++ '(' :: rest))).bind
      (Chars.past ['(']) = some rest := by
    rw [keyword_append "function" h (by decide) rest]
    rfl
  have hcons : "function".toList ++ (gap ++ '(' :: rest) =
      'f' :: ("unction".toList ++ (gap ++ '(' :: rest)) := rfl
  rw [hcons] at hcall ⊢
  rw [afterFunctionKeyword, hcall]
  rfl

theorem functionFormals_of_afterFunctionKeyword {cs rest : List Char}
    (h : afterFunctionKeyword false cs = some rest) :
    functionFormals cs = (Nesting.enclosed { depth := 1 } rest).map fun inner =>
      Text.collapse (String.ofList inner) := by
  simp only [functionFormals, h, Option.bind_eq_bind, Option.bind_some]
  cases Nesting.enclosed { depth := 1 } rest <;> rfl

end Declaration

end DocTopics
