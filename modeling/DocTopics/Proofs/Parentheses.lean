import DocTopics.Text.Nesting
import Mathlib.Data.List.Basic

/-!
# Code inside parentheses

Code between parentheses can be read in two ways: in one go, up to the parenthesis that closes the
outermost one, or line by line, where each line starts without an open quote and a comment ends the
line. Both readings find the same depth, as long as quoted texts end on the line they start on.

## Main definitions

- `Nesting.Inside` — code that leads from one depth to another without leaving the parentheses

## Main statements

- `Nesting.Inside.enclosed_append` — how the search for the closing parenthesis passes over code
- `Nesting.Inside.depthAfter_append` — how the count of a line passes over code
- `Nesting.Inside.of_newline` — code inside parentheses can be cut at each of its line ends
-/

namespace DocTopics.Nesting

/-- A character without a meaning of its own: no quote, no parenthesis, no start of a comment. -/
def isPlain (c : Char) : Bool :=
  !isQuote c && c != '(' && c != ')' && c != '#'

/-- `Inside d cs e` says that the code `cs`, read inside `d` parentheses, leaves `e` of them open
and does not close the outermost one. Parentheses between quotes do not count, a quoted text ends on
the line it starts on, and there are no comments. -/
inductive Inside : Nat → List Char → Nat → Prop
  | nil {d : Nat} : Inside d [] d
  | plain {d e : Nat} {c : Char} {cs : List Char} (hc : isPlain c = true) (h : Inside d cs e) :
      Inside d (c :: cs) e
  | quoted {d e : Nat} {q : Char} {text cs : List Char} (hq : isQuote q = true) (hend : q ∉ text)
      (hline : '\n' ∉ text) (h : Inside d cs e) : Inside d (q :: (text ++ q :: cs)) e
  | opening {d e : Nat} {cs : List Char} (h : Inside (d + 1) cs e) : Inside d ('(' :: cs) e
  | closing {d e : Nat} {cs : List Char} (h : Inside (d + 1) cs e) : Inside (d + 2) (')' :: cs) e

/-! ### Single characters -/

theorem isPlain_iff {c : Char} :
    isPlain c = true ↔ isQuote c = false ∧ c ≠ '(' ∧ c ≠ ')' ∧ c ≠ '#' := by
  simp [isPlain, and_assoc]

theorem ne_of_isQuote {q : Char} (hq : isQuote q = true) :
    q ≠ '\n' ∧ q ≠ '(' ∧ q ≠ ')' ∧ q ≠ '#' := by
  refine ⟨?_, ?_, ?_, ?_⟩ <;> (rintro rfl; cases hq)

theorem stepParens_plain {c : Char} (hc : isPlain c = true) (d : Int) :
    stepParens ⟨d, none⟩ c = ⟨d, none⟩ := by
  obtain ⟨hquote, hopen, hclose, -⟩ := isPlain_iff.1 hc
  simp [stepParens, step, hquote, hopen, hclose]

theorem stepParens_quote {q : Char} (hq : isQuote q = true) (d : Int) :
    stepParens ⟨d, none⟩ q = ⟨d, some q⟩ := by
  simp [stepParens, step, hq]

theorem stepParens_between {q c : Char} (hc : c ≠ q) (d : Int) :
    stepParens ⟨d, some q⟩ c = ⟨d, some q⟩ := by
  simp [stepParens, step, hc]

theorem stepParens_unquote (q : Char) (d : Int) : stepParens ⟨d, some q⟩ q = ⟨d, none⟩ := by
  simp [stepParens, step]

theorem stepParens_opening (d : Int) : stepParens ⟨d, none⟩ '(' = ⟨d + 1, none⟩ :=
  rfl

theorem stepParens_closing (d : Int) : stepParens ⟨d, none⟩ ')' = ⟨d - 1, none⟩ :=
  rfl

/-! ### Depths -/

/-- The depth in front of a line is added to what the line opens. -/
theorem depthAfter_eq_add (d : Int) (quote : Option Char) (cs : List Char) :
    depthAfter ⟨d, quote⟩ cs = d + depthAfter ⟨0, quote⟩ cs := by
  induction cs generalizing d quote with
  | nil => exact (Int.add_zero d).symm
  | cons c cs ih =>
    -- a step moves the depth by an amount that does not depend on it
    obtain ⟨k, quote', hstep⟩ : ∃ (k : Int) (quote' : Option Char),
        ∀ d, stepParens ⟨d, quote⟩ c = ⟨d + k, quote'⟩ := by
      cases quote with
      | some q =>
        by_cases hc : c = q
        · exact ⟨0, none, fun d => by rw [hc, stepParens_unquote, Int.add_zero]⟩
        · exact ⟨0, some q, fun d => by rw [stepParens_between hc, Int.add_zero]⟩
      | none =>
        by_cases hquote : isQuote c = true
        · exact ⟨0, some c, fun d => by rw [stepParens_quote hquote, Int.add_zero]⟩
        by_cases hopen : c = '('
        · exact ⟨1, none, fun d => by rw [hopen, stepParens_opening]⟩
        by_cases hclose : c = ')'
        · exact ⟨-1, none, fun d => by rw [hclose, stepParens_closing, Int.sub_eq_add_neg]⟩
        · refine ⟨0, none, fun d => ?_⟩
          simp [stepParens, step, hquote, hopen, hclose]
    simp only [depthAfter, hstep]
    split
    · exact (Int.add_zero d).symm
    · rw [ih (d + k), ih (0 + k)]
      omega

theorem depthAfter_between {q : Char} {text : List Char} (h : q ∉ text) (d : Int)
    (rest : List Char) :
    depthAfter ⟨d, some q⟩ (text ++ q :: rest) = depthAfter ⟨d, none⟩ rest := by
  induction text with
  | nil => simp [depthAfter, stepParens_unquote]
  | cons c text ih =>
    obtain ⟨hc, htext⟩ := List.ne_and_not_mem_of_not_mem_cons h
    simpa [depthAfter, stepParens_between hc.symm] using ih htext

theorem enclosed_between {q : Char} {text : List Char} (h : q ∉ text) (d : Int)
    (rest : List Char) :
    enclosed ⟨d, some q⟩ (text ++ q :: rest) =
      (enclosed ⟨d, none⟩ rest).map fun inner => text ++ q :: inner := by
  induction text with
  | nil => simp [enclosed, stepParens_unquote]
  | cons c text ih =>
    obtain ⟨hc, htext⟩ := List.ne_and_not_mem_of_not_mem_cons h
    simp [enclosed, stepParens_between hc.symm, ih htext, Function.comp_def]

/-- A character that is missing in the front of a list stands in what follows. -/
theorem exists_append_of_notMem {x : Char} {front a b cs : List Char} (h : x ∉ front)
    (heq : a ++ x :: b = front ++ cs) : ∃ a', a = front ++ a' ∧ cs = a' ++ x :: b := by
  rcases List.append_eq_append_iff.1 heq with ⟨a', rfl, hb⟩ | ⟨a', rfl, hcs⟩
  · cases a' with
    | nil => exact ⟨[], by simp, by simpa using hb.symm⟩
    | cons y a' =>
      obtain ⟨rfl, -⟩ := List.cons.inj hb
      exact absurd (by simp) h
  · exact ⟨a', rfl, hcs⟩

namespace Inside

variable {d e f : Nat} {a b cs : List Char}

theorem append (h : Inside d a e) (hb : Inside e b f) : Inside d (a ++ b) f := by
  induction h with
  | nil => exact hb
  | plain hc _ ih => exact .plain hc (ih hb)
  | @quoted _ _ q text cs hq hend hline _ ih =>
    rw [List.cons_append, List.append_assoc, List.cons_append]
    exact .quoted hq hend hline (ih hb)
  | opening _ ih => exact .opening (ih hb)
  | closing _ ih => exact .closing (ih hb)

theorem of_forall_plain (h : cs.all isPlain = true) (d : Nat) : Inside d cs d := by
  induction cs with
  | nil => exact .nil
  | cons c cs ih =>
    rw [List.all_cons, Bool.and_eq_true] at h
    exact .plain h.1 (ih h.2)

/-- Code inside parentheses does not leave them. -/
theorem pos (h : Inside d cs e) (hd : 0 < d) : 0 < e := by
  induction h with
  | nil => exact hd
  | plain _ _ ih | quoted _ _ _ _ ih => exact ih hd
  | opening _ ih | closing _ ih => exact ih (Nat.succ_pos _)

theorem depthAfter_append (h : Inside d cs e) (rest : List Char) :
    depthAfter ⟨d, none⟩ (cs ++ rest) = depthAfter ⟨e, none⟩ rest := by
  induction h with
  | nil => rfl
  | plain hc _ ih =>
    have hhash := (isPlain_iff.1 hc).2.2.2
    simpa [depthAfter, stepParens_plain hc, hhash] using ih
  | @quoted _ _ q text cs hq hend _ _ ih =>
    have hhash := (ne_of_isQuote hq).2.2.2
    rw [← ih, List.cons_append, List.append_assoc, List.cons_append, depthAfter]
    simp [hhash, stepParens_quote hq, depthAfter_between hend]
  | opening _ ih => exact ih
  | @closing d _ cs _ ih =>
    have hdepth : ((d + 2 : Nat) : Int) - 1 = (d + 1 : Nat) := by omega
    rw [← ih, List.cons_append, depthAfter, stepParens_closing, hdepth]
    rfl

/-- The closing parenthesis that is searched for does not stand in code inside the parentheses. -/
theorem enclosed_append (h : Inside d cs e) (hd : 0 < d) (rest : List Char) :
    enclosed ⟨d, none⟩ (cs ++ rest) = (enclosed ⟨e, none⟩ rest).map (cs ++ ·) := by
  induction h with
  | nil => simp
  | plain hc _ ih =>
    have hclose := (isPlain_iff.1 hc).2.2.1
    simp [enclosed, stepParens_plain hc, hclose, ih hd, Function.comp_def]
  | @quoted _ _ q text cs hq hend _ _ ih =>
    have hclose := (ne_of_isQuote hq).2.2.1
    rw [List.cons_append, List.append_assoc, List.cons_append, enclosed]
    simp [hclose, stepParens_quote hq, enclosed_between hend, ih hd, Function.comp_def]
  | opening _ ih =>
    have hdepth := ih (Nat.succ_pos _)
    rw [Int.natCast_succ] at hdepth
    simp [enclosed, stepParens_opening, hdepth, Function.comp_def]
  | @closing d _ cs _ ih =>
    -- the depth is two at least, so this parenthesis closes an inner one
    have hdepth : ((d + 2 : Nat) : Int) - 1 = (d + 1 : Nat) := by omega
    have hinner : (((d + 2 : Nat) : Int) == 1) = false := by
      rw [beq_eq_false_iff_ne]
      omega
    rw [List.cons_append, enclosed, hinner, Bool.and_false, stepParens_closing, hdepth,
      ih (Nat.succ_pos d)]
    simp [Function.comp_def]

/-- The search ends at the closing parenthesis behind code inside the parentheses. -/
theorem enclosed_closing (h : Inside 1 cs 1) (rest : List Char) :
    enclosed { depth := 1 } (cs ++ ')' :: rest) = some cs := by
  have hsearch := h.enclosed_append Nat.one_pos (')' :: rest)
  rw [Int.natCast_one] at hsearch
  rw [hsearch]
  simp [enclosed]

/-- Code inside parentheses can be cut at a line end: no quote is open there. -/
theorem of_newline (h : Inside d (a ++ '\n' :: b) e) : ∃ m, Inside d a m ∧ Inside m b e := by
  generalize hcode : a ++ '\n' :: b = code at h
  induction h generalizing a with
  | nil => exact absurd hcode (by simp)
  | plain hc h ih =>
    rcases List.append_eq_cons_iff.1 hcode with ⟨rfl, heq⟩ | ⟨a', rfl, heq⟩
    · cases heq
      exact ⟨_, .nil, h⟩
    · obtain ⟨m, ha, hb⟩ := ih heq.symm
      exact ⟨m, .plain hc ha, hb⟩
  | @quoted d e q text cs hq hend hline h ih =>
    -- the line end stands behind the quoted text, which has none
    have hfront : '\n' ∉ q :: (text ++ [q]) := by
      simp [hline, (ne_of_isQuote hq).1.symm]
    have hsplit : a ++ '\n' :: b = (q :: (text ++ [q])) ++ cs := by simpa using hcode
    obtain ⟨a', rfl, heq⟩ := exists_append_of_notMem hfront hsplit
    obtain ⟨m, ha, hb⟩ := ih heq.symm
    refine ⟨m, ?_, hb⟩
    rw [List.cons_append, List.append_assoc, List.singleton_append]
    exact .quoted hq hend hline ha
  | opening h ih =>
    rcases List.append_eq_cons_iff.1 hcode with ⟨rfl, heq⟩ | ⟨a', rfl, heq⟩
    · cases heq
    · obtain ⟨m, ha, hb⟩ := ih heq.symm
      exact ⟨m, .opening ha, hb⟩
  | closing h ih =>
    rcases List.append_eq_cons_iff.1 hcode with ⟨rfl, heq⟩ | ⟨a', rfl, heq⟩
    · cases heq
    · obtain ⟨m, ha, hb⟩ := ih heq.symm
      exact ⟨m, .closing ha, hb⟩

end Inside

end DocTopics.Nesting
