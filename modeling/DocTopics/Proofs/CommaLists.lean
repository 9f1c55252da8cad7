import DocTopics.Text.Nesting
import Mathlib.Data.List.Basic

/-!
# Lists with commas inside their parts

The parts of a list in source code are separated by commas, and a part may hold commas of its own
between quotes or brackets. The splitter keeps one depth for all kinds of brackets and the quote that
is open. Where each part is read without finding a comma to split at and ends as it started, the
splitter finds these parts and no others.

## Main definitions

- `Nesting.Passes` — code that is read without finding a comma to split at
- `Nesting.Closes` — code that closes what it opens, with all commas inside

## Main statements

- `Nesting.Closes.passes` — such code is read without finding a comma to split at
- `Nesting.splitTopLevel_intercalate` — the parts of a list are found again
-/

namespace DocTopics.Nesting

/-! ### Code without separating commas -/

/-- `Passes s cs s'` says that the code `cs` leads from state `s` to state `s'` and holds no comma that
separates parts. -/
inductive Passes : Nesting → List Char → Nesting → Prop
  | nil {s : Nesting} : Passes s [] s
  | cons {s s' : Nesting} {c : Char} {cs : List Char} (hc : s.separates c = false)
      (h : Passes (s.stepBrackets c) cs s') : Passes s (c :: cs) s'

theorem Passes.append {s s' s'' : Nesting} {a b : List Char} (h : Passes s a s')
    (hb : Passes s' b s'') : Passes s (a ++ b) s'' := by
  induction h with
  | nil => exact hb
  | cons hc _ ih => exact .cons hc (ih hb)

/-- Code without a separating comma is part of the first piece. -/
theorem Passes.topLevelPieces_append {s s' : Nesting} {cs : List Char} (h : Passes s cs s')
    {rest p : List Char} {ps : List (List Char)} (hrest : topLevelPieces s' rest = p :: ps) :
    topLevelPieces s (cs ++ rest) = (cs ++ p) :: ps := by
  induction h with
  | nil => exact hrest
  | cons hc _ ih => rw [List.cons_append, topLevelPieces, hc, ih hrest]; rfl

theorem Passes.topLevelPieces_eq {s s' : Nesting} {cs : List Char} (h : Passes s cs s') :
    topLevelPieces s cs = [cs] := by
  have hend : topLevelPieces s' [] = [[]] := rfl
  have hpieces := h.topLevelPieces_append hend
  rwa [List.append_nil] at hpieces

theorem topLevelPieces_append_comma {cs : List Char} (h : Passes {} cs {}) (rest : List Char) :
    topLevelPieces {} (cs ++ ',' :: rest) = cs :: topLevelPieces {} rest := by
  have hcomma : topLevelPieces {} (',' :: rest) = [] :: topLevelPieces {} rest := rfl
  rw [h.topLevelPieces_append hcomma, List.append_nil]

/-! ### Characters and quoted texts -/

/-- A bracket of any kind that opens. -/
def isOpening (c : Char) : Bool :=
  c == '(' || c == '[' || c == '\x7b'

/-- A bracket of any kind that closes. -/
def isClosing (c : Char) : Bool :=
  c == ')' || c == ']' || c == '\x7d'

/-- A character that neither nests nor separates: no quote, no bracket and no comma. -/
def isInert (c : Char) : Bool :=
  !isQuote c && !isOpening c && !isClosing c && c != ','

theorem stepBrackets_eq (s : Nesting) (c : Char) :
    s.stepBrackets c = step isOpening isClosing s c :=
  rfl

theorem isInert_iff {c : Char} :
    isInert c = true ↔ isQuote c = false ∧ isOpening c = false ∧ isClosing c = false ∧ c ≠ ',' := by
  simp [isInert, and_assoc]

theorem stepBrackets_inert {c : Char} (hc : isInert c = true) (d : Int) :
    stepBrackets ⟨d, none⟩ c = ⟨d, none⟩ := by
  obtain ⟨hquote, hopen, hclose, -⟩ := isInert_iff.1 hc
  simp [stepBrackets_eq, step, hquote, hopen, hclose]

theorem stepBrackets_quote {q : Char} (hq : isQuote q = true) (d : Int) :
    stepBrackets ⟨d, none⟩ q = ⟨d, some q⟩ := by
  simp [stepBrackets_eq, step, hq]

theorem stepBrackets_opening {c : Char} (hc : isOpening c = true) (d : Int) :
    stepBrackets ⟨d, none⟩ c = ⟨d + 1, none⟩ := by
  simp only [isOpening, Bool.or_eq_true, beq_iff_eq] at hc
  rcases hc with (rfl | rfl) | rfl <;> rfl

theorem stepBrackets_closing {c : Char} (hc : isClosing c = true) (d : Int) :
    stepBrackets ⟨d, none⟩ c = ⟨d - 1, none⟩ := by
  simp only [isClosing, Bool.or_eq_true, beq_iff_eq] at hc
  rcases hc with (rfl | rfl) | rfl <;> rfl

theorem separates_of_ne {c : Char} (hc : c ≠ ',') (s : Nesting) : s.separates c = false := by
  simp [separates, hc]

/-- Inert characters change nothing. -/
theorem passes_inert {cs : List Char} (h : cs.all isInert = true) (d : Int) :
    Passes ⟨d, none⟩ cs ⟨d, none⟩ := by
  induction cs with
  | nil => exact .nil
  | cons c cs ih =>
    rw [List.all_cons, Bool.and_eq_true] at h
    refine .cons (separates_of_ne (isInert_iff.1 h.1).2.2.2 _) ?_
    rw [stepBrackets_inert h.1]
    exact ih h.2

/-- A comma between quotes separates nothing. -/
theorem passes_quoted {q : Char} {text : List Char} (hq : isQuote q = true) (h : q ∉ text)
    (d : Int) : Passes ⟨d, none⟩ (q :: (text ++ [q])) ⟨d, none⟩ := by
  have hclose : stepBrackets ⟨d, some q⟩ q = ⟨d, none⟩ := by simp [stepBrackets_eq, step]
  have hne : q ≠ ',' := by
    rintro rfl
    cases hq
  refine .cons (separates_of_ne hne _) ?_
  rw [stepBrackets_quote hq]
  induction text with
  | nil => exact .cons rfl (hclose ▸ .nil)
  | cons c text ih =>
    obtain ⟨hc, htext⟩ := List.ne_and_not_mem_of_not_mem_cons h
    have hstep : stepBrackets ⟨d, some q⟩ c = ⟨d, some q⟩ := by
      simp [stepBrackets_eq, step, hc.symm]
    refine .cons rfl ?_
    rw [hstep]
    exact ih htext

/-! ### Balanced code -/

/-- `Closes d cs` says that the code `cs`, read inside `d` brackets, closes all of these and whatever
it opens itself. Quoted texts are closed too, and every comma stands inside brackets or quotes. A
bracket is closed by any closing one, so code whose brackets match in kind is included. -/
inductive Closes : Nat → List Char → Prop
  | nil : Closes 0 []
  | inert {d : Nat} {c : Char} {cs : List Char} (hc : isInert c = true) (h : Closes d cs) :
      Closes d (c :: cs)
  | comma {d : Nat} {cs : List Char} (h : Closes (d + 1) cs) : Closes (d + 1) (',' :: cs)
  | quoted {d : Nat} {q : Char} {text cs : List Char} (hq : isQuote q = true) (hend : q ∉ text)
      (h : Closes d cs) : Closes d (q :: (text ++ q :: cs))
  | opening {d : Nat} {c : Char} {cs : List Char} (hc : isOpening c = true) (h : Closes (d + 1) cs) :
      Closes d (c :: cs)
  | closing {d : Nat} {c : Char} {cs : List Char} (hc : isClosing c = true) (h : Closes d cs) :
      Closes (d + 1) (c :: cs)

theorem Closes.inert_append {d : Nat} {cs rest : List Char} (hcs : cs.all isInert = true)
    (h : Closes d rest) : Closes d (cs ++ rest) := by
  induction cs with
  | nil => exact h
  | cons c cs ih =>
    rw [List.all_cons, Bool.and_eq_true] at hcs
    exact .inert hcs.1 (ih hcs.2)

/-- Balanced code is read without finding a comma to split at, and ends outside all brackets. -/
theorem Closes.passes {d : Nat} {cs : List Char} (h : Closes d cs) :
    Passes ⟨d, none⟩ cs {} := by
  induction h with
  | nil => exact .nil
  | @inert d c cs hc _ ih =>
    refine .cons (separates_of_ne (isInert_iff.1 hc).2.2.2 _) ?_
    rwa [stepBrackets_inert hc]
  | @comma d cs _ ih =>
    have hinside : (((d + 1 : Nat) : Int) == 0) = false := by
      rw [beq_eq_false_iff_ne]
      omega
    refine .cons ?_ ih
    rw [separates, hinside, Bool.and_false, Bool.false_and]
  | @quoted d q text cs hq hend _ ih =>
    have happend : q :: (text ++ q :: cs) = (q :: (text ++ [q])) ++ cs := by simp
    rw [happend]
    exact (passes_quoted hq hend d).append ih
  | @opening d c cs hc _ ih =>
    have hne : c ≠ ',' := by
      rintro rfl
      cases hc
    refine .cons (separates_of_ne hne _) ?_
    rwa [stepBrackets_opening hc]
  | @closing d c cs hc _ ih =>
    have hne : c ≠ ',' := by
      rintro rfl
      cases hc
    have hdepth : ((d + 1 : Nat) : Int) - 1 = d := by omega
    refine .cons (separates_of_ne hne _) ?_
    rwa [stepBrackets_closing hc, hdepth]

/-! ### Lists of parts -/

/-- Behind its first part, a list has a blank in front of each part. -/
theorem topLevelPieces_intercalate {p : List Char} {ps : List (List Char)}
    (h : ∀ q ∈ p :: ps, Passes {} q {}) :
    topLevelPieces {} ([',', ' '].intercalate (p :: ps)) = p :: ps.map (' ' :: ·) := by
  obtain ⟨hp, hps⟩ := List.forall_mem_cons.1 h
  induction ps generalizing p with
  | nil => simpa [List.intercalate] using hp.topLevelPieces_eq
  | cons q ps ih =>
    have hblank : Passes {} [' '] {} := .cons rfl .nil
    obtain ⟨hq, hqs⟩ := List.forall_mem_cons.1 hps
    have hnext := hblank.topLevelPieces_append (ih hps hq hqs)
    rw [List.singleton_append, List.singleton_append] at hnext
    rw [List.intercalate_cons_cons, List.append_assoc, List.cons_append, List.singleton_append,
      topLevelPieces_append_comma hp, hnext, List.map_cons]

theorem dropEmptyLast_of_forall {parts : List (List Char)} (h : ∀ p ∈ parts, p ≠ []) :
    dropEmptyLast parts = parts := by
  fun_induction dropEmptyLast parts with
  | case1 => rfl
  | case2 p hp => exact absurd (List.isEmpty_iff.1 hp) (h p (by simp))
  | case3 p hp => rfl
  | case4 p q ps ih => rw [ih fun r hr => h r (List.mem_cons_of_mem p hr)]

/-- A list is split into the parts it was made of, without the white space around them. -/
theorem splitTopLevel_intercalate {parts : List (List Char)} (h : ∀ p ∈ parts, Passes {} p {})
    (hne : ∀ p ∈ parts, Chars.trim p ≠ []) :
    splitTopLevel ([',', ' '].intercalate parts) = parts.map Chars.trim := by
  cases parts with
  | nil => rfl
  | cons p ps =>
    have htrim : ∀ q : List Char, Chars.trim (' ' :: q) = Chars.trim q := fun _ => rfl
    have hparts : ∀ q ∈ (p :: ps).map Chars.trim, q ≠ [] := by
      intro q hq
      obtain ⟨r, hr, rfl⟩ := List.mem_map.1 hq
      exact hne r hr
    rw [splitTopLevel, topLevelPieces_intercalate h, List.map_cons, List.map_map]
    simp only [Function.comp_def, htrim]
    exact dropEmptyLast_of_forall hparts

end DocTopics.Nesting
