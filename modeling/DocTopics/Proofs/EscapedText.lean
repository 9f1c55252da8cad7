import DocTopics.Document.Rd
import Mathlib.Algebra.Ring.Parity
import Mathlib.Data.List.DropRight

/-!
# Escaped characters

In documentation text a backslash takes the next character with it, so a character counts only when
it is met on its own. Whether that is so depends on the backslashes right in front of it: an even
number of them pair up and leave it alone, and an odd number escapes it.

Escaping for a document looks at one character only. A `%` behind a backslash is left as it is, also
when that backslash is the second of a pair.

## Main definitions

- `liveChars` — the characters that are met on their own
- `endsOpen` — the last backslash of a text has nothing to take along
- `closingBackslashes` — the number of backslashes at the end of a text

## Main statements

- `liveChars_append`, `endsOpen_append` — reading on after a part of a text
- `endsOpen_iff_odd` — the end is open after an odd number of backslashes
- `Rd.live_percent_escape_iff` — the texts that keep a live `%`
-/

namespace DocTopics

/-- The characters that are met on their own, with each backslash taken together with the character
after it. -/
def liveChars : List Char → List Char
  | [] => []
  | ['\\'] => []
  | '\\' :: _ :: cs => liveChars cs
  | c :: cs => c :: liveChars cs

/-- The text ends in a backslash that has no character to take along. -/
def endsOpen : List Char → Bool
  | [] => false
  | ['\\'] => true
  | '\\' :: _ :: cs => endsOpen cs
  | _ :: cs => endsOpen cs

/-- How many backslashes stand at the end of a text. -/
def closingBackslashes (cs : List Char) : Nat :=
  (cs.rtakeWhile (· == '\\')).length

/-! ### Reading on -/

theorem liveChars_cons {c : Char} (h : c ≠ '\\') (cs : List Char) :
    liveChars (c :: cs) = c :: liveChars cs :=
  liveChars.eq_4 c cs (fun hc _ => h hc) fun _ _ hc _ => h hc

theorem endsOpen_cons {c : Char} (h : c ≠ '\\') (cs : List Char) :
    endsOpen (c :: cs) = endsOpen cs :=
  endsOpen.eq_4 c cs (fun hc _ => h hc) fun _ _ hc _ => h hc

/-- The cases of the reader in which neither a last nor a leading backslash is met. -/
theorem ne_backslash_of_cases {c : Char} {cs : List Char} (hlast : c = '\\' → cs = [] → False)
    (hpair : ∀ d ds, c = '\\' → cs = d :: ds → False) : c ≠ '\\' := by
  rintro rfl
  cases cs with
  | nil => exact hlast rfl rfl
  | cons d ds => exact hpair d ds rfl rfl

/-- Behind a text that does not end in an open backslash, reading starts anew. -/
theorem liveChars_append {front : List Char} (h : endsOpen front = false) (back : List Char) :
    liveChars (front ++ back) = liveChars front ++ liveChars back := by
  fun_induction endsOpen front with
  | case1 => rfl
  | case2 => cases h
  | case3 c cs ih => exact ih h
  | case4 c cs hlast hpair ih =>
    have hc := ne_backslash_of_cases hlast hpair
    rw [List.cons_append, liveChars_cons hc, liveChars_cons hc, ih h, List.cons_append]

theorem endsOpen_append {front : List Char} (h : endsOpen front = false) (back : List Char) :
    endsOpen (front ++ back) = endsOpen back := by
  fun_induction endsOpen front with
  | case1 => rfl
  | case2 => cases h
  | case3 c cs ih => exact ih h
  | case4 c cs hlast hpair ih =>
    rw [List.cons_append, endsOpen_cons (ne_backslash_of_cases hlast hpair), ih h]

/-- Behind an open backslash, reading starts anew after one more character. -/
theorem liveChars_append_cons {front : List Char} (h : endsOpen front = true) (c : Char)
    (back : List Char) : liveChars (front ++ c :: back) = liveChars front ++ liveChars back := by
  fun_induction endsOpen front with
  | case1 => cases h
  | case2 => rfl
  | case3 d cs ih => exact ih h
  | case4 d cs hlast hpair ih =>
    have hd := ne_backslash_of_cases hlast hpair
    rw [List.cons_append, liveChars_cons hd, liveChars_cons hd, ih h, List.cons_append]

theorem endsOpen_append_cons {front : List Char} (h : endsOpen front = true) (c : Char)
    (back : List Char) : endsOpen (front ++ c :: back) = endsOpen back := by
  fun_induction endsOpen front with
  | case1 => cases h
  | case2 => rfl
  | case3 d cs ih => exact ih h
  | case4 d cs hlast hpair ih =>
    rw [List.cons_append, endsOpen_cons (ne_backslash_of_cases hlast hpair), ih h]

/-! ### One more character -/

/-- The end is open behind a backslash that is not itself taken along. -/
theorem endsOpen_concat (cs : List Char) (c : Char) :
    endsOpen (cs ++ [c]) = (c == '\\' && !endsOpen cs) := by
  cases h : endsOpen cs with
  | true => rw [endsOpen_append_cons h, endsOpen, Bool.not_true, Bool.and_false]
  | false =>
    rw [endsOpen_append h, Bool.not_false, Bool.and_true]
    by_cases hc : c = '\\'
    · rw [hc]
      rfl
    · rw [endsOpen_cons hc, beq_eq_false_iff_ne.2 hc]
      rfl

theorem closingBackslashes_concat (cs : List Char) (c : Char) :
    closingBackslashes (cs ++ [c]) = if c = '\\' then closingBackslashes cs + 1 else 0 := by
  rw [closingBackslashes, List.rtakeWhile_concat]
  by_cases hc : c = '\\'
  · simp [hc, closingBackslashes]
  · simp [hc]

theorem endsOpen_iff_odd (cs : List Char) :
    endsOpen cs = true ↔ Odd (closingBackslashes cs) := by
  induction cs using List.reverseRecOn with
  | nil => decide
  | append_singleton cs c ih =>
    rw [endsOpen_concat, closingBackslashes_concat]
    by_cases hc : c = '\\'
    · simp [hc, Nat.odd_add_one, ← ih]
    · simp [hc]

theorem closingBackslashes_pos_iff {cs : List Char} :
    0 < closingBackslashes cs ↔ cs.getLast? = some '\\' := by
  rcases List.eq_nil_or_concat' cs with rfl | ⟨cs, c, rfl⟩
  · decide
  · rw [closingBackslashes_concat, List.getLast?_concat, Option.some_inj]
    by_cases hc : c = '\\'
    · simp [hc]
    · simp [hc]

theorem getLast?_of_endsOpen {cs : List Char} (h : endsOpen cs = true) :
    cs.getLast? = some '\\' := by
  obtain ⟨k, hk⟩ := (endsOpen_iff_odd cs).1 h
  exact closingBackslashes_pos_iff.1 (by omega)

theorem endsOpen_of_getLast? {cs : List Char} (h : cs.getLast? ≠ some '\\') :
    endsOpen cs = false :=
  Bool.eq_false_iff.2 fun hopen => h (getLast?_of_endsOpen hopen)

/-! ### Escaping the comment character -/

namespace Rd

theorem escapeFrom_concat (prev : Char) (cs : List Char) (c : Char) :
    escapeFrom prev (cs ++ [c]) =
      escapeFrom prev cs ++
        if c = '%' ∧ cs.getLast?.getD prev ≠ '\\' then ['\\', c] else [c] := by
  induction cs generalizing prev with
  | nil => rw [List.nil_append, escapeFrom, escapeFrom]; rfl
  | cons d cs ih =>
    have hlast : (d :: cs).getLast?.getD prev = cs.getLast?.getD d := by
      rw [List.getLast?_cons]
      rfl
    rw [List.cons_append, escapeFrom, escapeFrom, ih d, hlast]
    split
    · rfl
    · rfl

/-- The first character of a text follows no backslash. -/
theorem escapeFrom_start_concat (cs : List Char) (c : Char) :
    escapeFrom '\x00' (cs ++ [c]) =
      escapeFrom '\x00' cs ++ if c = '%' ∧ cs.getLast? ≠ some '\\' then ['\\', c] else [c] := by
  have hlast : cs.getLast?.getD '\x00' = '\\' ↔ cs.getLast? = some '\\' := by
    cases cs.getLast? with
    | none => decide
    | some d => simp
  simp only [escapeFrom_concat, Ne, hlast]

/-- Escaping adds no backslash at the end, so it leaves an open end open and a closed one closed. -/
theorem endsOpen_escapeFrom (cs : List Char) : endsOpen (escapeFrom '\x00' cs) = endsOpen cs := by
  induction cs using List.reverseRecOn with
  | nil => rfl
  | append_singleton cs c ih =>
    rw [escapeFrom_start_concat]
    split
    · rename_i hc
      have hclosed := endsOpen_of_getLast? hc.2
      rw [endsOpen_append (ih.trans hclosed), endsOpen_append hclosed, hc.1]
      rfl
    · rw [endsOpen_concat, endsOpen_concat, ih]

/-- One more character is a live `%` exactly if it follows a backslash that is not open. -/
theorem mem_liveChars_escapeFrom_concat (cs : List Char) (c : Char) :
    '%' ∈ liveChars (escapeFrom '\x00' (cs ++ [c])) ↔
      '%' ∈ liveChars (escapeFrom '\x00' cs) ∨
        c = '%' ∧ cs.getLast? = some '\\' ∧ endsOpen cs = false := by
  rw [escapeFrom_start_concat]
  cases hopen : endsOpen cs with
  | true =>
    -- the open backslash takes the character along, whatever it is
    rw [if_neg fun h => h.2 (getLast?_of_endsOpen hopen),
      liveChars_append_cons ((endsOpen_escapeFrom cs).trans hopen)]
    simp [liveChars]
  | false =>
    rw [liveChars_append ((endsOpen_escapeFrom cs).trans hopen), List.mem_append]
    by_cases hc : c = '%'
    · by_cases hlast : cs.getLast? = some '\\'
      · simp [hc, hlast, liveChars]
      · simp [hc, hlast, liveChars]
    · by_cases hslash : c = '\\'
      · simp [hslash, liveChars]
      · simp [hc, liveChars_cons hslash, liveChars, Ne.symm hc]

theorem mem_liveChars_escapeFrom_iff (cs : List Char) :
    '%' ∈ liveChars (escapeFrom '\x00' cs) ↔
      ∃ front rest, cs = front ++ '%' :: rest ∧ front.getLast? = some '\\' ∧
        endsOpen front = false := by
  induction cs using List.reverseRecOn with
  | nil => simp [escapeFrom, liveChars]
  | append_singleton cs c ih =>
    rw [mem_liveChars_escapeFrom_concat, ih]
    constructor
    · rintro (⟨front, rest, rfl, hfront⟩ | ⟨rfl, hcs⟩)
      · exact ⟨front, rest ++ [c], by simp, hfront⟩
      · exact ⟨cs, [], rfl, hcs⟩
    · rintro ⟨front, rest, heq, hfront⟩
      rcases List.eq_nil_or_concat' rest with rfl | ⟨rest, d, rfl⟩
      · obtain ⟨rfl, hc⟩ := List.append_inj' heq rfl
        exact .inr ⟨(List.cons.inj hc).1, hfront⟩
      · rw [← List.cons_append, ← List.append_assoc] at heq
        obtain ⟨rfl, -⟩ := List.append_inj' heq rfl
        exact .inl ⟨front, rest, rfl, hfront⟩

/-- A `%` of an escaped text is live exactly if an even number of backslashes, and at least two,
stood in front of it: they pair up among themselves, but the last of them keeps it from being
escaped. -/
theorem live_percent_escape_iff (text : String) :
    '%' ∈ liveChars (escape text).toList ↔
      ∃ front rest, text.toList = front ++ '%' :: rest ∧ Even (closingBackslashes front) ∧
        0 < closingBackslashes front := by
  rw [escape, String.toList_ofList, mem_liveChars_escapeFrom_iff]
  have hiff : ∀ front : List Char,
      (front.getLast? = some '\\' ∧ endsOpen front = false) ↔
        (Even (closingBackslashes front) ∧ 0 < closingBackslashes front) := by
    intro front
    rw [closingBackslashes_pos_iff, ← Nat.not_odd_iff_even, ← endsOpen_iff_odd, Bool.not_eq_true,
      and_comm]
  simp only [hiff]

/-- A `%` behind an escaped backslash stays live. -/
theorem live_percent_escape_pair : '%' ∈ liveChars (escape "\\\\%").toList := by
  decide

end Rd

end DocTopics
