import DocTopics.Document.Json
import Mathlib.Data.List.Basic

/-!
# JSON texts determine their values

A value can be read off its text, whatever stands behind it: a string ends at the first quote that is
not escaped, a number at the first character that is no digit, and the first character of a value
tells its kind. Nesting needs no count of blanks, since two texts of one level have the same line
starts in the same places.

## Main definitions

- `Json.readChar` — reads one character of a string
- `Json.EndsValue` — what may stand behind a value
- `Json.bracketed` — the layout of lists and objects
- `Json.lead` — the first character of a value
- `Json.Told` — a value that can be told from what follows it

## Main statements

- `Json.readChar_escapeChar_append` — a character of a string is read off its escaped form
- `Json.quote_append_inj` — a string can be told from what follows it
- `Json.bracketed_append_inj` — so can a list if its items can
- `Json.told`, `Json.pretty_injective` — so can every value, and its text is that of no other
-/

namespace DocTopics.Json

/-! ### Characters of strings -/

/-- The value of a hexadecimal digit in lower case. -/
def hexValue (c : Char) : Nat :=
  if c.isDigit then c.toNat - 48 else c.toNat - 87

theorem hexValue_hexDigit : ∀ n < 16, hexValue (hexDigit n) = n := by
  decide

/-- The character that a letter behind a backslash stands for. -/
def unescaped : Char → Option Char
  | '"' => some '"'
  | '\\' => some '\\'
  | 'b' => some '\x08'
  | 't' => some '\t'
  | 'n' => some '\n'
  | 'f' => some '\x0c'
  | 'r' => some '\r'
  | _ => none

/-- Reads a character of a string, which may be escaped; a quote ends the string. -/
def readChar : List Char → Option (Char × List Char)
  | '\\' :: 'u' :: '0' :: '0' :: high :: low :: rest =>
    some (Char.ofNat (16 * hexValue high + hexValue low), rest)
  | '\\' :: c :: rest => (unescaped c).map (·, rest)
  | c :: rest => if c = '"' ∨ c = '\\' then none else some (c, rest)
  | [] => none

/-- A control character is read off the two digits of its number. -/
theorem readChar_control {c : Char} (hc : c.toNat < 0x20) (rest : List Char) :
    readChar ('\\' :: 'u' :: '0' :: '0' :: hexDigit (c.toNat / 16) :: hexDigit (c.toNat % 16) ::
      rest) = some (c, rest) := by
  have hhigh := hexValue_hexDigit (c.toNat / 16) (by omega)
  have hlow := hexValue_hexDigit (c.toNat % 16) (by omega)
  rw [readChar, hhigh, hlow, Nat.div_add_mod, Char.ofNat_toNat]

theorem readChar_plain {c : Char} (hquote : c ≠ '"') (hslash : c ≠ '\\') (rest : List Char) :
    readChar (c :: rest) = some (c, rest) := by
  simp [readChar, hquote, hslash]

/-- A character of a string is read off its escaped form. -/
theorem readChar_escapeChar_append (c : Char) (rest : List Char) :
    readChar (escapeChar c ++ rest) = some (c, rest) := by
  unfold escapeChar
  split_ifs with hquote hslash hb ht hn hf hr hcontrol
  · rw [hquote]; rfl
  · rw [hslash]; rfl
  · rw [hb]; rfl
  · rw [ht]; rfl
  · rw [hn]; rfl
  · rw [hf]; rfl
  · rw [hr]; rfl
  · exact readChar_control hcontrol rest
  · exact readChar_plain hquote hslash rest

/-! ### Strings -/

theorem flatMap_escapeChar_append_inj {a b r s : List Char}
    (h : a.flatMap escapeChar ++ '"' :: r = b.flatMap escapeChar ++ '"' :: s) : a = b ∧ r = s := by
  induction a generalizing b with
  | nil =>
    cases b with
    | nil => exact ⟨rfl, List.tail_eq_of_cons_eq h⟩
    | cons d b =>
      rw [List.flatMap_cons, List.append_assoc] at h
      have hread := congrArg readChar h
      rw [readChar_escapeChar_append] at hread
      cases hread
  | cons c a ih =>
    rw [List.flatMap_cons, List.append_assoc] at h
    have hread := congrArg readChar h
    rw [readChar_escapeChar_append] at hread
    cases b with
    | nil => cases hread
    | cons d b =>
      rw [List.flatMap_cons, List.append_assoc, readChar_escapeChar_append] at hread
      obtain ⟨rfl, hrest⟩ := Prod.mk.inj (Option.some_inj.1 hread)
      obtain ⟨rfl, rfl⟩ := ih hrest
      exact ⟨rfl, rfl⟩

theorem toList_quote (a : String) :
    (quote a).toList = '"' :: (a.toList.flatMap escapeChar ++ ['"']) := by
  simp [quote]

/-- A string can be told from what follows it. -/
theorem quote_append_inj {a b : String} {r s : List Char}
    (h : (quote a).toList ++ r = (quote b).toList ++ s) : a = b ∧ r = s := by
  rw [toList_quote, toList_quote, List.cons_append, List.cons_append, List.append_assoc,
    List.append_assoc] at h
  obtain ⟨hlist, hrest⟩ := flatMap_escapeChar_append_inj (List.tail_eq_of_cons_eq h)
  exact ⟨String.toList_inj.1 hlist, hrest⟩

/-! ### Numbers -/

/-- What may stand behind a value: a digit would belong to it. -/
def EndsValue (rest : List Char) : Prop :=
  ∀ c ∈ rest.head?, c.isDigit = false

theorem endsValue_nil : EndsValue [] := by
  rintro c ⟨⟩

theorem endsValue_cons {c : Char} (hc : c.isDigit = false) (rest : List Char) :
    EndsValue (c :: rest) := by
  rintro d ⟨⟩
  exact hc

theorem isDigit_of_mem_toDigits {n : Nat} : ∀ c ∈ Nat.toDigits 10 n, c.isDigit = true :=
  fun _ hc => Nat.isDigit_of_mem_toDigits (by decide) (by decide) hc

theorem takeWhile_toDigits_append {n : Nat} {rest : List Char} (h : EndsValue rest) :
    (Nat.toDigits 10 n ++ rest).takeWhile Char.isDigit = Nat.toDigits 10 n := by
  rw [List.takeWhile_append_of_pos isDigit_of_mem_toDigits]
  cases rest with
  | nil => simp
  | cons c rest => simp [h c rfl]

/-- A number ends at the first character that is no digit. -/
theorem toDigits_append_inj {m n : Nat} {r s : List Char} (hr : EndsValue r) (hs : EndsValue s)
    (h : Nat.toDigits 10 m ++ r = Nat.toDigits 10 n ++ s) : m = n ∧ r = s := by
  have hdigits : Nat.toDigits 10 m = Nat.toDigits 10 n := by
    rw [← takeWhile_toDigits_append hr, h, takeWhile_toDigits_append hs]
  refine ⟨?_, ?_⟩
  · calc m = Nat.ofDigitChars 10 (Nat.toDigits 10 m) 0 := Nat.ofDigitChars_ten_toDigits.symm
      _ = Nat.ofDigitChars 10 (Nat.toDigits 10 n) 0 := by rw [hdigits]
      _ = n := Nat.ofDigitChars_ten_toDigits
  · rw [hdigits] at h
    exact List.append_cancel_left h

/-! ### Lists of things -/

/-- A thing that can be told by its text from whatever may stand behind it. -/
def ToldBy {α : Type} (text : α → List Char) (x : α) : Prop :=
  ∀ (y : α) (r s : List Char), EndsValue r → EndsValue s → text x ++ r = text y ++ s →
    x = y ∧ r = s

section Bracketed

variable {α : Type} (level : Nat) (text : α → List Char)

/-- The things of a list behind the first, each on a line of its own. -/
def lined : List α → List Char
  | [] => []
  | x :: xs => ',' :: ((newline level).toList ++ (text x ++ lined xs))

/-- A list of things between brackets; the closing one stands on a line of its own, unless the list
is empty. -/
def bracketed (opening closing : Char) : List α → List Char
  | [] => [opening, closing]
  | x :: xs =>
    opening :: ((newline (level + 1)).toList ++ (text x ++ (lined (level + 1) text xs ++
      ((newline level).toList ++ [closing]))))

theorem toList_newline : (newline level).toList = '\n' :: List.replicate (2 * level) ' ' := by
  simp [newline]

/-- Behind a thing of a list stands a comma or a new line. -/
theorem endsValue_lined (xs : List α) (rest : List Char) :
    EndsValue (lined level text xs ++ '\n' :: rest) := by
  cases xs <;> exact endsValue_cons (by decide) _

variable {level text} {xs ys : List α} {r s : List Char}

/-- The things of a list end where the line of its closing bracket starts. -/
theorem lined_append_inj (hxs : ∀ x ∈ xs, ToldBy text x)
    (h : lined level text xs ++ '\n' :: r = lined level text ys ++ '\n' :: s) :
    xs = ys ∧ r = s := by
  induction xs generalizing ys with
  | nil =>
    cases ys with
    | nil => exact ⟨rfl, (List.cons.inj h).2⟩
    | cons y ys => exact absurd (List.cons.inj h).1 (by decide)
  | cons x xs ih =>
    obtain ⟨hx, hxs⟩ := List.forall_mem_cons.1 hxs
    cases ys with
    | nil => exact absurd (List.cons.inj h).1 (by decide)
    | cons y ys =>
      simp only [lined, List.cons_append, List.append_assoc] at h
      have hthings := List.append_cancel_left (List.cons.inj h).2
      obtain ⟨rfl, hrest⟩ := hx y _ _ (endsValue_lined _ _ xs _)
        (endsValue_lined _ _ ys _) hthings
      obtain ⟨rfl, rfl⟩ := ih hxs hrest
      exact ⟨rfl, rfl⟩

/-- An empty list closes at once, another one starts a line. -/
theorem bracketed_nil_append_ne {opening closing : Char} (hclosing : closing ≠ '\n') (x : α) :
    bracketed level text opening closing [] ++ r ≠
      bracketed level text opening closing (x :: xs) ++ s := by
  intro h
  rw [bracketed, bracketed, toList_newline] at h
  exact hclosing (List.cons.inj (List.cons.inj h).2).1

/-- A list can be told from what follows it if its things can. -/
theorem bracketed_append_inj {opening closing : Char} (hclosing : closing ≠ '\n')
    (hxs : ∀ x ∈ xs, ToldBy text x)
    (h : bracketed level text opening closing xs ++ r =
      bracketed level text opening closing ys ++ s) : xs = ys ∧ r = s := by
  cases xs with
  | nil =>
    cases ys with
    | nil => exact ⟨rfl, List.append_cancel_left h⟩
    | cons y ys => exact absurd h (bracketed_nil_append_ne hclosing y)
  | cons x xs =>
    obtain ⟨hx, hxs⟩ := List.forall_mem_cons.1 hxs
    cases ys with
    | nil => exact absurd h.symm (bracketed_nil_append_ne hclosing x)
    | cons y ys =>
      have hline := toList_newline level
      simp only [bracketed, hline, List.cons_append, List.append_assoc] at h
      have hthings := List.append_cancel_left (List.cons.inj h).2
      obtain ⟨rfl, hrest⟩ := hx y _ _ (endsValue_lined _ _ xs _)
        (endsValue_lined _ _ ys _) hthings
      obtain ⟨rfl, hclose⟩ := lined_append_inj hxs hrest
      exact ⟨rfl, (List.cons.inj (List.append_cancel_left hclose)).2⟩

end Bracketed

/-! ### Values -/

/-- The text of a value as a list of characters. -/
def chars (level : Nat) (v : Json) : List Char :=
  (pretty level v).toList

/-- The text of a field. -/
def fieldChars (level : Nat) (field : String × Json) : List Char :=
  (quote field.1).toList ++ ':' :: ' ' :: chars level field.2

theorem toList_prettyItems (level : Nat) (xs : List Json) :
    (prettyItems level xs).toList = lined level (chars level) xs := by
  induction xs with
  | nil => simp [prettyItems, lined]
  | cons x xs ih => simp [prettyItems, lined, chars, ih]

theorem toList_prettyFields (level : Nat) (fields : List (String × Json)) :
    (prettyFields level fields).toList = lined level (fieldChars level) fields := by
  induction fields with
  | nil => simp [prettyFields, lined]
  | cons field fields ih => simp [prettyFields, lined, fieldChars, chars, ih]

theorem chars_arr (level : Nat) (xs : List Json) :
    chars level (.arr xs) = bracketed level (chars (level + 1)) '[' ']' xs := by
  cases xs with
  | nil => simp [chars, pretty, bracketed]
  | cons x xs => simp [chars, pretty, bracketed, toList_prettyItems]

theorem chars_obj (level : Nat) (fields : List (String × Json)) :
    chars level (.obj fields) = bracketed level (fieldChars (level + 1)) '\x7b' '\x7d' fields := by
  cases fields with
  | nil => simp [chars, pretty, bracketed]
  | cons field fields => simp [chars, pretty, bracketed, fieldChars, toList_prettyFields]

theorem chars_num (level n : Nat) : chars level (.num n) = Nat.toDigits 10 n := by
  rw [chars, pretty, Nat.toString_eq_repr, Nat.toList_repr]

theorem chars_str (level : Nat) (a : String) : chars level (.str a) = (quote a).toList := by
  rw [chars, pretty]

/-- The first character of a value; the digit zero stands for all digits. -/
def lead : Json → Char
  | .null => 'n'
  | .bool true => 't'
  | .bool false => 'f'
  | .num _ => '0'
  | .str _ => '"'
  | .arr _ => '['
  | .obj _ => '\x7b'

theorem exists_chars_eq_cons (level : Nat) (v : Json) :
    ∃ c cs, chars level v = c :: cs ∧ (if c.isDigit then '0' else c) = lead v := by
  match v with
  | .null => exact ⟨'n', "ull".toList, by simp [chars, pretty], by decide⟩
  | .bool true => exact ⟨'t', "rue".toList, by simp [chars, pretty], by decide⟩
  | .bool false => exact ⟨'f', "alse".toList, by simp [chars, pretty], by decide⟩
  | .num n =>
    obtain ⟨c, cs, hdigits⟩ := List.exists_cons_of_ne_nil (Nat.toDigits_ne_nil (b := 10) (n := n))
    have hc : c.isDigit = true := isDigit_of_mem_toDigits c (hdigits ▸ List.mem_cons_self)
    exact ⟨c, cs, (chars_num level n).trans hdigits, if_pos hc⟩
  | .str a => exact ⟨'"', _, by rw [chars_str, toList_quote], rfl⟩
  | .arr [] => exact ⟨'[', _, chars_arr level [], rfl⟩
  | .arr (x :: xs) => exact ⟨'[', _, chars_arr level (x :: xs), rfl⟩
  | .obj [] => exact ⟨'\x7b', _, chars_obj level [], rfl⟩
  | .obj (field :: fields) => exact ⟨'\x7b', _, chars_obj level (field :: fields), rfl⟩

theorem lead_eq_of_append_eq {level : Nat} {v w : Json} {r s : List Char}
    (h : chars level v ++ r = chars level w ++ s) : lead w = lead v := by
  obtain ⟨c, cs, hv, hc⟩ := exists_chars_eq_cons level v
  obtain ⟨d, ds, hw, hd⟩ := exists_chars_eq_cons level w
  rw [hv, hw, List.cons_append, List.cons_append] at h
  rw [← hc, ← hd, (List.cons.inj h).1]

/-- The first character tells the kind of a value. -/
theorem of_lead (w : Json) :
    (lead w = 'n' → w = .null) ∧ (∀ b, lead w = lead (.bool b) → w = .bool b) ∧
    (lead w = '0' → ∃ n, w = .num n) ∧ (lead w = '"' → ∃ a, w = .str a) ∧
    (lead w = '[' → ∃ xs, w = .arr xs) ∧ (lead w = '\x7b' → ∃ fields, w = .obj fields) := by
  rcases w with _ | (_ | _) | _ | _ | _ | _ <;> simp [lead]

/-- A value can be told from what follows it, at every level. -/
def Told (v : Json) : Prop :=
  ∀ level, ToldBy (chars level) v

theorem told_null : Told .null := by
  intro level w r s _ _ h
  obtain rfl := (of_lead w).1 (lead_eq_of_append_eq h)
  exact ⟨rfl, List.append_cancel_left h⟩

theorem told_bool (b : Bool) : Told (.bool b) := by
  intro level w r s _ _ h
  obtain rfl := (of_lead w).2.1 b (lead_eq_of_append_eq h)
  exact ⟨rfl, List.append_cancel_left h⟩

theorem told_num (m : Nat) : Told (.num m) := by
  intro level w r s hr hs h
  obtain ⟨n, rfl⟩ := (of_lead w).2.2.1 (lead_eq_of_append_eq h)
  rw [chars_num, chars_num] at h
  obtain ⟨rfl, hrest⟩ := toDigits_append_inj hr hs h
  exact ⟨rfl, hrest⟩

theorem told_str (a : String) : Told (.str a) := by
  intro level w r s _ _ h
  obtain ⟨b, rfl⟩ := (of_lead w).2.2.2.1 (lead_eq_of_append_eq h)
  rw [chars_str, chars_str] at h
  obtain ⟨rfl, hrest⟩ := quote_append_inj h
  exact ⟨rfl, hrest⟩

theorem told_arr {xs : List Json} (hxs : ∀ x ∈ xs, Told x) : Told (.arr xs) := by
  intro level w r s _ _ h
  obtain ⟨ys, rfl⟩ := (of_lead w).2.2.2.2.1 (lead_eq_of_append_eq h)
  rw [chars_arr, chars_arr] at h
  obtain ⟨rfl, hrest⟩ := bracketed_append_inj (by decide) (fun x hx => hxs x hx (level + 1)) h
  exact ⟨rfl, hrest⟩

/-- A field can be told if its value can. -/
theorem toldBy_fieldChars {field : String × Json} (h : Told field.2) (level : Nat) :
    ToldBy (fieldChars level) field := by
  intro field' r s hr hs heq
  simp only [fieldChars, List.append_assoc, List.cons_append] at heq
  obtain ⟨hkey, hvalue⟩ := quote_append_inj heq
  obtain ⟨hvalue, hrest⟩ := h level field'.2 r s hr hs (List.cons.inj (List.cons.inj hvalue).2).2
  exact ⟨Prod.ext hkey hvalue, hrest⟩

theorem told_obj {fields : List (String × Json)} (hfields : ∀ field ∈ fields, Told field.2) :
    Told (.obj fields) := by
  intro level w r s _ _ h
  obtain ⟨fields', rfl⟩ := (of_lead w).2.2.2.2.2 (lead_eq_of_append_eq h)
  rw [chars_obj, chars_obj] at h
  obtain ⟨rfl, hrest⟩ := bracketed_append_inj (by decide)
    (fun field hfield => toldBy_fieldChars (hfields field hfield) (level + 1)) h
  exact ⟨rfl, hrest⟩

/-- Every value can be told. -/
theorem told : ∀ v : Json, Told v
  | .null => told_null
  | .bool b => told_bool b
  | .num n => told_num n
  | .str a => told_str a
  | .arr xs => told_arr fun x _hx => told x
  | .obj fields => told_obj fun field _hfield => told field.2
termination_by v => v
decreasing_by
  · have hsize := List.sizeOf_lt_of_mem _hx
    simp only [Json.arr.sizeOf_spec]
    omega
  · have hsize := List.sizeOf_lt_of_mem _hfield
    have hvalue : sizeOf field = 1 + sizeOf field.1 + sizeOf field.2 := rfl
    simp only [Json.obj.sizeOf_spec]
    omega

/-- A text is the text of one value. -/
theorem pretty_injective (level : Nat) : Function.Injective (pretty level) := by
  intro v w h
  have hchars : chars level v ++ [] = chars level w ++ [] := by
    rw [chars, chars, h]
  exact (told v level w [] [] endsValue_nil endsValue_nil hchars).1

end DocTopics.Json
