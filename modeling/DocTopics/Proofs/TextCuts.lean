import DocTopics.Proofs.EscapedText
import DocTopics.Proofs.Lines
import DocTopics.Proofs.Trimming
import DocTopics.Topic.Section

/-!
# Texts cut at white space

Texts are cut into lines, lines are joined to texts again, and what stands at the ends is trimmed.
Only white space comes and goes on the way. Whoever reads a text and does not notice whether it is
cut at a blank reads the same from its pieces, one after another.

## Main definitions

- `CutsAtBlanks` — what is read does not depend on cuts at white space
- `openAfter` — whether a backslash is open behind what was read so far

## Main statements

- `CutsAtBlanks.lines`, `CutsAtBlanks.join` — reading lines and joined texts
- `cutsAtBlanks_openAfter` — cuts at white space do not matter to a backslash at the end
-/

namespace DocTopics

/-- A reader goes from state to state over texts. Cutting a text at a blank makes no difference. -/
structure CutsAtBlanks {σ : Type} (read : σ → List Char → σ) : Prop where
  nil : ∀ s, read s [] = s
  cut : ∀ s front {c} back, isBlank c = true →
    read s (front ++ c :: back) = read (read s front) back

namespace CutsAtBlanks

variable {σ : Type} {read : σ → List Char → σ}

theorem blank_append (h : CutsAtBlanks read) (s : σ) {lead : List Char}
    (hlead : ∀ c ∈ lead, isBlank c = true) (cs : List Char) : read s (lead ++ cs) = read s cs := by
  induction lead with
  | nil => rfl
  | cons c lead ih =>
    obtain ⟨hc, hlead⟩ := List.forall_mem_cons.1 hlead
    rw [← ih hlead, List.cons_append, ← List.nil_append (c :: (lead ++ cs)), h.cut s [] _ hc, h.nil]

theorem append_blank (h : CutsAtBlanks read) (s : σ) (cs : List Char) {tail : List Char}
    (htail : ∀ c ∈ tail, isBlank c = true) : read s (cs ++ tail) = read s cs := by
  cases tail with
  | nil => rw [List.append_nil]
  | cons c tail =>
    obtain ⟨hc, htail⟩ := List.forall_mem_cons.1 htail
    have hrest := h.blank_append (read s cs) htail []
    rw [List.append_nil, h.nil] at hrest
    rw [h.cut s cs tail hc, hrest]

theorem trim (h : CutsAtBlanks read) (s : σ) (cs : List Char) :
    read s (Chars.trim cs) = read s cs := by
  obtain ⟨lead, tail, heq, hlead, htail⟩ := Chars.exists_eq_append_trim cs
  conv_rhs => rw [heq]
  rw [h.append_blank s _ htail, h.blank_append s hlead]

theorem dropReturn (h : CutsAtBlanks read) (s : σ) (cs : List Char) :
    read s (Chars.dropReturn cs) = read s cs := by
  rw [Chars.dropReturn]
  split
  · rename_i hlast
    obtain ⟨front, rfl⟩ := List.getLast?_eq_some_iff.1 hlast
    rw [List.dropLast_concat, h.append_blank s front (by simp; decide)]
  · rfl

/-- The lines of a text are read as the text. -/
theorem lines (h : CutsAtBlanks read) (s : σ) (cs : List Char) :
    (Chars.lines cs).foldl read s = read s cs := by
  refine Chars.lines_induction (motive := fun cs ls => ∀ s, ls.foldl read s = read s cs)
    (fun s => (h.nil s).symm) (fun cs _ _ s => rfl) ?_ cs s
  intro body rest _ ih s
  rw [List.foldl_cons, ih, h.dropReturn, h.cut s body rest (by decide)]

/-- So are texts that are joined to one, with white space in between. -/
theorem join (h : CutsAtBlanks read) (s : σ) {sep : String} (hne : sep.toList ≠ [])
    (hsep : Text.blank sep = true) (texts : List String) :
    read s (Text.join sep texts).toList = texts.foldl (fun s t => read s t.toList) s := by
  obtain ⟨c, blanks, heq⟩ := List.exists_cons_of_ne_nil hne
  have hblank : ∀ d ∈ c :: blanks, isBlank d = true := heq ▸ List.all_eq_true.1 hsep
  obtain ⟨hc, hblanks⟩ := List.forall_mem_cons.1 hblank
  induction texts generalizing s with
  | nil => exact h.nil s
  | cons t texts ih =>
    cases texts with
    | nil => rfl
    | cons next texts =>
      rw [Text.join, String.toList_append, String.toList_append, heq, List.append_assoc,
        List.cons_append, h.cut s _ _ hc, h.blank_append _ hblanks, ih]
      rfl

theorem textOf (h : CutsAtBlanks read) (s : σ) (ls : List (List Char)) :
    read s (Section.textOf ls).toList = ls.foldl read s := by
  rw [Section.textOf, Text.joinLines, h.join s (by decide) (by decide), List.foldl_map]
  simp only [String.toList_ofList]

/-- A text is read as its first line and then the rest. -/
theorem firstLine (h : CutsAtBlanks read) (s : σ) {content first rest : String}
    (hcut : (Text.cutAt (· == '\n') content).getD (content, "") = (first, rest)) :
    read s content.toList = read (read s first.toList) rest.toList := by
  cases hfeed : Text.cutAt (· == '\n') content with
  | none =>
    rw [hfeed] at hcut
    cases hcut
    exact (h.nil _).symm
  | some parts =>
    rw [hfeed] at hcut
    obtain ⟨c, hc, -, heq⟩ := Text.cutAt_eq_some_iff.1 (hfeed.trans (congrArg some hcut))
    rw [heq, eq_of_beq hc, h.cut s _ _ (by decide)]

theorem bodyText (h : CutsAtBlanks read) (s : σ) (head rest : String) :
    read s (Section.bodyText head rest).toList = read (read s head.toList) rest.toList := by
  have hhead : read s (Text.trim head).toList = read s head.toList := by
    rw [Text.trim, String.toList_ofList, h.trim]
  rw [Section.bodyText]
  split
  · rename_i hrest
    rw [hrest, hhead]
    exact (h.nil _).symm
  · rw [String.toList_append, String.toList_append, List.append_assoc, ← hhead]
    exact h.cut s _ _ (by decide)

end CutsAtBlanks

/-! ### Open backslashes -/

/-- Whether a backslash is open behind a text, where the white space at its end does not count. A
blank text changes nothing. -/
def openAfter (isOpen : Bool) (cs : List Char) : Bool :=
  if Chars.blank cs then isOpen else endsOpen (Chars.trimEnd cs)

/-- Behind a character that is no backslash a text is read as from its start, also where a backslash
takes that character along. -/
theorem endsOpen_append_cut {c : Char} (h : c ≠ '\\') (front back : List Char) :
    endsOpen (front ++ c :: back) = endsOpen back := by
  cases hopen : endsOpen front with
  | true => exact endsOpen_append_cons hopen c back
  | false => rw [endsOpen_append hopen, endsOpen_cons h]

theorem Chars.trimEnd_append (front : List Char) {back : List Char} (h : blank back = false) :
    trimEnd (front ++ back) = front ++ trimEnd back := by
  have hne : (back.reverse.dropWhile isBlank).isEmpty = false := by
    rw [List.isEmpty_eq_false_iff, Ne, List.dropWhile_eq_nil_iff]
    intro hall
    rw [blank, List.all_eq_true.2 fun c hc => hall c (List.mem_reverse.2 hc)] at h
    cases h
  rw [trimEnd, dropEndWhile, List.reverse_append, List.dropWhile_append, hne,
    if_neg Bool.false_ne_true, List.reverse_append, List.reverse_reverse]
  rfl

theorem Chars.trimEnd_append_blank (front : List Char) {tail : List Char}
    (h : blank tail = true) : trimEnd (front ++ tail) = trimEnd front := by
  have hall : ∀ c ∈ tail.reverse, isBlank c = true := fun c hc =>
    List.all_eq_true.1 h c (List.mem_reverse.1 hc)
  rw [trimEnd, dropEndWhile, List.reverse_append, List.dropWhile_append_of_pos hall]
  rfl

theorem openAfter_of_blank {cs : List Char} (h : Chars.blank cs = true) (isOpen : Bool) :
    openAfter isOpen cs = isOpen :=
  if_pos h

theorem cutsAtBlanks_openAfter : CutsAtBlanks openAfter where
  nil _ := rfl
  cut isOpen front c back hc := by
    have hblank : Chars.blank (c :: back) = Chars.blank back := by
      rw [Chars.blank, List.all_cons, hc, Bool.true_and, Chars.blank]
    have hall : Chars.blank (front ++ c :: back) = (Chars.blank front && Chars.blank back) := by
      rw [Chars.blank, List.all_append, ← Chars.blank, ← Chars.blank, hblank]
    cases hback : Chars.blank back with
    | true =>
      rw [openAfter_of_blank hback, openAfter, openAfter, hall, hback, Bool.and_true,
        Chars.trimEnd_append_blank _ (hblank.trans hback)]
    | false =>
      have hcut : Chars.trimEnd (front ++ c :: back) = front ++ c :: Chars.trimEnd back := by
        rw [List.append_cons, Chars.trimEnd_append _ hback, List.append_assoc,
          List.singleton_append]
      rw [openAfter, hall, hback, Bool.and_false, hcut, openAfter, hback,
        endsOpen_append_cut (Chars.ne_of_class hc (by decide))]
      rfl

theorem openAfter_false (cs : List Char) : openAfter false cs = endsOpen (Chars.trim cs) := by
  rw [← cutsAtBlanks_openAfter.trim, openAfter]
  by_cases hblank : Chars.blank (Chars.trim cs) = true
  · have hnil : Chars.trim cs = [] :=
      (Chars.strip_strip isBlank cs).symm.trans (Chars.trim_eq_nil_iff.2 hblank)
    rw [hnil]
    rfl
  · rw [if_neg hblank]
    have hlast := Chars.getLast?_trimEnd (Chars.trimStart cs)
    exact congrArg endsOpen (Chars.trimEnd_eq_self hlast)

theorem openAfter_of_not_blank {cs : List Char} (h : Chars.blank cs = false) (isOpen : Bool) :
    openAfter isOpen cs = endsOpen (Chars.trim cs) := by
  rw [← openAfter_false, openAfter, openAfter, h]
  rfl

/-- Behind a character that is neither white space nor a backslash nothing is open. -/
theorem openAfter_append_cons {c : Char} (hslash : c ≠ '\\') (hblank : isBlank c = false)
    (isOpen : Bool) (front back : List Char) :
    openAfter isOpen (front ++ c :: back) = openAfter false back := by
  have hall : Chars.blank (front ++ c :: back) = false := by
    rw [Chars.blank, List.all_append, List.all_cons, hblank, Bool.false_and, Bool.and_false]
  rw [openAfter, hall, if_neg Bool.false_ne_true, List.append_cons]
  cases hback : Chars.blank back with
  | true =>
    have hlast : ∀ d ∈ (front ++ [c]).getLast?, isBlank d = false := by simpa using hblank
    rw [Chars.trimEnd_append_blank _ hback, Chars.trimEnd_eq_self hlast,
      endsOpen_append_cut hslash, openAfter_of_blank hback]
    rfl
  | false =>
    rw [Chars.trimEnd_append _ hback, List.append_assoc, List.singleton_append,
      endsOpen_append_cut hslash, openAfter, hback, if_neg Bool.false_ne_true]

/-- What is open without anything in front stays so behind any text. -/
theorem openAfter_of_false {cs : List Char} (h : openAfter false cs = true) (isOpen : Bool) :
    openAfter isOpen cs = true := by
  cases hblank : Chars.blank cs with
  | true =>
    rw [openAfter_of_blank hblank] at h
    cases h
  | false => rw [openAfter_of_not_blank hblank, ← openAfter_false, h]

end DocTopics
