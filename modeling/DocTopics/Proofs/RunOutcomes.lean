import DocTopics.Proofs.SourceOrder
import Mathlib.Data.List.TakeWhile

/-!
# What becomes of a run of marker lines

A run of marker lines is bound to the first line below it that is neither blank nor a plain comment,
if that line is code and starts a declaration, and is discarded otherwise. Lines are told apart by
their first characters here, and runs by the lines around them.

## Main definitions

- `Marked`, `PassedOver`, `IsCode` — the lines of a run, between a run and its declaration, and code
- `documentation` — what a marker line says
- `MarkerRun.IsRunOf` — the maximal runs of a text
- `DeclaredBelow`, `MarkerRun.Yields` — the declaration below a run, and what the run leads to

## Main statements

- `declarationBelow_eq_some_iff` — which declaration a run is bound to
- `MarkerRun.isRunOf_iff` — the runs of a text are the maximal ones
- `Block.one_finding_per_run` — the blocks and warnings of a unit, run by run
-/

namespace DocTopics

/-- Behind its indentation the line starts with the marker. -/
def Marked (marker line : String) : Prop :=
  marker.toList <+: Chars.trimStart line.toList

/-- The line is blank or a plain comment. -/
def PassedOver (marker line : String) : Prop :=
  ¬Marked marker line ∧
    (Text.blank line = true ∨ (Chars.trimStart line.toList).head? = some '#')

/-- The line is neither documentation nor blank nor a comment. -/
def IsCode (marker line : String) : Prop :=
  ¬Marked marker line ∧
    ¬(Text.blank line = true ∨ (Chars.trimStart line.toList).head? = some '#')

/-- What a marked line says: the text behind the marker, without one blank in front and without
white space at the end. -/
def documentation (marker line : String) : String :=
  let rest := (Chars.trimStart line.toList).drop marker.toList.length
  Text.trimEnd (String.ofList (if rest.head? = some ' ' then rest.tail else rest))

/-- Marked lines as the lines of a block, numbered from `number` on. -/
def documented (marker : String) (number : Nat) (lines : List String) : List NumberedLine :=
  (lines.zipIdx number).map fun line => ⟨line.2, documentation marker line.1⟩

/-! ### Lines and their classes -/

theorem LineClass.afterMarker_eq (cs : List Char) :
    LineClass.afterMarker cs = if cs.head? = some ' ' then cs.tail else cs := by
  unfold afterMarker
  split
  · rfl
  · rename_i hblank
    cases cs with
    | nil => rfl
    | cons c cs =>
      rw [List.head?_cons, if_neg]
      intro hc
      cases hc
      exact hblank cs rfl

theorem markerLine?_of_marked {marker line : String} (number : Nat) (h : Marked marker line) :
    markerLine? marker number line = some ⟨number, documentation marker line⟩ := by
  obtain ⟨rest, hrest⟩ := h
  have hpast : Chars.past marker.toList (Chars.trimStart line.toList) = some rest :=
    Chars.past_eq_some_iff.2 hrest.symm
  have hdrop : (Chars.trimStart line.toList).drop marker.toList.length = rest := by
    rw [← hrest, List.drop_left]
  simp only [markerLine?, LineClass.of, hpast, documentation, hdrop, LineClass.afterMarker_eq]

/-- Every line is marked, passed over or code, and has the class for it. -/
theorem lineClass_cases (marker line : String) :
    (Marked marker line ∧ ∃ text, LineClass.of marker line = .marker text) ∨
    (PassedOver marker line ∧
      (LineClass.of marker line = .comment ∨ LineClass.of marker line = .blank)) ∨
    (IsCode marker line ∧ LineClass.of marker line = .code) := by
  have hblank : Text.blank line = true ↔ Chars.trimStart line.toList = [] := by
    rw [Chars.trimStart, Text.blank, Chars.blank, List.dropWhile_eq_nil_iff, List.all_eq_true]
  cases hpast : Chars.past marker.toList (Chars.trimStart line.toList) with
  | some rest =>
    refine .inl ⟨⟨rest, (Chars.past_eq_some_iff.1 hpast).symm⟩, ?_⟩
    simp only [LineClass.of, hpast]
    exact ⟨_, rfl⟩
  | none =>
    have hnot : ¬Marked marker line := by
      rintro ⟨rest, hrest⟩
      rw [Chars.past_eq_some_iff.2 hrest.symm] at hpast
      cases hpast
    right
    cases hcs : Chars.trimStart line.toList with
    | nil =>
      rw [hcs] at hpast
      refine .inl ⟨⟨hnot, .inl (hblank.2 hcs)⟩, .inr ?_⟩
      simp only [LineClass.of, hcs, hpast]
    | cons c cs =>
      rw [hcs] at hpast
      by_cases hc : c = '#'
      · subst hc
        refine .inl ⟨⟨hnot, .inr (by rw [hcs, List.head?_cons])⟩, .inl ?_⟩
        simp only [LineClass.of, hcs, hpast, beq_self_eq_true, if_true]
      · refine .inr ⟨⟨hnot, ?_⟩, ?_⟩
        · rw [hblank, hcs]
          simpa using hc
        · simp [LineClass.of, hcs, hpast, hc]

theorem isMarkerLine_iff {marker line : String} :
    IsMarkerLine marker line ↔ Marked marker line := by
  rcases lineClass_cases marker line with ⟨hmarked, hclass⟩ | ⟨hpass, hclass⟩ | ⟨hcode, hclass⟩
  · exact ⟨fun _ => hmarked, fun _ => hclass⟩
  · refine ⟨?_, fun hmarked => absurd hmarked hpass.1⟩
    rintro ⟨text, htext⟩
    rw [htext] at hclass
    rcases hclass with hclass | hclass <;> cases hclass
  · refine ⟨?_, fun hmarked => absurd hmarked hcode.1⟩
    rintro ⟨text, htext⟩
    rw [htext] at hclass
    cases hclass

theorem markerLine?_eq_some_iff {marker line : String} {number : Nat} {entry : NumberedLine} :
    markerLine? marker number line = some entry ↔
      Marked marker line ∧ entry = ⟨number, documentation marker line⟩ := by
  by_cases h : Marked marker line
  · rw [markerLine?_of_marked number h, Option.some_inj]
    exact ⟨fun heq => ⟨h, heq.symm⟩, fun heq => heq.2.symm⟩
  · rw [markerLine?_eq_none_iff.2 (isMarkerLine_iff.not.2 h)]
    refine ⟨fun hnone => ?_, fun hmarked => absurd hmarked.1 h⟩
    cases hnone

/-- The entries of marked lines are what the lines say, one by one. -/
theorem holdEntries_iff {marker : String} {number : Nat} {lines : List String}
    {entries : List NumberedLine} :
    HoldEntries marker number lines entries ↔
      (∀ line ∈ lines, Marked marker line) ∧ entries = documented marker number lines := by
  induction lines generalizing number entries with
  | nil =>
    rw [HoldEntries, List.zipIdx_nil, List.forall₂_nil_right_iff]
    simp [documented]
  | cons line lines ih =>
    cases entries with
    | nil =>
      constructor
      · intro h
        cases h
      · rintro ⟨-, hentries⟩
        cases hentries
    | cons first rest =>
      have hsplit : documented marker number (line :: lines) =
          ⟨number, documentation marker line⟩ :: documented marker (number + 1) lines := rfl
      rw [holdEntries_cons_iff, markerLine?_eq_some_iff, ih, List.forall_mem_cons, hsplit,
        List.cons.injEq]
      tauto

/-! ### Runs -/

/-- The run consists of consecutive marked lines of the text, numbered from one on, and the lines
right above and right below it, where there are such, are not marked. -/
def MarkerRun.IsRunOf (marker : String) (lines : List String) (r : MarkerRun) : Prop :=
  ∃ above within, lines = above ++ (within ++ r.below) ∧
    r.next = above.length + 1 + within.length ∧
    (∀ line ∈ within, Marked marker line) ∧
    r.lines = documented marker (above.length + 1) within ∧
    (∀ line ∈ above.getLast?, ¬Marked marker line) ∧
    ∀ line ∈ r.below.head?, ¬Marked marker line

theorem MarkerRun.isRunOf_iff {marker : String} {lines : List String} {r : MarkerRun} :
    r.IsRunOf marker lines ↔ r ∈ markerRuns marker 1 lines := by
  rw [mem_markerRuns_iff]
  simp only [IsRunOf, IsMaximal, holdEntries_iff, isMarkerLine_iff, Nat.add_comm 1, and_assoc]

theorem MarkerRun.number_first {marker : String} {number : Nat} {within : List String}
    {r : MarkerRun} (h : r.lines = documented marker number within) : r.first.number = number := by
  cases within with
  | nil => cases h
  | cons line within =>
    injection h with hfirst
    rw [hfirst]

/-- The lines of a run lie between its first line and the line below it. -/
theorem MarkerRun.IsRunOf.number_lt {marker : String} {lines : List String} {r : MarkerRun}
    (h : r.IsRunOf marker lines) {l : NumberedLine} (hl : l ∈ r.lines) :
    r.first.number ≤ l.number ∧ l.number < r.next := by
  obtain ⟨above, within, -, hnext, -, hentries, -, -⟩ := h
  rw [number_first hentries, hnext]
  rw [hentries, documented] at hl
  obtain ⟨⟨line, i⟩, hmem, rfl⟩ := List.mem_map.1 hl
  obtain ⟨hle, hlt, -⟩ := List.mem_zipIdx hmem
  exact ⟨hle, hlt⟩

/-- Of two runs the later one starts below the line that follows the earlier one: right above it
stands a line that is not marked, and the earlier run has none. -/
theorem MarkerRun.IsRunOf.next_lt {marker : String} {lines : List String} {r s : MarkerRun}
    (hr : r.IsRunOf marker lines) (hs : s.IsRunOf marker lines)
    (h : r.first.number < s.first.number) : r.next < s.first.number := by
  obtain ⟨above, within, hlines, hnext, hmarked, hentries, -, -⟩ := hr
  obtain ⟨above', within', hlines', -, -, hentries', habove', -⟩ := hs
  rw [number_first hentries, number_first hentries'] at h
  rw [number_first hentries', hnext]
  by_contra hle
  rcases List.eq_nil_or_concat above' with rfl | ⟨front, line, rfl⟩
  · simp at h
  · rw [List.length_concat] at h hle
    have hline : lines[front.length]? = some line := by
      rw [hlines']
      simp
    have hwithin : lines[front.length]? = within[front.length - above.length]? := by
      rw [hlines, List.getElem?_append_right (by omega), List.getElem?_append_left (by omega)]
    have hmem : line ∈ within := List.mem_of_getElem? (hwithin.symm.trans hline)
    exact habove' line (by simp) (hmarked line hmem)

/-! ### Findings -/

/-- The declaration starts on the first line that is not passed over, for lines that are numbered
from `number` on. -/
def DeclaredBelow (marker : String) (number : Nat) (lines : List String) (d : Declaration) : Prop :=
  ∃ between line more, lines = between ++ line :: more ∧
    (∀ l ∈ between, PassedOver marker l) ∧ IsCode marker line ∧
    Declaration.recognize (line :: more) (number + between.length) = some d

/-- What a run leads to: a block if a declaration stands below it, otherwise a discarded run. -/
def MarkerRun.Yields (unit : SourceUnit) (ordinal : Nat) (marker : String) (r : MarkerRun)
    (result : Block.Finding) : Prop :=
  (∃ d, DeclaredBelow marker r.next r.below d ∧
    result = .bound ⟨unit.id, ⟨ordinal, r.first.number⟩, r.lines, d⟩) ∨
  (∀ d, ¬DeclaredBelow marker r.next r.below d) ∧ result = .discarded ⟨unit.id, r.first.number⟩

/-- The first line starts the declaration itself, or it is passed over. -/
theorem declaredBelow_cons_iff {marker first : String} {number : Nat} {lines : List String}
    {d : Declaration} :
    DeclaredBelow marker number (first :: lines) d ↔
      (IsCode marker first ∧ Declaration.recognize (first :: lines) number = some d) ∨
      (PassedOver marker first ∧ DeclaredBelow marker (number + 1) lines d) := by
  have hnumber : ∀ between : List String,
      number + (first :: between).length = number + 1 + between.length := by
    intro between
    rw [List.length_cons]
    omega
  constructor
  · rintro ⟨between, line, more, heq, hbetween, hline, hd⟩
    cases between with
    | nil =>
      cases heq
      exact .inl ⟨hline, hd⟩
    | cons l between =>
      cases heq
      obtain ⟨hl, hbetween⟩ := List.forall_mem_cons.1 hbetween
      exact .inr ⟨hl, between, line, more, rfl, hbetween, hline, hnumber between ▸ hd⟩
  · rintro (⟨hfirst, hd⟩ | ⟨hfirst, between, line, more, rfl, hbetween, hline, hd⟩)
    · exact ⟨[], first, lines, rfl, by simp, hfirst, hd⟩
    · exact ⟨first :: between, line, more, rfl, List.forall_mem_cons.2 ⟨hfirst, hbetween⟩, hline,
        (hnumber between).symm ▸ hd⟩

theorem declarationBelow_eq_some_iff {marker : String} {number : Nat} {lines : List String}
    {d : Declaration} :
    declarationBelow marker number lines = some d ↔ DeclaredBelow marker number lines d := by
  induction lines generalizing number with
  | nil =>
    constructor
    · intro h
      cases h
    · rintro ⟨between, line, more, hnil, -⟩
      simp at hnil
  | cons first lines ih =>
    rw [declaredBelow_cons_iff, ← ih, declarationBelow]
    rcases lineClass_cases marker first with
      ⟨hmarked, text, hclass⟩ | ⟨hpass, hclass⟩ | ⟨hcode, hclass⟩
    · have hcode : ¬IsCode marker first := fun h => h.1 hmarked
      have hpass : ¬PassedOver marker first := fun h => h.1 hmarked
      simp [hclass, hcode, hpass]
    · have hcode : ¬IsCode marker first := fun h => h.2 hpass.2
      rcases hclass with hclass | hclass <;> simp [hclass, hcode, hpass]
    · have hpass : ¬PassedOver marker first := fun h => hcode.2 h.2
      simp [hclass, hcode, hpass]

theorem MarkerRun.yields_finding (unit : SourceUnit) (ordinal : Nat) (marker : String)
    (r : MarkerRun) : r.Yields unit ordinal marker (r.finding unit ordinal marker) := by
  simp only [Yields, ← declarationBelow_eq_some_iff, finding]
  cases declarationBelow marker r.next r.below with
  | some d => exact .inl ⟨d, rfl, rfl⟩
  | none =>
    right
    simp

/-- Extraction goes run by run. The runs of marker lines of a unit, in order, lead to one result
each: a block with exactly the lines of the run if a declaration stands below it, otherwise a
warning at its first line. There are no other blocks and warnings, so blocks come in order of their
first lines and share no line. -/
theorem Block.one_finding_per_run (unit : SourceUnit) (ordinal : Nat) (marker : String) :
    ∃ (runs : List MarkerRun) (results : List Block.Finding),
      (∀ r, r ∈ runs ↔ r.IsRunOf marker (Text.lines unit.text)) ∧
      runs.Pairwise (fun r s => r.next < s.first.number) ∧
      List.Forall₂ (MarkerRun.Yields unit ordinal marker) runs results ∧
      Block.ofUnit unit ordinal marker = results.filterMap Finding.block? ∧
      Block.discarded unit ordinal marker = results.filterMap Finding.warning? ∧
      (Block.ofUnit unit ordinal marker).Pairwise fun a b =>
        a.place.line < b.place.line ∧ ∀ l ∈ a.lines, ∀ m ∈ b.lines, l.number < m.number := by
  have hruns : ∀ r, r ∈ markerRuns marker 1 (Text.lines unit.text) ↔
      r.IsRunOf marker (Text.lines unit.text) := fun r => MarkerRun.isRunOf_iff.symm
  have hpairwise : (markerRuns marker 1 (Text.lines unit.text)).Pairwise
      fun r s => r.next < s.first.number := by
    refine (pairwise_markerRuns marker 1 (Text.lines unit.text)).imp_of_mem ?_
    intro r s hr hs habove
    exact ((hruns r).1 hr).next_lt ((hruns s).1 hs) habove.1
  refine ⟨_, findings unit ordinal marker, hruns, hpairwise, ?_, rfl, rfl, ?_⟩
  · rw [findings_eq_map, List.forall₂_map_right_iff, List.forall₂_same]
    exact fun r _ => r.yields_finding unit ordinal marker
  · rw [ofUnit, findings_eq_map, List.filterMap_map, List.pairwise_filterMap]
    refine hpairwise.imp_of_mem ?_
    intro r s hr hs hlt a ha b hb
    rw [Function.comp_apply, MarkerRun.block?_finding, Option.map_eq_some_iff] at ha hb
    obtain ⟨d, -, rfl⟩ := ha
    obtain ⟨d', -, rfl⟩ := hb
    have hfirst := ((hruns r).1 hr).number_lt List.mem_cons_self
    refine ⟨Nat.lt_trans hfirst.2 hlt, fun l hl m hm => ?_⟩
    have hl := ((hruns r).1 hr).number_lt hl
    have hm := ((hruns s).1 hs).number_lt hm
    omega

end DocTopics
