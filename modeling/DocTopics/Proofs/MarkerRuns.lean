import DocTopics.Block
import Mathlib.Data.List.Forall2
import Mathlib.Data.List.Nodup

/-!
# The runs of marker lines of a unit

The marker lines of a unit fall into maximal runs of consecutive lines. A scan has exactly one
finding for each of them, in order, and which finding it is depends on the lines below the run only:
the first of them that is neither blank nor a plain comment has to start a declaration.

## Main definitions

- `MarkerRun`, `markerRuns` — the maximal runs of marker lines
- `MarkerRun.IsMaximal` — the same, said without the order of the runs
- `declarationBelow` — the declaration that a run is bound to, if any

## Main statements

- `mem_markerRuns_iff` — the runs are the maximal ones
- `findings_eq_map` — one finding per run, in order
-/

namespace DocTopics

/-- Consecutive marker lines, and the lines below them with the number of the first. -/
structure MarkerRun where
  first : NumberedLine
  rest : List NumberedLine
  next : Nat
  below : List String

/-- The marker lines of a run. -/
def MarkerRun.lines (r : MarkerRun) : List NumberedLine :=
  r.first :: r.rest

/-- Puts a run in front of later ones; a run that starts right below it goes on with it. -/
def MarkerRun.join (r : MarkerRun) : List MarkerRun → List MarkerRun
  | [] => [r]
  | s :: later =>
    if s.first.number = r.next then ⟨r.first, r.rest ++ s.lines, s.next, s.below⟩ :: later
    else r :: s :: later

/-- The documentation on a line, if it is a marker line. -/
def markerLine? (marker : String) (number : Nat) (line : String) : Option NumberedLine :=
  match LineClass.of marker line with
  | .marker text => some ⟨number, Text.trimEnd text⟩
  | _ => none

/-- The line is a marker line. -/
def IsMarkerLine (marker line : String) : Prop :=
  ∃ text, LineClass.of marker line = .marker text

/-- The maximal runs of marker lines, for lines that are numbered from `number` on. -/
def markerRuns (marker : String) (number : Nat) : List String → List MarkerRun
  | [] => []
  | line :: below =>
    match markerLine? marker number line with
    | some entry =>
      MarkerRun.join ⟨entry, [], number + 1, below⟩ (markerRuns marker (number + 1) below)
    | none => markerRuns marker (number + 1) below

/-- The declaration on the first line that is neither blank nor a plain comment. -/
def declarationBelow (marker : String) (number : Nat) : List String → Option Declaration
  | [] => none
  | line :: below =>
    match LineClass.of marker line with
    | .marker _ => none
    | .code => Declaration.recognize (line :: below) number
    | _ => declarationBelow marker (number + 1) below

/-- What becomes of a run of a unit. -/
def MarkerRun.finding (unit : SourceUnit) (ordinal : Nat) (marker : String) (r : MarkerRun) :
    Block.Finding :=
  match declarationBelow marker r.next r.below with
  | some d => .bound ⟨unit.id, ⟨ordinal, r.first.number⟩, r.lines, d⟩
  | none => .discarded ⟨unit.id, r.first.number⟩

/-! ### One finding per run -/

/-- A run goes on with the next one, or it stands in front of all. -/
theorem MarkerRun.join_cases (r : MarkerRun) (later : List MarkerRun) :
    (∃ s others, later = s :: others ∧ s.first.number = r.next ∧
      r.join later = ⟨r.first, r.rest ++ s.lines, s.next, s.below⟩ :: others) ∨
    (∀ s ∈ later.head?, s.first.number ≠ r.next) ∧ r.join later = r :: later := by
  cases later with
  | nil => exact .inr ⟨by simp, rfl⟩
  | cons s others =>
    by_cases hs : s.first.number = r.next
    · exact .inl ⟨s, others, rfl, hs, by rw [join, if_pos hs]⟩
    · exact .inr ⟨by simpa using hs, by rw [join, if_neg hs]⟩

theorem MarkerRun.join_eq_cons (r : MarkerRun) (later : List MarkerRun)
    (h : ∀ s ∈ later, r.next < s.first.number) : r.join later = r :: later := by
  rcases r.join_cases later with ⟨s, others, rfl, hs, -⟩ | ⟨-, hjoin⟩
  · have := h s List.mem_cons_self
    omega
  · exact hjoin

/-- A run that is joined to one line and what follows is joined to all of it. -/
theorem MarkerRun.join_join (r : MarkerRun) (entry : NumberedLine) (next : Nat)
    (below : List String) (later : List MarkerRun) (h : entry.number = r.next) :
    r.join (MarkerRun.join ⟨entry, [], next, below⟩ later) =
      MarkerRun.join ⟨r.first, r.rest ++ [entry], next, below⟩ later := by
  cases later with
  | nil => simp [join, h, MarkerRun.lines]
  | cons s later =>
    by_cases hs : s.first.number = next
    · simp [join, h, hs, MarkerRun.lines]
    · simp [join, h, hs, MarkerRun.lines]

theorem MarkerRun.head?_join (r : MarkerRun) (later : List MarkerRun) :
    ∃ s ∈ (r.join later).head?, s.first = r.first := by
  rcases r.join_cases later with ⟨s, others, -, -, hjoin⟩ | ⟨-, hjoin⟩
  · rw [hjoin]
    exact ⟨_, rfl, rfl⟩
  · rw [hjoin]
    exact ⟨_, rfl, rfl⟩

theorem MarkerRun.mem_join {r s : MarkerRun} {later : List MarkerRun}
    (hs : s.first.number ≠ r.next) (h : s ∈ later) : s ∈ r.join later := by
  rcases r.join_cases later with ⟨t, others, rfl, ht, hjoin⟩ | ⟨-, hjoin⟩
  · rw [hjoin]
    rcases List.mem_cons.1 h with rfl | h
    · exact absurd ht hs
    · exact List.mem_cons_of_mem _ h
  · rw [hjoin]
    exact List.mem_cons_of_mem r h

theorem MarkerRun.exists_mem_join (r : MarkerRun) {s : MarkerRun} {later : List MarkerRun}
    (h : s ∈ later) : ∃ t ∈ r.join later, s.lines ⊆ t.lines := by
  rcases r.join_cases later with ⟨t, others, rfl, -, hjoin⟩ | ⟨-, hjoin⟩
  · rw [hjoin]
    rcases List.mem_cons.1 h with rfl | h
    · refine ⟨_, List.mem_cons_self, fun entry hentry => ?_⟩
      exact List.mem_cons_of_mem _ (List.mem_append_right _ hentry)
    · exact ⟨s, List.mem_cons_of_mem _ h, List.Subset.refl _⟩
  · rw [hjoin]
    exact ⟨s, List.mem_cons_of_mem r h, List.Subset.refl _⟩

theorem le_first_of_mem_join {r s : MarkerRun} {later : List MarkerRun} {number : Nat}
    (hr : number ≤ r.first.number) (hlater : ∀ s ∈ later, number ≤ s.first.number)
    (h : s ∈ r.join later) : number ≤ s.first.number := by
  rcases r.join_cases later with ⟨t, others, rfl, -, hjoin⟩ | ⟨-, hjoin⟩
  · rw [hjoin] at h
    rcases List.mem_cons.1 h with rfl | h
    · exact hr
    · exact hlater s (List.mem_cons_of_mem t h)
  · rw [hjoin] at h
    rcases List.mem_cons.1 h with rfl | h
    · exact hr
    · exact hlater s h

theorem number_markerLine? {marker line : String} {number : Nat} {entry : NumberedLine}
    (h : markerLine? marker number line = some entry) : entry.number = number := by
  rw [markerLine?] at h
  split at h
  · cases h
    rfl
  · cases h

theorem le_first_of_mem_markerRuns {marker : String} {number : Nat} {lines : List String}
    {r : MarkerRun} (h : r ∈ markerRuns marker number lines) : number ≤ r.first.number := by
  induction lines generalizing number r with
  | nil => cases h
  | cons line below ih =>
    rw [markerRuns] at h
    split at h
    · rename_i entry hentry
      refine le_first_of_mem_join (Nat.le_of_eq (number_markerLine? hentry).symm) ?_ h
      intro s hs
      exact Nat.le_of_succ_le (ih hs)
    · exact Nat.le_of_succ_le (ih h)

section Scan

variable (unit : SourceUnit) (ordinal : Nat) (marker : String)

theorem finding_of_none (r : MarkerRun) (h : declarationBelow marker r.next r.below = none) :
    [r.finding unit ordinal marker] = Block.discard unit r.lines := by
  rw [MarkerRun.finding, h]
  rfl

theorem finding_of_code (first : NumberedLine) (rest : List NumberedLine) (number : Nat)
    {line : String} (below : List String) (h : LineClass.of marker line = .code) :
    [MarkerRun.finding unit ordinal marker ⟨first, rest, number, line :: below⟩] =
      Block.settle unit ordinal number (line :: below) (first :: rest) := by
  simp only [MarkerRun.finding, declarationBelow, h, Block.settle]
  split <;> simp_all [MarkerRun.lines, Block.discard]

/-- The findings of a scan. With no open run they are those of the runs below; the finding of a
closed run stands in front of them; an open run is joined to the first of them. -/
theorem scan_markerRuns (lines : List String) (number : Nat) :
    Block.scan unit ordinal marker number [] false lines =
      (markerRuns marker number lines).map (MarkerRun.finding unit ordinal marker) ∧
    ∀ first rest,
      Block.scan unit ordinal marker number (first :: rest) true lines =
        (⟨first, rest, number, lines⟩ :: markerRuns marker number lines).map
          (MarkerRun.finding unit ordinal marker) ∧
      Block.scan unit ordinal marker number (first :: rest) false lines =
        (MarkerRun.join ⟨first, rest, number, lines⟩ (markerRuns marker number lines)).map
          (MarkerRun.finding unit ordinal marker) := by
  induction lines generalizing number with
  | nil =>
    have hend := fun first rest => finding_of_none unit ordinal marker ⟨first, rest, number, []⟩ rfl
    exact ⟨rfl, fun first rest => ⟨(hend first rest).symm, (hend first rest).symm⟩⟩
  | cons line below ih =>
    obtain ⟨hnone, hsome⟩ := ih (number + 1)
    -- the runs further down do not start on this line, so an open run is not joined to them
    have hends := fun first rest => MarkerRun.join_eq_cons ⟨first, rest, number, line :: below⟩
      (markerRuns marker (number + 1) below) fun s hs => le_first_of_mem_markerRuns hs
    cases hclass : LineClass.of marker line with
    | marker text =>
      simp only [Block.scan, markerRuns, markerLine?, hclass, if_true, List.nil_append]
      refine ⟨(hsome _ []).2, fun first rest => ⟨?_, ?_⟩⟩
      · have hdiscard := finding_of_none unit ordinal marker ⟨first, rest, number, line :: below⟩
          (by simp only [declarationBelow, hclass])
        rw [(hsome _ []).2]
        exact congrArg (· ++ _) hdiscard.symm
      · rw [MarkerRun.join_join _ _ _ _ _ rfl, ← (hsome _ _).2]
        rfl
    | code =>
      simp only [Block.scan, markerRuns, markerLine?, hclass, hends, List.map_cons]
      refine ⟨hnone, fun first rest => ?_⟩
      rw [hnone, ← finding_of_code unit ordinal marker first rest number below hclass]
      exact ⟨rfl, rfl⟩
    | comment | blank =>
      have hskip : ∀ first rest,
          MarkerRun.finding unit ordinal marker ⟨first, rest, number, line :: below⟩ =
            MarkerRun.finding unit ordinal marker ⟨first, rest, number + 1, below⟩ := by
        intro first rest
        simp only [MarkerRun.finding, declarationBelow, hclass]
        rfl
      simp only [Block.scan, markerRuns, markerLine?, hclass, hends, List.map_cons, hskip]
      exact ⟨hnone, fun first rest => ⟨(hsome first rest).1, (hsome first rest).1⟩⟩

end Scan

theorem findings_eq_map (unit : SourceUnit) (ordinal : Nat) (marker : String) :
    Block.findings unit ordinal marker =
      (markerRuns marker 1 (Text.lines unit.text)).map (MarkerRun.finding unit ordinal marker) :=
  (scan_markerRuns unit ordinal marker _ 1).1

/-! ### The order of the runs -/

/-- A run starts below the first line of another, and below the declaration that one is bound to. -/
def MarkerRun.StandsAbove (marker : String) (r s : MarkerRun) : Prop :=
  r.first.number < s.first.number ∧
    ∀ d, declarationBelow marker r.next r.below = some d → d.line < s.first.number

theorem Declaration.line_ofStatement {stmt : List Char} {number : Nat} {d : Declaration}
    (h : ofStatement stmt number = some d) : d.line = number := by
  unfold ofStatement at h
  split at h
  · cases h
    rfl
  · split at h
    · cases h
      rfl
    · split at h
      · cases h
        rfl
      · obtain ⟨name, -, rfl⟩ := Option.map_eq_some_iff.1 h
        rfl

theorem Declaration.line_recognize {lines : List String} {number : Nat} {d : Declaration}
    (h : recognize lines number = some d) : d.line = number := by
  cases lines with
  | nil => cases h
  | cons line below =>
    simp only [recognize] at h
    split at h
    · cases h
      rfl
    · cases hstmt : ofStatement (statement (line :: below)) number with
      | some d' =>
        rw [hstmt] at h
        cases h
        exact line_ofStatement hstmt
      | none =>
        rw [hstmt] at h
        obtain ⟨name, -, rfl⟩ := Option.map_eq_some_iff.1 h
        rfl

theorem line_declarationBelow {marker : String} {number : Nat} {lines : List String}
    {d : Declaration} (h : declarationBelow marker number lines = some d) :
    number ≤ d.line ∧ ∀ s ∈ markerRuns marker number lines, d.line < s.first.number := by
  induction lines generalizing number with
  | nil => cases h
  | cons line below ih =>
    simp only [declarationBelow] at h
    simp only [markerRuns, markerLine?]
    cases hclass : LineClass.of marker line with
    | marker text =>
      rw [hclass] at h
      cases h
    | code =>
      rw [hclass] at h
      have hline : d.line = number := Declaration.line_recognize h
      rw [hline]
      exact ⟨Nat.le_refl number, fun s hs => le_first_of_mem_markerRuns hs⟩
    | comment | blank =>
      rw [hclass] at h
      obtain ⟨hle, hlt⟩ := ih h
      exact ⟨Nat.le_of_succ_le hle, hlt⟩

theorem pairwise_join {marker : String} {r : MarkerRun} {later : List MarkerRun}
    (hr : ∀ s ∈ later, r.StandsAbove marker s) (h : later.Pairwise (MarkerRun.StandsAbove marker)) :
    (r.join later).Pairwise (MarkerRun.StandsAbove marker) := by
  rcases r.join_cases later with ⟨s, others, rfl, -, hjoin⟩ | ⟨-, hjoin⟩
  · obtain ⟨hs, hothers⟩ := List.pairwise_cons.1 h
    rw [hjoin]
    refine List.pairwise_cons.2 ⟨fun t ht => ⟨?_, (hs t ht).2⟩, hothers⟩
    exact Nat.lt_trans (hr s List.mem_cons_self).1 (hs t ht).1
  · rw [hjoin]
    exact List.pairwise_cons.2 ⟨hr, h⟩

theorem pairwise_markerRuns (marker : String) (number : Nat) (lines : List String) :
    (markerRuns marker number lines).Pairwise (MarkerRun.StandsAbove marker) := by
  induction lines generalizing number with
  | nil => exact List.Pairwise.nil
  | cons line below ih =>
    rw [markerRuns]
    split
    · rename_i entry hentry
      refine pairwise_join (fun s hs => ⟨?_, fun d hd => (line_declarationBelow hd).2 s hs⟩) (ih _)
      have hle := le_first_of_mem_markerRuns hs
      have hnumber := number_markerLine? hentry
      simp only
      omega
    · exact ih _

theorem MarkerRun.eq_of_first {marker : String} {number : Nat} {lines : List String}
    {r s : MarkerRun} (hr : r ∈ markerRuns marker number lines)
    (hs : s ∈ markerRuns marker number lines) (h : r.first.number = s.first.number) : r = s := by
  have hnodup : ((markerRuns marker number lines).map (·.first.number)).Nodup :=
    List.pairwise_map.2 ((pairwise_markerRuns marker number lines).imp fun h => Nat.ne_of_lt h.1)
  exact List.inj_on_of_nodup_map hnodup hr hs h

/-! ### Maximality -/

/-- The lines, numbered from `number` on, are marker lines with the given entries. -/
def HoldEntries (marker : String) (number : Nat) (lines : List String)
    (entries : List NumberedLine) : Prop :=
  List.Forall₂ (fun entry line => markerLine? marker line.2 line.1 = some entry)
    entries (lines.zipIdx number)

/-- A run is maximal: its lines are consecutive marker lines, and the lines right above and right
below it, where there are such, are not. -/
def MarkerRun.IsMaximal (marker : String) (number : Nat) (lines : List String) (r : MarkerRun) :
    Prop :=
  ∃ above within, lines = above ++ (within ++ r.below) ∧
    r.next = number + above.length + within.length ∧
    HoldEntries marker (number + above.length) within r.lines ∧
    (∀ line ∈ above.getLast?, ¬IsMarkerLine marker line) ∧
    ∀ line ∈ r.below.head?, ¬IsMarkerLine marker line

theorem markerLine?_eq_none_iff {marker line : String} {number : Nat} :
    markerLine? marker number line = none ↔ ¬IsMarkerLine marker line := by
  unfold markerLine? IsMarkerLine
  cases LineClass.of marker line <;> simp

theorem holdEntries_cons_iff {marker line : String} {number : Nat} {more : List String}
    {first : NumberedLine} {rest : List NumberedLine} :
    HoldEntries marker number (line :: more) (first :: rest) ↔
      markerLine? marker number line = some first ∧ HoldEntries marker (number + 1) more rest := by
  rw [HoldEntries, List.zipIdx_cons, List.forall₂_cons]
  rfl

theorem HoldEntries.exists_cons {marker : String} {number : Nat} {within : List String}
    {first : NumberedLine} {rest : List NumberedLine}
    (h : HoldEntries marker number within (first :: rest)) :
    ∃ line more, within = line :: more ∧ first.number = number := by
  cases within with
  | nil => cases h
  | cons line more => exact ⟨line, more, rfl, number_markerLine? (holdEntries_cons_iff.1 h).1⟩

theorem MarkerRun.IsMaximal.first_lt_next {marker : String} {number : Nat} {lines : List String}
    {r : MarkerRun} (h : r.IsMaximal marker number lines) : r.first.number < r.next := by
  obtain ⟨above, within, -, hnext, hwithin, -, -⟩ := h
  obtain ⟨line, more, rfl, hfirst⟩ := hwithin.exists_cons
  rw [List.length_cons] at hnext
  omega

/-- A run that does not start on the first line is as maximal with one more line above. -/
theorem MarkerRun.IsMaximal.cons {marker line : String} {number : Nat} {below : List String}
    {r : MarkerRun} (h : r.IsMaximal marker (number + 1) below)
    (hline : IsMarkerLine marker line → r.first.number ≠ number + 1) :
    r.IsMaximal marker number (line :: below) := by
  obtain ⟨above, within, rfl, hnext, hwithin, habove, hbelow⟩ := h
  have hlength : number + (line :: above).length = number + 1 + above.length := by
    rw [List.length_cons]
    omega
  refine ⟨line :: above, within, rfl, by omega, by rwa [hlength], ?_, hbelow⟩
  cases above with
  | nil =>
    obtain ⟨-, -, -, hfirst⟩ := hwithin.exists_cons
    intro l hl
    cases hl
    intro hmarker
    exact hline hmarker hfirst
  | cons l above =>
    rw [List.getLast?_cons_cons]
    exact habove

/-- A marker line right above a run goes on with it. -/
theorem MarkerRun.IsMaximal.extend {marker line : String} {number : Nat} {below : List String}
    {s : MarkerRun} {entry : NumberedLine} (h : s.IsMaximal marker (number + 1) below)
    (hs : s.first.number = number + 1) (hentry : markerLine? marker number line = some entry) :
    IsMaximal marker number (line :: below) ⟨entry, s.lines, s.next, s.below⟩ := by
  obtain ⟨above, within, rfl, hnext, hwithin, -, hbelow⟩ := h
  obtain ⟨-, -, -, hfirst⟩ := hwithin.exists_cons
  have habove : above = [] := List.eq_nil_of_length_eq_zero (by omega)
  subst habove
  refine ⟨[], line :: within, rfl, ?_, holdEntries_cons_iff.2 ⟨hentry, hwithin⟩, by simp, hbelow⟩
  simp only [List.length_cons, List.length_nil] at hnext ⊢
  omega

theorem lt_first_of_mem_markerRuns {marker : String} {number : Nat} {lines : List String}
    (hlines : ∀ line ∈ lines.head?, ¬IsMarkerLine marker line) {r : MarkerRun}
    (h : r ∈ markerRuns marker number lines) : number < r.first.number := by
  cases lines with
  | nil => cases h
  | cons line below =>
    have hline : markerLine? marker number line = none :=
      markerLine?_eq_none_iff.2 (hlines line rfl)
    rw [markerRuns, hline] at h
    exact le_first_of_mem_markerRuns h

theorem exists_markerRuns_cons {marker line : String} (number : Nat) (below : List String)
    (hline : IsMarkerLine marker line) :
    ∃ r ∈ (markerRuns marker number (line :: below)).head?, r.first.number = number := by
  obtain ⟨text, htext⟩ := hline
  have hentry : markerLine? marker number line = some ⟨number, Text.trimEnd text⟩ := by
    rw [markerLine?, htext]
  obtain ⟨r, hr, hfirst⟩ :=
    MarkerRun.head?_join ⟨⟨number, Text.trimEnd text⟩, [], number + 1, below⟩
      (markerRuns marker (number + 1) below)
  refine ⟨r, ?_, by rw [hfirst]⟩
  rw [markerRuns, hentry]
  exact hr

theorem isMaximal_of_mem_markerRuns {marker : String} {number : Nat} {lines : List String}
    {r : MarkerRun} (h : r ∈ markerRuns marker number lines) : r.IsMaximal marker number lines := by
  induction lines generalizing number r with
  | nil => cases h
  | cons line below ih =>
    have hpairwise := pairwise_markerRuns marker (number + 1) below
    rw [markerRuns] at h
    split at h
    · rename_i entry hentry
      rcases MarkerRun.join_cases ⟨entry, [], number + 1, below⟩
        (markerRuns marker (number + 1) below) with ⟨s, others, hruns, hs, hjoin⟩ | ⟨hhead, hjoin⟩
      · -- the run below starts on the next line, and goes on upwards with this one
        have hmaximal : ∀ t ∈ s :: others, t.IsMaximal marker (number + 1) below :=
          fun t ht => ih (hruns ▸ ht)
        rw [hjoin] at h
        rcases List.mem_cons.1 h with rfl | h
        · exact (hmaximal s List.mem_cons_self).extend hs hentry
        · have hlt := ((List.pairwise_cons.1 (hruns ▸ hpairwise)).1 r h).1
          simp only at hs
          exact (hmaximal r (List.mem_cons_of_mem s h)).cons fun _ => by omega
      · -- a marker line on the next line would start a run there
        have hbelow : ∀ l ∈ below.head?, ¬IsMarkerLine marker l := by
          intro l hl hmarker
          cases below with
          | nil => cases hl
          | cons l' more =>
            cases hl
            obtain ⟨s, hs, hnumber⟩ := exists_markerRuns_cons (number + 1) more hmarker
            exact hhead s hs hnumber
        rw [hjoin] at h
        rcases List.mem_cons.1 h with rfl | h
        · exact ⟨[], [line], rfl, rfl, .cons hentry .nil, by simp, hbelow⟩
        · have hlt := lt_first_of_mem_markerRuns hbelow h
          exact (ih h).cons fun _ => by omega
    · rename_i hnone
      exact (ih h).cons fun hmarker => absurd hmarker (markerLine?_eq_none_iff.1 hnone)

/-- A maximal run at the start of the lines is the first run. -/
theorem markerRuns_append {marker : String} {number : Nat} {within below : List String}
    {first : NumberedLine} {rest : List NumberedLine}
    (hwithin : HoldEntries marker number within (first :: rest))
    (hbelow : ∀ line ∈ below.head?, ¬IsMarkerLine marker line) :
    markerRuns marker number (within ++ below) =
      ⟨first, rest, number + within.length, below⟩ ::
        markerRuns marker (number + within.length) below := by
  induction within generalizing number first rest with
  | nil => cases hwithin
  | cons line more ih =>
    obtain ⟨hline, hmore⟩ := holdEntries_cons_iff.1 hwithin
    rw [List.cons_append, markerRuns, hline]
    cases rest with
    | nil =>
      have hmore : more = [] := by simpa using List.forall₂_nil_left_iff.1 hmore
      subst hmore
      exact MarkerRun.join_eq_cons _ _ fun s hs => lt_first_of_mem_markerRuns hbelow hs
    | cons second rest =>
      obtain ⟨-, -, -, hsecond⟩ := hmore.exists_cons
      have hlength : number + 1 + more.length = number + (line :: more).length := by
        rw [List.length_cons]
        omega
      rw [ih hmore, hlength]
      simp only [MarkerRun.join, hsecond, if_true, MarkerRun.lines, List.nil_append]

theorem mem_markerRuns_of_isMaximal {marker : String} {number : Nat} {lines : List String}
    {r : MarkerRun} (h : r.IsMaximal marker number lines) : r ∈ markerRuns marker number lines := by
  obtain ⟨above, within, rfl, hnext, hwithin, habove, hbelow⟩ := h
  induction above generalizing number with
  | nil =>
    rw [List.length_nil, Nat.add_zero] at hnext hwithin
    rw [List.nil_append, markerRuns_append hwithin hbelow, ← hnext]
    exact List.mem_cons_self
  | cons line above ih =>
    have hlength : number + (line :: above).length = number + 1 + above.length := by
      rw [List.length_cons]
      omega
    rw [hlength] at hnext hwithin
    have hmem : r ∈ markerRuns marker (number + 1) (above ++ (within ++ r.below)) := by
      refine ih hnext hwithin fun l hl => ?_
      cases above with
      | nil => cases hl
      | cons l' above => exact habove l (by rwa [List.getLast?_cons_cons])
    rw [List.cons_append, markerRuns]
    split
    · rename_i entry hentry
      -- the line right above the run is no marker line, so it is another one
      have hne : above ≠ [] := by
        rintro rfl
        rw [markerLine?_eq_none_iff.2 (habove line rfl)] at hentry
        cases hentry
      obtain ⟨-, -, -, hfirst⟩ := hwithin.exists_cons
      have hpos := List.length_pos_iff.2 hne
      exact MarkerRun.mem_join (by simp only; omega) hmem
    · exact hmem

/-- The runs of a text are its maximal ones. -/
theorem mem_markerRuns_iff {marker : String} {number : Nat} {lines : List String} {r : MarkerRun} :
    r ∈ markerRuns marker number lines ↔ r.IsMaximal marker number lines :=
  ⟨isMaximal_of_mem_markerRuns, mem_markerRuns_of_isMaximal⟩

/-- Every marker line belongs to a run. -/
theorem exists_mem_markerRuns {marker line : String} {number i : Nat} {lines : List String}
    {entry : NumberedLine} (hline : lines[i]? = some line)
    (hentry : markerLine? marker (number + i) line = some entry) :
    ∃ r ∈ markerRuns marker number lines, entry ∈ r.lines := by
  induction lines generalizing number i with
  | nil => cases hline
  | cons l below ih =>
    rw [markerRuns]
    cases i with
    | zero =>
      cases hline
      rw [Nat.add_zero] at hentry
      rw [hentry]
      obtain ⟨s, hs, hfirst⟩ := MarkerRun.head?_join ⟨entry, [], number + 1, below⟩
        (markerRuns marker (number + 1) below)
      exact ⟨s, List.mem_of_mem_head? hs, List.mem_cons.2 (.inl hfirst.symm)⟩
    | succ i =>
      have hnumber : number + (i + 1) = number + 1 + i := by omega
      rw [hnumber] at hentry
      obtain ⟨s, hs, hmem⟩ := ih hline hentry
      split
      · obtain ⟨t, ht, hsub⟩ := MarkerRun.exists_mem_join _ hs
        exact ⟨t, ht, hsub hmem⟩
      · exact ⟨s, hs, hmem⟩

end DocTopics
