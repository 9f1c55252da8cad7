import DocTopics.Proofs.SourceOrder
import DocTopics.Proofs.UnitOrder

/-!
# Include directives and the collation order

A word of an include directive means the unit of that identifier, or else the only unit of that file
name. The unit it means is loaded before the unit that holds the directive; a word that means no
unit is reported. Directives that form a circle make a run fail.

## Main definitions

- `MeansUnit` — the unit that a word of a directive means
- `Inputs.Includes` — a unit holds a directive that means another

## Main statements

- `resolveUnit_eq_some_iff` — how directives are resolved
- `generate_respects_includes` — where directives show in a manual
-/

namespace DocTopics

/-- The word is the identifier of the unit, or no identifier at all and the last component of this
unit only. -/
def MeansUnit (units : List String) (word unit : String) : Prop :=
  (word ∈ units ∧ unit = word) ∨
    (word ∉ units ∧ unit ∈ units ∧ lastComponent unit = word ∧
      ∀ other ∈ units, lastComponent other = word → other = unit)

instance (units : List String) (word unit : String) : Decidable (MeansUnit units word unit) :=
  inferInstanceAs (Decidable (_ ∨ _))

theorem MeansUnit.mem {units : List String} {word unit : String} (h : MeansUnit units word unit) :
    unit ∈ units := by
  rcases h with ⟨hword, rfl⟩ | ⟨-, hunit, -⟩
  · exact hword
  · exact hunit

theorem resolveUnit_eq_some_iff {units : List String} (hunits : units.Nodup)
    {word unit : String} : resolveUnit word units = some unit ↔ MeansUnit units word unit := by
  have honly : (∃ only, (units.filter fun u => lastComponent u == word) = [only] ∧ only = unit) ↔
      unit ∈ units ∧ lastComponent unit = word ∧
        ∀ other ∈ units, lastComponent other = word → other = unit := by
    simp only [exists_eq_right, filter_eq_singleton_iff hunits, beq_iff_eq]
  rw [resolveUnit, MeansUnit]
  by_cases hword : word ∈ units
  · simp [hword, eq_comm]
  · rw [if_neg (by simpa using hword), ← honly]
    simp only [hword, false_and, false_or, not_false_eq_true, true_and]
    split
    · rename_i only hfilter
      simp [hfilter]
    · rename_i hother
      simp only [reduceCtorEq, false_iff]
      rintro ⟨only, hfilter, -⟩
      exact hother only hfilter

namespace Inputs

/-- A block of the unit `after` holds a directive with a word that means the unit `before`. -/
def Includes (inputs : Inputs) (before after : String) : Prop :=
  ∃ x ∈ inputs.blocks, x.1.unit = after ∧ ∃ t ∈ x.2.tags, t.name = "include" ∧
    ∃ word ∈ Text.words t.content, MeansUnit inputs.unitIds word before

variable {inputs : Inputs}

theorem unit_mem_unitIds {x : Block × Comment} (hx : x ∈ inputs.blocks) :
    x.1.unit ∈ inputs.unitIds := by
  obtain ⟨unit, ordinal, hunit, hb, -⟩ := mem_blocks_iff.1 hx
  rw [(Block.unit_of_mem_ofUnit hb).1]
  exact List.mem_map_of_mem (List.mem_of_getElem? hunit)

theorem mem_includes {x : Block × Comment} (hx : x ∈ inputs.blocks) {t : Tag} (ht : t ∈ x.2.tags)
    (hname : t.name = "include") {word : String} (hword : word ∈ Text.words t.content) :
    (x.1.unit, ⟨word, t.line⟩) ∈ inputs.includes := by
  refine List.mem_flatMap.2 ⟨x, hx, List.mem_map_of_mem (List.mem_flatMap.2 ⟨t, ?_, ?_⟩)⟩
  · exact List.mem_filter.2 ⟨ht, beq_iff_eq.2 hname⟩
  · exact List.mem_map_of_mem hword

/-- What a directive means has to precede the unit that holds it. -/
theorem requires_of_means (hids : inputs.unitIds.Nodup) {x : Block × Comment}
    (hx : x ∈ inputs.blocks) {t : Tag} (ht : t ∈ x.2.tags) (hname : t.name = "include")
    {word unit : String} (hword : word ∈ Text.words t.content)
    (hmeans : MeansUnit inputs.unitIds word unit) :
    Requires inputs.unitIds (includeEdges inputs.unitIds inputs.includes) unit x.1.unit := by
  refine ⟨mem_includeEdges.2 ⟨_, mem_includes hx ht hname hword, ?_, rfl⟩, hmeans.mem,
    unit_mem_unitIds hx⟩
  exact (resolveUnit_eq_some_iff hids).2 hmeans

theorem mem_includeFaults (hids : inputs.unitIds.Nodup) {x : Block × Comment}
    (hx : x ∈ inputs.blocks) {t : Tag} (ht : t ∈ x.2.tags) (hname : t.name = "include")
    {word : String} (hword : word ∈ Text.words t.content)
    (hnone : ∀ unit, ¬MeansUnit inputs.unitIds word unit) :
    Diagnostic.warning ⟨x.1.unit, t.line⟩ (ticked ("@include " ++ word) ++ ": no such unit") ∈
      includeFaults inputs.unitIds inputs.includes := by
  have hresolve : (resolveUnit word inputs.unitIds).isNone = true := by
    rw [Option.isNone_iff_eq_none, Option.eq_none_iff_forall_ne_some]
    intro unit hunit
    exact hnone unit ((resolveUnit_eq_some_iff hids).1 hunit)
  have hmem := mem_includes hx ht hname hword
  exact List.mem_map_of_mem (f := fun i : String × Include => Diagnostic.warning ⟨i.1, i.2.line⟩
    (ticked ("@include " ++ i.2.unit) ++ ": no such unit")) (List.mem_filter.2 ⟨hmem, hresolve⟩)

end Inputs

/-- The collation order of a manual holds every unit once. The unit that a word of a directive means
stands before the unit of the directive, also when its block has no topic; a word that means no unit
is reported at the line of its tag. Where directives form a circle there is no manual. -/
theorem generate_respects_includes {inputs : Inputs} (hids : inputs.unitIds.Nodup) :
    (∀ m, generate inputs = .ok m →
      m.collation.Perm inputs.unitIds ∧
      ∀ x ∈ inputs.blocks, ∀ t ∈ x.2.tags, t.name = "include" →
        ∀ word ∈ Text.words t.content,
          (∀ unit, MeansUnit inputs.unitIds word unit →
            m.collation.idxOf unit < m.collation.idxOf x.1.unit) ∧
          ((∀ unit, ¬MeansUnit inputs.unitIds word unit) →
            Diagnostic.warning ⟨x.1.unit, t.line⟩
              (ticked ("@include " ++ word) ++ ": no such unit") ∈ m.diagnostics)) ∧
    ∀ unit, Relation.TransGen inputs.Includes unit unit → ∀ m, generate inputs ≠ .ok m := by
  constructor
  · intro m h
    obtain ⟨merged, hm⟩ := exists_generated h
    obtain ⟨merged', hperm⟩ := exists_perm_diagnostics h
    refine ⟨perm_of_collationOf hm.collation, ?_⟩
    intro x hx t ht hname word hword
    constructor
    · intro unit hmeans
      have hrequires := Inputs.requires_of_means hids hx ht hname hword hmeans
      exact respectsEdges_of_collationOf hids hm.collation unit x.1.unit hrequires
    · intro hnone
      have hfault := Inputs.mem_includeFaults hids hx ht hname hword hnone
      exact hperm.mem_iff.2 (List.mem_append_right _ hfault)
  · intro unit hcircle m h
    obtain ⟨merged, hm⟩ := exists_generated h
    have hfree := (collationOf_eq_ok_iff.1 hm.collation).1
    -- a circle of directives is one of edges between units, and these have none
    refine hfree unit (hcircle.lift id ?_)
    rintro before after ⟨x, hx, rfl, t, ht, hname, word, hword, hmeans⟩
    exact Inputs.requires_of_means hids hx ht hname hword hmeans

/-- A unit that wants two others loaded first, one of which does not exist. -/
def includeTwo : Inputs :=
  { units := [⟨"R/a.R", "#' @include b.R c.R\nNULL\n"⟩, ⟨"R/b.R", ""⟩] }

theorem respects_includeTwo :
    includeTwo.unitIds.Nodup ∧
    ∃ m, generate includeTwo = .ok m ∧ m.collation.Perm ["R/a.R", "R/b.R"] ∧
      m.collation.idxOf "R/b.R" < m.collation.idxOf "R/a.R" ∧
      Diagnostic.warning ⟨"R/a.R", 1⟩ "`@include c.R`: no such unit" ∈ m.diagnostics := by
  have hids : includeTwo.unitIds.Nodup := by decide +kernel
  have heval : (generate includeTwo).toOption.map (fun _ => true) = some true := by decide +kernel
  obtain ⟨m, hm, -⟩ := toOption_map_eq_some_iff.1 heval
  have hblock : includeTwo.blocks =
      [(⟨"R/a.R", ⟨0, 1⟩, [⟨1, "@include b.R c.R"⟩], { kind := .sentinel .null, line := 2 }⟩,
        ⟨"", [⟨"include", "b.R c.R", 1⟩]⟩)] := by decide +kernel
  obtain ⟨hperm, hwords⟩ := (generate_respects_includes hids).1 m hm
  rw [hblock] at hwords
  have hwords := hwords _ List.mem_cons_self _ List.mem_cons_self rfl
  refine ⟨hids, m, hm, hperm, ?_, ?_⟩
  · exact (hwords "b.R" (by decide +kernel)).1 "R/b.R" (by decide +kernel)
  · refine (hwords "c.R" (by decide +kernel)).2 fun unit hmeans => ?_
    have hunit : unit ∈ ["R/a.R", "R/b.R"] := hmeans.mem
    rcases List.mem_pair.1 hunit with rfl | rfl
    · exact absurd hmeans (by decide +kernel)
    · exact absurd hmeans (by decide +kernel)

end DocTopics
