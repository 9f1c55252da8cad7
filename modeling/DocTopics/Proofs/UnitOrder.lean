import DocTopics.Alias.Table
import DocTopics.Proofs.CollationOrder
import DocTopics.Proofs.ExportList
import DocTopics.Proofs.Generation
import DocTopics.Proofs.TagReading

/-!
# The order of the units does not show

The place of a unit in the input decides the order in which topics are merged and claims are made.
It decides neither whether a run succeeds nor which keys the index holds nor what is exported: the
ordinal of a unit shows only in the places of its blocks, and what merging, indexing and collation
need to know of the units is the same for every permutation of them.

## Main definitions

- `SourceUnit.topics`, `SourceUnit.includes` — what a unit gives wherever it stands
-/

namespace DocTopics

/-! ### Units on their own -/

/-- The block with the ordinal of its unit changed. -/
def Block.inUnit (ordinal : Nat) (b : Block) : Block :=
  { b with place := { b.place with unit := ordinal } }

def Block.Finding.inUnit (ordinal : Nat) : Block.Finding → Block.Finding
  | .bound b => .bound (b.inUnit ordinal)
  | .discarded pos => .discarded pos

/-- The ordinal of a unit shows only in the places of its blocks. -/
theorem Block.scan_eq_map (unit : SourceUnit) (ordinal : Nat) (marker : String) (number : Nat)
    (run : List NumberedLine) (closed : Bool) (lines : List String) :
    Block.scan unit ordinal marker number run closed lines =
      (Block.scan unit 0 marker number run closed lines).map (Finding.inUnit ordinal) := by
  have hdiscard : ∀ run, (discard unit run).map (Finding.inUnit ordinal) = discard unit run := by
    intro run
    cases run <;> rfl
  have hsettle : ∀ number code run,
      (settle unit 0 number code run).map (Finding.inUnit ordinal) =
        settle unit ordinal number code run := by
    intro number code run
    cases run with
    | nil => rfl
    | cons first rest =>
      simp only [settle]
      split
      · rfl
      · exact hdiscard _
  induction lines generalizing number run closed with
  | nil => exact (hdiscard run).symm
  | cons line lines ih =>
    simp only [scan]
    split
    · split
      · rw [List.map_append, hdiscard, ih]
      · exact ih _ _ _
    · rw [List.map_append, hsettle, ih]
    · exact ih _ _ _

theorem Block.ofUnit_eq_map (unit : SourceUnit) (ordinal : Nat) (marker : String) :
    Block.ofUnit unit ordinal marker =
      (Block.ofUnit unit 0 marker).map (Block.inUnit ordinal) := by
  rw [ofUnit, findings, scan_eq_map, List.filterMap_map, ofUnit, List.map_filterMap]
  refine List.filterMap_congr fun x _ => ?_
  cases x <;> rfl

/-- The topics of the blocks of a unit, whatever the other units are. -/
def SourceUnit.topics (options : Options) (unit : SourceUnit) : List Topic :=
  (Block.ofUnit unit 0 options.marker).filterMap fun b =>
    Topic.ofComment b (Comment.ofBlock b) { package := options.package }

/-- The include directives of the blocks of a unit. -/
def SourceUnit.includes (options : Options) (unit : SourceUnit) : List (String × Include) :=
  (Block.ofUnit unit 0 options.marker).flatMap fun b =>
    (Comment.ofBlock b).includes.map fun i => (b.unit, i)

/-- The topic without its place. -/
def Topic.unplaced (t : Topic) : Topic :=
  { t with place := {} }

theorem Topic.eq_of_unplaced {t u : Topic} (h : t.unplaced = u.unplaced) :
    t.id = u.id ∧ t.docType = u.docType ∧ t.exported = u.exported ∧ t.subjects = u.subjects := by
  simp only [Topic.unplaced, Topic.mk.injEq] at h
  tauto

theorem flatMap_numbered {α β : Type} (xs : List α) (f : α → List β) :
    (numbered xs).flatMap (fun x => f x.1) = xs.flatMap f := by
  have hfst : (numbered xs).map Prod.fst = xs := List.map_fst_zip (by simp)
  rw [← List.flatMap_map, hfst]

/-- A topic differs from that of a renumbered block in its place only. -/
theorem map_unplaced_ofComment (ordinal : Nat) (b : Block) (c : Comment) (ctx : PackageContext) :
    (Topic.ofComment (b.inUnit ordinal) c ctx).map Topic.unplaced =
      (Topic.ofComment b c { package := ctx.package }).map Topic.unplaced := by
  have hsubject : subject (b.inUnit ordinal) c ctx = subject b c { package := ctx.package } := rfl
  simp only [Topic.ofComment, hsubject, Option.map_map, Function.comp_def, Topic.ofSubject_eq]
  rfl

namespace Inputs

theorem blocks_eq_flatMap (inputs : Inputs) :
    inputs.blocks = (numbered inputs.units).flatMap fun x =>
      ((Block.ofUnit x.1 0 inputs.options.marker).map (Block.inUnit x.2)).map fun b =>
        (b, Comment.ofBlock b) := by
  simp only [blocks, parsed, List.flatMap_map, ParsedUnit.of, ← Block.ofUnit_eq_map]

/-- Apart from places, the topics of the blocks are those of the units one by one. -/
theorem map_unplaced_blockTopics (inputs : Inputs) :
    inputs.blockTopics.map Topic.unplaced =
      inputs.units.flatMap fun u => (u.topics inputs.options).map Topic.unplaced := by
  rw [← flatMap_numbered]
  simp only [blockTopics, blocks_eq_flatMap, List.filterMap_flatMap, List.map_flatMap,
    List.filterMap_map, List.map_filterMap, SourceUnit.topics]
  refine List.flatMap_congr fun x _ => List.filterMap_congr fun b _ => ?_
  exact map_unplaced_ofComment x.2 b (Comment.ofBlock b) inputs.context

theorem includes_eq_flatMap (inputs : Inputs) :
    inputs.includes = inputs.units.flatMap fun u => u.includes inputs.options := by
  rw [← flatMap_numbered]
  simp only [includes, blocks_eq_flatMap, List.flatMap_assoc, List.flatMap_map, SourceUnit.includes]
  rfl

variable {inputs inputs' : Inputs}

theorem perm_unplaced_blockTopics (hunits : inputs.units.Perm inputs'.units)
    (hoptions : inputs.options = inputs'.options) :
    (inputs.blockTopics.map Topic.unplaced).Perm (inputs'.blockTopics.map Topic.unplaced) := by
  rw [map_unplaced_blockTopics, map_unplaced_blockTopics, hoptions]
  exact hunits.flatMap_right _

theorem perm_includes (hunits : inputs.units.Perm inputs'.units)
    (hoptions : inputs.options = inputs'.options) : inputs.includes.Perm inputs'.includes := by
  rw [includes_eq_flatMap, includes_eq_flatMap, hoptions]
  exact hunits.flatMap_right _

/-- Every topic of a block has a counterpart that differs in its place only. -/
theorem exists_blockTopic (hunits : inputs.units.Perm inputs'.units)
    (hoptions : inputs.options = inputs'.options) {t : Topic} (ht : t ∈ inputs.blockTopics) :
    ∃ t' ∈ inputs'.blockTopics, t'.unplaced = t.unplaced := by
  have hmem := (perm_unplaced_blockTopics hunits hoptions).subset (List.mem_map_of_mem ht)
  exact List.mem_map.1 hmem

end Inputs

/-! ### Collation -/

theorem resolveUnit_perm {units units' : List String} (h : units.Perm units') (name : String) :
    resolveUnit name units = resolveUnit name units' := by
  have hcontains : units.contains name = units'.contains name := by
    rw [Bool.eq_iff_iff, List.contains_iff_mem, List.contains_iff_mem, h.mem_iff]
  have hfilter := h.filter fun u => lastComponent u == name
  simp only [resolveUnit, hcontains]
  cases hunits : units.filter fun u => lastComponent u == name with
  | nil =>
    rw [hunits] at hfilter
    rw [hfilter.nil_eq]
  | cons only rest =>
    rw [hunits] at hfilter
    cases rest with
    | nil => rw [List.perm_singleton.1 hfilter.symm]
    | cons second more =>
      -- at least two units have the file name in either order
      obtain ⟨a, b, more', hmore⟩ : ∃ a b more',
          (units'.filter fun u => lastComponent u == name) = a :: b :: more' := by
        have hlength := hfilter.length_eq
        rcases hunits' : units'.filter fun u => lastComponent u == name with _ | ⟨a, _ | ⟨b, more'⟩⟩
        · simp [hunits'] at hlength
        · simp [hunits'] at hlength
        · exact ⟨a, b, more', rfl⟩
      rw [hmore]

theorem mem_includeEdges {units : List String} {includes : List (String × Include)} {e : Edge} :
    e ∈ includeEdges units includes ↔
      ∃ i ∈ includes, resolveUnit i.2.unit units = some e.before ∧ i.1 = e.after := by
  simp only [includeEdges, List.mem_filterMap, Option.map_eq_some_iff]
  refine exists_congr fun i => and_congr_right fun _ => ?_
  constructor
  · rintro ⟨before, hbefore, rfl⟩
    exact ⟨hbefore, rfl⟩
  · rintro ⟨hbefore, hafter⟩
    exact ⟨e.before, hbefore, by rw [hafter]⟩

/-- Circles depend on which units and directives there are, not on their order. -/
theorem circleFree_perm {units units' : List String} {includes includes' : List (String × Include)}
    (hunits : units.Perm units') (hincludes : includes.Perm includes') :
    CircleFree units (includeEdges units includes) ↔
      CircleFree units' (includeEdges units' includes') := by
  have hedges : ∀ e, e ∈ includeEdges units includes ↔ e ∈ includeEdges units' includes' := by
    intro e
    simp only [mem_includeEdges, hincludes.mem_iff, resolveUnit_perm hunits]
  have hrequires : Requires units (includeEdges units includes) =
      Requires units' (includeEdges units' includes') := by
    funext u v
    simp only [Requires, hedges, hunits.mem_iff]
  rw [CircleFree, CircleFree, hrequires]

/-! ### Manuals -/

namespace Inputs

variable {inputs inputs' : Inputs}

theorem mem_flatMap_blockTopics {β : Type} {f : Topic → List β}
    (hunits : inputs.units.Perm inputs'.units) (hoptions : inputs.options = inputs'.options)
    (hf : ∀ t, f t.unplaced = f t) {e : β} :
    e ∈ inputs.blockTopics.flatMap f ↔ e ∈ inputs'.blockTopics.flatMap f := by
  have hunplaced : ∀ topics : List Topic,
      topics.flatMap f = (topics.map Topic.unplaced).flatMap f := by
    intro topics
    simp only [List.flatMap_map, hf]
  rw [hunplaced, hunplaced inputs'.blockTopics]
  exact ((perm_unplaced_blockTopics hunits hoptions).flatMap_right f).mem_iff

theorem exists_merge_of_perm (hunits : inputs.units.Perm inputs'.units)
    (hoptions : inputs.options = inputs'.options) {merged : List Topic}
    (h : Topic.merge inputs.blockTopics = .ok merged) :
    ∃ merged', Topic.merge inputs'.blockTopics = .ok merged' := by
  have hagree := Topic.exists_merge_iff.1 ⟨merged, h⟩
  refine Topic.exists_merge_iff.2 ?_
  intro a ha b hb hid
  obtain ⟨a', ha', haeq⟩ := exists_blockTopic hunits.symm hoptions.symm ha
  obtain ⟨b', hb', hbeq⟩ := exists_blockTopic hunits.symm hoptions.symm hb
  obtain ⟨haid, hatype, -⟩ := Topic.eq_of_unplaced haeq
  obtain ⟨hbid, hbtype, -⟩ := Topic.eq_of_unplaced hbeq
  rw [← hatype, ← hbtype]
  exact hagree a' ha' b' hb' (by rw [haid, hbid, hid])

theorem build_of_perm (hunits : inputs.units.Perm inputs'.units)
    (hoptions : inputs.options = inputs'.options) {merged merged' : List Topic}
    (h : Topic.merge inputs.blockTopics = .ok merged)
    (h' : Topic.merge inputs'.blockTopics = .ok merged') (policy : AliasPolicy) :
    ((∃ index, AliasIndex.build (Topic.resolve merged) policy = .ok index) ↔
      ∃ index, AliasIndex.build (Topic.resolve merged') policy = .ok index) ∧
    ∀ index index', AliasIndex.build (Topic.resolve merged) policy = .ok index →
      AliasIndex.build (Topic.resolve merged') policy = .ok index' → index = index' := by
  refine AliasIndex.build_eq_of_mem_iff policy ?_ ?_
  · intro e
    rw [mem_claims_resolve h, mem_claims_resolve h']
    exact mem_flatMap_blockTopics hunits hoptions fun _ => rfl
  · intro e
    rw [mem_packageClaims_resolve h, mem_packageClaims_resolve h']
    exact mem_flatMap_blockTopics hunits hoptions fun _ => rfl

theorem exists_collation_of_perm (hunits : inputs.units.Perm inputs'.units)
    (hoptions : inputs.options = inputs'.options)
    (h : ∃ order, collationOf inputs.unitIds (includeEdges inputs.unitIds inputs.includes) =
      .ok order) :
    ∃ order, collationOf inputs'.unitIds (includeEdges inputs'.unitIds inputs'.includes) =
      .ok order := by
  obtain ⟨order, horder⟩ := h
  have hids : inputs.unitIds.Perm inputs'.unitIds := hunits.map _
  have hfree := (collationOf_eq_ok_iff.1 horder).1
  rw [circleFree_perm hids (perm_includes hunits hoptions)] at hfree
  exact ⟨_, collationOf_eq_ok_iff.2 ⟨hfree, rfl⟩⟩

theorem exists_generate_of_perm (hunits : inputs.units.Perm inputs'.units)
    (hoptions : inputs.options = inputs'.options) (h : ∃ m, generate inputs = .ok m) :
    ∃ m, generate inputs' = .ok m := by
  obtain ⟨merged, hmerge, hindex, hcollation⟩ := exists_generate_iff.1 h
  obtain ⟨merged', hmerge'⟩ := exists_merge_of_perm hunits hoptions hmerge
  refine exists_generate_iff.2 ⟨merged', hmerge', ?_, ?_⟩
  · rw [← hoptions]
    exact (build_of_perm hunits hoptions hmerge hmerge' _).1.1 hindex
  · exact exists_collation_of_perm hunits hoptions hcollation

theorem mem_exports_of_perm (hunits : inputs.units.Perm inputs'.units)
    (hoptions : inputs.options = inputs'.options) {merged merged' : List Topic} {m m' : Manual}
    (h : Generated inputs merged m) (h' : Generated inputs' merged' m') {e : Export}
    (he : e ∈ m.topics.flatMap Topic.exports) : e ∈ m'.topics.flatMap Topic.exports := by
  obtain ⟨a, ha, b, hb, hid, hexported, d, hd, hde⟩ := h.mem_exports.1 he
  obtain ⟨a', ha', haeq⟩ := exists_blockTopic hunits hoptions ha
  obtain ⟨b', hb', hbeq⟩ := exists_blockTopic hunits hoptions hb
  obtain ⟨haid, -, haexported, -⟩ := Topic.eq_of_unplaced haeq
  obtain ⟨hbid, hbtype, -, hbsubjects⟩ := Topic.eq_of_unplaced hbeq
  refine h'.mem_exports.2 ⟨a', ha', b', hb', by rw [haid, hbid, hid], ?_, d, ?_, ?_⟩
  · rw [haexported, hexported]
  · rwa [hbsubjects]
  · rwa [hbtype]

end Inputs

/-- Whether a run succeeds, its alias index and its export directives are the same for every order
of the units, and so are the two files that hold them. -/
theorem generate_perm {units units' : List SourceUnit} (h : units.Perm units')
    (options : Options) :
    ((∃ m, generate ⟨units, options⟩ = .ok m) ↔ ∃ m, generate ⟨units', options⟩ = .ok m) ∧
    ∀ m m', generate ⟨units, options⟩ = .ok m → generate ⟨units', options⟩ = .ok m' →
      m.index = m'.index ∧ m.exports = m'.exports ∧
      m.index.toTable = m'.index.toTable ∧ exportFile m.exports = exportFile m'.exports := by
  have hunits : (Inputs.mk units options).units.Perm (Inputs.mk units' options).units := h
  refine ⟨⟨Inputs.exists_generate_of_perm hunits rfl,
    Inputs.exists_generate_of_perm hunits.symm rfl⟩, ?_⟩
  intro m m' hm hm'
  obtain ⟨merged, hm⟩ := exists_generated hm
  obtain ⟨merged', hm'⟩ := exists_generated hm'
  have hindex : m.index = m'.index :=
    (Inputs.build_of_perm hunits rfl hm.merge hm'.merge _).2 _ _ hm.index hm'.index
  have hexports : m.exports = m'.exports := by
    rw [hm.exports, hm'.exports]
    refine exportsOf_eq_of_mem_iff fun e => ⟨?_, ?_⟩
    · exact Inputs.mem_exports_of_perm hunits rfl hm hm'
    · exact Inputs.mem_exports_of_perm hunits.symm rfl hm' hm
  exact ⟨hindex, hexports, by rw [hindex], by rw [hexports]⟩

/-- Two units of one identifier that document one topic together. -/
def sharedTopic : List SourceUnit :=
  [⟨"R/a.R", "#' T\n#' @rdname g\n#' @export\nf <- function() 1\n"⟩,
    ⟨"R/a.R", "#' @rdname g\n#' @aliases k\nh <- function() 2\n"⟩]

theorem generate_sharedTopic_reverse :
    sharedTopic.Perm sharedTopic.reverse ∧
    ∃ m m', generate ⟨sharedTopic, {}⟩ = .ok m ∧ generate ⟨sharedTopic.reverse, {}⟩ = .ok m' ∧
      m.index.get? .plain "h" = some "g" ∧ m.exports = [.symbol "f", .symbol "h"] ∧
      m.index = m'.index ∧ m.exports = m'.exports := by
  have hperm : sharedTopic.Perm sharedTopic.reverse := (List.reverse_perm sharedTopic).symm
  refine ⟨hperm, ?_⟩
  have heval : (generate ⟨sharedTopic, {}⟩).toOption.map
      (fun m => (m.index.get? .plain "h", m.exports)) =
        some (some "g", [.symbol "f", .symbol "h"]) := by decide +kernel
  obtain ⟨m, hgen, hresult⟩ := toOption_map_eq_some_iff.1 heval
  obtain ⟨hget, hexports⟩ := Prod.ext_iff.1 hresult
  obtain ⟨m', hm'⟩ := (generate_perm hperm {}).1.1 ⟨m, hgen⟩
  obtain ⟨hindex, hequal, -⟩ := (generate_perm hperm {}).2 m m' hgen hm'
  exact ⟨m, m', hgen, hm', hget, hexports, hindex, hequal⟩

end DocTopics
