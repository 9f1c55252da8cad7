import DocTopics.Proofs.FirstOccurrences
import DocTopics.Proofs.Path
import DocTopics.Proofs.Trimming
import DocTopics.Topic.CrossReference
import Mathlib.Data.List.Forall2

/-!
# Inherited parameters

A topic takes over the descriptions of formal arguments that its own parameters do not cover. For
every such argument the first source that has a parameter for it counts, and the argument is added
once. What a source says is what it said before anything was inherited.

## Main definitions

- `Topic.GoesBy` — the identifier of a topic, or the name of one of its declarations
- `Topic.descriptionFrom` — what a source says about a formal argument
- `Topic.Inherits` — the parameters that are added to a topic

## Main statements

- `Topic.paramsOf_eq` — a name leads to the first topic that goes by it
- `Topic.inheritFrom_eq` — what one source adds
- `Topic.inherits_foldl` — what the sources add together
- `Topic.resolve_inherits` — the parameters and the warnings of a list of topics
-/

namespace DocTopics

/-! ### Covered names -/

/-- An entry for a name that can be covered at all covers this name and no other. -/
theorem Param.covers_of_covers {p : Param} {formal : String} (h : p.covers formal = true)
    (description name : String) :
    (Param.mk formal description).covers name = true ↔ formal = name := by
  obtain ⟨piece, hpiece, htrim⟩ := List.any_eq_true.1 h
  obtain ⟨cs, hcs, rfl⟩ := List.mem_map.1 hpiece
  have hformal : Text.trim (String.ofList cs) = formal := eq_of_beq htrim
  have hcomma : ∀ c ∈ formal.toList, (c == ',') = false := by
    intro c hc
    rw [← hformal, Text.trim, String.toList_ofList, String.toList_ofList] at hc
    exact Chars.sep_of_mem_pieces cs hcs c (Chars.strip_subset isBlank cs hc)
  have hsplit : Text.splitOn ',' formal = [formal] := by
    rw [Text.splitOn, Chars.pieces_of_forall hcomma, List.map_singleton, String.ofList_toList]
  have hself : Text.trim formal = formal := by rw [← hformal, Text.trim_trim]
  simp only [Param.covers, hsplit, List.any_cons, List.any_nil, Bool.or_false, hself, beq_iff_eq]

namespace Topic

/-! ### Sources -/

/-- The name is the identifier of the topic or the name of one of its declarations. -/
def GoesBy (t : Topic) (name : String) : Prop :=
  t.id = name ∨ ∃ d ∈ t.subjects, d.declaration.name = some name

instance (t : Topic) (name : String) : Decidable (t.GoesBy name) :=
  inferInstanceAs (Decidable (_ ∨ _))

theorem mem_ownNames_iff {t : Topic} {name : String} : name ∈ t.ownNames ↔ t.GoesBy name := by
  simp [ownNames, GoesBy, eq_comm]

/-- What a source says about a formal argument: of the first topic that goes by the name of the
source, the first parameter that covers the argument. -/
def descriptionFrom (topics : List Topic) (formal source : String) : Option String :=
  (topics.find? fun u => decide (u.GoesBy source)).bind fun u =>
    (u.params.find? fun p => p.covers formal).map (·.description)

/-- A name keeps what it has, and gets the new parameters if it has none. -/
theorem find?_enterParams (params : List Param) (table : ParamTable) (entered name : String) :
    (enterParams params table entered).find? (·.1 == name) =
      (table.find? (·.1 == name)).or (if entered = name then some (entered, params) else none) := by
  unfold enterParams
  split
  · rename_i htaken
    split
    · rename_i heq
      subst heq
      obtain ⟨row, hrow⟩ :=
        Option.isSome_iff_exists.1 (List.find?_isSome.2 (List.any_eq_true.1 htaken))
      rw [hrow, Option.some_or]
    · rw [Option.or_none]
  · rw [List.find?_append, List.find?_singleton]
    by_cases heq : entered = name <;> simp [heq]

/-- A topic enters its parameters under those of its names that are free. -/
theorem find?_foldl_enterParams (params : List Param) (names : List String) (table : ParamTable)
    (name : String) :
    (names.foldl (enterParams params) table).find? (·.1 == name) =
      (table.find? (·.1 == name)).or (if name ∈ names then some (name, params) else none) := by
  induction names generalizing table with
  | nil => simp
  | cons entered names ih =>
    rw [List.foldl_cons, ih, find?_enterParams, Option.or_assoc]
    by_cases heq : name = entered
    · simp [heq]
    · simp [heq, Ne.symm heq]

theorem find?_foldl_ownNames (topics : List Topic) (table : ParamTable) (name : String) :
    (topics.foldl (fun table t => t.ownNames.foldl (enterParams t.params) table) table).find?
        (·.1 == name) =
      (table.find? (·.1 == name)).or
        ((topics.find? fun u => decide (u.GoesBy name)).map fun u => (name, u.params)) := by
  induction topics generalizing table with
  | nil => simp
  | cons t topics ih =>
    rw [List.foldl_cons, ih, find?_foldl_enterParams, Option.or_assoc, List.find?_cons]
    simp only [mem_ownNames_iff]
    by_cases hname : t.GoesBy name <;> simp [hname]

/-- The parameters that are found under a name are those of the first topic that goes by it. -/
theorem paramsOf_eq (topics : List Topic) (source : String) :
    paramsOf topics source =
      (topics.find? fun u => decide (u.GoesBy source)).map (·.params) := by
  rw [paramsOf, paramTable, find?_foldl_ownNames, List.find?_nil, Option.none_or, Option.map_map]
  rfl

theorem exists_covers_of_descriptionFrom {topics : List Topic} {formal source description : String}
    (h : descriptionFrom topics formal source = some description) :
    ∃ p : Param, p.covers formal = true := by
  obtain ⟨u, -, hu⟩ := Option.bind_eq_some_iff.1 h
  obtain ⟨p, hp, -⟩ := Option.map_eq_some_iff.1 hu
  exact ⟨p, by simpa using List.find?_some hp⟩

/-- The place, among the sources, of the first one that says something about a formal argument. -/
def sourceIndex (topics : List Topic) (sources : List String) (formal : String) : Nat :=
  sources.findIdx fun source => (descriptionFrom topics formal source).isSome

/-- What a list of sources adds to parameters: one entry for each name that no parameter covers and
some source describes, with the description of the first such source. Entries come source by source,
and those of one source in the order of the names. -/
structure Inherits (topics : List Topic) (names : List String) (params : List Param)
    (sources : List String) (added : List Param) : Prop where
  mem_iff : ∀ p, p ∈ added ↔
    p.name ∈ names ∧ (∀ q ∈ params, q.covers p.name = false) ∧
      sources.findSome? (descriptionFrom topics p.name) = some p.description
  ordered : added.Pairwise fun p q =>
    sourceIndex topics sources p.name < sourceIndex topics sources q.name ∨
      (sourceIndex topics sources p.name = sourceIndex topics sources q.name ∧
        names.idxOf p.name < names.idxOf q.name)

/-! ### One source -/

/-- The entry that a source adds for a formal argument that is not covered yet. -/
def addition (topics : List Topic) (params : List Param) (source formal : String) : Option Param :=
  if params.any (·.covers formal) then none
  else (descriptionFrom topics formal source).map (Param.mk formal)

/-- The parameters with those that one source adds. -/
def inheritFrom (topics : List Topic) (formals : List String) (params : List Param)
    (source : String) : List Param :=
  match paramsOf topics source with
  | some found => formals.foldl (inheritFormal found) params
  | none => params

/-- An entry that was added for one argument covers no other, so the arguments of one source do not
depend on each other. -/
theorem foldl_inheritFormal {formals : List String} (h : formals.Nodup)
    (found params : List Param) :
    formals.foldl (inheritFormal found) params =
      params ++ formals.filterMap fun formal =>
        if params.any (·.covers formal) then none
        else (found.find? (·.covers formal)).map fun p => Param.mk formal p.description := by
  induction formals generalizing params with
  | nil => simp
  | cons formal formals ih =>
    obtain ⟨hformal, hformals⟩ := List.nodup_cons.1 h
    rw [List.foldl_cons, List.filterMap_cons, ih hformals, inheritFormal]
    split
    · rfl
    · cases hfind : found.find? (·.covers formal) with
      | none => rfl
      | some p =>
        have hcovers : p.covers formal = true := by simpa using List.find?_some hfind
        have hrest : ∀ other ∈ formals,
            (params ++ [Param.mk formal p.description]).any (·.covers other) =
              params.any (·.covers other) := by
          intro other hother
          have hne : ¬(Param.mk formal p.description).covers other = true := by
            rw [Param.covers_of_covers hcovers]
            rintro rfl
            exact hformal hother
          simp [hne]
        simp only [Option.map_some, List.append_assoc, List.singleton_append]
        congr 2
        exact List.filterMap_congr fun other hother => by rw [hrest other hother]

theorem inheritFrom_eq {formals : List String} (h : formals.Nodup) (topics : List Topic)
    (params : List Param) (source : String) :
    inheritFrom topics formals params source =
      params ++ formals.filterMap (addition topics params source) := by
  have haddition : addition topics params source = fun formal =>
      if params.any (·.covers formal) then none
      else (paramsOf topics source).bind fun found =>
        (found.find? (·.covers formal)).map fun p => Param.mk formal p.description := by
    funext formal
    rw [addition, descriptionFrom, paramsOf_eq]
    cases topics.find? fun u => decide (u.GoesBy source) with
    | none => rfl
    | some u =>
      rw [Option.map_some, Option.bind_some, Option.bind_some, Option.map_map]
      rfl
  rw [inheritFrom, haddition]
  cases paramsOf topics source with
  | none => simp
  | some found => exact foldl_inheritFormal h found params

/-! ### All sources -/

section Sources

variable {topics : List Topic} {names formals sources : List String} {params added : List Param}

theorem sourceIndex_concat_of_some {formal description : String} (source : String)
    (h : sources.findSome? (descriptionFrom topics formal) = some description) :
    sourceIndex topics (sources ++ [source]) formal = sourceIndex topics sources formal ∧
      sourceIndex topics sources formal < sources.length := by
  obtain ⟨s, hs, hsome⟩ := List.exists_of_findSome?_eq_some h
  have hlt : sourceIndex topics sources formal < sources.length :=
    List.findIdx_lt_length.2 ⟨s, hs, by rw [hsome]; rfl⟩
  refine ⟨?_, hlt⟩
  rw [sourceIndex, List.findIdx_append]
  exact if_pos hlt

theorem sourceIndex_concat_of_none {formal source description : String}
    (h : sources.findSome? (descriptionFrom topics formal) = none)
    (hsource : descriptionFrom topics formal source = some description) :
    sourceIndex topics (sources ++ [source]) formal = sources.length := by
  have hnone : ¬sources.findIdx (fun s => (descriptionFrom topics formal s).isSome) <
      sources.length := by
    rw [List.findIdx_lt_length]
    rintro ⟨s, hs, hsome⟩
    rw [List.findSome?_eq_none_iff.1 h s hs] at hsome
    cases hsome
  rw [sourceIndex, List.findIdx_append, if_neg hnone]
  simp [hsource]

theorem addition_eq_some_iff {source formal : String} {p : Param} :
    addition topics params source formal = some p ↔
      p.name = formal ∧ params.any (·.covers formal) = false ∧
        descriptionFrom topics formal source = some p.description := by
  rw [addition]
  split
  · rename_i hcovered
    simp [hcovered]
  · rename_i hcovered
    rw [Option.map_eq_some_iff, Bool.eq_false_iff]
    constructor
    · rintro ⟨d, hd, rfl⟩
      exact ⟨rfl, hcovered, hd⟩
    · rintro ⟨rfl, -, hd⟩
      exact ⟨p.description, hd, rfl⟩

theorem mem_filterMap_addition {source : String} {p : Param} :
    p ∈ formals.filterMap (addition topics params source) ↔
      p.name ∈ formals ∧ params.any (·.covers p.name) = false ∧
        descriptionFrom topics p.name source = some p.description := by
  simp only [List.mem_filterMap, addition_eq_some_iff]
  constructor
  · rintro ⟨formal, hformal, rfl, h⟩
    exact ⟨hformal, h⟩
  · rintro ⟨hformal, h⟩
    exact ⟨p.name, hformal, rfl, h⟩

/-- The parameters at hand cover a name if those at the start do or an entry was added for it. -/
theorem Inherits.any_covers_append (h : Inherits topics names params sources added)
    (name : String) :
    (params ++ added).any (·.covers name) = true ↔
      params.any (·.covers name) = true ∨ ∃ p ∈ added, p.name = name := by
  rw [List.any_append, Bool.or_eq_true, List.any_eq_true (l := added)]
  refine or_congr_right (exists_congr fun p => and_congr_right fun hp => ?_)
  obtain ⟨-, -, hdescribed⟩ := (h.mem_iff p).1 hp
  obtain ⟨s, -, hsome⟩ := List.exists_of_findSome?_eq_some hdescribed
  obtain ⟨q, hq⟩ := exists_covers_of_descriptionFrom hsome
  exact Param.covers_of_covers hq p.description name

theorem inherits_nil (topics : List Topic) (names : List String) (params : List Param) :
    Inherits topics names params [] [] :=
  ⟨by simp, List.Pairwise.nil⟩

/-- A name gets an entry from the next source exactly if no source before it described the name: if
one did, the entry that was added then covers the name. -/
theorem Inherits.mem_additions (h : Inherits topics names params sources added)
    (hmem : ∀ f, f ∈ formals ↔ f ∈ names) {source : String} {p : Param} :
    p ∈ formals.filterMap (addition topics (params ++ added) source) ↔
      (p.name ∈ names ∧ ∀ q ∈ params, q.covers p.name = false) ∧
        sources.findSome? (descriptionFrom topics p.name) = none ∧
        descriptionFrom topics p.name source = some p.description := by
  rw [mem_filterMap_addition, hmem, ← Bool.not_eq_true, h.any_covers_append, not_or,
    Bool.not_eq_true, List.any_eq_false]
  simp only [Bool.not_eq_true]
  constructor
  · rintro ⟨hname, ⟨huncovered, hfresh⟩, hd⟩
    refine ⟨⟨hname, huncovered⟩, ?_, hd⟩
    cases hs : sources.findSome? (descriptionFrom topics p.name) with
    | none => rfl
    | some d => exact absurd ⟨⟨p.name, d⟩, (h.mem_iff _).2 ⟨hname, huncovered, hs⟩, rfl⟩ hfresh
  · rintro ⟨⟨hname, huncovered⟩, hnone, hd⟩
    refine ⟨hname, ⟨huncovered, ?_⟩, hd⟩
    rintro ⟨q, hq, heq⟩
    have hsome := ((h.mem_iff q).1 hq).2.2
    rw [heq, hnone] at hsome
    cases hsome

/-- What one source adds comes in the order of the names. -/
theorem pairwise_additions (hformals : formals.Pairwise fun a b => names.idxOf a < names.idxOf b)
    (params : List Param) (source : String) :
    (formals.filterMap (addition topics params source)).Pairwise fun p q =>
      names.idxOf p.name < names.idxOf q.name := by
  rw [List.pairwise_filterMap]
  refine hformals.imp fun hlt p hp q hq => ?_
  rwa [(addition_eq_some_iff.1 hp).1, (addition_eq_some_iff.1 hq).1]

/-- One more source adds what no source before it described. -/
theorem Inherits.concat (h : Inherits topics names params sources added)
    (hformals : formals.Pairwise fun a b => names.idxOf a < names.idxOf b)
    (hmem : ∀ f, f ∈ formals ↔ f ∈ names) (source : String) :
    Inherits topics names params (sources ++ [source])
      (added ++ formals.filterMap (addition topics (params ++ added) source)) := by
  have hold : ∀ p ∈ added,
      sourceIndex topics (sources ++ [source]) p.name = sourceIndex topics sources p.name ∧
        sourceIndex topics sources p.name < sources.length :=
    fun p hp => sourceIndex_concat_of_some source ((h.mem_iff p).1 hp).2.2
  have hnew : ∀ p ∈ formals.filterMap (addition topics (params ++ added) source),
      sourceIndex topics (sources ++ [source]) p.name = sources.length := by
    intro p hp
    obtain ⟨-, hnone, hdescribed⟩ := (h.mem_additions hmem).1 hp
    exact sourceIndex_concat_of_none hnone hdescribed
  refine ⟨fun p => ?_, List.pairwise_append.2 ⟨?_, ?_, ?_⟩⟩
  · rw [List.mem_append, h.mem_iff, h.mem_additions hmem, List.findSome?_append]
    cases sources.findSome? (descriptionFrom topics p.name) with
    | none => simp [and_assoc]
    | some d => simp
  · refine h.ordered.imp_of_mem fun {p q} hp hq hpq => ?_
    rwa [(hold p hp).1, (hold q hq).1]
  · refine (pairwise_additions hformals (params ++ added) source).imp_of_mem ?_
    intro p q hp hq hlt
    exact .inr ⟨(hnew p hp).trans (hnew q hq).symm, hlt⟩
  · intro p hp q hq
    rw [(hold p hp).1, hnew q hq]
    exact .inl (hold p hp).2

/-- What the sources add together, source after source. -/
theorem inherits_foldl (hformals : formals.Pairwise fun a b => names.idxOf a < names.idxOf b)
    (hmem : ∀ f, f ∈ formals ↔ f ∈ names) (topics : List Topic) (params : List Param)
    (sources : List String) :
    ∃ added, sources.foldl (inheritFrom topics formals) params = params ++ added ∧
      Inherits topics names params sources added := by
  have hnodup : formals.Nodup := hformals.imp fun {a b} hlt heq => by
    rw [heq] at hlt
    exact Nat.lt_irrefl _ hlt
  induction sources using List.reverseRecOn with
  | nil => exact ⟨[], (List.append_nil params).symm, inherits_nil topics names params⟩
  | append_singleton sources source ih =>
    obtain ⟨added, hadded, h⟩ := ih
    refine ⟨_, ?_, h.concat hformals hmem source⟩
    rw [List.foldl_append, hadded, List.foldl_cons, List.foldl_nil, inheritFrom_eq hnodup,
      List.append_assoc]

theorem Inherits.nodup (h : Inherits topics names params sources added) :
    (added.map Param.name).Nodup := by
  refine List.pairwise_map.2 (h.ordered.imp fun {p q} hpq heq => ?_)
  rw [heq] at hpq
  omega

end Sources

/-! ### All topics -/

/-- The formal arguments of all declarations of a topic, in order. -/
def formalNames (t : Topic) : List String :=
  t.subjects.flatMap (·.declaration.formalNames)

theorem exists_inherited (topics : List Topic) (t : Topic) :
    ∃ added, inherited topics t = t.params ++ added ∧
      Inherits topics t.formalNames t.params t.inheritParams added :=
  inherits_foldl (pairwise_idxOf_extendUnique t.formalNames) (by simp) topics t.params
    t.inheritParams

theorem isNone_paramsOf (topics : List Topic) (source : String) :
    (paramsOf topics source).isNone = decide (∀ u ∈ topics, ¬u.GoesBy source) := by
  rw [Bool.eq_iff_iff, paramsOf_eq, Option.isNone_map, decide_eq_true_eq]
  simp

/-- Missing titles are no warnings, and missing sources are nothing else. -/
theorem warnings_resolveFaults (topics : List Topic) :
    (resolveFaults topics).filter (fun d => d.level = .warning) = inheritFaults topics := by
  have htitle : (titleFaults topics).filter (fun d => d.level = .warning) = [] := by
    rw [titleFaults, List.filter_map, List.map_eq_nil_iff, List.filter_eq_nil_iff]
    intro t _
    simp [Diagnostic.validation]
  have hinherit : ∀ d ∈ inheritFaults topics, decide (d.level = .warning) = true := by
    intro d hd
    obtain ⟨t, -, hd⟩ := List.mem_flatMap.1 hd
    obtain ⟨source, -, rfl⟩ := List.mem_map.1 hd
    rfl
  rw [resolveFaults, List.filter_append, htitle, List.nil_append, List.filter_eq_self.2 hinherit]

/-- Inherited parameters. Every topic keeps its parameters, and behind them come the formal
arguments that they do not cover and that one of the sources describes: each once, with the
description of the first source that has one, in the order of the sources and then of the
arguments. A source that no topic goes by leads to one warning each time it is named. Apart from
parameters and links no field of a topic changes. -/
theorem resolve_inherits (topics : List Topic) :
    List.Forall₂ (fun t t' =>
        t' = { t with params := t'.params, seeAlso := t'.seeAlso } ∧
        ∃ added, t'.params = t.params ++ added ∧ (added.map Param.name).Nodup ∧
          Inherits topics t.formalNames t.params t.inheritParams added)
      topics (resolve topics) ∧
    (resolveFaults topics).filter (fun d => d.level = .warning) =
      topics.flatMap fun t =>
        (t.inheritParams.filter fun source => decide (∀ u ∈ topics, ¬u.GoesBy source)).map
          fun source =>
            .warning t.pos (ticked ("@inheritParams " ++ source) ++ ": no such topic") := by
  constructor
  · rw [resolve, List.forall₂_map_right_iff, List.forall₂_same]
    intro t _
    obtain ⟨added, hadded, h⟩ := exists_inherited topics t
    exact ⟨rfl, added, hadded, h.nodup, h⟩
  · rw [warnings_resolveFaults, inheritFaults]
    simp only [isNone_paramsOf]

end Topic

end DocTopics
