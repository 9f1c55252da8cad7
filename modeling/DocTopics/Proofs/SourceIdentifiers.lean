import DocTopics.Proofs.InheritedParams

/-!
# Sources named by an identifier

A topic that inherits parameters names its sources, and a source is the first topic that goes by the
name. So an identifier leads to its own topic unless a topic in front of that one has a declaration
of the same name, as the method of a generic or a class does: then the parameters come from there.

## Main definitions

- `Topic.Declares` — one of the declarations of a topic has a name
- `Topic.describes` — what a topic says about a formal argument
- `Topic.sourceOf` — the topic that an identifier leads to
- `Topic.inheritedFrom` — the parameters of a topic, given only some of its sources

## Main statements

- `Topic.descriptionFrom_id` — what the source of an identifier says
- `Topic.resolve_inherits_through_id` — the parameters that are inherited through an identifier
-/

namespace DocTopics.Topic

/-- One of the declarations has this name. -/
def Declares (t : Topic) (name : String) : Prop :=
  ∃ d ∈ t.subjects, d.declaration.name = some name

instance (t : Topic) (name : String) : Decidable (t.Declares name) :=
  inferInstanceAs (Decidable (∃ _ ∈ _, _))

/-- The description of the first parameter that covers a formal argument. -/
def describes (t : Topic) (formal : String) : Option String :=
  (t.params.find? fun p => p.covers formal).map (·.description)

/-- The topic that the identifier of `u` leads to, given the topics in front of `u`: the first of
these with a declaration of that name, and `u` if there is none. -/
def sourceOf (before : List Topic) (u : Topic) : Topic :=
  (before.find? fun v => decide (v.Declares u.id)).getD u

/-- The parameters of a topic if these were its sources. -/
def inheritedFrom (topics : List Topic) (t : Topic) (sources : List String) : List Param :=
  inherited topics { t with inheritParams := sources }

/-! ### The source of an identifier -/

section Source

variable {before after : List Topic} {u : Topic}

theorem id_ne_of_mem_before (hids : ((before ++ u :: after).map (·.id)).Nodup) {v : Topic}
    (hv : v ∈ before) : v.id ≠ u.id := by
  rw [List.map_append, List.map_cons] at hids
  exact (List.nodup_append.1 hids).2.2 _ (List.mem_map_of_mem hv) _ List.mem_cons_self

/-- Of the topics in front of it none has the identifier, so only their declarations count. -/
theorem find?_goesBy_id (hids : ((before ++ u :: after).map (·.id)).Nodup) :
    ((before ++ u :: after).find? fun v => decide (v.GoesBy u.id)) = some (sourceOf before u) := by
  have hbefore : (before.find? fun v => decide (v.GoesBy u.id)) =
      before.find? fun v => decide (v.Declares u.id) := by
    rw [← List.head?_filter, ← List.head?_filter]
    refine congrArg List.head? (List.filter_congr fun v hv => decide_eq_decide.2 ?_)
    exact or_iff_right (id_ne_of_mem_before hids hv)
  have hself : decide (u.GoesBy u.id) = true := decide_eq_true (.inl rfl)
  rw [List.find?_append, hbefore, sourceOf]
  simp only [List.find?_cons, hself]
  cases before.find? fun v => decide (v.Declares u.id) <;> rfl

theorem descriptionFrom_id (hids : ((before ++ u :: after).map (·.id)).Nodup) (formal : String) :
    descriptionFrom (before ++ u :: after) formal u.id = (sourceOf before u).describes formal := by
  rw [descriptionFrom, find?_goesBy_id hids, Option.bind_some, describes]

theorem sourceOf_eq_self_iff (hids : ((before ++ u :: after).map (·.id)).Nodup) :
    sourceOf before u = u ↔ ∀ v ∈ before, ¬v.Declares u.id := by
  constructor
  · intro h v hv hdeclares
    have hsome : (before.find? fun v => decide (v.Declares u.id)).isSome = true :=
      List.find?_isSome.2 ⟨v, hv, decide_eq_true hdeclares⟩
    obtain ⟨w, hw⟩ := Option.isSome_iff_exists.1 hsome
    rw [sourceOf, hw, Option.getD_some] at h
    exact id_ne_of_mem_before hids (List.mem_of_find?_eq_some hw) (congrArg Topic.id h)
  · intro h
    rw [sourceOf, List.find?_eq_none.2 fun v hv => by simpa using h v hv, Option.getD_none]

end Source

/-! ### Source after source -/

theorem nodup_formals (t : Topic) : t.formals.Nodup :=
  nodup_extendUnique List.nodup_nil _

/-- Sources add parameters behind those at hand. -/
theorem exists_append_foldl_inheritFrom {formals : List String} (h : formals.Nodup)
    (topics : List Topic) (params : List Param) (sources : List String) :
    ∃ later, sources.foldl (inheritFrom topics formals) params = params ++ later := by
  induction sources generalizing params with
  | nil => exact ⟨[], (List.append_nil params).symm⟩
  | cons source sources ih =>
    obtain ⟨later, hlater⟩ := ih (inheritFrom topics formals params source)
    refine ⟨formals.filterMap (addition topics params source) ++ later, ?_⟩
    rw [List.foldl_cons, hlater, inheritFrom_eq h, List.append_assoc]

theorem inheritedFrom_eq_foldl (topics : List Topic) (t : Topic) (sources : List String) :
    inheritedFrom topics t sources = sources.foldl (inheritFrom topics t.formals) t.params :=
  rfl

theorem inheritedFrom_concat (topics : List Topic) (t : Topic) (front : List String)
    (source : String) :
    inheritedFrom topics t (front ++ [source]) = inheritedFrom topics t front ++
      t.formals.filterMap (addition topics (inheritedFrom topics t front) source) := by
  simp only [inheritedFrom_eq_foldl, List.foldl_append, List.foldl_cons, List.foldl_nil]
  exact inheritFrom_eq t.nodup_formals topics _ source

/-- What earlier sources gave stays in front, whatever sources follow. -/
theorem exists_inherited_append {topics : List Topic} {t : Topic} {front back : List String}
    {source : String} (h : t.inheritParams = front ++ source :: back) :
    ∃ later, inherited topics t = inheritedFrom topics t (front ++ [source]) ++ later := by
  have hsources : inherited topics t = inheritedFrom topics t ((front ++ [source]) ++ back) := by
    rw [List.append_assoc, List.singleton_append, ← h]
    rfl
  rw [hsources, inheritedFrom_eq_foldl, List.foldl_append]
  exact exists_append_foldl_inheritFrom t.nodup_formals topics _ back

/-- What is inherited through the identifier of a topic. A topic that names the identifier as a
source gets, at that source, an entry for each formal argument that nothing covers yet and that the
source of the identifier describes, with this description. The source is the topic of the identifier
exactly if no topic in front of it has a declaration of the same name. -/
theorem resolve_inherits_through_id {before after : List Topic} {u : Topic}
    (hids : ((before ++ u :: after).map (·.id)).Nodup) :
    List.Forall₂ (fun t t' => ∀ front back, t.inheritParams = front ++ u.id :: back →
        ∃ added later,
          t'.params = inheritedFrom (before ++ u :: after) t front ++ added ++ later ∧
          inheritedFrom (before ++ u :: after) t (front ++ [u.id]) =
            inheritedFrom (before ++ u :: after) t front ++ added ∧
          ∀ p, p ∈ added ↔ p.name ∈ t.formals ∧
            (∀ q ∈ inheritedFrom (before ++ u :: after) t front, q.covers p.name = false) ∧
            (sourceOf before u).describes p.name = some p.description)
      (before ++ u :: after) (resolve (before ++ u :: after)) ∧
    (sourceOf before u = u ↔ ∀ v ∈ before, ¬v.Declares u.id) := by
  refine ⟨?_, sourceOf_eq_self_iff hids⟩
  rw [resolve, List.forall₂_map_right_iff, List.forall₂_same]
  intro t _ front back hsources
  obtain ⟨later, hlater⟩ := exists_inherited_append hsources
  rw [inheritedFrom_concat] at hlater
  refine ⟨_, later, hlater, inheritedFrom_concat .., fun p => ?_⟩
  rw [mem_filterMap_addition, descriptionFrom_id hids, List.any_eq_false]
  simp only [Bool.not_eq_true]

/-- A method of `rescale`: its declaration has the name of the generic. -/
def rescaleMethod : Topic :=
  { id := "rescale,matrix-method", pos := ⟨"R/a.R", 1⟩, docType := .method
    params := [⟨"x", "A matrix."⟩]
    subjects := [{ declaration :=
      { kind := .method, name := some "rescale", formals := some "x", dispatch := ["matrix"] } }] }

/-- The generic. -/
def rescaleGeneric : Topic :=
  { id := "rescale", pos := ⟨"R/a.R", 5⟩, docType := .generic
    params := [⟨"x", "Any object."⟩]
    subjects := [{ declaration := { kind := .generic, name := some "rescale" } }] }

/-- A function that inherits through the identifier of the generic. -/
def rescaleTwice : Topic :=
  { id := "rescale_twice", pos := ⟨"R/a.R", 9⟩, docType := .function
    inheritParams := ["rescale"]
    subjects := [{ declaration :=
      { kind := .function, name := some "rescale_twice", formals := some "x" } }] }

/-- With the method behind the generic, the source is the generic. -/
theorem resolve_rescale_genericFirst :
    (([rescaleTwice] ++ rescaleGeneric :: [rescaleMethod]).map (·.id)).Nodup ∧
    (∀ v ∈ [rescaleTwice], ¬v.Declares rescaleGeneric.id) ∧
    rescaleGeneric.describes "x" = some "Any object." ∧
    ∃ t' ∈ resolve ([rescaleTwice] ++ rescaleGeneric :: [rescaleMethod]),
      t'.id = "rescale_twice" ∧ ⟨"x", "Any object."⟩ ∈ t'.params := by
  have hids : (([rescaleTwice] ++ rescaleGeneric :: [rescaleMethod]).map (·.id)).Nodup := by decide
  have hfree : ∀ v ∈ [rescaleTwice], ¬v.Declares rescaleGeneric.id := by decide
  have hdescribes : rescaleGeneric.describes "x" = some "Any object." := by decide
  obtain ⟨hparams, hsource⟩ := resolve_inherits_through_id hids
  obtain ⟨added, later, hresolved, -, hadded⟩ := (List.forall₂_cons.1 hparams).1 [] [] rfl
  refine ⟨hids, hfree, hdescribes, _, List.mem_cons_self, rfl, ?_⟩
  rw [hresolved]
  refine List.mem_append_left _ (List.mem_append_right _ ((hadded _).2 ⟨by decide, ?_, ?_⟩))
  · decide
  · rw [hsource.2 hfree, hdescribes]

/-- With the method in front, the parameter that is inherited through the identifier of the generic
is described as in the method. -/
theorem exists_described_by_namesake :
    ([rescaleMethod, rescaleGeneric, rescaleTwice].map (·.id)).Nodup ∧
    rescaleTwice.inheritParams = [rescaleGeneric.id] ∧ rescaleTwice.params = [] ∧
    (resolve [rescaleMethod, rescaleGeneric, rescaleTwice]).map (fun t => (t.id, t.params)) =
      [("rescale,matrix-method", [⟨"x", "A matrix."⟩]), ("rescale", [⟨"x", "Any object."⟩]),
        ("rescale_twice", [⟨"x", "A matrix."⟩])] ∧
    rescaleGeneric.describes "x" ≠ some "A matrix." := by
  decide

end DocTopics.Topic
