import DocTopics.Proofs.TagReading
import Mathlib.Data.List.Perm.Basic

/-!
# The order of tags

Tags of different names may change places. Every field of a topic depends on the tags of single
names, in the order they have among themselves, and so does every fault of a tag: of the tags in
front of it only those of its own name count. So the same topic is built, and the same faults are
found, if perhaps in another order.

## Main definitions

- `Comment.Reordered` — of every name the same tags, in the same order
- `Comment.withEarlier` — each tag with the tags of its name in front of it

## Main statements

- `Comment.Reordered.perm_tagFaults` — the faults of single tags
- `Built.of_reordered` — all that a block gives
-/

namespace DocTopics

/-- A list is known up to order when its parts are known for every value of some key. -/
theorem perm_of_filter_eq {α κ : Type} [BEq α] [LawfulBEq α] [BEq κ] [LawfulBEq κ] (key : α → κ)
    {xs ys : List α} (h : ∀ k, xs.filter (key · == k) = ys.filter (key · == k)) : xs.Perm ys := by
  rw [List.perm_iff_count]
  intro x
  have hcount : ∀ zs : List α, (zs.filter (key · == key x)).count x = zs.count x :=
    fun zs => List.count_filter (p := fun z => key z == key x) (beq_self_eq_true (key x))
  rw [← hcount, h, hcount]

namespace Comment

/-- The same preamble, and of every name the same tags in the same order. The tags of the two
comments differ in the order of tags of different names at most. -/
structure Reordered (c c' : Comment) : Prop where
  preamble : c.preamble = c'.preamble
  all : ∀ name, c.all name = c'.all name

theorem reordered_iff {c c' : Comment} :
    c.Reordered c' ↔
      c.preamble = c'.preamble ∧ ∀ t ∈ c.tags ++ c'.tags, c.all t.name = c'.all t.name := by
  refine ⟨fun h => ⟨h.preamble, fun t _ => h.all t.name⟩, fun ⟨hpreamble, hall⟩ => ⟨hpreamble, ?_⟩⟩
  intro name
  by_cases hname : ∃ t ∈ c.tags ++ c'.tags, t.name = name
  · obtain ⟨t, ht, rfl⟩ := hname
    exact hall t ht
  · -- a name that no tag has
    have hnone : ∀ tags ⊆ c.tags ++ c'.tags, tags.filter (·.name == name) = [] := by
      intro tags htags
      refine List.filter_eq_nil_iff.2 fun t ht heq => hname ⟨t, htags ht, eq_of_beq heq⟩
    rw [all, all, hnone _ (List.subset_append_left _ _), hnone _ (List.subset_append_right _ _)]

instance (c c' : Comment) : Decidable (c.Reordered c') :=
  decidable_of_iff _ reordered_iff.symm

theorem has_eq_not_isEmpty (c : Comment) (name : String) : c.has name = !(c.all name).isEmpty := by
  rw [has, all, Bool.eq_iff_iff]
  simp [List.filter_eq_nil_iff]

/-! ### Each tag with those in front of it -/

/-- Each tag with the tags of its name in front of it. -/
def withEarlier (before : List Tag) : List Tag → List (List Tag × Tag)
  | [] => []
  | t :: rest => (before.filter (·.name == t.name), t) :: withEarlier (before ++ [t]) rest

/-- Tags of one name are met as if there were no others. -/
theorem filter_withEarlier (name : String) (before tags : List Tag) :
    (withEarlier before tags).filter (·.2.name == name) =
      withEarlier (before.filter (·.name == name)) (tags.filter (·.name == name)) := by
  induction tags generalizing before with
  | nil => rfl
  | cons t tags ih =>
    by_cases hname : t.name = name
    · subst hname
      simp only [withEarlier, List.filter_cons, beq_self_eq_true, if_true, ih, List.filter_append,
        List.filter_nil, List.filter_filter, Bool.and_self]
    · have hbeq : (t.name == name) = false := beq_eq_false_iff_ne.2 hname
      simp only [withEarlier, List.filter_cons, hbeq, Bool.false_eq_true, if_false, ih,
        List.filter_append, List.filter_nil, List.append_nil]

/-- For the faults of a tag only the tags of its name matter. -/
theorem faultsOf_filter (unit : String) (before : List Tag) (t : Tag) :
    faultsOf unit (before.filter (·.name == t.name)) t = faultsOf unit before t := by
  simp only [faultsOf, entries, all, List.filter_filter, Bool.and_self]

theorem tagFaults_eq_flatMap (unit : String) (before tags : List Tag) :
    tagFaults unit before tags =
      (withEarlier before tags).flatMap fun x => faultsOf unit x.1 x.2 := by
  induction tags generalizing before with
  | nil => rfl
  | cons t tags ih => rw [tagFaults, withEarlier, ih, List.flatMap_cons, faultsOf_filter]

namespace Reordered

variable {c c' : Comment}

/-! ### What a comment says -/

theorem perm (h : c.Reordered c') : c.tags.Perm c'.tags :=
  perm_of_filter_eq Tag.name h.all

theorem last? (h : c.Reordered c') (name : String) : c.last? name = c'.last? name := by
  rw [Comment.last?, Comment.last?, h.all]

theorem has (h : c.Reordered c') (name : String) : c.has name = c'.has name := by
  rw [has_eq_not_isEmpty, has_eq_not_isEmpty, h.all]

theorem contents (h : c.Reordered c') (name : String) : c.contents name = c'.contents name := by
  rw [Comment.contents, Comment.contents, h.all]

theorem wordsOf (h : c.Reordered c') (name : String) : c.wordsOf name = c'.wordsOf name := by
  rw [Comment.wordsOf, Comment.wordsOf, h.all]

theorem lastWord (h : c.Reordered c') (name : String) : c.lastWord name = c'.lastWord name := by
  rw [Comment.lastWord, Comment.lastWord, h.last?]

theorem includes (h : c.Reordered c') : c.includes = c'.includes := by
  rw [Comment.includes, Comment.includes, h.all]

theorem methodTag (h : c.Reordered c') : c.methodTag = c'.methodTag := by
  rw [Comment.methodTag, Comment.methodTag, h.last?]

theorem target (h : c.Reordered c') (ctx : PackageContext) (d : Declaration) :
    c.target ctx d = c'.target ctx d := by
  have hmethod : c.withMethod d = c'.withMethod d := by
    rw [withMethod, withMethod, h.methodTag]
  have hname : ∀ d, c.withName d = c'.withName d := by
    intro d
    rw [withName, withName, h.lastWord]
  rw [Comment.target, Comment.target, hmethod, hname]

theorem docTypeFor (h : c.Reordered c') (d : Declaration) : c.docTypeFor d = c'.docTypeFor d := by
  simp only [Comment.docTypeFor, h.last?]

theorem explicitPassage (h : c.Reordered c') (name : String) :
    c.explicitPassage name = c'.explicitPassage name := by
  rw [Comment.explicitPassage, Comment.explicitPassage, h.last?]

theorem joinedText (h : c.Reordered c') (name : String) :
    c.joinedText name = c'.joinedText name := by
  simp only [Comment.joinedText, h.contents]

theorem entries (h : c.Reordered c') (name : String) : c.entries name = c'.entries name := by
  rw [Comment.entries, Comment.entries, h.all]

theorem description (h : c.Reordered c') : c.description = c'.description := by
  rw [Comment.description, Comment.description, h.explicitPassage, h.preamble]

theorem title (h : c.Reordered c') : c.title = c'.title := by
  rw [Comment.title, Comment.title, ownTitle, ownTitle, h.explicitPassage, h.preamble,
    h.description]

theorem details (h : c.Reordered c') : c.details = c'.details := by
  rw [Comment.details, Comment.details, h.explicitPassage, h.preamble]

theorem ofPreamble (h : c.Reordered c') (b : Block) (d : Subject) :
    Topic.ofPreamble b c d = Topic.ofPreamble b c' d := by
  simp only [Topic.ofPreamble, h.docTypeFor, h.lastWord, h.title, h.description, h.details, h.has]

theorem withTags (h : c.Reordered c') (t : Topic) : t.withTags c = t.withTags c' := by
  simp only [Topic.withTags, usage, h.contents, h.joinedText, h.entries, h.has, h.wordsOf, h.all]

theorem subject (h : c.Reordered c') (b : Block) (ctx : PackageContext) :
    DocTopics.subject b c ctx = DocTopics.subject b c' ctx := by
  simp only [DocTopics.subject, h.target, h.methodTag, h.wordsOf]

theorem ofComment (h : c.Reordered c') (b : Block) (ctx : PackageContext) :
    Topic.ofComment b c ctx = Topic.ofComment b c' ctx := by
  simp only [Topic.ofComment, h.subject, Topic.ofSubject_eq, h.ofPreamble, h.withTags]

/-! ### Faults -/

theorem perm_tagFaults (h : c.Reordered c') (unit : String) :
    (tagFaults unit [] c.tags).Perm (tagFaults unit [] c'.tags) := by
  have hearlier : (withEarlier [] c.tags).Perm (withEarlier [] c'.tags) := by
    refine perm_of_filter_eq (fun x => x.2.name) fun name => ?_
    have hall : c.tags.filter (·.name == name) = c'.tags.filter (·.name == name) := h.all name
    rw [filter_withEarlier, filter_withEarlier, hall]
  rw [tagFaults_eq_flatMap, tagFaults_eq_flatMap]
  exact hearlier.flatMap_right _

theorem perm_braceFaults (h : c.Reordered c') (b : Block) :
    (c.braceFaults b).Perm (c'.braceFaults b) := by
  rw [braceFaults, braceFaults, h.preamble]
  exact ((h.perm.filter _).map _).append_left _

theorem perm_faults (h : c.Reordered c') (b : Block) (ctx : PackageContext) :
    (c.faults b ctx).Perm (c'.faults b ctx) := by
  have hmethod : c.methodFaults b.unit = c'.methodFaults b.unit := by
    rw [methodFaults, methodFaults, h.last?]
  have hname : c.nameFaults b.unit = c'.nameFaults b.unit := by
    rw [nameFaults, nameFaults, h.last?]
  have hunknown : (c.unknownTagFaults b.unit).Perm (c'.unknownTagFaults b.unit) :=
    (h.perm.filter _).map _
  rw [faults, faults, h.subject, hmethod, hname, Assembly.ofSubject_eq, Assembly.ofSubject_eq]
  refine (((hunknown.append (h.perm_braceFaults b)).append_right _).append_right _).append ?_
  split
  · have hunnamed : c.unnamedFaults b = c'.unnamedFaults b := by
      rw [unnamedFaults, unnamedFaults, directivesOnly, directivesOnly, h.preamble, h.perm.all_eq]
    rw [hunnamed]
  · have hdocType : c.docTypeFaults b.unit = c'.docTypeFaults b.unit := by
      rw [docTypeFaults, docTypeFaults, h.last?]
    have hdispatch : ∀ d, c.dispatchFaults b ctx d = c'.dispatchFaults b ctx d := by
      intro d
      simp only [dispatchFaults, h.docTypeFor, h.has]
    rw [hdocType, hdispatch]
    exact (h.perm_tagFaults b.unit).append_left _

end Reordered

end Comment

/-- Tags of different names may change places: the topic and the included units stay the same, and
the faults are the same in some order. -/
theorem Built.of_reordered (b : Block) (ctx : PackageContext) {c c' : Comment}
    (h : c.Reordered c') :
    (Built.of b c ctx).topic = (Built.of b c' ctx).topic ∧
      (Built.of b c ctx).includes = (Built.of b c' ctx).includes ∧
      (Built.of b c ctx).diagnostics.Perm (Built.of b c' ctx).diagnostics :=
  ⟨h.ofComment b ctx, h.includes, h.perm_faults b ctx⟩

/-- The tags of a method with a parameter that is documented twice. -/
def printTags : List Tag :=
  [⟨"method", "print frame", 2⟩, ⟨"param", "x A frame.", 3⟩, ⟨"rdname", "frames", 4⟩,
    ⟨"include", "generics.R", 5⟩, ⟨"param", "x Anything.", 6⟩, ⟨"section", "No colon", 7⟩,
    ⟨"export", "", 8⟩]

/-- The same tags in another order; the two parameters keep theirs. -/
def printTagsMoved : List Tag :=
  [⟨"export", "", 8⟩, ⟨"section", "No colon", 7⟩, ⟨"param", "x A frame.", 3⟩,
    ⟨"param", "x Anything.", 6⟩, ⟨"include", "generics.R", 5⟩, ⟨"rdname", "frames", 4⟩,
    ⟨"method", "print frame", 2⟩]

/-- A function that the tags make a method. -/
def printBlock : Block :=
  { unit := "R/a.R", place := ⟨0, 1⟩, lines := []
    declaration := { kind := .function, name := some "print.frame", formals := some "x" } }

theorem Built.of_printTagsMoved :
    (Comment.mk "Print a frame" printTags).Reordered ⟨"Print a frame", printTagsMoved⟩ ∧
    ∃ t, (Built.of printBlock ⟨"Print a frame", printTags⟩ {}).topic = some t ∧
      (Built.of printBlock ⟨"Print a frame", printTagsMoved⟩ {}).topic = some t ∧
      t.id = "frames" ∧ t.params = [⟨"x", "A frame."⟩] ∧
      (Built.of printBlock ⟨"Print a frame", printTagsMoved⟩ {}).includes = [⟨"generics.R", 5⟩] ∧
      (Built.of printBlock ⟨"Print a frame", printTags⟩ {}).diagnostics.Perm
        (Built.of printBlock ⟨"Print a frame", printTagsMoved⟩ {}).diagnostics ∧
      (Built.of printBlock ⟨"Print a frame", printTags⟩ {}).diagnostics.map (·.pos.line) = [6, 7] ∧
      (Built.of printBlock ⟨"Print a frame", printTagsMoved⟩ {}).diagnostics.map (·.pos.line) =
        [7, 6] := by
  have h : (Comment.mk "Print a frame" printTags).Reordered ⟨"Print a frame", printTagsMoved⟩ := by
    decide
  obtain ⟨htopic, hincludes, hperm⟩ := Built.of_reordered printBlock {} h
  have heval : (Built.of printBlock ⟨"Print a frame", printTags⟩ {}).topic.map
      (fun t => (t.id, t.params)) = some ("frames", [⟨"x", "A frame."⟩]) := by decide
  obtain ⟨t, ht, hfields⟩ := Option.map_eq_some_iff.1 heval
  rw [Prod.mk.injEq] at hfields
  exact ⟨h, t, ht, htopic ▸ ht, hfields.1, hfields.2, hincludes ▸ by decide, hperm, by decide,
    by decide⟩

end DocTopics
