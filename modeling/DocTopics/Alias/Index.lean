import DocTopics.Failure
import DocTopics.Topic.Basic

/-!
# The alias index

The index holds every key that leads to a topic. Its entries are sorted by namespace and key, and no
key stands twice in a namespace, so two indexes are equal as soon as they hold the same entries.

## Main definitions

- `AliasIndex` — the sorted table
- `AliasIndex.get?`, `AliasIndex.insert` — look-up, and insertion that refuses a second owner
- `Topic.claims` — the keys of a topic
- `AliasIndex.build` — the index of a list of topics
- `AliasIndex.combinations` — the signatures of a generic
- `AliasIndex.shadowed` — the names of a topic whose plain key belongs to another
-/

namespace DocTopics

/-- A key and the topic it leads to. -/
structure AliasEntry where
  space : Namespace
  key : String
  topic : String
deriving DecidableEq

namespace AliasEntry

/-- The strict order of entries: by namespace, then by key. -/
def Before (a b : AliasEntry) : Prop :=
  a.space.rank < b.space.rank ∨ (a.space.rank = b.space.rank ∧ a.key < b.key)

instance (a b : AliasEntry) : Decidable (a.Before b) :=
  inferInstanceAs (Decidable (_ ∨ _))

/-- The entry stands for this key. -/
def isFor (e : AliasEntry) (space : Namespace) (key : String) : Bool :=
  e.space == space && e.key == key

theorem isFor_iff {e : AliasEntry} {space : Namespace} {key : String} :
    e.isFor space key = true ↔ e.space = space ∧ e.key = key := by
  simp [isFor]

theorem Before.irrefl (e : AliasEntry) : ¬e.Before e := by
  rintro (h | ⟨_, h⟩)
  · exact Nat.lt_irrefl _ h
  · exact String.lt_irrefl _ h

theorem Before.trans {a b c : AliasEntry} (h : a.Before b) (k : b.Before c) : a.Before c := by
  unfold Before at *
  rcases h with h | ⟨h, h'⟩ <;> rcases k with k | ⟨k, k'⟩
  · exact .inl (Nat.lt_trans h k)
  · exact .inl (k ▸ h)
  · exact .inl (h ▸ k)
  · exact .inr ⟨h.trans k, String.lt_trans h' k'⟩

/-- Entries that the order does not tell apart stand for one key. -/
theorem eq_of_not_before {a b : AliasEntry} (h : ¬a.Before b) (k : ¬b.Before a) :
    a.space = b.space ∧ a.key = b.key := by
  simp only [Before, not_or, not_and, Nat.not_lt] at h k
  have hrank : a.space.rank = b.space.rank := Nat.le_antisymm k.1 h.1
  exact ⟨Namespace.rank_injective hrank,
    String.le_antisymm (String.not_lt.1 (k.2 hrank.symm)) (String.not_lt.1 (h.2 hrank))⟩

/-- Puts an entry into its place, in place of one for the same key. -/
def put (e : AliasEntry) : List AliasEntry → List AliasEntry
  | [] => [e]
  | x :: xs =>
    if e.Before x then e :: x :: xs
    else if x.Before e then x :: put e xs
    else e :: xs

theorem mem_put {e y : AliasEntry} {xs : List AliasEntry} (h : y ∈ put e xs) : y = e ∨ y ∈ xs := by
  induction xs with
  | nil => exact .inl (List.mem_singleton.1 h)
  | cons x xs ih =>
    simp only [put] at h
    split at h
    · simpa using h
    · split at h
      · rcases List.mem_cons.1 h with rfl | h
        · exact .inr (List.mem_cons_self ..)
        · exact (ih h).imp_right (List.mem_cons_of_mem _)
      · exact (List.mem_cons.1 h).imp_right (List.mem_cons_of_mem _)

/-- Insertion keeps a table sorted. -/
theorem pairwise_put {e : AliasEntry} {xs : List AliasEntry} (h : xs.Pairwise Before) :
    (put e xs).Pairwise Before := by
  induction xs with
  | nil => simp [put]
  | cons x xs ih =>
    obtain ⟨hx, hxs⟩ := List.pairwise_cons.1 h
    simp only [put]
    split
    · rename_i hex
      refine List.pairwise_cons.2 ⟨fun y hy => ?_, h⟩
      rcases List.mem_cons.1 hy with rfl | hy
      · exact hex
      · exact hex.trans (hx y hy)
    · split
      · rename_i hxe
        refine List.pairwise_cons.2 ⟨fun y hy => ?_, ih hxs⟩
        rcases mem_put hy with rfl | hy
        · exact hxe
        · exact hx y hy
      · rename_i hex hxe
        obtain ⟨hspace, hkey⟩ := eq_of_not_before hex hxe
        refine List.pairwise_cons.2 ⟨fun y hy => ?_, hxs⟩
        have := hx y hy
        unfold Before at this ⊢
        rwa [hspace, hkey]

/-- After insertion the entry stands for its key, and nothing else changes. -/
theorem find?_put {e : AliasEntry} {xs : List AliasEntry}
    (h : xs.Pairwise Before) (space : Namespace) (key : String) :
    (put e xs).find? (·.isFor space key) =
      if e.isFor space key then some e else xs.find? (·.isFor space key) := by
  induction xs with
  | nil => cases hk : e.isFor space key <;> simp [put, hk]
  | cons x xs ih =>
    obtain ⟨hx, hxs⟩ := List.pairwise_cons.1 h
    simp only [put]
    split
    · simp only [List.find?_cons]
      split <;> simp_all
    · split
      · rename_i hex hxe
        rw [List.find?_cons, ih hxs, List.find?_cons]
        by_cases he : e.isFor space key = true
        · have hne : x.isFor space key = false := by
            rw [Bool.eq_false_iff]
            intro hxk
            obtain ⟨h₁, h₂⟩ := isFor_iff.1 he
            obtain ⟨h₃, h₄⟩ := isFor_iff.1 hxk
            apply Before.irrefl e
            unfold Before at hxe ⊢
            rwa [h₃, h₄, ← h₁, ← h₂] at hxe
          simp [he, hne]
        · simp [he]
      · rename_i hex hxe
        obtain ⟨hspace, hkey⟩ := eq_of_not_before hex hxe
        have : e.isFor space key = x.isFor space key := by simp [isFor, hspace, hkey]
        simp only [List.find?_cons, ← this]
        split <;> simp_all

end AliasEntry

/-- A table of keys, sorted by namespace and key, each key once. -/
structure AliasIndex where
  entries : List AliasEntry := []
  sorted : entries.Pairwise AliasEntry.Before := by exact List.Pairwise.nil

namespace AliasIndex

/-- The topic that a key leads to. -/
def get? (index : AliasIndex) (space : Namespace) (key : String) : Option String :=
  (index.entries.find? (·.isFor space key)).map (·.topic)

/-- The index with one entry added. A key that already leads to another topic is refused. -/
def insert (index : AliasIndex) (e : AliasEntry) : Except Failure AliasIndex :=
  match index.get? e.space e.key with
  | some topic =>
    if topic = e.topic then .ok index else .error (.collision e.space e.key topic e.topic)
  | none => .ok ⟨AliasEntry.put e index.entries, AliasEntry.pairwise_put index.sorted⟩

/-- Insertion adds the entry, and nothing else changes. -/
theorem get?_insert {index index' : AliasIndex} {e : AliasEntry}
    (h : index.insert e = .ok index') (space : Namespace) (key : String) :
    index'.get? space key =
      if e.isFor space key then some e.topic else index.get? space key := by
  unfold insert at h
  split at h
  · rename_i topic htopic
    split at h
    · cases h
      split
      · rename_i ht he
        obtain ⟨rfl, rfl⟩ := AliasEntry.isFor_iff.1 he
        rw [htopic, ht]
      · rfl
    · cases h
  · cases h
    simp only [get?, AliasEntry.find?_put index.sorted]
    split <;> rfl

/-- The index of a list of entries. -/
def ofEntries (entries : List AliasEntry) : Except Failure AliasIndex :=
  entries.foldlM insert {}

end AliasIndex

/-- The combination key of a method, if it dispatches on anything. -/
def Subject.combination? (d : Subject) : Option Combination :=
  d.declaration.name.bind fun name =>
    if d.declaration.kind = .method && !d.declaration.dispatch.isEmpty then
      some ⟨name, d.declaration.dispatch⟩
    else none

/-- The keys that a declaration gives a topic of some documentation type. -/
def Subject.claims (docType : DocType) (topic : String) (d : Subject) : List AliasEntry :=
  match d.declaration.name with
  | none => []
  | some name =>
    (d.combination?.toList.map fun c => ⟨.combination, c.key, topic⟩) ++
    match docType with
    | .package => [⟨.plain, "package-" ++ name, topic⟩, ⟨.package, name, topic⟩]
    | .classDef => [⟨.plain, name ++ "-class", topic⟩, ⟨.classDef, name, topic⟩]
    | _ => d.displayName.toList.map fun display => ⟨.plain, display, topic⟩

/-- The keys that a topic claims whatever the policy. -/
def Topic.claims (t : Topic) : List AliasEntry :=
  ⟨.plain, t.id, t.id⟩ :: (t.aliases.map fun a => ⟨.plain, a, t.id⟩) ++
    t.subjects.flatMap (Subject.claims t.docType t.id)

/-- The plain names of a package, which symbols may take. -/
def Topic.packageClaims (t : Topic) : List AliasEntry :=
  if t.docType = .package then
    t.subjects.filterMap fun d => d.declaration.name.map fun name => ⟨.plain, name, t.id⟩
  else []

namespace AliasIndex

/-- Adds the plain name of a package as the policy wants it. -/
def insertPackage (policy : AliasPolicy) (index : AliasIndex) (e : AliasEntry) :
    Except Failure AliasIndex :=
  if policy = .preferSymbol && (index.get? e.space e.key).isSome then .ok index
  else index.insert e

/-- The index of a list of topics. Plain names of packages come last, after every symbol. -/
def build (topics : List Topic) (policy : AliasPolicy) : Except Failure AliasIndex := do
  let index ← ofEntries (topics.flatMap Topic.claims)
  (topics.flatMap Topic.packageClaims).foldlM (insertPackage policy) index

/-- The type lists of a generic with their topics, in key order. -/
def combinations (index : AliasIndex) (generic : String) : List (List String × String) :=
  index.entries.filterMap fun e =>
    if e.space = .combination then
      match Combination.ofKey e.key with
      | some c => if c.generic = generic then some (c.types, e.topic) else none
      | none => none
    else none

/-- The declared names of a topic whose plain key does not lead to it. -/
def shadowed (index : AliasIndex) (t : Topic) : List String :=
  (t.subjects.filterMap (·.declaration.name)).filter fun name =>
    index.get? .plain name != some t.id

end AliasIndex

end DocTopics
