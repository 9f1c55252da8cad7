import DocTopics.Proofs.AliasIndex
import DocTopics.Store
import Mathlib.Order.Bounds.Basic

/-!
# Which signature answers a combination

A query such as `area(Disk,Ring)` is answered by an entry of exactly these types, wherever it
stands. Without one, the entries that share the most types with the query count: a single one
answers, several are reported as candidates.

## Main definitions

- `AliasIndex.entriesOf` — the entries whose key is a combination of a generic
- `SharesTypes` — the number of types that a signature shares with a query
- `CombinationAnswer` — the answer to a combination, case by case
- `Store.matchesOf` — the best matches among all entries at once

## Main statements

- `Store.matchesOf_concat` — what one more entry changes
- `Store.foldlM_consider` — the search finds an exact entry, or the best matches
- `Store.resolve_combination_iff` — combinations are resolved to this answer and to no other
-/

namespace DocTopics

/-! ### The entries of a generic -/

namespace AliasEntry

/-- The key is that of a combination, and it reads as one of this generic. -/
def IsOf (generic : String) (e : AliasEntry) : Prop :=
  e.space = .combination ∧ (Combination.ofKey e.key).map (·.generic) = some generic

instance (generic : String) (e : AliasEntry) : Decidable (e.IsOf generic) :=
  inferInstanceAs (Decidable (_ ∧ _))

/-- The types that the key of a combination names. -/
def types (e : AliasEntry) : List String :=
  ((Combination.ofKey e.key).map (·.types)).getD []

end AliasEntry

namespace AliasIndex

/-- The entries for combinations of a generic, as the table lists them. -/
def entriesOf (index : AliasIndex) (generic : String) : List AliasEntry :=
  index.entries.filter fun e => e.IsOf generic

theorem combinations_eq (index : AliasIndex) (generic : String) :
    index.combinations generic =
      (index.entriesOf generic).map fun e => (e.types, e.topic) := by
  have hguard : index.combinations generic = index.entries.filterMap fun e =>
      if e.IsOf generic then some (e.types, e.topic) else none := by
    refine List.filterMap_congr fun e _ => ?_
    by_cases hspace : e.space = .combination
    · cases hkey : Combination.ofKey e.key <;>
        simp [AliasEntry.IsOf, AliasEntry.types, hspace, hkey]
    · simp [AliasEntry.IsOf, hspace]
  rw [hguard, entriesOf]
  induction index.entries with
  | nil => rfl
  | cons e entries ih => by_cases he : e.IsOf generic <;> simp [he, ih]

/-- Entries of one generic stand in the order of their keys. -/
theorem pairwise_entriesOf (index : AliasIndex) (generic : String) :
    (index.entriesOf generic).Pairwise fun a b => a.key < b.key := by
  refine (index.sorted.filter _).imp_of_mem ?_
  intro a b ha hb hbefore
  have hspace : a.space = b.space := by
    rw [(of_decide_eq_true (List.mem_filter.1 ha).2).1,
      (of_decide_eq_true (List.mem_filter.1 hb).2).1]
  obtain hrank | ⟨-, hkey⟩ := hbefore
  · rw [hspace] at hrank
    exact absurd hrank (Nat.lt_irrefl _)
  · exact hkey

end AliasIndex

/-! ### Shared types -/

/-- One of two type lists is a prefix of the other and not empty; the shorter one has `n` types. -/
def SharesTypes (query types : List String) (n : Nat) : Prop :=
  (types <+: query ∨ query <+: types) ∧ n = min types.length query.length ∧ 0 < n

instance (query types : List String) (n : Nat) : Decidable (SharesTypes query types n) :=
  inferInstanceAs (Decidable (_ ∧ _))

/-- Two lists that agree as far as the shorter one goes are prefixes of each other. -/
theorem take_min_eq_iff {α : Type} {xs ys : List α} :
    xs.take (min xs.length ys.length) = ys.take (min xs.length ys.length) ↔
      xs <+: ys ∨ ys <+: xs := by
  rcases Nat.le_total xs.length ys.length with hle | hle
  · rw [Nat.min_eq_left hle, List.take_length, ← List.prefix_iff_eq_take]
    refine ⟨.inl, fun h => h.elim (fun hxy => hxy) fun hyx => ?_⟩
    obtain rfl := hyx.eq_of_length_le hle
    exact List.prefix_refl ys
  · rw [Nat.min_eq_right hle, List.take_length, eq_comm, ← List.prefix_iff_eq_take]
    refine ⟨.inr, fun h => h.elim (fun hxy => ?_) fun hyx => hyx⟩
    obtain rfl := hxy.eq_of_length_le hle
    exact List.prefix_refl xs

theorem sharedTypes_eq_some_iff {query types : List String} {n : Nat} :
    Store.sharedTypes types query = some n ↔ SharesTypes query types n := by
  unfold Store.sharedTypes SharesTypes
  rw [← take_min_eq_iff]
  dsimp only
  split
  · rename_i h
    simp only [Option.some_inj, h.2, true_and]
    omega
  · rename_i h
    simp only [reduceCtorEq, false_iff]
    rintro ⟨htake, rfl, hpos⟩
    exact h ⟨hpos, htake⟩

/-- The numbers of types that entries share with a query. -/
def sharedCounts (query : List String) (entries : List AliasEntry) : Set Nat :=
  {n | ∃ e ∈ entries, SharesTypes query e.types n}

theorem isGreatest_sharedCounts_iff {query : List String} {entries : List AliasEntry} {n : Nat} :
    IsGreatest (sharedCounts query entries) n ↔
      (entries.filterMap fun e => Store.sharedTypes e.types query).max? = some n := by
  have hmem : ∀ m, m ∈ sharedCounts query entries ↔
      m ∈ entries.filterMap fun e => Store.sharedTypes e.types query := by
    intro m
    simp only [sharedCounts, Set.mem_ofPred_eq, List.mem_filterMap, sharedTypes_eq_some_iff]
  rw [List.max?_eq_some_iff, ← hmem]
  refine and_congr_right fun _ => forall_congr' fun m => ?_
  rw [hmem]

/-! ### Answers -/

/-- The answer to a combination of a generic, given the entries of this generic. -/
inductive CombinationAnswer (generic : String) (query : List String) (text : String)
    (entries : List AliasEntry) : Except LookupError String → Prop
  /-- The first entry of exactly these types. -/
  | exact {front back : List AliasEntry} {e : AliasEntry} (hentries : entries = front ++ e :: back)
      (hfirst : ∀ x ∈ front, x.types ≠ query) (he : e.types = query) :
      CombinationAnswer generic query text entries (.ok e.topic)
  /-- The only entry that shares the most types. -/
  | best {n : Nat} {e : AliasEntry} (hnone : ∀ x ∈ entries, x.types ≠ query)
      (hmost : IsGreatest (sharedCounts query entries) n)
      (honly : (entries.filter fun x => SharesTypes query x.types n) = [e]) :
      CombinationAnswer generic query text entries (.ok e.topic)
  /-- Several entries that share the most types. -/
  | ambiguous {n : Nat} (hnone : ∀ x ∈ entries, x.types ≠ query)
      (hmost : IsGreatest (sharedCounts query entries) n)
      (hseveral : 1 < (entries.filter fun x => SharesTypes query x.types n).length) :
      CombinationAnswer generic query text entries (.error (.ambiguous text
        ((entries.filter fun x => SharesTypes query x.types n).map fun x =>
          Combination.key ⟨generic, x.types⟩)))
  | notFound (hnone : ∀ x ∈ entries, x.types ≠ query)
      (hshares : ∀ x ∈ entries, ∀ n, ¬SharesTypes query x.types n) :
      CombinationAnswer generic query text entries (.error (.notFound text))

namespace Store

/-! ### The search -/

/-- The best matches among all entries at once. -/
def matchesOf (types : List String) (entries : List (List String × String)) : Matches :=
  let most := (entries.filterMap fun e => sharedTypes e.1 types).max?
  { most := most
    candidates := entries.filter fun e => most.any fun n => sharedTypes e.1 types == some n }

section Search

variable {types : List String} {seen : List (List String × String)}
  {entry : List String × String} {n : Nat}

theorem matchesOf_concat_of_none (h : sharedTypes entry.1 types = none) :
    matchesOf types (seen ++ [entry]) = matchesOf types seen := by
  simp [matchesOf, h]

/-- Another number of shared types raises the greatest one or leaves it. -/
theorem max?_concat (counts : List Nat) (n : Nat) :
    (counts ++ [n]).max? = some (counts.max?.elim n (max · n)) := by
  cases hmax : counts.max? with
  | none =>
    rw [List.max?_eq_none_iff.1 hmax]
    rfl
  | some most =>
    obtain ⟨hmem, hle⟩ := List.max?_eq_some_iff.1 hmax
    refine List.max?_eq_some_iff.2 ⟨?_, fun m hm => ?_⟩
    · rcases Nat.le_total most n with h | h
      · simp [Nat.max_eq_right h]
      · simp [Nat.max_eq_left h, hmem]
    · rcases List.mem_append.1 hm with hm | hm
      · exact Nat.le_trans (hle m hm) (Nat.le_max_left most n)
      · rw [List.mem_singleton.1 hm]
        exact Nat.le_max_right most n

/-- One more entry is taken in as the search takes it in. -/
theorem matchesOf_concat_of_some (h : sharedTypes entry.1 types = some n) :
    matchesOf types (seen ++ [entry]) = (matchesOf types seen).add n entry := by
  have hcounts : (seen ++ [entry]).filterMap (fun e => sharedTypes e.1 types) =
      seen.filterMap (fun e => sharedTypes e.1 types) ++ [n] := by
    simp [h]
  simp only [matchesOf, Matches.add, hcounts, max?_concat, List.filter_append]
  cases hmax : (seen.filterMap fun e => sharedTypes e.1 types).max? with
  | none =>
    -- no entry shared a type before
    have hnone := List.filterMap_eq_nil_iff.1 (List.max?_eq_none_iff.1 hmax)
    have hseen : seen.filter (fun e => sharedTypes e.1 types == some n) = [] := by
      refine List.filter_eq_nil_iff.2 fun e he => ?_
      rw [hnone e he]
      simp
    simp [hseen, h]
  | some most =>
    obtain ⟨-, hle⟩ := List.max?_eq_some_iff.1 hmax
    rcases Nat.lt_trichotomy n most with hlt | rfl | hlt
    · have hne : ¬n = most := Nat.ne_of_lt hlt
      simp [Nat.max_eq_left (Nat.le_of_lt hlt), h, hlt, hne]
    · simp [h]
    · -- the entries before shared fewer types
      have hseen : seen.filter (fun e => sharedTypes e.1 types == some n) = [] := by
        refine List.filter_eq_nil_iff.2 fun e he heq => ?_
        have hshared := hle n (List.mem_filterMap.2 ⟨e, he, eq_of_beq heq⟩)
        omega
      have hnot : ¬n < most := Nat.lt_asymm hlt
      have hne : ¬n = most := Nat.ne_of_gt hlt
      simp [Nat.max_eq_right (Nat.le_of_lt hlt), hseen, h, hnot, hne]

/-- The search from any point on: the first exact entry ends it, and without one the matches are
those of all entries. -/
theorem foldlM_consider (types : List String) (seen entries : List (List String × String)) :
    entries.foldlM (consider types) (matchesOf types seen) =
      match entries.find? (·.1 == types) with
      | some e => .error e.2
      | none => .ok (matchesOf types (seen ++ entries)) := by
  induction entries generalizing seen with
  | nil => simp only [List.foldlM_nil, List.find?_nil, List.append_nil]; rfl
  | cons entry entries ih =>
    rw [List.foldlM_cons, List.find?_cons]
    by_cases hexact : entry.1 = types
    · have hbeq : (entry.1 == types) = true := beq_iff_eq.2 hexact
      rw [consider, if_pos hexact, hbeq]
      rfl
    · have hbeq : (entry.1 == types) = false := beq_eq_false_iff_ne.2 hexact
      have hnext : consider types (matchesOf types seen) entry =
          .ok (matchesOf types (seen ++ [entry])) := by
        rw [consider, if_neg hexact]
        cases hshared : sharedTypes entry.1 types with
        | none => rw [matchesOf_concat_of_none hshared]
        | some n => rw [matchesOf_concat_of_some hshared]
      rw [hnext, hbeq]
      have hsplit : seen ++ entry :: entries = (seen ++ [entry]) ++ entries := by simp
      rw [hsplit]
      exact ih (seen ++ [entry])

end Search

variable {s : Store} {generic text : String} {query : List String}

/-- What the search comes to: the first entry of exactly the types of the query, or the best of all
matches. -/
theorem resolveCombination_eq (s : Store) (generic : String) (query : List String) (text : String) :
    s.resolveCombination ⟨generic, query⟩ text =
      match (s.index.entriesOf generic).find? (fun e => e.types == query) with
      | some e => .ok e.topic
      | none =>
        (matchesOf query ((s.index.entriesOf generic).map fun e => (e.types, e.topic))).answer
          generic text := by
  have hstart : ({} : Matches) = matchesOf query [] := rfl
  rw [resolveCombination, hstart, foldlM_consider, AliasIndex.combinations_eq, List.find?_map,
    List.nil_append]
  have hcomp : (fun e : List String × String => e.1 == query) ∘
      (fun e : AliasEntry => (e.types, e.topic)) = fun e => e.types == query := rfl
  rw [hcomp]
  cases (s.index.entriesOf generic).find? fun e => e.types == query <;> rfl

/-! ### The answer of a search -/

theorem candidates_of_isGreatest {entries : List AliasEntry} {n : Nat}
    (h : IsGreatest (sharedCounts query entries) n) :
    (matchesOf query (entries.map fun e => (e.types, e.topic))).candidates =
      (entries.filter fun e => SharesTypes query e.types n).map fun e => (e.types, e.topic) := by
  have hmost := isGreatest_sharedCounts_iff.1 h
  have hshares : ∀ e : AliasEntry, (sharedTypes e.types query == some n) =
      decide (SharesTypes query e.types n) := by
    intro e
    rw [Bool.eq_iff_iff, beq_iff_eq, decide_eq_true_eq, sharedTypes_eq_some_iff]
  simp only [matchesOf, List.filterMap_map, Function.comp_def, hmost, List.filter_map, hshares,
    Option.any_some]

theorem candidates_of_forall_not {entries : List AliasEntry}
    (h : ∀ e ∈ entries, ∀ n, ¬SharesTypes query e.types n) :
    (matchesOf query (entries.map fun e => (e.types, e.topic))).candidates = [] := by
  rw [matchesOf, List.filter_eq_nil_iff]
  intro c hc hshared
  obtain ⟨e, he, rfl⟩ := List.mem_map.1 hc
  obtain ⟨n, -, hn⟩ := (Option.any_eq_true _ _).1 hshared
  exact h e he n (sharedTypes_eq_some_iff.1 (eq_of_beq hn))

theorem find?_of_forall_ne {entries : List AliasEntry} (h : ∀ e ∈ entries, e.types ≠ query) :
    entries.find? (fun e => e.types == query) = none := by
  refine List.find?_eq_none.2 fun e he heq => ?_
  exact h e he (eq_of_beq heq)

/-- What has one of the answers is resolved to it. -/
theorem resolveCombination_of_answer {answer : Except LookupError String}
    (h : CombinationAnswer generic query text (s.index.entriesOf generic) answer) :
    s.resolveCombination ⟨generic, query⟩ text = answer := by
  rw [resolveCombination_eq]
  cases h with
  | @exact front back e hentries hfirst he =>
    have hfind : (s.index.entriesOf generic).find? (fun x => x.types == query) = some e := by
      refine List.find?_eq_some_iff_append.2 ⟨beq_iff_eq.2 he, front, back, hentries, ?_⟩
      intro x hx
      simpa using hfirst x hx
    rw [hfind]
  | best hnone hmost honly =>
    simp only [find?_of_forall_ne hnone, Matches.answer, candidates_of_isGreatest hmost, honly]
    rfl
  | @ambiguous n hnone hmost hseveral =>
    simp only [find?_of_forall_ne hnone, Matches.answer, candidates_of_isGreatest hmost]
    rcases hbest : (s.index.entriesOf generic).filter fun x => SharesTypes query x.types n with
      _ | ⟨a, _ | ⟨b, more⟩⟩
    · simp [hbest] at hseveral
    · simp [hbest] at hseveral
    · rw [hbest]
      simp
  | notFound hnone hshares =>
    simp only [find?_of_forall_ne hnone, Matches.answer, candidates_of_forall_not hshares]

/-- The cases leave no combination without an answer. -/
theorem exists_combinationAnswer (generic : String) (query : List String) (text : String)
    (entries : List AliasEntry) :
    ∃ answer, CombinationAnswer generic query text entries answer := by
  cases hfind : entries.find? (fun e => e.types == query) with
  | some e =>
    obtain ⟨he, front, back, hentries, hfirst⟩ := List.find?_eq_some_iff_append.1 hfind
    refine ⟨_, .exact hentries (fun x hx => ?_) (beq_iff_eq.1 he)⟩
    simpa using hfirst x hx
  | none =>
    have hnone : ∀ x ∈ entries, x.types ≠ query := by simpa using hfind
    cases hmax : (entries.filterMap fun e => sharedTypes e.types query).max? with
    | none =>
      rw [List.max?_eq_none_iff, List.filterMap_eq_nil_iff] at hmax
      refine ⟨_, .notFound hnone fun x hx n hshares => ?_⟩
      rw [← sharedTypes_eq_some_iff, hmax x hx] at hshares
      cases hshares
    | some n =>
      have hmost := isGreatest_sharedCounts_iff.2 hmax
      rcases hbest : entries.filter fun x => SharesTypes query x.types n with
        _ | ⟨e, _ | ⟨e', more⟩⟩
      · -- the greatest number is that of some entry
        obtain ⟨x, hx, hshares⟩ := hmost.1
        exact absurd (decide_eq_true hshares) (List.filter_eq_nil_iff.1 hbest x hx)
      · exact ⟨_, .best hnone hmost hbest⟩
      · exact ⟨_, .ambiguous hnone hmost (by simp [hbest])⟩

/-- What a combination is resolved to is one of the answers. -/
theorem answer_resolveCombination (s : Store) (c : Combination) (text : String) :
    CombinationAnswer c.generic c.types text (s.index.entriesOf c.generic)
      (s.resolveCombination c text) := by
  obtain ⟨answer, hanswer⟩ :=
    exists_combinationAnswer c.generic c.types text (s.index.entriesOf c.generic)
  rwa [resolveCombination_of_answer hanswer]

/-- The entries of a generic stand in the order of their keys. Of these, the first entry of exactly
the types of the query answers; else the only one that shares the most types with it; else all that
share the most are listed; and where none shares any, nothing is found. -/
theorem resolve_combination_iff (s : Store) (generic : String) (query : List String)
    (text : String) :
    (s.index.entriesOf generic).Pairwise (fun a b => a.key < b.key) ∧
    ∀ answer, s.resolve (.combination ⟨generic, query⟩) text = answer ↔
      CombinationAnswer generic query text (s.index.entriesOf generic) answer := by
  refine ⟨s.index.pairwise_entriesOf generic, fun answer => ⟨?_, resolveCombination_of_answer⟩⟩
  rintro rfl
  exact answer_resolveCombination s ⟨generic, query⟩ text

end Store

end DocTopics
