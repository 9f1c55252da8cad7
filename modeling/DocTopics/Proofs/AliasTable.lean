import DocTopics.Alias.Table
import DocTopics.Proofs.AliasIndex
import DocTopics.Proofs.Lines

/-!
# Reading an alias table back

The rows of a table are not escaped. A table still reads back as the index it was written from when
no key holds a tab or a line feed, no topic holds a line feed and no topic ends in a carriage
return. In every other case it does not.

## Main definitions

- `AliasEntry.Tabular` — the entry can be told from its row
- `AliasEntry.asRead` — the entry that is read from the row of another

## Main statements

- `AliasEntry.ofRow_eq_some_iff`, `AliasIndex.addRows_eq_ok_iff` — what a row and a table read as
- `AliasIndex.ofTable_toTable` — tabular entries are read back
- `AliasIndex.reloads_iff` — no others are
-/

namespace DocTopics

/-- A text is cut at its first tab. -/
theorem Text.cutAt_tab_eq_some_iff {s a b : String} :
    Text.cutAt (· == '\t') s = some (a, b) ↔ '\t' ∉ a.toList ∧ s = a ++ "\t" ++ b := by
  have hlist : s = a ++ "\t" ++ b ↔ s.toList = a.toList ++ '\t' :: b.toList := by
    rw [← String.toList_inj]
    simp
  rw [hlist, Text.cutAt_eq_some_iff]
  constructor
  · rintro ⟨c, hc, ha, hs⟩
    rw [eq_of_beq hc] at hs
    exact ⟨Chars.forall_beq_eq_false_iff.1 ha, hs⟩
  · rintro ⟨ha, hs⟩
    exact ⟨'\t', rfl, Chars.forall_beq_eq_false_iff.2 ha, hs⟩

theorem Namespace.ofWord_eq_ok_iff {word : String} {space : Namespace} :
    Namespace.ofWord word = .ok space ↔ word = space.word := by
  constructor
  · intro h
    unfold ofWord at h
    split at h <;> cases h <;> rfl
  · rintro rfl
    cases space <;> rfl

namespace AliasEntry

/-- The entry can be told from the line that is written for it. -/
structure Tabular (e : AliasEntry) : Prop where
  key_tab : '\t' ∉ e.key.toList
  key_newline : '\n' ∉ e.key.toList
  topic_newline : '\n' ∉ e.topic.toList
  topic_last : e.topic.toList.getLast? ≠ some '\r'

/-- The line of an entry without its end. -/
def line (e : AliasEntry) : String :=
  e.space.word ++ "\t" ++ e.key ++ "\t" ++ e.topic

/-- The entry that the row of an entry is read as, if it is read as one line. -/
def asRead (e : AliasEntry) : AliasEntry :=
  { e with topic := String.ofList (Chars.dropReturn e.topic.toList) }

theorem toList_line (e : AliasEntry) :
    e.line.toList = e.space.word.toList ++ '\t' :: (e.key.toList ++ '\t' :: e.topic.toList) := by
  simp [line]

theorem plain_word (space : Namespace) :
    '\t' ∉ space.word.toList ∧ '\n' ∉ space.word.toList := by
  cases space <;> decide

theorem blank_line (e : AliasEntry) : Text.blank e.line = false := by
  rw [Text.blank, Chars.blank, toList_line, List.all_append]
  have hword : e.space.word.toList.all isBlank = false := by cases e.space <;> decide
  rw [hword, Bool.false_and]

theorem newline_notMem_line_iff {e : AliasEntry} :
    '\n' ∉ e.line.toList ↔ '\n' ∉ e.key.toList ∧ '\n' ∉ e.topic.toList := by
  simp [toList_line, (plain_word e.space).2]

/-- A line is read as the entry that it is written for, unless the key holds a tab. -/
theorem ofRow_eq_some_iff {row : String} {e : AliasEntry} :
    ofRow row = some e ↔ '\t' ∉ e.key.toList ∧ row = e.line := by
  constructor
  · intro h
    unfold ofRow at h
    split at h
    · cases h
    · rename_i word rest hrow
      split at h
      · cases h
      · rename_i key topic hrest
        split at h
        · rename_i space hword
          cases h
          obtain ⟨-, rfl⟩ := Text.cutAt_tab_eq_some_iff.1 hrow
          obtain ⟨hkey, rfl⟩ := Text.cutAt_tab_eq_some_iff.1 hrest
          rw [Namespace.ofWord_eq_ok_iff.1 hword, line]
          exact ⟨hkey, by simp only [String.append_assoc]⟩
        · cases h
  · rintro ⟨hkey, rfl⟩
    have hword : Text.cutAt (· == '\t') e.line = some (e.space.word, e.key ++ "\t" ++ e.topic) :=
      Text.cutAt_tab_eq_some_iff.2
        ⟨(plain_word e.space).1, by simp only [line, String.append_assoc]⟩
    have hrest : Text.cutAt (· == '\t') (e.key ++ "\t" ++ e.topic) = some (e.key, e.topic) :=
      Text.cutAt_tab_eq_some_iff.2 ⟨hkey, rfl⟩
    simp only [ofRow, hword, hrest, Namespace.ofWord_eq_ok_iff.2 rfl]

theorem asRead_eq_self_iff {e : AliasEntry} :
    e.asRead = e ↔ e.topic.toList.getLast? ≠ some '\r' := by
  rw [← Chars.dropReturn_eq_self_iff, ← String.ofList_inj, String.ofList_toList]
  constructor
  · exact congrArg AliasEntry.topic
  · intro h
    rw [asRead, h]

/-- A carriage return that the line end takes along is the last character of the topic: a line
without a topic ends in a tab. -/
theorem dropReturn_line (e : AliasEntry) :
    String.ofList (Chars.dropReturn e.line.toList) = e.asRead.line := by
  have hsplit : ∀ topic : List Char,
      e.space.word.toList ++ '\t' :: (e.key.toList ++ '\t' :: topic) =
        (e.space.word.toList ++ '\t' :: e.key.toList) ++ '\t' :: topic := by
    intro topic
    simp
  have hdrop : Chars.dropReturn ('\t' :: e.topic.toList) =
      '\t' :: Chars.dropReturn e.topic.toList := by
    cases htopic : e.topic.toList with
    | nil => rfl
    | cons c cs => exact Chars.dropReturn_append ['\t'] (List.cons_ne_nil c cs)
  rw [← String.toList_inj, String.toList_ofList, toList_line, toList_line, hsplit,
    Chars.dropReturn_append _ (List.cons_ne_nil _ _), hdrop, asRead, hsplit, String.toList_ofList]

end AliasEntry

namespace AliasIndex

/-- A table is the index of its lines that are not blank, each of which has to be the line of an
entry. -/
theorem addRows_eq_ok_iff {lines : List String} {number : Nat} {index index' : AliasIndex} :
    addRows index number lines = .ok index' ↔
      ∃ es : List AliasEntry,
        (lines.filter fun l => !Text.blank l).map AliasEntry.ofRow = es.map some ∧
          es.foldlM insert index = .ok index' := by
  induction lines generalizing number index with
  | nil =>
    constructor
    · intro h
      exact ⟨[], rfl, h⟩
    · rintro ⟨es, hes, h⟩
      cases List.map_eq_nil_iff.1 hes.symm
      exact h
  | cons line lines ih =>
    rw [addRows]
    split
    · rename_i hblank
      rw [ih, List.filter_cons_of_neg (by simp [hblank])]
    · rename_i hblank
      rw [List.filter_cons_of_pos (by simpa using hblank), List.map_cons]
      cases hrow : AliasEntry.ofRow line with
      | none =>
        constructor
        · intro h
          cases h
        · rintro ⟨es, hes, -⟩
          obtain ⟨e, -, -, hnone, -⟩ := List.map_eq_cons_iff.1 hes.symm
          cases hnone
      | some e =>
        constructor
        · intro h
          cases hmid : index.insert e with
          | error failure =>
            simp only [hmid] at h
            cases h
          | ok mid =>
            simp only [hmid] at h
            obtain ⟨es, hes, hfold⟩ := ih.1 h
            exact ⟨e :: es, by rw [hes, List.map_cons], foldlM_cons_eq_ok_iff.2 ⟨mid, hmid, hfold⟩⟩
        · rintro ⟨es, hes, hfold⟩
          obtain ⟨e', es', rfl, he, hes'⟩ := List.map_eq_cons_iff.1 hes.symm
          cases he
          obtain ⟨mid, hmid, hrest⟩ := foldlM_cons_eq_ok_iff.1 hfold
          simp only [hmid]
          exact ih.2 ⟨es', hes'.symm, hrest⟩

/-- Where no row holds a line feed but at its end, every row is one line. -/
theorem lines_toTable {index : AliasIndex} (h : ∀ e ∈ index.entries, '\n' ∉ e.line.toList) :
    Text.lines index.toTable = index.entries.map fun e => e.asRead.line := by
  have hrows : index.toTable =
      String.join ((index.entries.map AliasEntry.line).map (· ++ "\n")) := by
    rw [toTable, List.map_map]
    rfl
  rw [hrows, Text.lines_join_newline (List.forall_mem_map.2 h), List.map_map]
  exact List.map_congr_left fun e _ => e.dropReturn_line

/-- A table whose rows are lines with a tab on both sides of the key is read row by row. -/
theorem ofTable_toTable_eq_ok_iff {index index' : AliasIndex}
    (hline : ∀ e ∈ index.entries, '\n' ∉ e.line.toList)
    (hkey : ∀ e ∈ index.entries, '\t' ∉ e.key.toList) :
    ofTable index.toTable = .ok index' ↔
      ofEntries (index.entries.map AliasEntry.asRead) = .ok index' := by
  have hrows : (Text.lines index.toTable).filter (fun l => !Text.blank l) =
      index.entries.map fun e => e.asRead.line := by
    rw [lines_toTable hline]
    exact List.filter_eq_self.2 (List.forall_mem_map.2 fun e _ => by rw [e.asRead.blank_line]; rfl)
  have hread : (index.entries.map fun e => e.asRead.line).map AliasEntry.ofRow =
      (index.entries.map AliasEntry.asRead).map some := by
    rw [List.map_map, List.map_map]
    exact List.map_congr_left fun e he => AliasEntry.ofRow_eq_some_iff.2 ⟨hkey e he, rfl⟩
  rw [ofTable, addRows_eq_ok_iff, hrows, hread]
  constructor
  · rintro ⟨es, hes, h⟩
    rw [List.map_injective_iff.2 (Option.some_injective _) hes]
    exact h
  · intro h
    exact ⟨_, rfl, h⟩

/-- Every entry of a table that was read stands on a line of its own. -/
theorem exists_line_of_ofTable {text : String} {index : AliasIndex}
    (h : ofTable text = .ok index) {e : AliasEntry} (he : e ∈ index.entries) :
    '\t' ∉ e.key.toList ∧ e.line ∈ Text.lines text := by
  obtain ⟨es, hes, hfold⟩ := addRows_eq_ok_iff.1 h
  have hmem : e ∈ es := (get?_ofEntries hfold).1 (get?_eq_some_iff.2 he)
  have hsome : some e ∈ es.map some := List.mem_map_of_mem hmem
  rw [← hes] at hsome
  obtain ⟨row, hrow, hread⟩ := List.mem_map.1 hsome
  obtain ⟨htab, rfl⟩ := AliasEntry.ofRow_eq_some_iff.1 hread
  exact ⟨htab, List.mem_of_mem_filter hrow⟩

theorem consistent_entries (index : AliasIndex) : Consistent index.entries := by
  intro space key s t hs ht
  have heq := AliasEntry.eq_of_key index.sorted hs ht rfl rfl
  cases heq
  rfl

/-- An index is the index of its own entries. -/
theorem ofEntries_entries (index : AliasIndex) : ofEntries index.entries = .ok index := by
  obtain ⟨index', h⟩ := exists_ofEntries_iff.2 index.consistent_entries
  have heq : index' = index := by
    refine ext_get? fun space key => Option.ext fun topic => ?_
    rw [get?_ofEntries h, get?_eq_some_iff]
  rw [h, heq]

/-- A table reads back as the index it was written from. -/
theorem ofTable_toTable {index : AliasIndex} (h : ∀ e ∈ index.entries, e.Tabular) :
    ofTable index.toTable = .ok index := by
  have hread : index.entries.map AliasEntry.asRead = index.entries := by
    rw [List.map_congr_left fun e he => AliasEntry.asRead_eq_self_iff.2 (h e he).topic_last,
      List.map_id']
  rw [ofTable_toTable_eq_ok_iff _ fun e he => (h e he).key_tab, hread]
  · exact index.ofEntries_entries
  · intro e he
    exact AliasEntry.newline_notMem_line_iff.2 ⟨(h e he).key_newline, (h e he).topic_newline⟩

/-- A table reads back as the index it was written from exactly when no key holds a tab or a line
feed, no topic holds a line feed and no topic ends in a carriage return. -/
theorem reloads_iff (index : AliasIndex) :
    ofTable index.toTable = .ok index ↔
      ∀ e ∈ index.entries,
        '\t' ∉ e.key.toList ∧ '\n' ∉ e.key.toList ∧
          '\n' ∉ e.topic.toList ∧ e.topic.toList.getLast? ≠ some '\r' := by
  constructor
  · intro h
    -- an entry that was read stands on one line, so each row is one line
    have hline : ∀ e ∈ index.entries, '\n' ∉ e.line.toList := by
      intro e he
      obtain ⟨cs, hcs, heq⟩ := List.mem_map.1 (exists_line_of_ofTable h he).2
      rw [← heq, String.toList_ofList]
      exact Chars.newline_notMem_of_mem_lines hcs
    have hkey : ∀ e ∈ index.entries, '\t' ∉ e.key.toList :=
      fun e he => (exists_line_of_ofTable h he).1
    have hread := (ofTable_toTable_eq_ok_iff hline hkey).1 h
    intro e he
    obtain ⟨hkeyline, htopicline⟩ := AliasEntry.newline_notMem_line_iff.1 (hline e he)
    -- the key of `e` leads to what its own row was read as
    have hself : e.asRead ∈ index.entries :=
      get?_eq_some_iff.1 ((get?_ofEntries hread).2 (List.mem_map_of_mem he))
    have heq : e.asRead = e := AliasEntry.eq_of_key index.sorted hself he rfl rfl
    exact ⟨hkey e he, hkeyline, htopicline, AliasEntry.asRead_eq_self_iff.1 heq⟩
  · intro h
    refine ofTable_toTable fun e he => ?_
    obtain ⟨hkey, hkeyline, htopicline, hlast⟩ := h e he
    exact ⟨hkey, hkeyline, htopicline, hlast⟩

end AliasIndex

end DocTopics
