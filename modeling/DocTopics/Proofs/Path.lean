import DocTopics.File.Path
import DocTopics.Proofs.Pieces

/-!
# Paths and their pieces

A path is its list of pieces between slashes: appending a name appends a piece, and the directories
that lead to a path are spelled by the beginnings of that list.
-/

namespace DocTopics

namespace Path

theorem splitOn_append (a b : String) :
    Text.splitOn '/' (a ++ "/" ++ b) = Text.splitOn '/' a ++ Text.splitOn '/' b := by
  have hlist : (a ++ "/" ++ b).toList = a.toList ++ '/' :: b.toList := by simp
  rw [Text.splitOn, hlist, Chars.pieces_append_cons rfl, List.map_append]
  rfl

theorem splitOn_of_noSlash {name : String} (h : '/' ∉ name.toList) :
    Text.splitOn '/' name = [name] := by
  simp [Text.splitOn, Chars.pieces_of_forall (Chars.forall_beq_eq_false_iff.2 h)]

theorem splitOn_ne_nil (path : String) : Text.splitOn '/' path ≠ [] := by
  simpa [Text.splitOn] using Chars.pieces_ne_nil _ path.toList

theorem noSlash_of_mem_splitOn {path piece : String} (h : piece ∈ Text.splitOn '/' path) :
    '/' ∉ piece.toList := by
  obtain ⟨cs, hcs, rfl⟩ := List.mem_map.1 h
  intro hslash
  rw [String.toList_ofList] at hslash
  exact absurd (Chars.sep_of_mem_pieces cs hcs '/' hslash) (by decide)

theorem mem_of_mem_splitOn {path piece : String} {c : Char} (h : piece ∈ Text.splitOn '/' path)
    (hc : c ∈ piece.toList) : c ∈ path.toList := by
  obtain ⟨cs, hcs, rfl⟩ := List.mem_map.1 h
  rw [String.toList_ofList] at hc
  exact Chars.mem_of_mem_pieces cs hcs hc

theorem splitOn_injective {a b : String} (h : Text.splitOn '/' a = Text.splitOn '/' b) : a = b := by
  have hpieces := List.map_injective_iff.2 (fun _ _ => String.ofList_injective) h
  exact String.toList_injective (Chars.pieces_injective hpieces)

/-- Only the empty path is spelled by a single empty piece. -/
theorem ne_nil_of_splitOn {path first : String} {rest : List String} (hpath : path ≠ "")
    (h : Text.splitOn '/' path = first :: rest) (hfirst : first = "") : rest ≠ [] := by
  rintro rfl
  apply hpath
  apply splitOn_injective
  rw [h, hfirst]
  rfl

/-! ### Appending a name -/

/-- The name of an entry of a directory, in contrast to a path and to the names that directories
have for themselves and for the one above. -/
structure EntryName (name : String) : Prop where
  noSlash : '/' ∉ name.toList
  ne_empty : name ≠ ""
  ne_here : name ≠ "."
  ne_parent : name ≠ ".."

theorem join_eq {dir name : String} {c : Char} (hlast : dir.toList.getLast? = some c)
    (hc : c ≠ '/') : join dir name = dir ++ "/" ++ name := by
  simp [join, hlast, hc]

/-- A name is appended as the last piece. The pieces in front of it are those of the directory, but
for an empty one at its end. -/
theorem exists_splitOn_join (dir : String) :
    ∃ ps, ps ⊆ Text.splitOn '/' dir ∧
      ∀ name, '/' ∉ name.toList → Text.splitOn '/' (join dir name) = ps ++ [name] := by
  cases hlast : dir.toList.getLast? with
  | none =>
    refine ⟨[], List.nil_subset _, fun name hname => ?_⟩
    rw [join, hlast]
    exact splitOn_of_noSlash hname
  | some c =>
    by_cases hc : c = '/'
    · subst hc
      obtain ⟨cs, hcs⟩ := List.getLast?_eq_some_iff.1 hlast
      have hdir : dir = String.ofList cs ++ "/" ++ "" := by
        apply String.toList_injective
        simp [hcs]
      refine ⟨Text.splitOn '/' (String.ofList cs), ?_, fun name hname => ?_⟩
      · rw [hdir, splitOn_append]
        exact List.subset_append_left _ _
      · have hjoin : join dir name = String.ofList cs ++ "/" ++ name := by
          simp [join, hdir]
        rw [hjoin, splitOn_append, splitOn_of_noSlash hname]
    · refine ⟨Text.splitOn '/' dir, List.Subset.refl _, fun name hname => ?_⟩
      rw [join_eq hlast hc, splitOn_append, splitOn_of_noSlash hname]

/-! ### Extensions -/

theorem splitExtension_append {stem extension : String} (hstem : stem ≠ "")
    (hext : '.' ∉ extension.toList) :
    splitExtension (stem ++ "." ++ extension) = some (extension, stem) := by
  have hrev : (stem ++ "." ++ extension).toList.reverse =
      extension.toList.reverse ++ '.' :: stem.toList.reverse := by simp
  have hne : ∀ c ∈ extension.toList.reverse, (c != '.') = true := by
    intro c hc
    exact bne_iff_ne.2 fun heq => hext (heq ▸ List.mem_reverse.1 hc)
  have hstem' : stem.toList.reverse ≠ [] := by simpa using hstem
  unfold splitExtension
  simp only [hrev, List.dropWhile_append_of_pos hne, List.takeWhile_append_of_pos hne]
  cases hcs : stem.toList.reverse with
  | nil => exact absurd hcs hstem'
  | cons c cs => simp [← hcs]

/-! ### The directories that lead to a path -/

/-- A beginning of a path is spelled by a beginning of its pieces. -/
theorem splitOn_of_mem_beginnings {rest : List String} {start path : String}
    (hrest : ∀ piece ∈ rest, '/' ∉ piece.toList) (h : path ∈ beginnings start rest) :
    ∃ ps, ps <+: rest ∧ Text.splitOn '/' path = Text.splitOn '/' start ++ ps := by
  induction rest generalizing start with
  | nil => cases h
  | cons piece rest ih =>
    have hstep : Text.splitOn '/' (start ++ "/" ++ piece) = Text.splitOn '/' start ++ [piece] := by
      rw [splitOn_append, splitOn_of_noSlash (hrest piece List.mem_cons_self)]
    rcases List.mem_append.1 h with h | h
    · obtain ⟨ps, hps, hsplit⟩ := ih (fun p hp => hrest p (List.mem_cons_of_mem piece hp)) h
      refine ⟨piece :: ps, (List.prefix_cons_inj piece).2 hps, ?_⟩
      rw [hsplit, hstep, List.append_assoc, List.singleton_append]
    · split at h
      · obtain rfl := List.mem_singleton.1 h
        exact ⟨[piece], ⟨rest, rfl⟩, hstep⟩
      · cases h

/-- The longest beginning is the whole path, if it ends with a component. -/
theorem exists_beginnings_append {name : String} (hname : EntryName name) {rest : List String}
    (start : String) (hrest : ∀ piece ∈ rest, '/' ∉ piece.toList) :
    ∃ path shorter, beginnings start (rest ++ [name]) = path :: shorter ∧
      Text.splitOn '/' path = Text.splitOn '/' start ++ (rest ++ [name]) := by
  induction rest generalizing start with
  | nil =>
    refine ⟨start ++ "/" ++ name, [], ?_, ?_⟩
    · simp [beginnings, Part.ofPiece, hname.ne_empty, hname.ne_here, hname.ne_parent]
    · rw [splitOn_append, splitOn_of_noSlash hname.noSlash, List.nil_append]
  | cons piece rest ih =>
    obtain ⟨path, shorter, hpath, hsplit⟩ :=
      ih (start ++ "/" ++ piece) fun p hp => hrest p (List.mem_cons_of_mem piece hp)
    refine ⟨path, _, by rw [List.cons_append, beginnings, hpath, List.cons_append], ?_⟩
    rw [hsplit, splitOn_append, splitOn_of_noSlash (hrest piece List.mem_cons_self),
      List.append_assoc, List.singleton_append, List.cons_append]

theorem upward_eq {path first : String} {rest : List String}
    (h : Text.splitOn '/' path = first :: rest) (hne : first = "" → rest ≠ []) :
    upward path = beginnings first rest ++ [if first = "" then "/" else first] := by
  unfold upward
  rw [h]
  by_cases hfirst : first = ""
  · subst hfirst
    simp [hne rfl]
  · simp [hfirst]

/-- A path that ends with a name leads the list of the directories on the way to it. -/
theorem exists_upward_join {name : String} (hname : EntryName name) (dir : String) :
    ∃ above, upward (join dir name) = join dir name :: above := by
  obtain ⟨ps, hps, hjoin⟩ := exists_splitOn_join dir
  have hsplit := hjoin name hname.noSlash
  cases ps with
  | nil =>
    have hpath : join dir name = name := by
      apply splitOn_injective
      rw [hsplit, splitOn_of_noSlash hname.noSlash, List.nil_append]
    rw [upward_eq hsplit fun h => absurd h hname.ne_empty, if_neg hname.ne_empty, hpath]
    exact ⟨[], rfl⟩
  | cons first rest =>
    have hslash : ∀ piece ∈ first :: rest, '/' ∉ piece.toList :=
      fun piece hpiece => noSlash_of_mem_splitOn (hps hpiece)
    obtain ⟨path, shorter, hbegin, hspelled⟩ := exists_beginnings_append hname first
      fun piece hpiece => hslash piece (List.mem_cons_of_mem first hpiece)
    have hpath : path = join dir name := by
      apply splitOn_injective
      rw [hspelled, hsplit, splitOn_of_noSlash (hslash first List.mem_cons_self),
        List.singleton_append, List.cons_append]
    rw [List.cons_append] at hsplit
    rw [upward_eq hsplit fun _ => by simp, hbegin, hpath]
    exact ⟨_, List.cons_append⟩

/-- The directories that lead to a path are spelled by beginnings of its pieces. The root directory
alone is spelled with an empty piece too many. -/
theorem splitOn_of_mem_upward {path above first : String} {rest : List String}
    (hsplit : Text.splitOn '/' path = first :: rest) (hne : first = "" → rest ≠ [])
    (h : above ∈ upward path) :
    (∃ ps, ps <+: rest ∧ Text.splitOn '/' above = first :: ps) ∨ (first = "" ∧ above = "/") := by
  have hslash : ∀ piece ∈ first :: rest, '/' ∉ piece.toList :=
    fun piece hpiece => noSlash_of_mem_splitOn (hsplit ▸ hpiece)
  have hfirst := splitOn_of_noSlash (hslash first List.mem_cons_self)
  rw [upward_eq hsplit hne] at h
  rcases List.mem_append.1 h with h | h
  · obtain ⟨ps, hps, habove⟩ := splitOn_of_mem_beginnings
      (fun piece hpiece => hslash piece (List.mem_cons_of_mem first hpiece)) h
    rw [hfirst, List.singleton_append] at habove
    exact .inl ⟨ps, hps, habove⟩
  · split at h
    · rename_i hempty
      exact .inr ⟨hempty, List.mem_singleton.1 h⟩
    · obtain rfl := List.mem_singleton.1 h
      exact .inl ⟨[], List.nil_prefix, hfirst⟩

end Path

end DocTopics
