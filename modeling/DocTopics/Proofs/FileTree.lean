import DocTopics.File.Tree
import DocTopics.Proofs.Fold
import DocTopics.Proofs.Path

/-!
# Finding and changing nodes of a file tree

Where a path leads depends on the directories of a tree only, and directories are never lost. So
what was written along a path is found along it in every later tree, unless something was written
over it.

## Main definitions

- `FileTree.KeepsDirs` — every directory of a tree is one of a later tree
-/

namespace DocTopics.FileTree

variable {tree tree' : FileTree} {loc loc' : Location}

/-! ### The pieces of a path -/

theorem startOf_eq {path first : String} {rest : List String}
    (h : Text.splitOn '/' path = first :: rest) :
    startOf path = if first = "" ∧ rest ≠ [] then (["/"], rest) else ([], first :: rest) := by
  unfold startOf
  rw [h]
  by_cases hfirst : first = ""
  · subst hfirst
    cases rest <;> simp
  · simp [hfirst]

theorem startOf_subset (path : String) : (startOf path).2 ⊆ Text.splitOn '/' path := by
  cases hsplit : Text.splitOn '/' path with
  | nil => exact absurd hsplit (Path.splitOn_ne_nil path)
  | cons first rest =>
    rw [startOf_eq hsplit]
    split
    · exact List.subset_cons_self first rest
    · exact List.Subset.refl _

/-- All paths of entries of one directory go along the same pieces first. -/
theorem exists_startOf_join (dir : String) :
    ∃ start ps, ∀ name, '/' ∉ name.toList →
      startOf (Path.join dir name) = (start, ps ++ [name]) := by
  obtain ⟨ps, -, hjoin⟩ := Path.exists_splitOn_join dir
  cases ps with
  | nil =>
    refine ⟨[], [], fun name hname => ?_⟩
    have hsplit : Text.splitOn '/' (Path.join dir name) = name :: [] := hjoin name hname
    rw [startOf_eq hsplit, if_neg fun h => h.2 rfl, List.nil_append]
  | cons first rest =>
    have hsplit : ∀ name, '/' ∉ name.toList →
        Text.splitOn '/' (Path.join dir name) = first :: (rest ++ [name]) := hjoin
    by_cases hfirst : first = ""
    · refine ⟨["/"], rest, fun name hname => ?_⟩
      rw [startOf_eq (hsplit name hname), if_pos ⟨hfirst, by simp⟩]
    · refine ⟨[], first :: rest, fun name hname => ?_⟩
      rw [startOf_eq (hsplit name hname), if_neg fun h => hfirst h.1, List.cons_append]

theorem startOf_append {path name : String} (hpath : path ≠ "") (hname : '/' ∉ name.toList) :
    startOf (path ++ "/" ++ name) = ((startOf path).1, (startOf path).2 ++ [name]) := by
  cases hsplit : Text.splitOn '/' path with
  | nil => exact absurd hsplit (Path.splitOn_ne_nil path)
  | cons first rest =>
    have happend : Text.splitOn '/' (path ++ "/" ++ name) = first :: (rest ++ [name]) := by
      rw [Path.splitOn_append, hsplit, Path.splitOn_of_noSlash hname, List.cons_append]
    rw [startOf_eq happend, startOf_eq hsplit]
    by_cases hfirst : first = ""
    · have hrest : rest ≠ [] := Path.ne_nil_of_splitOn hpath hsplit hfirst
      simp [hfirst, hrest]
    · simp [hfirst]

/-- The paths of the directories on the way go along the same pieces, and the path of the root
directory along one that leads nowhere. -/
theorem startOf_of_mem_upward {path above : String} (hpath : path ≠ "") (habove : above ≠ "")
    (h : above ∈ Path.upward path) :
    (startOf above).1 = (startOf path).1 ∧
      ((startOf above).2 <+: (startOf path).2 ∨ (startOf above).2 = [""]) := by
  cases hsplit : Text.splitOn '/' path with
  | nil => exact absurd hsplit (Path.splitOn_ne_nil path)
  | cons first rest =>
    have hrest := Path.ne_nil_of_splitOn hpath hsplit
    rw [startOf_eq hsplit]
    rcases Path.splitOn_of_mem_upward hsplit hrest h with ⟨ps, hps, hspelled⟩ | ⟨hfirst, rfl⟩
    · have hne := Path.ne_nil_of_splitOn habove hspelled
      rw [startOf_eq hspelled]
      by_cases hfirst : first = ""
      · rw [if_pos ⟨hfirst, hne hfirst⟩, if_pos ⟨hfirst, hrest hfirst⟩]
        exact ⟨rfl, .inl hps⟩
      · rw [if_neg fun h => hfirst h.1, if_neg fun h => hfirst h.1]
        exact ⟨rfl, .inl ((List.prefix_cons_inj first).2 hps)⟩
    · rw [if_pos ⟨hfirst, hrest hfirst⟩]
      exact ⟨rfl, .inr rfl⟩

/-! ### Walking -/

theorem walk_append (tree : FileTree) (loc : Location) (ps qs : List String) :
    tree.walk loc (ps ++ qs) = (tree.walk loc ps).bind fun loc' => tree.walk loc' qs := by
  induction ps generalizing loc with
  | nil => rfl
  | cons p ps ih =>
    simp only [List.cons_append, walk, ih]
    split
    · rfl
    · rfl
    · split
      · rfl
      · split
        · rfl
        · split <;> rfl

/-- Where a single piece leads. -/
def advance (loc : Location) (piece : String) : Location :=
  if piece = "" ∨ piece = "." then loc else if piece = ".." then parentOf loc else loc ++ [piece]

theorem advance_entry {name : String} (hname : Path.EntryName name) (loc : Location) :
    advance loc name = loc ++ [name] := by
  simp [advance, hname.ne_empty, hname.ne_here, hname.ne_parent]

theorem walk_cons_eq_ok_iff {p : String} {ps : List String} :
    tree.walk loc (p :: ps) = .ok loc' ↔
      tree.get? loc = some .dir ∧ p.utf8ByteSize ≤ maxNameBytes ∧
        tree.walk (advance loc p) ps = .ok loc' := by
  rw [walk, advance]
  cases tree.get? loc with
  | none => simp
  | some node =>
    cases node with
    | file text => simp
    | dir =>
      by_cases hskip : p = "" ∨ p = "."
      · have hsize : p.utf8ByteSize ≤ maxNameBytes := by rcases hskip with rfl | rfl <;> decide
        simp [hskip, hsize]
      · by_cases hparent : p = ".."
        · have hsize : p.utf8ByteSize ≤ maxNameBytes := by
            rw [hparent]
            decide
          simp only [hsize, true_and]
          simp [hparent]
        · by_cases hsize : p.utf8ByteSize ≤ maxNameBytes
          · simp [hskip, hparent, hsize, Nat.not_lt.2 hsize]
          · simp [hskip, hparent, hsize, Nat.lt_of_not_le hsize]

theorem walk_entry {name : String} (hname : Path.EntryName name)
    (h : tree.walk loc [name] = .ok loc') : loc' = loc ++ [name] := by
  obtain ⟨-, -, hend⟩ := walk_cons_eq_ok_iff.1 h
  rw [advance_entry hname] at hend
  cases hend
  rfl

/-- Without a step upward a walk only ever appends names. -/
theorem walk_eq_append {ps : List String} (hps : ".." ∉ ps) (h : tree.walk loc ps = .ok loc') :
    loc' = loc ++ ps.filter fun p => p ≠ "" ∧ p ≠ "." := by
  induction ps generalizing loc with
  | nil =>
    cases h
    simp
  | cons p ps ih =>
    have hp : p ≠ ".." := fun heq => hps (heq ▸ List.mem_cons_self)
    obtain ⟨-, -, hrest⟩ := walk_cons_eq_ok_iff.1 h
    rw [ih (fun hmem => hps (List.mem_cons_of_mem p hmem)) hrest]
    by_cases hskip : p = "" ∨ p = "."
    · have hnot : ¬(p ≠ "" ∧ p ≠ ".") := by tauto
      rw [advance, if_pos hskip, List.filter_cons_of_neg (by simpa using hnot)]
    · have hname : p ≠ "" ∧ p ≠ "." := by tauto
      rw [advance, if_neg hskip, if_neg hp, List.filter_cons_of_pos (by simpa using hname),
        List.append_assoc, List.singleton_append]

/-- A text that can be a path: it has no null character, is not too long and not empty. -/
def Admissible (path : String) : Prop :=
  '\x00' ∉ path.toList ∧ path.utf8ByteSize ≤ maxPathBytes ∧ path ≠ ""

theorem locate_eq_ok_iff {path : String} :
    tree.locate path = .ok loc ↔
      Admissible path ∧ tree.walk (startOf path).1 (startOf path).2 = .ok loc := by
  unfold locate Admissible
  by_cases hnul : '\x00' ∈ path.toList
  · simp [hnul]
  · by_cases hsize : path.utf8ByteSize ≤ maxPathBytes
    · by_cases hempty : path = ""
      · simp [hempty]
      · simp [hnul, hempty, hsize, Nat.not_lt.2 hsize]
    · simp [hnul, hsize, Nat.lt_of_not_le hsize]

theorem mem_advance {name piece : String} (h : name ∈ advance loc piece) :
    name ∈ loc ∨ name = ".." ∨ name = piece := by
  unfold advance parentOf at h
  split at h
  · exact .inl h
  · split at h
    · split at h
      · rcases List.mem_append.1 h with h | h
        · exact .inl h
        · exact .inr (.inl (List.mem_singleton.1 h))
      · split at h
        · exact .inl h
        · exact .inl (List.dropLast_subset loc h)
    · rcases List.mem_append.1 h with h | h
      · exact .inl h
      · exact .inr (.inr (List.mem_singleton.1 h))

theorem mem_walk {ps : List String} (h : tree.walk loc ps = .ok loc') {name : String}
    (hname : name ∈ loc') : name ∈ loc ∨ name = ".." ∨ name ∈ ps := by
  induction ps generalizing loc with
  | nil =>
    cases h
    exact .inl hname
  | cons p ps ih =>
    obtain ⟨-, -, hrest⟩ := walk_cons_eq_ok_iff.1 h
    rcases ih hrest with hloc | hparent | hmem
    · rcases mem_advance hloc with hloc | hparent | rfl
      · exact .inl hloc
      · exact .inr (.inl hparent)
      · exact .inr (.inr List.mem_cons_self)
    · exact .inr (.inl hparent)
    · exact .inr (.inr (List.mem_cons_of_mem p hmem))

/-- A name on the way to a location is the root directory or holds no slash. -/
theorem noSlash_of_locate {path name : String} (h : tree.locate path = .ok loc)
    (hname : name ∈ loc) : name = "/" ∨ '/' ∉ name.toList := by
  obtain ⟨-, hwalk⟩ := locate_eq_ok_iff.1 h
  rcases mem_walk hwalk hname with hstart | rfl | hmem
  · have hroot : (startOf path).1 ⊆ ["/"] := by
      unfold startOf
      split
      · exact List.Subset.refl _
      · exact List.nil_subset _
    exact .inl (List.mem_singleton.1 (hroot hstart))
  · exact .inr (by decide)
  · exact .inr (Path.noSlash_of_mem_splitOn (startOf_subset path hmem))

/-- The path of an entry of a directory leads to a location of that name. -/
theorem getLast?_of_locate {dir name : String} (hname : Path.EntryName name)
    (h : tree.locate (Path.join dir name) = .ok loc) : loc.getLast? = some name := by
  obtain ⟨start, ps, hstart⟩ := exists_startOf_join dir
  obtain ⟨-, hwalk⟩ := locate_eq_ok_iff.1 h
  rw [hstart name hname.noSlash, walk_append] at hwalk
  obtain ⟨mid, -, hlast⟩ := bind_eq_ok_iff.1 hwalk
  rw [walk_entry hname hlast, List.getLast?_concat]

theorem locate_append {path name : String} (hname : Path.EntryName name)
    (hpath : tree.locate path = .ok loc) (h : tree.locate (path ++ "/" ++ name) = .ok loc') :
    loc' = loc ++ [name] := by
  obtain ⟨⟨-, -, hne⟩, hdir⟩ := locate_eq_ok_iff.1 hpath
  obtain ⟨-, hwalk⟩ := locate_eq_ok_iff.1 h
  rw [startOf_append hne hname.noSlash, walk_append, hdir] at hwalk
  exact walk_entry hname hwalk

/-! ### Later trees -/

/-- Every directory of the first tree is one of the second. -/
def KeepsDirs (tree tree' : FileTree) : Prop :=
  ∀ loc, tree.get? loc = some .dir → tree'.get? loc = some .dir

theorem KeepsDirs.refl (tree : FileTree) : KeepsDirs tree tree :=
  fun _ h => h

theorem KeepsDirs.trans {tree'' : FileTree} (h : KeepsDirs tree tree') (h' : KeepsDirs tree' tree'') :
    KeepsDirs tree tree'' :=
  fun loc hloc => h' loc (h loc hloc)

theorem KeepsDirs.walk (h : KeepsDirs tree tree') {ps : List String}
    (hwalk : tree.walk loc ps = .ok loc') : tree'.walk loc ps = .ok loc' := by
  induction ps generalizing loc with
  | nil => exact hwalk
  | cons p ps ih =>
    obtain ⟨hdir, hsize, hrest⟩ := walk_cons_eq_ok_iff.1 hwalk
    exact walk_cons_eq_ok_iff.2 ⟨h loc hdir, hsize, ih hrest⟩

theorem KeepsDirs.locate (h : KeepsDirs tree tree') {path : String}
    (hloc : tree.locate path = .ok loc) : tree'.locate path = .ok loc := by
  obtain ⟨hpath, hwalk⟩ := locate_eq_ok_iff.1 hloc
  exact locate_eq_ok_iff.2 ⟨hpath, h.walk hwalk⟩

/-! ### Queries -/

theorem read_eq_ok_iff {path text : String} :
    tree.read path = .ok text ↔
      ∃ loc, tree.locate path = .ok loc ∧ tree.get? loc = some (.file (.text text)) := by
  unfold read nodeAt
  cases tree.locate path with
  | error fault => simp [bind, Except.bind]
  | ok loc =>
    simp only [bind, Except.bind, Except.ok.injEq, exists_eq_left']
    cases tree.get? loc with
    | none => simp
    | some node =>
      cases node with
      | dir => simp
      | file contents => cases contents <;> simp

theorem isDir_iff {path : String} :
    tree.isDir path = true ↔ ∃ loc, tree.locate path = .ok loc ∧ tree.get? loc = some .dir := by
  unfold isDir nodeAt
  cases tree.locate path with
  | error fault => simp [bind, Except.bind]
  | ok loc =>
    simp only [bind, Except.bind, Except.ok.injEq, exists_eq_left']
    cases tree.get? loc with
    | none => simp
    | some node => cases node <;> simp

theorem isFile_iff {path : String} :
    tree.isFile path = true ↔
      ∃ loc, tree.locate path = .ok loc ∧ ∃ contents, tree.get? loc = some (.file contents) := by
  unfold isFile nodeAt
  cases tree.locate path with
  | error fault => simp [bind, Except.bind]
  | ok loc =>
    simp only [bind, Except.bind, Except.ok.injEq, exists_eq_left']
    cases tree.get? loc with
    | none => simp
    | some node => cases node <;> simp

theorem KeepsDirs.isDir (h : KeepsDirs tree tree') {path : String}
    (hdir : tree.isDir path = true) : tree'.isDir path = true := by
  obtain ⟨loc, hloc, hget⟩ := isDir_iff.1 hdir
  exact isDir_iff.2 ⟨loc, h.locate hloc, h loc hget⟩

theorem isRoot_append {name : String} (hparent : name ≠ "..") (hroot : name ≠ "/") :
    isRoot (loc ++ [name]) = false := by
  have habove : isAbove (loc ++ [name]) = false := by simp [isAbove, hparent]
  have hslash : loc ++ [name] ≠ ["/"] := by
    intro h
    have hlast := congrArg List.getLast? h
    simp [hroot] at hlast
  simp [isRoot, habove, hslash]

theorem childName_eq_some_iff {name : String} {other : Location} :
    childName loc other = some name ↔ other = loc ++ [name] := by
  unfold childName
  split
  · rename_i last hlast
    split
    · rename_i hother
      rw [hother]
      simp
    · rename_i hother
      refine ⟨fun hno => ?_, fun heq => ?_⟩
      · cases hno
      · subst heq
        rw [List.getLast?_concat, Option.some_inj] at hlast
        exact absurd (by rw [hlast]) hother
  · rename_i hnone
    refine ⟨fun hno => ?_, fun heq => ?_⟩
    · cases hno
    · simp [heq] at hnone

/-- The names in a directory are those of the nodes directly below it. -/
theorem mem_children_iff {name : String} (h : isRoot (loc ++ [name]) = false) :
    name ∈ tree.children loc ↔ (tree.get? (loc ++ [name])).isSome := by
  simp only [children, sortStrings, mem_sortBy, List.mem_filterMap, childName_eq_some_iff, get?, h,
    Bool.false_eq_true, ↓reduceIte, Option.isSome_map, List.find?_isSome, beq_iff_eq]

/-! ### Changes -/

theorem write_eq_ok_iff {path text : String} :
    tree.write path text = .ok tree' ↔
      ∃ loc, tree.locate path = .ok loc ∧ tree.get? loc ≠ some .dir ∧
        tree' = tree.put loc (.file (.text text)) := by
  unfold write
  cases tree.locate path with
  | error fault => simp [bind, Except.bind]
  | ok loc =>
    simp only [bind, Except.bind, Except.ok.injEq, exists_eq_left']
    cases tree.get? loc with
    | none => simp [eq_comm]
    | some node => cases node <;> simp [eq_comm]

theorem makeDir_eq_ok_iff {path : String} :
    tree.makeDir path = .ok tree' ↔
      ∃ loc, tree.locate path = .ok loc ∧ tree.get? loc = none ∧ tree' = tree.put loc .dir := by
  unfold makeDir
  cases tree.locate path with
  | error fault => simp [bind, Except.bind]
  | ok loc =>
    simp only [bind, Except.bind, Except.ok.injEq, exists_eq_left']
    cases tree.get? loc <;> simp [eq_comm]

theorem makeDir_of_isDir {path : String} (h : tree.isDir path = true) :
    tree.makeDir path = .error .alreadyExists := by
  obtain ⟨loc, hloc, hdir⟩ := isDir_iff.1 h
  simp [makeDir, bind, Except.bind, hloc, hdir]

theorem isRoot_of_get? (h : tree.get? loc ≠ some .dir) : isRoot loc = false := by
  unfold get? at h
  split at h
  · exact absurd rfl h
  · rename_i hroot
    exact Bool.eq_false_iff.2 hroot

theorem keepsDirs_put {node : Node} (h : tree.get? loc ≠ some .dir) :
    KeepsDirs tree (tree.put loc node) := by
  intro other hother
  have hne : other ≠ loc := by
    rintro rfl
    exact h hother
  rw [get?_put (isRoot_of_get? h), if_neg hne, hother]

/-- The directory of the first path is there already, or is made, possibly after those above. -/
theorem makeUpward_cons_eq_ok {path : String} {above : List String}
    (h : tree.makeUpward (path :: above) = .ok tree') :
    ∃ mid, (mid = tree ∨ tree.makeUpward above = .ok mid) ∧
      (mid.makeDir path = .ok tree' ∨ (tree' = mid ∧ mid.isDir path = true)) := by
  have horDir : ∀ {t : FileTree} {fault : FileFault}, t.orDir path fault = .ok tree' →
      tree' = t ∧ t.isDir path = true := by
    intro t fault hor
    unfold orDir at hor
    split at hor
    · rename_i hdir
      cases hor
      exact ⟨rfl, hdir⟩
    · cases hor
  unfold makeUpward at h
  split at h
  · rename_i made hmake
    cases h
    exact ⟨tree, .inl rfl, .inl hmake⟩
  · obtain ⟨mid, habove, h⟩ := bind_eq_ok_iff.1 h
    refine ⟨mid, .inr habove, ?_⟩
    split at h
    · rename_i made hmake
      cases h
      exact .inl hmake
    · exact .inr (horDir h)
  · exact ⟨tree, .inl rfl, .inr (horDir h)⟩

/-- What the making of one directory keeps, the making of all keeps. -/
theorem makeUpward_induction {Inv : FileTree → Prop} {paths : List String}
    (hstep : ∀ path ∈ paths, ∀ t t', Inv t → t.makeDir path = .ok t' → Inv t') (hinit : Inv tree)
    (h : tree.makeUpward paths = .ok tree') : Inv tree' := by
  induction paths generalizing tree' with
  | nil =>
    cases h
    exact hinit
  | cons path above ih =>
    obtain ⟨mid, hmid, hmake⟩ := makeUpward_cons_eq_ok h
    have hinv : Inv mid := by
      rcases hmid with rfl | habove
      · exact hinit
      · exact ih (fun p hp => hstep p (List.mem_cons_of_mem path hp)) habove
    rcases hmake with hmake | ⟨rfl, -⟩
    · exact hstep path List.mem_cons_self mid tree' hinv hmake
    · exact hinv

/-- Everything in the tree is a directory that one of the paths leads to. -/
def MadeAlong (paths : List String) (tree : FileTree) : Prop :=
  ∀ loc, isRoot loc = false → ∀ node, tree.get? loc = some node →
    node = .dir ∧ ∃ path ∈ paths, ∃ t : FileTree, t.locate path = .ok loc

theorem madeAlong_of_makeUpward {paths : List String}
    (h : makeUpward {} paths = .ok tree') : MadeAlong paths tree' := by
  have hempty : MadeAlong paths {} := by
    intro loc hroot node hget
    simp [get?, hroot] at hget
  refine makeUpward_induction (fun path hpath t t' ht hmake => ?_) hempty h
  obtain ⟨new, hnew, hnone, rfl⟩ := makeDir_eq_ok_iff.1 hmake
  intro loc hroot node hget
  have hfree : t.get? new ≠ some .dir := by simp [hnone]
  rw [get?_put (isRoot_of_get? hfree)] at hget
  split at hget
  · rename_i heq
    cases hget
    exact ⟨rfl, path, hpath, t, heq ▸ hnew⟩
  · exact ht loc hroot node hget

theorem isDir_of_makeUpward {path : String} {above : List String}
    (h : tree.makeUpward (path :: above) = .ok tree') : tree'.isDir path = true := by
  obtain ⟨mid, -, hmake | ⟨rfl, hdir⟩⟩ := makeUpward_cons_eq_ok h
  · obtain ⟨loc, hloc, hnone, rfl⟩ := makeDir_eq_ok_iff.1 hmake
    have hfree : mid.get? loc ≠ some .dir := by simp [hnone]
    refine isDir_iff.2 ⟨loc, (keepsDirs_put hfree).locate hloc, ?_⟩
    rw [get?_put (isRoot_of_get? hfree), if_pos rfl]
  · exact hdir

/-- The directories on the way to a path without a step upward stand above the one it leads to,
whatever the trees. -/
theorem prefix_of_mem_upward {path above : String} (hup : ".." ∉ (startOf path).2)
    (h : above ∈ Path.upward path) (habove : tree.locate above = .ok loc)
    (hpath : tree'.locate path = .ok loc') : loc <+: loc' := by
  obtain ⟨⟨-, -, hne⟩, hwalk⟩ := locate_eq_ok_iff.1 habove
  obtain ⟨⟨-, -, hne'⟩, hwalk'⟩ := locate_eq_ok_iff.1 hpath
  obtain ⟨hstart, hpieces⟩ := startOf_of_mem_upward hne' hne h
  rw [walk_eq_append hup hwalk']
  rcases hpieces with hps | hroot
  · rw [walk_eq_append (fun hmem => hup (hps.subset hmem)) hwalk, hstart]
    exact (List.prefix_append_right_inj _).2 (hps.filter _)
  · rw [walk_eq_append (by simp [hroot]) hwalk, hstart, hroot]
    exact (List.prefix_append_right_inj _).2 List.nil_prefix

end DocTopics.FileTree
