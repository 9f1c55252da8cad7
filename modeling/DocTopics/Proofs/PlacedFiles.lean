import DocTopics.Proofs.OutputDir

/-!
# Files with known places

The stages of a build one by one: the directory of the documents is made, files are written to
places that can be told beforehand, and others are removed.

## Main definitions

- `OutputDir.Placed` — a file to be written together with its place
- `OutputDir.Site` — where the files of an output directory stand
-/

namespace DocTopics

/-- Of the items with a property, the last. -/
theorem exists_last {α : Type} {p : α → Prop} {xs : List α} (h : ∃ x ∈ xs, p x) :
    ∃ front x back, xs = front ++ x :: back ∧ p x ∧ ∀ y ∈ back, ¬p y := by
  induction xs with
  | nil =>
    obtain ⟨x, hx, -⟩ := h
    cases hx
  | cons x xs ih =>
    by_cases hlater : ∃ y ∈ xs, p y
    · obtain ⟨front, y, back, rfl, hy, hback⟩ := ih hlater
      exact ⟨x :: front, y, back, rfl, hy, hback⟩
    · push Not at hlater
      obtain ⟨y, hy, hp⟩ := h
      rcases List.mem_cons.1 hy with rfl | hy
      · exact ⟨[], y, xs, rfl, hp, hlater⟩
      · exact absurd hp (hlater y hy)

namespace OutputDir

variable {dir : String} {tree tree' made : FileTree} {man base : Location}

/-! ### Writing files at known places -/

/-- A file to be written together with its place. -/
structure Placed extends Output where
  place : Location

/-- The path of the file leads to its place, and no directory stands there. -/
def Placed.Ready (tree : FileTree) (f : Placed) : Prop :=
  tree.locate f.path = .ok f.place ∧ tree.get? f.place ≠ some .dir

/-- The tree with the files put into it, one after the other. -/
def putAll (tree : FileTree) (fs : List Placed) : FileTree :=
  tree.putFiles (fs.map fun f => (f.place, f.text))

theorem Placed.Ready.of_sameDirs {f : Placed} (h : f.Ready tree)
    (hsame : FileTree.SameDirs tree tree') : f.Ready tree' :=
  ⟨hsame.locate_iff.1 h.1, fun hdir => h.2 ((hsame _).2 hdir)⟩

section Ready

variable {fs : List Placed} (hready : ∀ f ∈ fs, f.Ready tree)

include hready

theorem sameDirs_putAll : FileTree.SameDirs tree (putAll tree fs) := by
  refine FileTree.sameDirs_putFiles fun x hx => ?_
  obtain ⟨f, hf, rfl⟩ := List.mem_map.1 hx
  exact (hready f hf).2

theorem isRoot_of_ready : ∀ x ∈ fs.map fun f => (f.place, f.text), FileTree.isRoot x.1 = false := by
  intro x hx
  obtain ⟨f, hf, rfl⟩ := List.mem_map.1 hx
  exact FileTree.isRoot_of_get? (hready f hf).2

theorem wellNamed_putAll (hwell : tree.WellNamed) : (putAll tree fs).WellNamed := by
  refine hwell.putFiles fun x hx name => ?_
  obtain ⟨f, hf, rfl⟩ := List.mem_map.1 hx
  exact FileTree.nodeName_of_locate (hready f hf).1 (FileTree.isRoot_of_get? (hready f hf).2)

theorem get?_putAll_of_ne {loc : Location} (h : ∀ f ∈ fs, f.place ≠ loc) :
    (putAll tree fs).get? loc = tree.get? loc := by
  refine FileTree.get?_putFiles_of_ne (isRoot_of_ready hready) fun x hx => ?_
  obtain ⟨f, hf, rfl⟩ := List.mem_map.1 hx
  exact h f hf

theorem get?_putAll_of_last {front back : List Placed} {f : Placed} (hfs : fs = front ++ f :: back)
    (h : ∀ g ∈ back, g.place ≠ f.place) :
    (putAll tree fs).get? f.place = some (.file (.text f.text)) := by
  have hroot := isRoot_of_ready hready
  rw [hfs, List.map_append, List.map_cons] at hroot
  rw [putAll, hfs, List.map_append, List.map_cons]
  refine FileTree.get?_putFiles_of_last hroot fun x hx => ?_
  obtain ⟨g, hg, rfl⟩ := List.mem_map.1 hx
  exact h g hg

theorem get?_putAll_of_mem {f : Placed} (hnodup : (fs.map (·.place)).Nodup) (hf : f ∈ fs) :
    (putAll tree fs).get? f.place = some (.file (.text f.text)) := by
  have hmem : (f.place, f.text) ∈ fs.map fun f => (f.place, f.text) :=
    List.mem_map.2 ⟨f, hf, rfl⟩
  refine FileTree.get?_putFiles_of_mem (isRoot_of_ready hready) ?_ hmem
  rw [List.map_map]
  exact hnodup

end Ready

theorem foldlM_writeOutput_eq_ok_iff {fs : List Placed}
    (hplace : ∀ f ∈ fs, ∀ loc, tree.locate f.path = .ok loc → loc = f.place) :
    (fs.map (·.toOutput)).foldlM writeOutput tree = .ok tree' ↔
      (∀ f ∈ fs, f.Ready tree) ∧ tree' = putAll tree fs := by
  induction fs generalizing tree with
  | nil =>
    constructor
    · rintro ⟨⟩
      exact ⟨by simp, rfl⟩
    · rintro ⟨-, rfl⟩
      rfl
  | cons f fs ih =>
    obtain ⟨hf, hfs⟩ := List.forall_mem_cons.1 hplace
    -- a file in front changes neither where the others go nor whether they can be written
    have hput : f.Ready tree → FileTree.SameDirs tree (tree.put f.place (.file (.text f.text))) :=
      fun hready => FileTree.sameDirs_put hready.2
    rw [List.map_cons, foldlM_cons_eq_ok_iff]
    constructor
    · rintro ⟨mid, hfirst, hrest⟩
      obtain ⟨loc, hloc, hfree, rfl⟩ := writeOutput_eq_ok_iff.1 hfirst
      obtain rfl := hf loc hloc
      have hsame := hput ⟨hloc, hfree⟩
      obtain ⟨hready, rfl⟩ :=
        (ih fun g hg loc hloc => hfs g hg loc (hsame.locate_iff.2 hloc)).1 hrest
      exact ⟨List.forall_mem_cons.2
        ⟨⟨hloc, hfree⟩, fun g hg => (hready g hg).of_sameDirs hsame.symm⟩, rfl⟩
    · rintro ⟨hready, rfl⟩
      obtain ⟨hfirst, hrest⟩ := List.forall_mem_cons.1 hready
      have hsame := hput hfirst
      refine ⟨_, writeOutput_eq_ok_iff.2 ⟨f.place, hfirst.1, hfirst.2, rfl⟩, ?_⟩
      exact (ih fun g hg loc hloc => hfs g hg loc (hsame.locate_iff.2 hloc)).2
        ⟨fun g hg => (hrest g hg).of_sameDirs hsame, rfl⟩

/-- Files that stand where they are to be written can be put there again without any change. -/
theorem putAll_eq_self {fs : List Placed} (hready : ∀ f ∈ fs, f.Ready tree)
    (hlast : ∀ front f back, fs = front ++ f :: back → (∀ g ∈ back, g.place ≠ f.place) →
      tree.get? f.place = some (.file (.text f.text))) : putAll tree fs = tree := by
  refine FileTree.putFiles_eq_self (isRoot_of_ready hready) ?_ fun loc => ?_
  · intro x hx
    obtain ⟨f, hf, rfl⟩ := List.mem_map.1 hx
    obtain ⟨front, g, back, hfs, hg, hback⟩ :=
      exists_last (p := fun g => g.place = f.place) ⟨f, hf, rfl⟩
    show tree.get? f.place ≠ none
    rw [← hg, hlast front g back hfs fun other hother => hg ▸ hback other hother]
    simp
  · by_cases hloc : ∃ f ∈ fs, f.place = loc
    · obtain ⟨front, f, back, hfs, rfl, hback⟩ := exists_last hloc
      rw [hlast front f back hfs hback]
      exact get?_putAll_of_last hready hfs hback
    · push Not at hloc
      exact get?_putAll_of_ne hready hloc

/-! ### Removing files -/

theorem foldlM_removeFile {names : List String} (hman : tree.locate (manDir dir) = .ok man)
    (hnames : ∀ name ∈ names, Path.EntryName name)
    (h : (names.map (Path.join (manDir dir))).foldlM removeFile tree = .ok tree') :
    names.Nodup ∧ FileTree.SameDirs tree tree' ∧
      (∀ name ∈ names, tree.get? (man ++ [name]) ≠ none ∧ tree'.get? (man ++ [name]) = none) ∧
      ∀ loc, (∀ name ∈ names, loc ≠ man ++ [name]) → tree'.get? loc = tree.get? loc := by
  induction names generalizing tree with
  | nil =>
    cases h
    exact ⟨List.nodup_nil, .refl _, by simp, fun _ _ => rfl⟩
  | cons name names ih =>
    obtain ⟨hname, hnames⟩ := List.forall_mem_cons.1 hnames
    rw [List.map_cons] at h
    obtain ⟨mid, hfirst, hrest⟩ := foldlM_cons_eq_ok_iff.1 h
    obtain ⟨loc, text, hloc, hfile, rfl⟩ := removeFile_eq_ok hfirst
    obtain rfl := locate_document hname hman hloc
    have hfree : tree.get? (man ++ [name]) ≠ some .dir := by simp [hfile]
    have hsame := FileTree.sameDirs_erase hfree
    have herase : ∀ loc, (tree.erase (man ++ [name])).get? loc =
        if loc = man ++ [name] then none else tree.get? loc :=
      FileTree.get?_erase (FileTree.isRoot_of_get? hfree)
    obtain ⟨hnodup, hdirs, hgone, hother⟩ := ih (hsame.keepsDirs.locate hman) hnames hrest
    -- what is removed once cannot be removed again
    have hnew : name ∉ names := by
      intro hmem
      apply (hgone name hmem).1
      rw [herase, if_pos rfl]
    have hne : ∀ other ∈ names, man ++ [name] ≠ man ++ [other] := by
      intro other hmem heq
      have : name = other := by simpa using heq
      exact hnew (this ▸ hmem)
    refine ⟨List.nodup_cons.2 ⟨hnew, hnodup⟩, hsame.trans hdirs, ?_, ?_⟩
    · refine List.forall_mem_cons.2 ⟨⟨by simp [hfile], ?_⟩, fun other hmem => ⟨?_, ?_⟩⟩
      · rw [hother _ hne, herase, if_pos rfl]
      · intro hnone
        apply (hgone other hmem).1
        rw [herase, if_neg (hne other hmem).symm, hnone]
      · exact (hgone other hmem).2
    · intro loc hloc
      obtain ⟨hfirstNe, hrestNe⟩ := List.forall_mem_cons.1 hloc
      rw [hother loc hrestNe, herase, if_neg hfirstNe]

theorem wellNamed_foldlM_removeFile {paths : List String} (hwell : tree.WellNamed)
    (h : paths.foldlM removeFile tree = .ok tree') : tree'.WellNamed := by
  refine foldlM_induction (fun path _ t t' ht hremove => ?_) hwell h
  obtain ⟨loc, text, -, -, rfl⟩ := removeFile_eq_ok hremove
  exact ht.erase

/-! ### The directory of the documents -/

/-- Between the trees only directories were added. -/
def AddsDirs (tree tree' : FileTree) : Prop :=
  ∀ loc, tree'.get? loc = tree.get? loc ∨ (tree.get? loc = none ∧ tree'.get? loc = some .dir)

theorem addsDirs_makeManDir (h : makeManDir tree dir = .ok made) : AddsDirs tree made := by
  refine FileTree.makeUpward_induction (fun path _ t t' ht hmake => ?_) (fun _ => .inl rfl)
    (mapError_eq_ok_iff.1 h)
  intro loc
  obtain ⟨new, -, hnone, rfl⟩ := FileTree.makeDir_eq_ok_iff.1 hmake
  have hfree : t.get? new ≠ some .dir := by simp [hnone]
  rw [FileTree.get?_put (FileTree.isRoot_of_get? hfree)]
  by_cases hloc : loc = new
  · subst hloc
    rcases ht loc with hsame | ⟨-, hdir⟩
    · exact .inr ⟨hsame ▸ hnone, if_pos rfl⟩
    · exact absurd hdir hfree
  · rw [if_neg hloc]
    exact ht loc

theorem file_makeManDir_iff (h : makeManDir tree dir = .ok made) {loc : Location}
    {contents : Contents} :
    made.get? loc = some (.file contents) ↔ tree.get? loc = some (.file contents) := by
  rcases addsDirs_makeManDir h loc with hsame | ⟨hnone, hdir⟩
  · rw [hsame]
  · simp [hnone, hdir]

theorem wellNamed_makeManDir (hwell : tree.WellNamed) (h : makeManDir tree dir = .ok made) :
    made.WellNamed := by
  refine FileTree.makeUpward_induction (fun path _ t t' ht hmake => ?_) hwell
    (mapError_eq_ok_iff.1 h)
  obtain ⟨new, hnew, hnone, rfl⟩ := FileTree.makeDir_eq_ok_iff.1 hmake
  have hfree : t.get? new ≠ some .dir := by simp [hnone]
  exact ht.put fun name => FileTree.nodeName_of_locate hnew (FileTree.isRoot_of_get? hfree)

theorem makeManDir_of_isDir (h : tree.isDir (manDir dir) = true) :
    makeManDir tree dir = .ok tree := by
  obtain ⟨above, hupward⟩ := Path.exists_upward_join entryName_man dir
  refine mapError_eq_ok_iff.2 ?_
  rw [FileTree.makeDirs, manDir, hupward, FileTree.makeUpward, ← manDir,
    FileTree.makeDir_of_isDir h]
  show tree.orDir (manDir dir) .alreadyExists = .ok tree
  rw [FileTree.orDir, if_pos h]

/-- Where the files of an output directory stand: the tables at one location, the documents in the
directory of the documents beside them. -/
structure Site (tree : FileTree) (dir : String) (base : Location) : Prop where
  locate_man : tree.locate (manDir dir) = .ok (base ++ ["man"])
  isDir_man : tree.get? (base ++ ["man"]) = some .dir
  beside : ∀ name loc, Path.EntryName name → tree.locate (Path.join dir name) = .ok loc →
    loc = base ++ [name]

theorem Site.of_sameDirs (h : Site tree dir base) (hsame : FileTree.SameDirs tree tree') :
    Site tree' dir base where
  locate_man := hsame.locate_iff.1 h.locate_man
  isDir_man := (hsame _).1 h.isDir_man
  beside name loc hname hloc := h.beside name loc hname (hsame.locate_iff.2 hloc)

theorem Site.makeManDir_eq (h : Site tree dir base) : makeManDir tree dir = .ok tree :=
  makeManDir_of_isDir (FileTree.isDir_iff.2 ⟨_, h.locate_man, h.isDir_man⟩)

theorem Site.unique {base' : Location} (h : Site tree dir base) (h' : Site tree dir base') :
    base = base' := by
  have hman := h.locate_man
  rw [h'.locate_man, Except.ok.injEq] at hman
  exact (List.append_inj_left' hman rfl).symm

theorem exists_site (h : tree.isDir (manDir dir) = true) : ∃ base, Site tree dir base := by
  obtain ⟨man, hman, hdir⟩ := FileTree.isDir_iff.1 h
  obtain ⟨start, ps, hstart⟩ := FileTree.exists_startOf_join dir
  obtain ⟨-, hwalk⟩ := FileTree.locate_eq_ok_iff.1 hman
  rw [manDir, hstart "man" entryName_man.noSlash, FileTree.walk_append] at hwalk
  obtain ⟨base, hbase, hlast⟩ := bind_eq_ok_iff.1 hwalk
  obtain rfl := FileTree.walk_entry entryName_man hlast
  refine ⟨base, hman, hdir, fun name loc hname hloc => ?_⟩
  obtain ⟨-, hwalk⟩ := FileTree.locate_eq_ok_iff.1 hloc
  rw [hstart name hname.noSlash, FileTree.walk_append, hbase] at hwalk
  exact FileTree.walk_entry hname hwalk

end OutputDir

end DocTopics
