import DocTopics.Proofs.FileTree
import Mathlib.Data.List.Nodup

/-!
# The files of a tree

Changes to the files of a tree leave its directories alone, and with them the place that every path
leads to. So the files that are written one after the other can be told from the tree they are
written to.

## Main definitions

- `FileTree.SameDirs` — two trees with the same directories
- `FileTree.putFiles` — a tree with several files put into it
- `FileTree.NodeName`, `FileTree.WellNamed` — the names that nodes can have
- `FileTree.Distinct` — no location is listed twice
-/

namespace DocTopics.FileTree

variable {tree tree' : FileTree} {loc : Location}

/-! ### Trees with the same directories -/

/-- Both trees have the same directories. -/
def SameDirs (tree tree' : FileTree) : Prop :=
  ∀ loc, tree.get? loc = some .dir ↔ tree'.get? loc = some .dir

theorem SameDirs.refl (tree : FileTree) : SameDirs tree tree :=
  fun _ => Iff.rfl

theorem SameDirs.symm (h : SameDirs tree tree') : SameDirs tree' tree :=
  fun loc => (h loc).symm

theorem SameDirs.trans {tree'' : FileTree} (h : SameDirs tree tree') (h' : SameDirs tree' tree'') :
    SameDirs tree tree'' :=
  fun loc => (h loc).trans (h' loc)

theorem SameDirs.keepsDirs (h : SameDirs tree tree') : KeepsDirs tree tree' :=
  fun loc => (h loc).1

theorem SameDirs.locate_iff (h : SameDirs tree tree') {path : String} :
    tree.locate path = .ok loc ↔ tree'.locate path = .ok loc :=
  ⟨h.keepsDirs.locate, h.symm.keepsDirs.locate⟩

theorem sameDirs_put {text : String} (h : tree.get? loc ≠ some .dir) :
    SameDirs tree (tree.put loc (.file (.text text))) := by
  intro other
  rw [get?_put (isRoot_of_get? h)]
  by_cases hother : other = loc
  · subst hother
    simp [h]
  · rw [if_neg hother]

theorem sameDirs_erase (h : tree.get? loc ≠ some .dir) : SameDirs tree (tree.erase loc) := by
  intro other
  rw [get?_erase (isRoot_of_get? h)]
  by_cases hother : other = loc
  · subst hother
    simp [h]
  · rw [if_neg hother]

/-! ### Putting several files -/

/-- The tree with files put at locations, one after the other. -/
def putFiles (tree : FileTree) (files : List (Location × String)) : FileTree :=
  files.foldl (fun t f => t.put f.1 (.file (.text f.2))) tree

theorem get?_putFiles_of_ne {files : List (Location × String)}
    (hroot : ∀ f ∈ files, isRoot f.1 = false) (h : ∀ f ∈ files, f.1 ≠ loc) :
    (tree.putFiles files).get? loc = tree.get? loc := by
  induction files generalizing tree with
  | nil => rfl
  | cons f files ih =>
    obtain ⟨hf, hfiles⟩ := List.forall_mem_cons.1 hroot
    obtain ⟨hne, hnes⟩ := List.forall_mem_cons.1 h
    show ((tree.put f.1 (.file (.text f.2))).putFiles files).get? loc = tree.get? loc
    rw [ih hfiles hnes, get?_put hf, if_neg (Ne.symm hne)]

/-- Of several files that are put at one place the last one stays. -/
theorem get?_putFiles_of_last {front back : List (Location × String)} {text : String}
    (hroot : ∀ f ∈ front ++ (loc, text) :: back, isRoot f.1 = false)
    (h : ∀ f ∈ back, f.1 ≠ loc) :
    (tree.putFiles (front ++ (loc, text) :: back)).get? loc = some (.file (.text text)) := by
  have hloc : isRoot loc = false := hroot (loc, text) (by simp)
  have hback : ∀ f ∈ back, isRoot f.1 = false := fun f hf => hroot f (by simp [hf])
  have hsplit : tree.putFiles (front ++ (loc, text) :: back) =
      ((tree.putFiles front).put loc (.file (.text text))).putFiles back := by
    simp only [putFiles, List.foldl_append, List.foldl_cons]
  rw [hsplit, get?_putFiles_of_ne hback h, get?_put hloc, if_pos rfl]

theorem get?_putFiles_of_mem {files : List (Location × String)} {f : Location × String}
    (hroot : ∀ f ∈ files, isRoot f.1 = false) (hnodup : (files.map (·.1)).Nodup) (hf : f ∈ files) :
    (tree.putFiles files).get? f.1 = some (.file (.text f.2)) := by
  obtain ⟨front, back, rfl⟩ := List.append_of_mem hf
  refine get?_putFiles_of_last hroot fun g hg heq => ?_
  rw [List.map_append, List.map_cons, List.nodup_append] at hnodup
  exact (List.nodup_cons.1 hnodup.2.1).1 (heq ▸ List.mem_map_of_mem hg)

theorem sameDirs_putFiles {files : List (Location × String)}
    (h : ∀ f ∈ files, tree.get? f.1 ≠ some .dir) : SameDirs tree (tree.putFiles files) := by
  induction files generalizing tree with
  | nil => exact .refl tree
  | cons f files ih =>
    obtain ⟨hf, hfiles⟩ := List.forall_mem_cons.1 h
    have hput : SameDirs tree (tree.put f.1 (.file (.text f.2))) := sameDirs_put hf
    exact hput.trans (ih fun g hg hdir => hfiles g hg ((hput g.1).2 hdir))

/-! ### Writing what is there already -/

theorem setNode_eq_self {node : Node} {nodes : List (Location × Node)}
    (h : (nodes.find? (·.1 == loc)).map (·.2) = some node) : setNode loc node nodes = nodes := by
  induction nodes with
  | nil => cases h
  | cons x xs ih =>
    by_cases hx : x.1 = loc
    · rw [List.find?_cons_of_pos (by simpa using hx)] at h
      rw [setNode, if_pos hx, ← hx, ← Option.some_inj.1 h]
    · rw [List.find?_cons_of_neg (by simpa using hx)] at h
      rw [setNode, if_neg hx, ih h]

theorem setNode_setNode (a b : Node) (nodes : List (Location × Node)) :
    setNode loc b (setNode loc a nodes) = setNode loc b nodes := by
  induction nodes with
  | nil => simp [setNode]
  | cons x xs ih => by_cases hx : x.1 = loc <;> simp [setNode, hx, ih]

theorem setNode_comm {other : Location} (hne : loc ≠ other) (a b : Node)
    {nodes : List (Location × Node)} (h : loc ∈ nodes.map (·.1)) :
    setNode other b (setNode loc a nodes) = setNode loc a (setNode other b nodes) := by
  induction nodes with
  | nil => cases h
  | cons x xs ih =>
    by_cases hx : x.1 = loc
    · have hx' : x.1 ≠ other := fun heq => hne (hx.symm.trans heq)
      simp [setNode, hx, hne]
    · have hxs : loc ∈ xs.map (·.1) := by simpa [Ne.symm hx] using h
      by_cases hother : x.1 = other
      · simp [setNode, hother, Ne.symm hne]
      · simp [setNode, hx, hother, ih hxs]

theorem put_eq_self {node : Node} (hroot : isRoot loc = false) (h : tree.get? loc = some node) :
    tree.put loc node = tree := by
  rw [get?, if_neg (by simp [hroot])] at h
  rw [put, setNode_eq_self h]

theorem put_put (a b : Node) : (tree.put loc a).put loc b = tree.put loc b := by
  simp only [put, setNode_setNode]

theorem mem_locations (hroot : isRoot loc = false) (h : tree.get? loc ≠ none) :
    loc ∈ tree.nodes.map (·.1) := by
  rw [get?, if_neg (by simp [hroot]), ne_eq, Option.map_eq_none_iff, List.find?_eq_none] at h
  push Not at h
  obtain ⟨x, hx, heq⟩ := h
  exact List.mem_map.2 ⟨x, hx, beq_iff_eq.1 heq⟩

theorem put_comm {other : Location} (hne : loc ≠ other) (a b : Node) (hroot : isRoot loc = false)
    (h : tree.get? loc ≠ none) : (tree.put loc a).put other b = (tree.put other b).put loc a := by
  simp only [put, setNode_comm hne a b (mem_locations hroot h)]

/-- What is put over again later might as well not be put. -/
theorem putFiles_put_of_mem {files : List (Location × String)} {node : Node}
    (hroot : ∀ f ∈ files, isRoot f.1 = false) (hloc : loc ∈ files.map (·.1))
    (h : tree.get? loc ≠ none) : (tree.put loc node).putFiles files = tree.putFiles files := by
  induction files generalizing tree with
  | nil => cases hloc
  | cons f files ih =>
    obtain ⟨hf, hfiles⟩ := List.forall_mem_cons.1 hroot
    show ((tree.put loc node).put f.1 (.file (.text f.2))).putFiles files =
      (tree.put f.1 (.file (.text f.2))).putFiles files
    by_cases hfirst : loc = f.1
    · rw [hfirst, put_put]
    · have hrest : loc ∈ files.map (·.1) := by simpa [hfirst] using hloc
      obtain ⟨other, hother, hotherLoc⟩ := List.mem_map.1 hrest
      have hroot' : isRoot loc = false := hotherLoc ▸ hfiles other hother
      rw [put_comm hfirst _ _ hroot' h]
      apply ih hfiles hrest
      rwa [get?_put hf, if_neg hfirst]

/-- Files that are put where files stand leave the tree as it is, if in the end every place holds
what it held before. -/
theorem putFiles_eq_self {files : List (Location × String)}
    (hroot : ∀ f ∈ files, isRoot f.1 = false) (hthere : ∀ f ∈ files, tree.get? f.1 ≠ none)
    (h : ∀ loc, (tree.putFiles files).get? loc = tree.get? loc) : tree.putFiles files = tree := by
  induction files with
  | nil => rfl
  | cons f files ih =>
    obtain ⟨hf, hfiles⟩ := List.forall_mem_cons.1 hroot
    obtain ⟨hthere, hthereFiles⟩ := List.forall_mem_cons.1 hthere
    have hcons : tree.putFiles (f :: files) = (tree.put f.1 (.file (.text f.2))).putFiles files := rfl
    -- the first file is put over again, or it is what stands there already
    have hfirst : tree.putFiles (f :: files) = tree.putFiles files := by
      by_cases hagain : f.1 ∈ files.map (·.1)
      · rw [hcons, putFiles_put_of_mem hfiles hagain hthere]
      · have hne : ∀ g ∈ files, g.1 ≠ f.1 :=
          fun g hg heq => hagain (heq ▸ List.mem_map_of_mem hg)
        have hsame : tree.get? f.1 = some (.file (.text f.2)) := by
          rw [← h f.1, hcons, get?_putFiles_of_ne hfiles hne, get?_put hf, if_pos rfl]
        rw [hcons, put_eq_self hf hsame]
    rw [hfirst] at h ⊢
    exact ih hfiles hthereFiles h

/-! ### The names of nodes -/

/-- A name that a file or directory can have. -/
structure NodeName (name : String) : Prop extends Path.EntryName name where
  noNul : '\x00' ∉ name.toList
  size : name.utf8ByteSize ≤ maxNameBytes

instance (name : String) : Decidable (NodeName name) :=
  decidable_of_iff
    (('/' ∉ name.toList ∧ name ≠ "" ∧ name ≠ "." ∧ name ≠ "..") ∧ '\x00' ∉ name.toList ∧
      name.utf8ByteSize ≤ maxNameBytes)
    ⟨fun ⟨⟨h₁, h₂, h₃, h₄⟩, h₅, h₆⟩ => ⟨⟨h₁, h₂, h₃, h₄⟩, h₅, h₆⟩,
      fun h => ⟨⟨h.noSlash, h.ne_empty, h.ne_here, h.ne_parent⟩, h.noNul, h.size⟩⟩

/-- Every node has a name that a file or directory can have. -/
def WellNamed (tree : FileTree) : Prop :=
  ∀ x ∈ tree.nodes, ∀ name, x.1.getLast? = some name → NodeName name

instance (tree : FileTree) : Decidable (WellNamed tree) :=
  decidable_of_iff (∀ x ∈ tree.nodes, x.1.getLast?.all (fun name => decide (NodeName name)) = true)
    (by simp [WellNamed, Option.all_eq_true])

/-- The path of an entry of a directory leads into it, unless it gets too long. -/
theorem locate_append_iff {path name : String} {loc' : Location} (hname : NodeName name)
    (hpath : tree.locate path = .ok loc) (hdir : tree.get? loc = some .dir) :
    tree.locate (path ++ "/" ++ name) = .ok loc' ↔
      loc' = loc ++ [name] ∧ (path ++ "/" ++ name).utf8ByteSize ≤ maxPathBytes := by
  constructor
  · intro h
    obtain ⟨⟨-, hsize, -⟩, -⟩ := locate_eq_ok_iff.1 h
    exact ⟨locate_append hname.toEntryName hpath h, hsize⟩
  · rintro ⟨rfl, hsize⟩
    obtain ⟨⟨hnul, -, hne⟩, hwalk⟩ := locate_eq_ok_iff.1 hpath
    refine locate_eq_ok_iff.2 ⟨⟨?_, hsize, ?_⟩, ?_⟩
    · simp [hnul, hname.noNul]
    · intro hempty
      have hlist := congrArg String.toList hempty
      simp at hlist
    · rw [startOf_append hne hname.noSlash, walk_append, hwalk]
      show tree.walk loc [name] = .ok (loc ++ [name])
      refine walk_cons_eq_ok_iff.2 ⟨hdir, hname.size, ?_⟩
      rw [advance_entry hname.toEntryName]
      rfl

/-- A dot at the end of a path stays in the directory. -/
theorem locate_here {path : String} (hpath : tree.locate path = .ok loc)
    (hdir : tree.get? loc = some .dir)
    (hsize : (path ++ "/" ++ ".").utf8ByteSize ≤ maxPathBytes) :
    tree.locate (path ++ "/" ++ ".") = .ok loc := by
  obtain ⟨⟨hnul, -, hne⟩, hwalk⟩ := locate_eq_ok_iff.1 hpath
  refine locate_eq_ok_iff.2 ⟨⟨by simp [hnul], hsize, ?_⟩, ?_⟩
  · intro hempty
    have hlist := congrArg String.toList hempty
    simp at hlist
  · rw [startOf_append hne (by decide), walk_append, hwalk]
    exact walk_cons_eq_ok_iff.2 ⟨hdir, by decide, rfl⟩

theorem wellNamed_empty : WellNamed {} := by
  intro x hx
  cases hx

theorem WellNamed.nodeName (h : WellNamed tree) {name : String}
    (hroot : isRoot (loc ++ [name]) = false) (hget : tree.get? (loc ++ [name]) ≠ none) :
    NodeName name := by
  obtain ⟨x, hx, hloc⟩ := List.mem_map.1 (mem_locations hroot hget)
  exact h x hx name (by rw [hloc, List.getLast?_concat])

theorem mem_setNode {node : Node} {nodes : List (Location × Node)} {x : Location × Node}
    (h : x ∈ setNode loc node nodes) : x = (loc, node) ∨ x ∈ nodes := by
  induction nodes with
  | nil => exact .inl (List.mem_singleton.1 h)
  | cons y ys ih =>
    rw [setNode] at h
    split at h
    · rcases List.mem_cons.1 h with h | h
      · exact .inl h
      · exact .inr (List.mem_cons_of_mem y h)
    · rcases List.mem_cons.1 h with h | h
      · exact .inr (h ▸ List.mem_cons_self)
      · exact (ih h).imp_right (List.mem_cons_of_mem y)

theorem WellNamed.put (h : WellNamed tree) {node : Node}
    (hname : ∀ name, loc.getLast? = some name → NodeName name) : WellNamed (tree.put loc node) := by
  intro x hx
  rcases mem_setNode hx with rfl | hx
  · exact hname
  · exact h x hx

theorem WellNamed.erase (h : WellNamed tree) : WellNamed (tree.erase loc) :=
  fun x hx => h x (List.mem_of_mem_filter hx)

theorem WellNamed.putFiles (h : WellNamed tree) {files : List (Location × String)}
    (hnames : ∀ f ∈ files, ∀ name, f.1.getLast? = some name → NodeName name) :
    WellNamed (tree.putFiles files) := by
  induction files generalizing tree with
  | nil => exact h
  | cons f files ih =>
    obtain ⟨hf, hfiles⟩ := List.forall_mem_cons.1 hnames
    exact ih (h.put hf) hfiles

/-- A location below the root directory, the working directory or one above it, with names that
nodes can have. -/
def Rooted (loc : Location) : Prop :=
  ∃ top names, isRoot top = true ∧ (∀ name ∈ names, NodeName name) ∧ loc = top ++ names

theorem Rooted.nodeName {name : String} (h : Rooted loc) (hroot : isRoot loc = false)
    (hname : loc.getLast? = some name) : NodeName name := by
  obtain ⟨top, names, htop, hnames, rfl⟩ := h
  by_cases hempty : names = []
  · rw [hempty, List.append_nil, htop] at hroot
    cases hroot
  · rw [List.getLast?_append_of_ne_nil _ hempty] at hname
    exact hnames name (List.mem_of_getLast? hname)

theorem Rooted.parentOf (h : Rooted loc) : Rooted (parentOf loc) := by
  obtain ⟨top, names, htop, hnames, rfl⟩ := h
  rcases List.eq_nil_or_concat names with rfl | ⟨init, last, rfl⟩
  · -- above the top there are only directories that are always there
    refine ⟨FileTree.parentOf top, [], ?_, by simp, by simp⟩
    by_cases habove : isAbove top = true
    · simp only [FileTree.parentOf, if_pos habove, isRoot, Bool.or_eq_true]
      exact .inl (by simpa [isAbove] using habove)
    · have hslash : top = ["/"] := by simpa [isRoot, habove] using htop
      simp [FileTree.parentOf, hslash, isAbove, isRoot]
  · rw [List.concat_eq_append] at hnames ⊢
    have hlast : NodeName last := hnames last (by simp)
    have hroot : isRoot (top ++ (init ++ [last])) = false := by
      rw [← List.append_assoc]
      refine isRoot_append hlast.ne_parent ?_
      rintro rfl
      exact hlast.noSlash (by decide)
    rw [isRoot, Bool.or_eq_false_iff] at hroot
    refine ⟨top, init, htop, fun name hname => hnames name (by simp [hname]), ?_⟩
    rw [FileTree.parentOf, if_neg (by simp [hroot.1]), if_neg (beq_eq_false_iff_ne.1 hroot.2),
      ← List.append_assoc, List.dropLast_concat]

theorem Rooted.walk (h : Rooted loc) {ps : List String} {loc' : Location}
    (hslash : ∀ p ∈ ps, '/' ∉ p.toList) (hnul : ∀ p ∈ ps, '\x00' ∉ p.toList)
    (hwalk : tree.walk loc ps = .ok loc') : Rooted loc' := by
  induction ps generalizing loc with
  | nil =>
    cases hwalk
    exact h
  | cons p ps ih =>
    obtain ⟨hp, hps⟩ := List.forall_mem_cons.1 hslash
    obtain ⟨hpnul, hpsnul⟩ := List.forall_mem_cons.1 hnul
    obtain ⟨-, hsize, hrest⟩ := walk_cons_eq_ok_iff.1 hwalk
    refine ih ?_ hps hpsnul hrest
    unfold advance
    split
    · exact h
    · rename_i hskip
      split
      · exact h.parentOf
      · rename_i hparent
        obtain ⟨top, names, htop, hnames, rfl⟩ := h
        have hname : NodeName p := ⟨⟨hp, by tauto, by tauto, hparent⟩, hpnul, hsize⟩
        refine ⟨top, names ++ [p], htop, ?_, by simp⟩
        intro name hmem
        rcases List.mem_append.1 hmem with hmem | hmem
        · exact hnames name hmem
        · rw [List.mem_singleton.1 hmem]
          exact hname

theorem rooted_of_locate {path : String} (h : tree.locate path = .ok loc) : Rooted loc := by
  obtain ⟨⟨hnul, -, -⟩, hwalk⟩ := locate_eq_ok_iff.1 h
  have hstart : Rooted (startOf path).1 := by
    refine ⟨(startOf path).1, [], ?_, by simp, by simp⟩
    unfold startOf
    split <;> rfl
  refine hstart.walk ?_ ?_ hwalk
  · intro p hp
    exact Path.noSlash_of_mem_splitOn (startOf_subset path hp)
  · intro p hp hmem
    exact hnul (Path.mem_of_mem_splitOn (startOf_subset path hp) hmem)

theorem nodeName_of_locate {path name : String} (h : tree.locate path = .ok loc)
    (hroot : isRoot loc = false) (hname : loc.getLast? = some name) : NodeName name :=
  (rooted_of_locate h).nodeName hroot hname

/-! ### Locations that are listed once -/

/-- No location is listed twice. -/
def Distinct (tree : FileTree) : Prop :=
  (tree.nodes.map (·.1)).Nodup

theorem map_setNode (node : Node) (nodes : List (Location × Node)) :
    (setNode loc node nodes).map (·.1) =
      if loc ∈ nodes.map (·.1) then nodes.map (·.1) else nodes.map (·.1) ++ [loc] := by
  induction nodes with
  | nil => simp [setNode]
  | cons x xs ih =>
    by_cases hx : x.1 = loc
    · simp [setNode, hx]
    · rw [setNode, if_neg hx, List.map_cons, ih]
      by_cases hmem : loc ∈ xs.map (·.1)
      · simp [hmem]
      · simp [hmem, Ne.symm hx]

theorem Distinct.put (h : Distinct tree) (node : Node) : Distinct (tree.put loc node) := by
  unfold Distinct FileTree.put
  rw [map_setNode]
  split
  · exact h
  · rename_i hnew
    exact List.nodup_append.2 ⟨h, List.nodup_singleton loc, by grind⟩

theorem Distinct.erase (h : Distinct tree) : Distinct (tree.erase loc) :=
  h.sublist (List.filter_sublist.map _)

theorem Distinct.nodup_children (h : Distinct tree) : (tree.children loc).Nodup := by
  refine (perm_sortBy _ _).nodup_iff.2 ?_
  have hmap : (tree.nodes.filterMap fun x => childName loc x.1) =
      (tree.nodes.map (·.1)).filterMap (childName loc) := by
    rw [List.filterMap_map]
    rfl
  rw [hmap]
  refine h.filterMap ?_
  intro a b name ha hb
  rw [childName_eq_some_iff.1 ha, childName_eq_some_iff.1 hb]

end DocTopics.FileTree
