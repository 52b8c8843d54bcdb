import VirParquet.Spec.Tree
import VirParquet.Verify.Path

/-!
# Entries are reachable if their names are plain

A tree has all its entries reachable exactly if no directory has a name with a separator in it
(`entriesReachable_iff_isPlain`): the scanner of `ResolvePath` then cuts a joined path where it was
joined, and nowhere else. In the tree of a VTK file such a name can only come from an array
(`parseVtkFile_isTreeOf`), and it does come from every array with a separator in its name.
-/

namespace VirParquet.Verify

open VirParquet.Found VirParquet.Found.Thrift VirParquet.Found.Base64 VirParquet.Model
  VirParquet.Spec VirParquet.Spec.Path

/-! ## Plain names -/

/-- A component has no separator. -/
theorem separator_notMem_of_mem_components {p name : Bytes} (h : name ∈ components p) :
    separator ∉ name := by
  induction hk : p.length using Nat.strong_induction_on generalizing p with
  | _ k ih =>
      by_cases hsep : separator ∈ p
      · -- A path with a separator consists of two shorter ones.
        obtain ⟨left, right, rfl⟩ := List.append_of_mem hsep
        rw [components_append_separator] at h
        rw [List.length_append, List.length_cons] at hk
        rcases List.mem_append.mp h with h | h
        · exact ih left.length (by omega) h rfl
        · exact ih right.length (by omega) h rfl
      · by_cases hp : p = []
        · subst hp
          exact absurd h (List.not_mem_nil)
        · rw [components_of_notMem hp hsep, List.mem_singleton] at h
          rwa [h]

/-- **Plain names are the paths that are their own components.** -/
theorem components_eq_self_iff {name : Bytes} : components name = [name] ↔ IsPlain name := by
  constructor
  · intro h
    have hmem : name ∈ components name := by
      rw [h]
      exact List.mem_singleton_self name
    constructor
    · have hne := List.of_mem_filter hmem
      simpa using hne
    · exact separator_notMem_of_mem_components hmem
  · rintro ⟨hne, hsep⟩
    exact components_of_notMem hne hsep

/-! ## Places -/

section place

variable {tree : VtkTree} {ptr next : DirPtr} {name : Bytes} {names : List Bytes} {node : Node}

/-- The place of an object is its name in the directory behind the place of this. -/
theorem place_of_child (h : child ptr name = some node) : node.place = ptr.place ++ [name] := by
  obtain ⟨place, dir | dir | dir⟩ := ptr <;>
  · obtain ⟨_, _, rfl⟩ := Option.map_eq_some_iff.mp h
    rfl

/-- What a directory has under a name is what the name leads to. -/
theorem walk_singleton : walk ptr [name] = .ok node ↔ child ptr name = some node := by
  rw [walk]
  cases child ptr name with
  | none => simp
  | some node' => simp

/-- The place of what components lead to is these components. -/
theorem place_of_walk (h : walk ptr names = .ok node) : node.place = ptr.place ++ names := by
  induction names generalizing ptr with
  | nil =>
      obtain rfl := Except.ok.inj h
      exact (List.append_nil _).symm
  | cons name names ih =>
      cases names with
      | nil => exact place_of_child (walk_singleton.mp h)
      | cons name' names =>
          rw [walk_cons_cons] at h
          rcases hchild : child ptr name with _ | (ptr' | file)
          · simp [hchild] at h
          · simp only [hchild] at h
            have hplace : ptr'.place = ptr.place ++ [name] := place_of_child hchild
            rw [ih h, hplace, List.append_assoc]
            rfl
          · simp [hchild] at h

/-- One more component is looked up in the directory that those before it lead to. -/
theorem walk_append (h : walk ptr names = .ok (.dir next)) :
    walk ptr (names ++ [name]) = walk next [name] := by
  induction names generalizing ptr with
  | nil =>
      cases h
      rfl
  | cons first names ih =>
      cases names with
      | nil =>
          have hchild := walk_singleton.mp h
          rw [List.singleton_append, walk_cons_cons, hchild]
      | cons second names =>
          rw [walk_cons_cons] at h
          rw [List.cons_append, List.cons_append, walk_cons_cons]
          rcases hchild : child ptr first with _ | (ptr' | file)
          · simp [hchild] at h
          · simp only [hchild] at h ⊢
            exact ih h
          · simp [hchild] at h

/-- A path that leads somewhere starts at the root. -/
theorem walk_of_resolve {d : CString} (h : resolve tree (some d) = .ok node) :
    d.bytes.head? = some separator ∧ walk tree.root (components d.bytes) = .ok node := by
  rw [resolve] at h
  split at h
  next hhead => exact ⟨hhead, h⟩
  next => cases h

/-- The place of what a path leads to is its components. -/
theorem place_of_resolve {d : CString} (h : resolve tree (some d) = .ok node) :
    node.place = components d.bytes :=
  (place_of_walk (walk_of_resolve h).2).trans (List.nil_append _)

/-- A joined path is walked from the root. -/
theorem resolve_join {d e : CString} (h : resolve tree (some d) = .ok (.dir ptr)) :
    resolve tree (some (join d e)) =
      walk tree.root (components d.bytes ++ components e.bytes) := by
  obtain ⟨hhead, -⟩ := walk_of_resolve h
  have hjoined : (join d e).bytes.head? = some separator := by
    rw [join, List.head?_append, hhead]
    rfl
  rw [resolve, if_pos hjoined, join, components_append_separator]

/-- **A plain name joined to the path of a directory** leads to what the directory has under it. -/
theorem resolve_join_of_isPlain {d e : CString} (h : resolve tree (some d) = .ok (.dir ptr))
    (he : IsPlain e.bytes) : resolve tree (some (join d e)) = walk ptr [e.bytes] := by
  rw [resolve_join h, components_eq_self_iff.mpr he]
  exact walk_append (walk_of_resolve h).2

end place

/-! ## Entries -/

section entries

variable {tree : VtkTree}

/-- What `Readdir` lists are the keys of the directory that the path leads to. -/
theorem listed_iff {d e : CString} :
    Listed tree d e ↔ ∃ ptr, resolve tree (some d) = .ok (.dir ptr) ∧ e.bytes ∈ ptr.dir.keys := by
  have hreaddir := readdir_eq tree (some d) []
  constructor
  · rintro ⟨names, hnames, hmem⟩
    rw [hnames] at hreaddir
    rcases hnode : resolve tree (some d) with err | ptr | file
    · rw [hnode] at hreaddir
      obtain ⟨-, rfl⟩ := Prod.mk.inj (Except.ok.inj hreaddir)
      exact absurd hmem List.not_mem_nil
    · rw [hnode] at hreaddir
      obtain ⟨-, rfl⟩ := Prod.mk.inj (Except.ok.inj hreaddir)
      exact ⟨ptr, rfl, hmem⟩
    · rw [hnode] at hreaddir
      obtain ⟨-, rfl⟩ := Prod.mk.inj (Except.ok.inj hreaddir)
      exact absurd hmem List.not_mem_nil
  · rintro ⟨ptr, hptr, hmem⟩
    rw [hptr] at hreaddir
    exact ⟨ptr.dir.keys, hreaddir, hmem⟩

/-- The operations on a path succeed for the object that it leads to. -/
theorem leadsTo_of_resolve {path : Option CString} {node : Node}
    (h : resolve tree path = .ok node) : LeadsTo tree path node := by
  have hgetattr := getattr_eq tree path
  have hreaddir := readdir_eq tree path
  have hopen := openFile_eq tree path
  rw [h] at hgetattr hreaddir hopen
  cases node with
  | dir ptr => exact ⟨hgetattr, hreaddir⟩
  | file fh => exact ⟨hgetattr, hopen⟩

/-- An entry that is reached under its name has a plain one. -/
theorem isPlain_of_entriesReachable (h : EntriesReachable tree) {d : CString} {ptr : DirPtr}
    (hptr : resolve tree (some d) = .ok (.dir ptr)) {name : Bytes} (hname : name ∈ ptr.dir.keys) :
    IsPlain name := by
  obtain ⟨ptr', node, hptr', hchild, hnode, -⟩ :=
    h.reaches d ⟨name, (keys_spec ptr.dir).1 name hname⟩ (listed_iff.mpr ⟨ptr, hptr, hname⟩)
  obtain ⟨rfl⟩ : Node.dir ptr = Node.dir ptr' := Except.ok.inj (hptr.symm.trans hptr')
  rw [resolve_join hptr] at hnode
  -- The same place is reached with the name and with its components.
  have hplace := place_of_walk hnode
  have hdir : ptr.place = components d.bytes := place_of_resolve hptr
  rw [place_of_child hchild, hdir] at hplace
  exact components_eq_self_iff.mp (List.append_cancel_left hplace).symm

/-- **All entries of a tree are reachable if and only if all names are plain.** -/
theorem entriesReachable_iff_isPlain : EntriesReachable tree ↔
    ∀ d ptr, resolve tree (some d) = .ok (.dir ptr) → ∀ name ∈ ptr.dir.keys, IsPlain name := by
  constructor
  · intro h d ptr hptr name hname
    exact isPlain_of_entriesReachable h hptr hname
  · intro h
    constructor
    · intro d e hlisted
      obtain ⟨ptr, hptr, hmem⟩ := listed_iff.mp hlisted
      obtain ⟨node, hchild⟩ := mem_keys_iff.mp hmem
      have hnode : resolve tree (some (join d e)) = .ok node :=
        (resolve_join_of_isPlain hptr (h d ptr hptr _ hmem)).trans (walk_singleton.mpr hchild)
      exact ⟨ptr, node, hptr, hchild, hnode, leadsTo_of_resolve hnode⟩
    · intro d₁ e₁ d₂ e₂ node₁ node₂ hlisted₁ hlisted₂ hnode₁ hnode₂ hplace
      obtain ⟨ptr₁, hptr₁, hmem₁⟩ := listed_iff.mp hlisted₁
      obtain ⟨ptr₂, hptr₂, hmem₂⟩ := listed_iff.mp hlisted₂
      rw [place_of_resolve hnode₁, place_of_resolve hnode₂] at hplace
      simp only [join, components_append_separator,
        components_eq_self_iff.mpr (h d₁ ptr₁ hptr₁ _ hmem₁),
        components_eq_self_iff.mpr (h d₂ ptr₂ hptr₂ _ hmem₂)] at hplace
      obtain ⟨hdir, hname⟩ := List.append_inj' hplace rfl
      constructor
      · rw [resolve, resolve, if_pos (walk_of_resolve hptr₁).1, if_pos (walk_of_resolve hptr₂).1,
          hdir]
      · exact CString.ext (List.singleton_injective hname)

end entries

/-! ## The tree of a VTK file -/

section tree

variable {subdirs : StringMap SubDir} {sections : List Section} {statbuf₀ : StatBuf}

/-- Below the root there are no directories in directories. -/
theorem child_toDir_ne_dir (place : List Bytes) (sub : SubDir) (name : Bytes) (ptr : DirPtr) :
    child ⟨place, sub.toDir⟩ name ≠ some (.dir ptr) := by
  intro h
  cases sub with
  | metadata dir =>
      obtain ⟨_, _, hnode⟩ := Option.map_eq_some_iff.mp h
      cases hnode
  | array dir =>
      obtain ⟨_, _, hnode⟩ := Option.map_eq_some_iff.mp h
      cases hnode

/-- Below the root there are no directories in directories. -/
theorem walk_toDir_ne_dir (place : List Bytes) (sub : SubDir) (name : Bytes) (names : List Bytes)
    (ptr : DirPtr) : walk ⟨place, sub.toDir⟩ (name :: names) ≠ .ok (.dir ptr) := by
  intro h
  cases names with
  | nil => exact child_toDir_ne_dir place sub name ptr (walk_singleton.mp h)
  | cons second names =>
      rw [walk_cons_cons] at h
      rcases hchild : child ⟨place, sub.toDir⟩ name with _ | (ptr' | file)
      · simp [hchild] at h
      · exact child_toDir_ne_dir place sub name ptr' hchild
      · simp [hchild] at h

/-- The directories of a tree are the root and those right below it. -/
theorem walk_eq_dir {tree : VtkTree} {names : List Bytes} {ptr : DirPtr}
    (h : walk tree.root names = .ok (.dir ptr)) :
    ptr = tree.root ∨ ∃ name sub, tree.subdirs.find name = some sub ∧ ptr.dir = sub.toDir := by
  rcases names with _ | ⟨name, _ | ⟨second, names⟩⟩
  · cases h
    exact Or.inl rfl
  · obtain ⟨sub, hsub, hnode⟩ := Option.map_eq_some_iff.mp (walk_singleton.mp h)
    cases hnode
    exact Or.inr ⟨name, sub, hsub, rfl⟩
  · rw [walk_cons_cons] at h
    rcases hchild : child tree.root name with _ | (ptr' | file)
    · simp [hchild] at h
    · simp only [hchild] at h
      obtain ⟨sub, -, hnode⟩ := Option.map_eq_some_iff.mp hchild
      cases hnode
      exact absurd h (walk_toDir_ne_dir _ sub second names ptr)
    · simp [hchild] at h

/-- The files of a tree are those of the directories right below the root. -/
theorem walk_eq_file {tree : VtkTree} {names : List Bytes} {fh : FilePtr}
    (h : walk tree.root names = .ok (.file fh)) :
    ∃ name sub key, names = [name, key] ∧ tree.subdirs.find name = some sub ∧
      child ⟨[name], sub.toDir⟩ key = some (.file fh) := by
  rcases names with _ | ⟨name, _ | ⟨key, names⟩⟩
  · cases h
  · obtain ⟨sub, -, hnode⟩ := Option.map_eq_some_iff.mp (walk_singleton.mp h)
    cases hnode
  · rw [walk_cons_cons] at h
    rcases hchild : child tree.root name with _ | (ptr | file)
    · simp [hchild] at h
    · simp only [hchild] at h
      obtain ⟨sub, hsub, hnode⟩ := Option.map_eq_some_iff.mp hchild
      cases hnode
      cases names with
      | nil => exact ⟨name, sub, key, rfl, hsub, walk_singleton.mp h⟩
      | cons third names =>
          rw [walk_cons_cons] at h
          rcases hnext : child ⟨tree.root.place ++ [name], sub.toDir⟩ key with _ | (ptr | file)
          · simp [hnext] at h
          · exact absurd hnext (child_toDir_ne_dir _ sub key ptr)
          · simp [hnext] at h
    · simp [hchild] at h

/-- A file of a tree is a value of the metadata or an array. -/
theorem file_of_resolve {tree : VtkTree} {path : CString} {fh : FilePtr}
    (h : resolve tree (some path) = .ok (.file fh)) :
    (∃ name dir key value, tree.subdirs.find name = some (.metadata dir) ∧
        dir.map.find key = some value ∧ fh.file = .stringBuf value) ∨
      ∃ name dir key map, tree.subdirs.find name = some (.array dir) ∧
        dir.arrMaps.find key = some map ∧ fh.file = .virtual map := by
  obtain ⟨name, sub, key, -, hsub, hchild⟩ := walk_eq_file (walk_of_resolve h).2
  cases sub with
  | metadata dir =>
      obtain ⟨value, hvalue, hnode⟩ := Option.map_eq_some_iff.mp hchild
      cases hnode
      exact Or.inl ⟨name, dir, key, value, hsub, hvalue, rfl⟩
  | array dir =>
      obtain ⟨map, hmap, hnode⟩ := Option.map_eq_some_iff.mp hchild
      cases hnode
      exact Or.inr ⟨name, dir, key, map, hsub, hmap, rfl⟩

/-- A name is plain with the suffix of a file if and only if it has no separator. -/
theorem isPlain_arrayFileName {name : CString} :
    IsPlain (arrayFileName name).bytes ↔ separator ∉ name.bytes := by
  have hsuffix : separator ∉ ascii ".parquet" := by decide
  constructor
  · rintro ⟨-, hsep⟩ hmem
    exact hsep (List.mem_append_left _ hmem)
  · intro hsep
    constructor
    · exact List.append_ne_nil_of_right_ne_nil _ (by decide)
    · intro hmem
      exact (List.mem_append.mp hmem).elim hsep hsuffix

/-- The path of a directory below the root leads to it. -/
theorem resolve_subdir (tree : VtkTree) {name : CString} {sub : SubDir}
    (h : tree.subdirs.find name.bytes = some sub) (hname : IsPlain name.bytes) :
    resolve tree (some (join ⟨[], List.not_mem_nil⟩ name)) =
      .ok (.dir ⟨[name.bytes], sub.toDir⟩) := by
  have hcomponents : components (separator :: name.bytes) = [name.bytes] := by
    rw [components_separator_cons, components_eq_self_iff.mpr hname]
  have hchild : child tree.root name.bytes = some (.dir ⟨[name.bytes], sub.toDir⟩) := by
    show (tree.subdirs.find name.bytes).map _ = _
    rw [h]
    rfl
  have hjoin : (join ⟨[], List.not_mem_nil⟩ name).bytes = separator :: name.bytes := rfl
  rw [resolve, hjoin, if_pos List.head?_cons, hcomponents]
  exact walk_singleton.mpr hchild

/-- **In the tree of sections with plain names** all entries are reachable if and only if no array
has a separator in its name. -/
theorem entriesReachable_iff_of_isTreeOf (h : IsTreeOf subdirs sections)
    (hplain : ∀ sec ∈ sections, IsPlain sec.1.bytes) :
    EntriesReachable (.new subdirs statbuf₀) ↔
      ∀ sec ∈ sections, ∀ name ∈ sec.2, separator ∉ name.bytes := by
  rw [entriesReachable_iff_isPlain]
  constructor
  · intro hkeys sec hsec name hname
    obtain ⟨dir, hdir, hholds⟩ := h.arrays sec hsec
    have hpath := resolve_subdir (.new subdirs statbuf₀) hdir (hplain sec hsec)
    have hkey : (arrayFileName name).bytes ∈ dir.arrMaps.keys := (hholds _).mpr ⟨name, hname, rfl⟩
    exact isPlain_arrayFileName.mp (hkeys _ _ hpath _ hkey)
  · intro hnames d ptr hptr key hkey
    rcases walk_eq_dir (walk_of_resolve hptr).2 with rfl | ⟨name, sub, hsub, hdir⟩
    · rcases h.keys key hkey with rfl | ⟨sec, hsec, rfl⟩
      · exact ⟨by decide, by decide⟩
      · exact hplain sec hsec
    · rw [hdir] at hkey
      have hname : name ∈ subdirs.keys :=
        StringMap.find_isSome_iff.mp (Option.isSome_of_eq_some hsub)
      rcases h.keys name hname with rfl | ⟨sec, hsec, rfl⟩
      · obtain ⟨dir, hfound, hattrs⟩ := h.metadata
        obtain rfl := Option.some.inj (hfound.symm.trans hsub)
        exact hattrs key hkey
      · obtain ⟨dir, hfound, hholds⟩ := h.arrays sec hsec
        obtain rfl := Option.some.inj (hfound.symm.trans hsub)
        obtain ⟨array, harray, rfl⟩ := (hholds key).mp hkey
        exact isPlain_arrayFileName.mpr (hnames sec hsec array harray)

end tree

end VirParquet.Verify
