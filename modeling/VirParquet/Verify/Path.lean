import VirParquet.Spec.Path

/-!
# Paths are resolved as they are meant

The scanner of `ResolvePath` cuts out the components of a path one by one, skipping separators
(`components_eq_cons`), and looks each of them up but the last. `resolveLoop_spec` says that it
stops where `Path.walk` does, with its error, or before the last component, and
`operations_classify` that `Getattr`, `Readdir` and `Open` then do what the object of the path calls
for: no null pointer is followed, no successful `Open` returns one, and no key is asked for that is
not there.
-/

namespace VirParquet.Verify

open VirParquet.Found VirParquet.Model VirParquet.Spec VirParquet.Spec.Path

/-! ## Components -/

/-- Separators at the beginning make no components. -/
theorem components_separator_cons (p : Bytes) :
    components (separator :: p) = components p := by
  have hsplit := List.splitOn_append_cons_self [] p (a := separator)
  rw [List.nil_append] at hsplit
  rw [components, hsplit, List.splitOn_nil]
  rfl

/-- Separators at the beginning make no components. -/
theorem components_skipSeparators (p : Bytes) : components (skipSeparators p) = components p := by
  induction p with
  | nil => rfl
  | cons c p ih =>
      by_cases hc : c = separator
      · subst hc
        have hskip : skipSeparators (separator :: p) = skipSeparators p := by
          simp [skipSeparators]
        rw [hskip, ih, components_separator_cons]
      · have hskip : skipSeparators (c :: p) = c :: p := by
          simp [skipSeparators, hc]
        rw [hskip]

/-- An empty path has no components. -/
@[simp] theorem components_nil : components [] = [] := rfl

/-- A string without separators is one component. -/
theorem components_of_notMem {name : Bytes} (hne : name ≠ []) (h : separator ∉ name) :
    components name = [name] := by
  rw [components, List.splitOn_eq_singleton h]
  simp [hne]

/-- A path has the components on both sides of a separator. -/
theorem components_append_separator (p q : Bytes) :
    components (p ++ separator :: q) = components p ++ components q := by
  rw [components, List.splitOn_append_cons_self, List.filter_append]
  rfl

/-- A component holds no separator. -/
theorem separator_notMem_component (p : Bytes) : separator ∉ (component p).1 := by
  intro h
  have := List.mem_takeWhile_imp h
  simp at this

/-- A path that goes on begins with something else than a separator behind the skipped ones. -/
theorem head?_skipSeparators (p : Bytes) : (skipSeparators p).head? ≠ some separator := by
  intro h
  have hnot := List.head?_dropWhile_not (fun c => decide (c = separator)) p
  rw [skipSeparators] at h
  rw [h] at hnot
  simp at hnot

/-- The component at the beginning of a path is not empty. -/
theorem component_ne_nil {p : Bytes} (hp : p ≠ []) (hhead : p.head? ≠ some separator) :
    (component p).1 ≠ [] := by
  rcases p with _ | ⟨c, p⟩
  · exact absurd rfl hp
  · have hc : c ≠ separator := fun h => hhead (by rw [h]; rfl)
    simp [component, hc]

/-- **The scanner cuts off the first component.** -/
theorem components_eq_cons {p : Bytes} (hp : p ≠ []) (hhead : p.head? ≠ some separator) :
    components p = (component p).1 :: components (skipSeparators (component p).2) := by
  have hne := component_ne_nil hp hhead
  have hnot := separator_notMem_component p
  have hsplit : p = (component p).1 ++ (component p).2 :=
    (List.takeWhile_append_dropWhile (p := fun c => decide (c ≠ separator))).symm
  rw [components_skipSeparators]
  rcases hrest : (component p).2 with _ | ⟨c, rest⟩
  · rw [hrest, List.append_nil] at hsplit
    rw [components_nil, ← components_of_notMem hne hnot, ← hsplit]
  · -- The component ends at a separator.
    obtain rfl : c = separator := by
      have hlast := List.head?_dropWhile_not (fun c => decide (c ≠ separator)) p
      rw [show p.dropWhile (fun c => decide (c ≠ separator)) = c :: rest from hrest] at hlast
      simpa using hlast
    rw [hrest] at hsplit
    rw [components_separator_cons]
    conv_lhs => rw [hsplit]
    rw [components_append_separator, components_of_notMem hne hnot]
    rfl

/-! ## One step -/

section step

variable {ptr : DirPtr} {name : Bytes}

/-- What `Stat` says of an object. -/
theorem stat_eq (ptr : DirPtr) (name : Bytes) :
    ptr.dir.stat name = .ok ((child ptr name).map fun
      | .dir _ => ⟨0, true⟩
      | .file file => ⟨fileSize file.file, false⟩) := by
  obtain ⟨place, dir | dir | dir⟩ := ptr
  · simp only [Dir.stat, child, Option.map_map]
    rfl
  · simp only [Dir.stat, child, Option.map_map]
    rfl
  · simp only [Dir.stat, child, Option.map_map]
    cases dir.arrMaps.find name with
    | none => rfl
    | some map =>
        show (map.fileSize >>= fun n => Except.ok (some (⟨n, false⟩ : FileStat))) = _
        rw [Exec.bind_of_eq_ok map.fileSize_eq_ok]
        rfl

/-- What `Lookup` says of an object. -/
theorem lookup_eq (ptr : DirPtr) (name : Bytes) :
    lookup (some ptr) name = .ok (match child ptr name with
      | some (.dir _) => .dir
      | some (.file _) => .file
      | none => .notFound) := by
  show (ptr.dir.stat name >>= _) = _
  rw [Exec.bind_of_eq_ok (stat_eq ptr name)]
  rcases child ptr name with _ | (next | file) <;> rfl

/-- `GetDir` of a directory that was looked up asks for no absent key and follows no null
pointer. -/
theorem getDir_of_child {next : DirPtr} (h : child ptr name = some (.dir next)) :
    ptr.getDir name = .ok (some next) := by
  obtain ⟨place, dir | dir | dir⟩ := ptr
  · obtain ⟨sub, hsub, hnext⟩ := Option.map_eq_some_iff.mp h
    cases hnext
    exact Exec.bind_of_eq_ok (StringMap.atKey_of_find hsub) _
  · obtain ⟨_, _, hnext⟩ := Option.map_eq_some_iff.mp h
    cases hnext
  · obtain ⟨_, _, hnext⟩ := Option.map_eq_some_iff.mp h
    cases hnext

/-- `Open` of a file that was looked up asks for no absent key and follows no null pointer. -/
theorem openFile_of_child {file : FilePtr} (h : child ptr name = some (.file file)) :
    ptr.openFile name = .ok (some file) := by
  obtain ⟨place, dir | dir | dir⟩ := ptr
  · obtain ⟨_, _, hnext⟩ := Option.map_eq_some_iff.mp h
    cases hnext
  · obtain ⟨value, hvalue, hnext⟩ := Option.map_eq_some_iff.mp h
    cases hnext
    exact Exec.bind_of_eq_ok (StringMap.atKey_of_find hvalue) _
  · obtain ⟨map, hmap, hnext⟩ := Option.map_eq_some_iff.mp h
    cases hnext
    exact Exec.bind_of_eq_ok (StringMap.atKey_of_find hmap) _

/-- A name with more names behind it is a directory to be walked on. -/
theorem walk_cons_cons (ptr : DirPtr) (name next : Bytes) (names : List Bytes) :
    walk ptr (name :: next :: names) =
      match child ptr name with
      | some (.dir ptr') => walk ptr' (next :: names)
      | some (.file _) => .error eNOTDIR
      | none => .error eNOENT := rfl

end step

/-! ## The loop -/

/-- **The loop of `ResolvePath`** stops before the last component, or with the error that the
components before it call for. -/
theorem resolveLoop_spec (ptr : DirPtr) (p : Bytes) (hp : p ≠ [])
    (hhead : p.head? ≠ some separator) :
    (∃ parent name, resolveLoop (some ptr) p = .ok (0, some parent, name) ∧ name ≠ [] ∧
        walk ptr (components p) = walk parent [name]) ∨
      ∃ e parent name, resolveLoop (some ptr) p = .ok (-e, parent, name) ∧ e ≠ 0 ∧
        walk ptr (components p) = .error e := by
  induction hk : p.length using Nat.strong_induction_on generalizing ptr p with
  | _ k ih =>
      have hcomponents := components_eq_cons hp hhead
      rw [resolveLoop]
      split
      next hrest =>
        refine Or.inl ⟨ptr, _, rfl, component_ne_nil hp hhead, ?_⟩
        rw [hcomponents, hrest, components_nil]
      next hrest =>
        -- Components follow, so this one is looked up.
        have hnext := components_eq_cons hrest (head?_skipSeparators _)
        rw [hnext] at hcomponents
        rw [hcomponents, walk_cons_cons, Exec.bind_of_eq_ok (lookup_eq ptr (component p).1)]
        rcases hchild : child ptr (component p).1 with _ | (next | file)
        · exact Or.inr ⟨eNOENT, _, _, rfl, by decide, rfl⟩
        · have hloop : (do
              let ptr ← deref (some ptr)
              let next ← ptr.getDir (component p).1
              resolveLoop next (skipSeparators (component p).2)) =
              resolveLoop (some next) (skipSeparators (component p).2) :=
            Exec.bind_of_eq_ok (getDir_of_child hchild) _
          dsimp only
          rw [hloop, ← hnext]
          exact ih _ (hk ▸ length_skipSeparators_component_lt hrest) next _ hrest
            (head?_skipSeparators _) rfl
        · exact Or.inr ⟨eNOTDIR, _, _, rfl, by decide, rfl⟩

/-- **`ResolvePath`** leaves the root with an empty name, a parent with a name, or an error. -/
theorem resolvePath_spec (tree : VtkTree) (path : Option CString) :
    (resolvePath tree.root path (some tree.root) [] = .ok (0, some tree.root, []) ∧
        resolve tree path = .ok (.dir tree.root)) ∨
      (∃ parent name,
        resolvePath tree.root path (some tree.root) [] = .ok (0, some parent, name) ∧
          name ≠ [] ∧ resolve tree path = walk parent [name]) ∨
      ∃ e parent name,
        resolvePath tree.root path (some tree.root) [] = .ok (-e, parent, name) ∧ e ≠ 0 ∧
          resolve tree path = .error e := by
  rcases path with _ | path
  · exact Or.inr (Or.inr ⟨eINVAL, _, _, rfl, by decide, rfl⟩)
  · by_cases hhead : path.bytes.head? = some separator
    · rw [resolvePath, if_pos hhead, resolve, if_pos hhead]
      have hcomponents := components_skipSeparators path.bytes
      by_cases hnil : skipSeparators path.bytes = []
      · rw [hnil, components_nil] at hcomponents
        refine Or.inl ⟨if_pos hnil, ?_⟩
        rw [← hcomponents]
        rfl
      · refine Or.inr ?_
        dsimp only
        rw [if_neg hnil, ← hcomponents]
        exact resolveLoop_spec tree.root _ hnil (head?_skipSeparators _)
    · refine Or.inr (Or.inr ⟨eINVAL, some tree.root, [], ?_, by decide, ?_⟩)
      · rw [resolvePath, if_neg hhead]
      · rw [resolve, if_neg hhead]

/-! ## The operations -/

/-- The mode of a directory is that of a directory. -/
theorem makeDirMode_and (mode : ℕ) : makeDirMode mode &&& sIFMT = sIFDIR := by
  unfold makeDirMode
  split_ifs <;> decide

/-- The mode of a file is that of a regular file. -/
theorem sanitizedStat_or_and (statbuf : StatBuf) :
    ((sanitizedStat statbuf).stMode ||| sIFREG) &&& sIFMT = sIFREG := by
  have hbits : (sIRUSR ||| sIRGRP ||| sIROTH) &&& sIFMT = 0 := by decide
  have htype : sIFREG &&& sIFMT = sIFREG := by decide
  rw [Nat.and_or_distrib_right, htype]
  show (statbuf.stMode &&& (sIRUSR ||| sIRGRP ||| sIROTH)) &&& sIFMT ||| sIFREG = sIFREG
  rw [Nat.and_assoc, hbits, Nat.and_zero, Nat.zero_or]

/-- The loop over an iterator gives each name it has left. -/
theorem fillNames_eq {rest : List Bytes} (h : ∀ key ∈ rest, 0 ∉ key) (buf : List Bytes) :
    fillNames rest buf = buf ++ rest := by
  induction rest generalizing buf with
  | nil => simp [fillNames]
  | cons key rest ih =>
      rw [fillNames, ih (fun k hk => h k (List.mem_cons_of_mem _ hk)),
        cStr_of_nulFree (h key List.mem_cons_self)]
      simp

/-- The keys of a directory have no zero bytes and are distinct. -/
theorem keys_spec (dir : Dir) : (∀ key ∈ dir.keys, 0 ∉ key) ∧ dir.keys.Nodup := by
  have hmap : ∀ {α : Type} (m : StringMap α), (∀ key ∈ m.keys, 0 ∉ key) ∧ m.keys.Nodup :=
    fun m => ⟨fun key hkey => m.nulFree key (AList.mem_keys.mpr hkey), m.entries.keys_nodup⟩
  cases dir with
  | tree dir => exact hmap _
  | metadata dir => exact hmap _
  | array dir => exact hmap _

/-- The keys of a directory are the names it has objects under. -/
theorem mem_keys_iff {ptr : DirPtr} {name : Bytes} :
    name ∈ ptr.dir.keys ↔ ∃ node, child ptr name = some node := by
  rw [← Option.isSome_iff_exists]
  obtain ⟨place, dir | dir | dir⟩ := ptr <;>
    exact StringMap.find_isSome_iff.symm.trans (by rw [child, Option.isSome_map])

/-- `Readdir` of a directory gives its keys. -/
theorem readdirOf_eq (ptr : DirPtr) (buf : List Bytes) :
    readdirOf (some ptr) buf = .ok (0, buf ++ ptr.dir.keys) := by
  show Except.ok (0, fillNames ptr.dir.keys buf) = _
  rw [fillNames_eq (keys_spec ptr.dir).1]

/-- An operation that resolves a path goes on with the root, or with a parent that has the object of
the path under a name, or it gives the error of the path. -/
theorem resolvePath_bind {α : Type} (tree : VtkTree) (path : Option CString)
    (last : Option DirPtr → Bytes → Exec (ℤ × α)) (x : α) (run : Exec (ℤ × α))
    (hrun : run = do
      let (r, parent, name) ← resolvePath tree.root path (some tree.root) []
      if r = 0 then last parent name else .ok (r, x)) :
    (run = last (some tree.root) [] ∧ resolve tree path = .ok (.dir tree.root)) ∨
      (∃ parent name, run = last (some parent) name ∧ name ≠ [] ∧
        resolve tree path = walk parent [name]) ∨
      ∃ e, run = .ok (-e, x) ∧ resolve tree path = .error e := by
  have hbind : ∀ {r : ℤ} {parent : Option DirPtr} {name : Bytes},
      resolvePath tree.root path (some tree.root) [] = .ok (r, parent, name) →
        run = if r = 0 then last parent name else .ok (r, x) :=
    fun h => hrun.trans (Exec.bind_of_eq_ok h _)
  rcases resolvePath_spec tree path with ⟨hpath, hnode⟩ | ⟨parent, name, hpath, hname, hnode⟩ |
    ⟨e, parent, name, hpath, he, hnode⟩
  · exact Or.inl ⟨(hbind hpath).trans (if_pos rfl), hnode⟩
  · exact Or.inr (Or.inl ⟨parent, name, (hbind hpath).trans (if_pos rfl), hname, hnode⟩)
  · exact Or.inr (Or.inr ⟨e, (hbind hpath).trans (if_neg (by omega)), hnode⟩)

/-- `Getattr` of a parent and a name looks the name up in the parent. -/
theorem getattrAt_eq {name : Bytes} (hname : name ≠ []) (parent : DirPtr) (statbuf : StatBuf) :
    getattrAt (some parent) name statbuf = .ok (match child parent name with
      | some (.dir _) => (0, statbuf.toDir)
      | some (.file file) => (0, statbuf.toFile (fileSize file.file))
      | none => (-eNOENT, statbuf)) := by
  rw [getattrAt, if_neg hname]
  refine (Exec.bind_of_eq_ok (stat_eq parent name) _).trans ?_
  rcases child parent name with _ | (next | file) <;> rfl

/-- `Readdir` of a parent and a name looks the name up in the parent. -/
theorem readdirAt_eq {name : Bytes} (hname : name ≠ []) (parent : DirPtr) (buf : List Bytes) :
    readdirAt (some parent) name buf = .ok (match child parent name with
      | some (.dir ptr) => (0, buf ++ ptr.dir.keys)
      | some (.file _) => (-eNOTDIR, buf)
      | none => (-eNOENT, buf)) := by
  rw [readdirAt, if_neg hname, Exec.bind_of_eq_ok (lookup_eq parent name)]
  rcases hchild : child parent name with _ | (next | file)
  · rfl
  · exact (Exec.bind_of_eq_ok (getDir_of_child hchild) _).trans (readdirOf_eq next buf)
  · rfl

/-- `Open` of a parent and a name looks the name up in the parent. -/
theorem openAt_eq {name : Bytes} (hname : name ≠ []) (parent : DirPtr) (fh : Option FilePtr) :
    openAt (some parent) name fh = .ok (match child parent name with
      | some (.dir _) => (-eISDIR, fh)
      | some (.file file) => (0, some file)
      | none => (-eNOENT, fh)) := by
  rw [openAt, if_neg hname, Exec.bind_of_eq_ok (lookup_eq parent name)]
  rcases hchild : child parent name with _ | (next | file)
  · rfl
  · rfl
  · exact Exec.bind_of_eq_ok (openFile_of_child hchild) _

section operations

variable (tree : VtkTree) (path : Option CString)

/-- `Getattr` does what the object of the path calls for. -/
theorem getattr_eq (statbuf : StatBuf) :
    match resolve tree path with
    | .error e => ∃ statbuf', getattr tree path statbuf = .ok (-e, statbuf')
    | .ok (.dir _) => getattr tree path statbuf = .ok (0, tree.baseStatbuf.toDir)
    | .ok (.file file) =>
        getattr tree path statbuf = .ok (0, tree.baseStatbuf.toFile (fileSize file.file)) := by
  rcases resolvePath_bind tree path (fun parent name => getattrAt parent name tree.baseStatbuf)
    statbuf (getattr tree path statbuf) rfl with
    ⟨hrun, hnode⟩ | ⟨parent, name, hrun, hname, hnode⟩ | ⟨e, hrun, hnode⟩
  · rw [hnode]
    exact hrun
  · rw [getattrAt_eq hname] at hrun
    rw [hnode, walk]
    rcases hchild : child parent name with _ | (next | file)
    · rw [hchild] at hrun
      exact ⟨_, hrun⟩
    · rw [hchild] at hrun
      exact hrun
    · rw [hchild] at hrun
      exact hrun
  · rw [hnode]
    exact ⟨_, hrun⟩

/-- `Readdir` does what the object of the path calls for. -/
theorem readdir_eq (buf : List Bytes) :
    readdir tree path buf = .ok (match resolve tree path with
      | .error e => (-e, buf)
      | .ok (.dir ptr) => (0, buf ++ ptr.dir.keys)
      | .ok (.file _) => (-eNOTDIR, buf)) := by
  rcases resolvePath_bind tree path (fun parent name => readdirAt parent name buf) buf
    (readdir tree path buf) rfl with
    ⟨hrun, hnode⟩ | ⟨parent, name, hrun, hname, hnode⟩ | ⟨e, hrun, hnode⟩
  · rw [hnode, hrun]
    exact (if_pos rfl).trans (readdirOf_eq tree.root buf)
  · rw [hnode, hrun, readdirAt_eq hname, walk]
    rcases child parent name with _ | (next | file) <;> rfl
  · rw [hnode, hrun]

/-- `Open` does what the object of the path calls for. -/
theorem openFile_eq (fh : Option FilePtr) :
    openFile tree path fh = .ok (match resolve tree path with
      | .error e => (-e, fh)
      | .ok (.dir _) => (-eISDIR, fh)
      | .ok (.file file) => (0, some file)) := by
  rcases resolvePath_bind tree path (fun parent name => openAt parent name fh) fh
    (openFile tree path fh) rfl with
    ⟨hrun, hnode⟩ | ⟨parent, name, hrun, hname, hnode⟩ | ⟨e, hrun, hnode⟩
  · rw [hnode, hrun]
    exact if_pos rfl
  · rw [hnode, hrun, openAt_eq hname, walk]
    rcases child parent name with _ | (next | file) <;> rfl
  · rw [hnode, hrun]

end operations

/-- **A path is resolved as it is meant, and the three operations agree about it.** An error of the
path is the error of all three. A directory has attributes and can be listed, which gives the names
of its objects once each, but not opened. A file has attributes with its size in the type `off_t`
and opening it gives a handle on this file, but it cannot be listed. None of them faults: a null
pointer is never followed, and no key is asked for that is not there. -/
theorem operations_classify (subdirs : StringMap SubDir) (statbuf₀ : StatBuf)
    (path : Option CString) (statbuf : StatBuf) (buf : List Bytes) (fh : Option FilePtr) :
    match resolve (.new subdirs statbuf₀) path with
    | .error e =>
        (∃ statbuf', getattr (.new subdirs statbuf₀) path statbuf = .ok (-e, statbuf')) ∧
          readdir (.new subdirs statbuf₀) path buf = .ok (-e, buf) ∧
          openFile (.new subdirs statbuf₀) path fh = .ok (-e, fh)
    | .ok (.dir ptr) =>
        (∃ statbuf', getattr (.new subdirs statbuf₀) path statbuf = .ok (0, statbuf') ∧
            statbuf'.stMode &&& sIFMT = sIFDIR) ∧
          (∃ names, readdir (.new subdirs statbuf₀) path buf = .ok (0, buf ++ names) ∧
            names.Nodup ∧ ∀ name, name ∈ names ↔ ∃ node, child ptr name = some node) ∧
          openFile (.new subdirs statbuf₀) path fh = .ok (-eISDIR, fh)
    | .ok (.file file) =>
        (∃ statbuf', getattr (.new subdirs statbuf₀) path statbuf = .ok (0, statbuf') ∧
            statbuf'.stMode &&& sIFMT = sIFREG ∧
            statbuf'.stSize = toI64 (fileSize file.file) ∧
            (fileSize file.file < 2 ^ 63 → statbuf'.stSize = fileSize file.file)) ∧
          readdir (.new subdirs statbuf₀) path buf = .ok (-eNOTDIR, buf) ∧
          openFile (.new subdirs statbuf₀) path fh = .ok (0, some file) := by
  have hgetattr := getattr_eq (.new subdirs statbuf₀) path statbuf
  have hreaddir := readdir_eq (.new subdirs statbuf₀) path buf
  have hopen := openFile_eq (.new subdirs statbuf₀) path fh
  rcases hnode : resolve (.new subdirs statbuf₀) path with e | ptr | file
  · rw [hnode] at hgetattr hreaddir hopen
    exact ⟨hgetattr, hreaddir, hopen⟩
  · rw [hnode] at hgetattr hreaddir hopen
    exact ⟨⟨_, hgetattr, makeDirMode_and _⟩,
      ⟨_, hreaddir, (keys_spec ptr.dir).2, fun _ => mem_keys_iff⟩, hopen⟩
  · rw [hnode] at hgetattr hreaddir hopen
    exact ⟨⟨_, hgetattr, sanitizedStat_or_and statbuf₀, rfl, toI64_of_lt⟩, hreaddir, hopen⟩

end VirParquet.Verify
