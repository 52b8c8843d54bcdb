import VirParquet.Verify.Tree
import VirParquet.Verify.Client

/-!
# The tree of a VTK file

`ParseVtkFile` builds the tree that `IsTreeOf` describes: one directory for the attributes of the
root element and one for each section that is loaded, in which there is one file for each name of
an array (`parseVtkFile_isTreeOf`). So all entries of the tree are reachable if and only if no array
has a separator in its name (`entriesReachable_iff`).
-/

namespace VirParquet.Verify

open VirParquet.Found VirParquet.Found.Thrift VirParquet.Found.Base64 VirParquet.Model
  VirParquet.Spec VirParquet.Spec.Path

/-! ## Attributes -/

/-- A pointer that was followed has an object behind it. -/
theorem eq_some_of_deref {α : Type} {x : Option α} {a : α} (h : deref x = .ok a) : x = some a := by
  cases x with
  | none => cases h
  | some b => exact congrArg some (Except.ok.inj h)

section attributes

variable {E : Type} {xml : VtkXml E} {info info' : ArrayInfo}

/-- The names of attributes stay plain. -/
theorem copyAttrs_isPlain {des des' : Attrs} {src : Option E}
    (h : copyAttrs xml des src = .ok des') (hdes : ∀ key ∈ des.keys, IsPlain key) :
    ∀ key ∈ des'.keys, IsPlain key := by
  obtain ⟨element, -, hfold⟩ := Exec.of_bind_eq_ok h
  rw [← Except.ok.inj hfold]
  clear h hfold
  generalize xml.attributes element = attrs
  induction attrs generalizing des with
  | nil => exact hdes
  | cons attr attrs ih =>
      apply ih
      intro key hkey
      rcases StringMap.mem_keys_assign.mp hkey with rfl | hkey
      · exact ⟨attr.1.ne_nil, attr.1.separator_notMem⟩
      · exact hdes key hkey

/-- The names that the loop over nested elements adds. -/
theorem extractNested_keys {arrs : List E} (h : extractNested xml arrs info = .ok info')
    (key : Bytes) : key ∈ info'.keys ↔ key ∈ info.keys ∨
      ∃ name ∈ arrs.filterMap (xml.getAttribute · (ascii "Name")), key = name.bytes := by
  induction arrs generalizing info with
  | nil =>
      obtain rfl := Except.ok.inj h
      simp
  | cons arr arrs ih =>
      obtain ⟨name, hname, h⟩ := Exec.of_bind_eq_ok h
      obtain ⟨attrs, -, h⟩ := Exec.of_bind_eq_ok h
      rw [ih h, StringMap.mem_keys_assign,
        List.filterMap_cons_some (f := (xml.getAttribute · (ascii "Name")))
          (eq_some_of_deref hname), List.exists_mem_cons_iff]
      tauto

/-- The names that the loop over the names of the reader adds. -/
theorem extractNamed_keys {parent : Option E} {names : List CString} {i : ℕ}
    (h : extractNamed xml parent names i info = .ok info') (key : Bytes) :
    key ∈ info'.keys ↔ key ∈ info.keys ∨ ∃ name ∈ names, key = name.bytes := by
  induction names generalizing i info with
  | nil =>
      obtain rfl := Except.ok.inj h
      simp
  | cons name names ih =>
      obtain ⟨element, -, h⟩ := Exec.of_bind_eq_ok h
      obtain ⟨attrs, -, h⟩ := Exec.of_bind_eq_ok h
      rw [ih h, StringMap.mem_keys_assign, List.exists_mem_cons_iff]
      tauto

/-- The keys of a map are these names. -/
def Names (info : ArrayInfo) (names : List CString) : Prop :=
  ∀ key, key ∈ info.keys ↔ ∃ name ∈ names, key = name.bytes

/-- The arrays nested in an element are found by their names. -/
theorem extractInfo_names {element : Bytes} {root : E}
    (h : extractInfo xml element root .empty = .ok info) :
    Names info (nestedNames xml element root) := by
  obtain ⟨parent, hparent, h⟩ := Exec.of_bind_eq_ok h
  intro key
  rw [extractNested_keys h, nestedNames, eq_some_of_deref hparent,
    or_iff_right (StringMap.notMem_keys_empty key)]

/-- The arrays that the reader names are found by these names. -/
theorem extractFieldArrayInfo_names {reader : VtkReader E} {root : E}
    {pointArrInfo cellArrInfo : ArrayInfo}
    (h : extractFieldArrayInfo xml reader root .empty .empty = .ok (pointArrInfo, cellArrInfo)) :
    Names pointArrInfo reader.pointArrayNames ∧ Names cellArrInfo reader.cellArrayNames := by
  obtain ⟨point, hpoint, h⟩ := Exec.of_bind_eq_ok h
  obtain ⟨cell, hcell, h⟩ := Exec.of_bind_eq_ok h
  obtain ⟨rfl, rfl⟩ := Prod.mk.inj (Except.ok.inj h)
  constructor
  · intro key
    rw [extractNamed_keys hpoint, or_iff_right (StringMap.notMem_keys_empty key)]
  · intro key
    rw [extractNamed_keys hcell, or_iff_right (StringMap.notMem_keys_empty key)]

end attributes

/-! ## Directories -/

section directories

variable {σ : Type} {thrift : Protocol} {heap : Heap} {dec : Decoder} {file : RandomAccessFile σ}
  {codec : CompressionType} {enc : EncodingType} {headerType : DataType} {appendedDataPos : ℕ}
  {s s' : σ} {sections : List Section}

/-- The loop over arrays adds a file for each of them. -/
theorem parseArrays_keys {arrs : List (CString × Attrs)} {maps maps' : StringMap FileMap}
    (h : parseArrays thrift heap dec file codec enc headerType appendedDataPos arrs maps s =
      .ok (maps', s')) (key : Bytes) :
    key ∈ maps'.keys ↔
      key ∈ maps.keys ∨ ∃ arr ∈ arrs, key = (arrayFileName arr.1).bytes := by
  induction arrs generalizing maps s with
  | nil =>
      obtain ⟨rfl, rfl⟩ := Prod.mk.inj (Except.ok.inj h)
      simp
  | cons arr arrs ih =>
      obtain ⟨⟨map, s₁⟩, -, h⟩ := Exec.of_bind_eq_ok h
      rw [ih h, StringMap.mem_keys_emplace, List.exists_mem_cons_iff]
      tauto

/-- The directory of a section holds its arrays. -/
theorem parseArrayGroup_holdsArrays {arrInfo : ArrayInfo} {names : List CString} {dir : ArrayDir}
    (hnames : Names arrInfo names)
    (h : parseArrayGroup thrift heap dec file codec enc headerType arrInfo appendedDataPos s =
      .ok (dir, s')) : HoldsArrays dir names := by
  obtain ⟨⟨maps, s₁⟩, hmaps, h⟩ := Exec.of_bind_eq_ok h
  obtain ⟨rfl, rfl⟩ := Prod.mk.inj (Except.ok.inj h)
  intro key
  rw [parseArrays_keys hmaps, or_iff_right (StringMap.notMem_keys_empty key)]
  constructor
  · rintro ⟨arr, harr, rfl⟩
    obtain ⟨name, hname, heq⟩ := (hnames arr.1.bytes).mp (StringMap.mem_keys_iff_items.mpr
      ⟨arr, harr, rfl⟩)
    exact ⟨name, hname, congrArg (· ++ ascii ".parquet") heq⟩
  · rintro ⟨name, hname, rfl⟩
    obtain ⟨arr, harr, heq⟩ := StringMap.mem_keys_iff_items.mp ((hnames name.bytes).mpr
      ⟨name, hname, rfl⟩)
    exact ⟨arr, harr, congrArg (· ++ ascii ".parquet") heq⟩

/-- At first there are only the metadata. -/
theorem isTreeOf_metadata {attrs : Attrs} (h : ∀ key ∈ attrs.keys, IsPlain key) :
    IsTreeOf (StringMap.empty.emplace metadataName (.metadata ⟨attrs⟩)) [] where
  metadata := ⟨⟨attrs⟩, StringMap.find_emplace_self (StringMap.notMem_keys_empty _) _, h⟩
  arrays sec hsec := absurd hsec List.not_mem_nil
  keys key hkey := by
    rcases StringMap.mem_keys_emplace.mp hkey with rfl | hkey
    · exact Or.inl rfl
    · exact absurd hkey (StringMap.notMem_keys_empty key)

/-- **One more section** becomes one more directory. -/
theorem emplaceArrayGroup_isTreeOf {subdirs subdirs' : StringMap SubDir} {name : CString}
    {arrInfo : ArrayInfo} {names : List CString} (htree : IsTreeOf subdirs sections)
    (hname : name ∉ metadataName :: sections.map Prod.fst) (hnames : Names arrInfo names)
    (h : emplaceArrayGroup thrift heap dec file codec enc headerType name arrInfo appendedDataPos
      subdirs s = .ok (subdirs', s')) :
    IsTreeOf subdirs' (sections ++ [(name, names)]) := by
  obtain ⟨⟨dir, s₁⟩, hdir, h⟩ := Exec.of_bind_eq_ok h
  obtain ⟨rfl, rfl⟩ := Prod.mk.inj (Except.ok.inj h)
  have hnew : name.bytes ∉ subdirs.keys := by
    intro hmem
    apply hname
    rcases htree.keys _ hmem with heq | ⟨sec, hsec, heq⟩
    · rw [CString.ext heq]
      exact List.mem_cons_self
    · rw [CString.ext heq]
      exact List.mem_cons_of_mem _ (List.mem_map_of_mem hsec)
  constructor
  · obtain ⟨metadata, hfind, hattrs⟩ := htree.metadata
    exact ⟨metadata, StringMap.find_emplace_of_find hfind _ _, hattrs⟩
  · intro sec hsec
    rcases List.mem_append.mp hsec with hsec | hsec
    · obtain ⟨arrays, hfind, hholds⟩ := htree.arrays sec hsec
      exact ⟨arrays, StringMap.find_emplace_of_find hfind _ _, hholds⟩
    · obtain rfl := List.mem_singleton.mp hsec
      exact ⟨dir, StringMap.find_emplace_self hnew _, parseArrayGroup_holdsArrays hnames hdir⟩
  · intro key hkey
    rcases StringMap.mem_keys_emplace.mp hkey with rfl | hkey
    · exact Or.inr ⟨_, List.mem_append_right _ (List.mem_singleton_self _), rfl⟩
    · rcases htree.keys key hkey with rfl | ⟨sec, hsec, rfl⟩
      · exact Or.inl rfl
      · exact Or.inr ⟨sec, List.mem_append_left _ hsec, rfl⟩

/-- A section that is loaded on a condition becomes a directory more, or none. -/
theorem emplaceArrayGroup_isTreeOf_ite {subdirs subdirs' : StringMap SubDir} {load : Bool}
    {name : CString} {arrInfo : ArrayInfo} {names : List CString}
    (htree : IsTreeOf subdirs sections) (hname : name ∉ metadataName :: sections.map Prod.fst)
    (hnames : load = true → Names arrInfo names)
    (h : (if load then emplaceArrayGroup thrift heap dec file codec enc headerType name arrInfo
      appendedDataPos subdirs s else .ok (subdirs, s)) = .ok (subdirs', s')) :
    IsTreeOf subdirs' (sections ++ if load then [(name, names)] else []) := by
  cases load with
  | true => exact emplaceArrayGroup_isTreeOf htree hname (hnames rfl) h
  | false =>
      obtain ⟨rfl, rfl⟩ := Prod.mk.inj (Except.ok.inj h)
      simpa using htree

end directories

/-! ## Files -/

section files

variable {E σ : Type} {thrift : Protocol} {heap : Heap} {dec : Decoder} {input : VtkInput E σ}
  {s s' : σ} {tree : VtkTree}

/-- **The tree of a file** that a reader of this class has read has a directory for each section. -/
theorem parseVtkFileInternal_isTreeOf {meshType : Bytes} {cls : VtkReaderClass}
    (hcls : createReader meshType = .ok cls) {loadPoints loadCells : Bool}
    (h : parseVtkFileInternal thrift heap dec input meshType loadPoints loadCells s =
      .ok (tree, s')) :
    ∃ subdirs statbuf₀, tree = .new subdirs statbuf₀ ∧
      IsTreeOf subdirs (sectionsOf input cls loadPoints loadCells) := by
  rw [parseVtkFileInternal, Exec.bind_of_eq_ok hcls] at h
  dsimp only at h
  split at h
  next => cases h
  next =>
    obtain ⟨codec, -, h⟩ := Exec.of_bind_eq_ok h
    obtain ⟨root, hroot, h⟩ := Exec.of_bind_eq_ok h
    obtain ⟨enc, -, h⟩ := Exec.of_bind_eq_ok h
    obtain ⟨rootAttrs₁, hrootAttrs₁, h⟩ := Exec.of_bind_eq_ok h
    obtain ⟨headerType, -, h⟩ := Exec.of_bind_eq_ok h
    obtain ⟨rootAttrs, hrootAttrs, h⟩ := Exec.of_bind_eq_ok h
    obtain ⟨⟨pointArrInfo, cellArrInfo⟩, hfields, h⟩ := Exec.of_bind_eq_ok h
    obtain ⟨pointsInfo, hpoints, h⟩ := Exec.of_bind_eq_ok h
    obtain ⟨cellsInfo, hcells, h⟩ := Exec.of_bind_eq_ok h
    obtain ⟨⟨file, statbuf⟩, -, h⟩ := Exec.of_bind_eq_ok h
    obtain ⟨⟨subdirs₁, s₁⟩, hgroup₁, h⟩ := Exec.of_bind_eq_ok h
    obtain ⟨⟨subdirs₂, s₂⟩, hgroup₂, h⟩ := Exec.of_bind_eq_ok h
    obtain ⟨⟨subdirs₃, s₃⟩, hgroup₃, h⟩ := Exec.of_bind_eq_ok h
    obtain ⟨⟨subdirs₄, s₄⟩, hgroup₄, h⟩ := Exec.of_bind_eq_ok h
    obtain ⟨rfl, rfl⟩ := Prod.mk.inj (Except.ok.inj h)
    obtain ⟨hpointNames, hcellNames⟩ := extractFieldArrayInfo_names hfields
    have hplain := copyAttrs_isPlain hrootAttrs (copyAttrs_isPlain hrootAttrs₁
      fun key hkey => absurd hkey (StringMap.notMem_keys_empty key))
    have htree₁ := emplaceArrayGroup_isTreeOf (isTreeOf_metadata hplain) (by decide) hpointNames
      hgroup₁
    have htree₂ := emplaceArrayGroup_isTreeOf_ite htree₁
      (by decide : pointsName ∉ [metadataName, pointdataName])
      (fun hload => extractInfo_names (by rwa [if_pos hload] at hpoints)) hgroup₂
    have htree₃ := emplaceArrayGroup_isTreeOf htree₂ (by
      cases loadPoints with
      | true => exact (by decide : celldataName ∉ [metadataName, pointdataName, pointsName])
      | false => exact (by decide : celldataName ∉ [metadataName, pointdataName])) hcellNames
      hgroup₃
    have htree₄ := emplaceArrayGroup_isTreeOf_ite htree₃ (by
      cases loadPoints with
      | true =>
          exact (by decide : cellsName ∉ [metadataName, pointdataName, pointsName, celldataName])
      | false => exact (by decide : cellsName ∉ [metadataName, pointdataName, celldataName]))
      (fun hload => extractInfo_names (by rwa [if_pos hload] at hcells)) hgroup₄
    refine ⟨subdirs₄, statbuf, rfl, ?_⟩
    rw [sectionsOf, eq_some_of_deref hroot]
    exact htree₄

/-- The sections of a reader are called by plain names. -/
theorem isPlain_of_mem_sectionsOf {cls : VtkReaderClass} {loadPoints loadCells : Bool}
    {sec : Section} (h : sec ∈ sectionsOf input cls loadPoints loadCells) :
    IsPlain sec.1.bytes := by
  have hpointdata : IsPlain pointdataName.bytes := by constructor <;> decide
  have hpoints : IsPlain pointsName.bytes := by constructor <;> decide
  have hcelldata : IsPlain celldataName.bytes := by constructor <;> decide
  have hcells : IsPlain cellsName.bytes := by constructor <;> decide
  rcases hroot : (input.reader cls).rootElement with _ | root
  · simp only [sectionsOf, hroot] at h
    exact absurd h List.not_mem_nil
  · simp only [sectionsOf, hroot, List.mem_append, List.mem_singleton] at h
    rcases h with ((rfl | h) | rfl) | h
    · exact hpointdata
    · cases loadPoints with
      | true =>
          obtain rfl := List.mem_singleton.mp h
          exact hpoints
      | false => exact absurd h List.not_mem_nil
    · exact hcelldata
    · cases loadCells with
      | true =>
          obtain rfl := List.mem_singleton.mp h
          exact hcells
      | false => exact absurd h List.not_mem_nil

/-- The sections of a file are called by plain names. -/
theorem isPlain_of_mem_sections {fname : CString} {sec : Section}
    (h : sec ∈ sections input fname) : IsPlain sec.1.bytes := by
  unfold sections at h
  split_ifs at h
  · exact isPlain_of_mem_sectionsOf h
  · exact isPlain_of_mem_sectionsOf h
  · exact isPlain_of_mem_sectionsOf h

/-- **The tree of a VTK file** shows the sections that are loaded from it. -/
theorem parseVtkFile_isTreeOf {fname : CString}
    (h : parseVtkFile thrift heap dec input fname s = .ok (tree, s')) :
    ∃ subdirs statbuf₀, tree = .new subdirs statbuf₀ ∧
      IsTreeOf subdirs (sections input fname) := by
  unfold parseVtkFile at h
  unfold sections
  by_cases hvtu : endsWith fname.bytes (ascii ".vtu")
  · rw [if_pos hvtu] at h ⊢
    exact parseVtkFileInternal_isTreeOf rfl h
  · rw [if_neg hvtu] at h ⊢
    by_cases hvts : endsWith fname.bytes (ascii ".vts")
    · rw [if_pos hvts] at h ⊢
      exact parseVtkFileInternal_isTreeOf rfl h
    · rw [if_neg hvts] at h ⊢
      split at h
      next => exact parseVtkFileInternal_isTreeOf rfl h
      next => cases h

end files

/-- **All entries of the tree of a VTK file are reachable** under their listed names if and only if
no array of a section that is loaded has a separator in its name. For every file that the parser
accepts. -/
theorem entriesReachable_iff {E σ : Type} (thrift : Protocol) (heap : Heap) (dec : Decoder)
    (input : VtkInput E σ) (fname : CString) (s s' : σ) (tree : VtkTree)
    (h : parseVtkFile thrift heap dec input fname s = .ok (tree, s')) :
    EntriesReachable tree ↔
      ∀ sec ∈ sections input fname, ∀ name ∈ sec.2, separator ∉ name.bytes := by
  obtain ⟨subdirs, statbuf₀, rfl, htree⟩ := parseVtkFile_isTreeOf h
  exact entriesReachable_iff_of_isTreeOf htree fun sec => isPlain_of_mem_sections

/-! ## A file with one array -/

/-- The elements of a small VTK file. -/
inductive SmallElement
  | root
  | imageData
  | pointData
  | array
  | appendedData
  deriving DecidableEq, Repr

/-- A C string with this text. -/
def cString (text : String) (h : 0 ∉ ascii text) : CString := ⟨ascii text, h⟩

/-- The attributes of these elements. -/
def SmallElement.attributes (name : CString) : SmallElement → List (XmlName × CString)
  | .root =>
      [(⟨cString "type" (by decide), by decide, by decide⟩, cString "ImageData" (by decide)),
        (⟨cString "header_type" (by decide), by decide, by decide⟩, cString "UInt32" (by decide))]
  | .imageData =>
      [(⟨cString "Origin" (by decide), by decide, by decide⟩, cString "0 0 0" (by decide))]
  | .pointData => []
  | .array =>
      [(⟨cString "type" (by decide), by decide, by decide⟩, cString "Int32" (by decide)),
        (⟨cString "Name" (by decide), by decide, by decide⟩, name),
        (⟨cString "format" (by decide), by decide, by decide⟩, cString "appended" (by decide)),
        (⟨cString "offset" (by decide), by decide, by decide⟩, cString "0" (by decide))]
  | .appendedData =>
      [(⟨cString "encoding" (by decide), by decide, by decide⟩, cString "raw" (by decide))]

/-- A VTK file with one array of points, which has this name and one element. -/
def smallInput (name : CString) : VtkInput SmallElement Unit where
  xml := {
    attributes := SmallElement.attributes name
    getAttribute := fun element key =>
      ((element.attributes name).find? fun attr => attr.1.bytes = key).map Prod.snd
    nestedElements := fun
      | .root => [.imageData, .appendedData]
      | .imageData => [.pointData]
      | .pointData => [.array]
      | _ => []
    findNestedElementWithName := fun _ key =>
      if key = ascii "ImageData" then some .imageData
      else if key = ascii "AppendedData" then some .appendedData
      else none
    lookupElementWithName := fun _ key =>
      if key = ascii "PointData" then some .pointData else none }
  reader _ :=
    { updateInformation := true
      compressor := none
      appendedDataPosition := 1
      rootElement := some .root
      pointArrayNames := [name]
      cellArrayNames := [] }
  opened := some (osFile [95, 4, 0, 0, 0, 1, 2, 3, 4])
  stat := some plainStat

/-- A composed execution returns if its second part does. -/
theorem exists_ok_of_bind {α β : Type} {x : Exec α} {a : α} (h : x = .ok a) {f : α → Exec β}
    (hf : ∃ b, f a = .ok b) : ∃ b, x >>= f = .ok b :=
  hf.imp fun _ hb => (Exec.bind_of_eq_ok h f).trans hb

/-- The parser accepts this file, for every short name. -/
theorem exists_tree_smallInput (name : CString) (hname : name.bytes.length < 2 ^ 30) :
    ∃ tree, parseVtkFile compact zeroHeap standardDecoder (smallInput name)
      (cString "a.vti" (by decide)) () = .ok tree := by
  have htables : Tables .int32 4 .int32 (some .int32) := ⟨rfl, rfl, rfl⟩
  obtain ⟨m, hm, -⟩ := @buildMapUncompressed_of_lt compact name.bytes .int32 4 .int32
    (some .int32) false htables ⟨4, 5⟩ (by decide) (by decide)
    ((Layout.length_footerBytes_le (show name.bytes.length < 2 ^ 64 by omega)
      (fun b hb => fits_of_mem_uncompressedBlks hb) (by decide)).trans_lt
        (show 2 * name.bytes.length + 512 < 2 ^ 32 by omega))
  obtain ⟨info, hinfo, hgroup⟩ : ∃ info, extractFieldArrayInfo (smallInput name).xml
      ((smallInput name).reader .imageData) .root .empty .empty = .ok (info, .empty) ∧
      ∀ subdirs, emplaceArrayGroup compact zeroHeap standardDecoder
        (osFile [95, 4, 0, 0, 0, 1, 2, 3, 4]) .none .raw .uint32 pointdataName info 1 subdirs () =
          .ok (subdirs.emplace pointdataName
            (.array ⟨StringMap.empty.emplace (arrayFileName name) m⟩), ()) := by
    refine ⟨_, rfl, fun subdirs => ?_⟩
    show ((((buildMapUncompressed compact name.bytes .int32 false ⟨4, 5⟩ >>= fun map =>
      .ok (map, ())) >>= _) >>= _) >>= _) = _
    rw [hm]
    rfl
  -- The stages of the parser in turn, of which all but the one with the array are evaluated.
  show ∃ tree, parseVtkFileInternal compact zeroHeap standardDecoder (smallInput name)
    (ascii "ImageData") false false () = .ok tree
  refine exists_ok_of_bind rfl (exists_ok_of_bind rfl (exists_ok_of_bind rfl ?_))
  refine exists_ok_of_bind rfl (exists_ok_of_bind rfl (exists_ok_of_bind rfl ?_))
  refine exists_ok_of_bind rfl (exists_ok_of_bind hinfo ?_)
  refine exists_ok_of_bind rfl (exists_ok_of_bind rfl (exists_ok_of_bind rfl ?_))
  refine exists_ok_of_bind (hgroup _) (exists_ok_of_bind rfl ?_)
  exact exists_ok_of_bind rfl (exists_ok_of_bind rfl ⟨_, rfl⟩)

/-- The theorem at an array with the name `x`: the entries are reachable. -/
theorem entriesReachable_iff_x :
    ∃ tree, parseVtkFile compact zeroHeap standardDecoder (smallInput (cString "x" (by decide)))
      (cString "a.vti" (by decide)) () = .ok (tree, ()) ∧ EntriesReachable tree := by
  obtain ⟨⟨tree, ⟨⟩⟩, htree⟩ := exists_tree_smallInput (cString "x" (by decide)) (by decide)
  exact ⟨tree, htree, (entriesReachable_iff _ _ _ _ _ _ _ _ htree).mpr (by decide)⟩

/-- An array with the name `a/b`: the directory lists `a/b.parquet`, and there is no file with this
path. -/
theorem not_entriesReachable_slash :
    ∃ tree, parseVtkFile compact zeroHeap standardDecoder (smallInput (cString "a/b" (by decide)))
        (cString "a.vti" (by decide)) () = .ok (tree, ()) ∧
      ¬EntriesReachable tree ∧
      Listed tree (cString "/pointdata" (by decide)) (cString "a/b.parquet" (by decide)) ∧
      openFile tree (some (cString "/pointdata/a/b.parquet" (by decide))) none =
        .ok (-eNOENT, none) := by
  obtain ⟨⟨tree, ⟨⟩⟩, hparse⟩ := exists_tree_smallInput (cString "a/b" (by decide)) (by decide)
  obtain ⟨subdirs, statbuf₀, rfl, htree⟩ := parseVtkFile_isTreeOf hparse
  obtain ⟨dir, hfind, hholds⟩ := htree.arrays (pointdataName, [cString "a/b" (by decide)])
    List.mem_cons_self
  have hpath : resolve (.new subdirs statbuf₀) (some (cString "/pointdata" (by decide))) =
      .ok (.dir ⟨[pointdataName.bytes], .array dir⟩) :=
    resolve_subdir (.new subdirs statbuf₀) hfind ⟨by decide, by decide⟩
  refine ⟨_, hparse, ?_, ?_, ?_⟩
  · rw [entriesReachable_iff_of_isTreeOf htree fun sec => isPlain_of_mem_sections]
    decide
  · exact listed_iff.mpr ⟨_, hpath, (hholds _).mpr ⟨_, List.mem_singleton_self _, rfl⟩⟩
  · -- The scanner looks up `a` as a directory, which is not there.
    have hnone : dir.arrMaps.find (ascii "a") = none := by
      apply Option.not_isSome_iff_eq_none.mp
      intro hsome
      obtain ⟨name, hname, heq⟩ := (hholds _).mp (StringMap.find_isSome_iff.mp hsome)
      obtain rfl := List.mem_singleton.mp hname
      exact absurd heq (by decide)
    have hmissing : resolve (.new subdirs statbuf₀)
        (some (cString "/pointdata/a/b.parquet" (by decide))) = .error eNOENT := by
      have hcomponents : components (ascii "/pointdata/a/b.parquet") =
          [ascii "pointdata", ascii "a", ascii "b.parquet"] := by decide
      have hdir : child (VtkTree.new subdirs statbuf₀).root (ascii "pointdata") =
          some (.dir ⟨[pointdataName.bytes], .array dir⟩) := by
        show (subdirs.find pointdataName.bytes).map _ = _
        rw [hfind]
        rfl
      have ha : child ⟨[pointdataName.bytes], .array dir⟩ (ascii "a") = none := by
        show (dir.arrMaps.find (ascii "a")).map _ = _
        rw [hnone]
        rfl
      show walk _ (components (ascii "/pointdata/a/b.parquet")) = _
      rw [hcomponents, walk_cons_cons, hdir]
      dsimp only
      rw [walk_cons_cons, ha]
    have hopen := openFile_eq (.new subdirs statbuf₀)
      (some (cString "/pointdata/a/b.parquet" (by decide))) none
    rwa [hmissing] at hopen

end VirParquet.Verify
