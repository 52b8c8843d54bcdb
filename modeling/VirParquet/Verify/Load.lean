import VirParquet.Spec.Loaded
import VirParquet.Verify.Parser

/-!
# What is loaded from a VTK file

`ParseVtkFile` loads what the attributes in the file say: `parseVtkFile_isLoadedTree` finds each
array of a section in the directory of that section, as the map that `ParseAppendedArray` makes at
the place and for the type that the last values of its attributes give, and the attributes of the
root element and the mesh in the directory of the metadata.

The loops over elements are followed with `Gathers`, the loop over arrays with `parseArrays_find`.
-/

namespace VirParquet.Verify

open VirParquet.Found VirParquet.Found.Thrift VirParquet.Found.Base64 VirParquet.Model
  VirParquet.Spec VirParquet.Spec.Path

/-! ## Attributes -/

section attributes

variable {E : Type} {xml : VtkXml E}

/-- **The attributes of an element** are added to those that are there, the last value counts. -/
theorem find_of_copyAttrs {des des' : Attrs} {element : E}
    (h : copyAttrs xml des (some element) = .ok des') (key : Bytes) :
    des'.find key = (lastValue (xml.attributes element) key).or (des.find key) := by
  obtain ⟨src, hsrc, hfold⟩ := Exec.of_bind_eq_ok h
  obtain rfl := Except.ok.inj hsrc
  rw [← Except.ok.inj hfold]
  clear h hfold hsrc
  generalize xml.attributes element = attrs
  induction attrs generalizing des with
  | nil => rfl
  | cons attr attrs ih =>
      rw [List.foldl_cons, ih, ← List.singleton_append, lastValue_append, lastValue_singleton,
        Option.or_assoc]
      congr 1
      by_cases hkey : attr.1.bytes = key
      · rw [if_pos hkey, ← hkey, StringMap.find_assign_self]
        rfl
      · rw [if_neg hkey, StringMap.find_assign_of_ne _ (Ne.symm hkey)]
        rfl

/-- The value of an attribute of an array. -/
def attrValue (info : ArrayInfo) (name key : Bytes) : Option Bytes :=
  (info.find name).bind fun attrs => attrs.find key

/-- What is gathered about arrays: they are found by their names, with the last values of their
attributes. -/
structure Gathers (xml : VtkXml E) (info : ArrayInfo) (arrays : Arrays E) : Prop where
  keys : ∀ key, key ∈ info.keys ↔ ∃ arr ∈ arrays, key = arr.1.bytes
  value : ∀ name key, attrValue info name key = lastValue (arrays.attributes xml name) key

/-- Nothing is gathered at first. -/
theorem gathers_nil : Gathers xml .empty [] where
  keys key := iff_of_false (StringMap.notMem_keys_empty key) (by simp)
  value _ _ := rfl

variable {info info' : ArrayInfo} {arrays : Arrays E}

/-- **The attributes of one more array** are gathered. -/
theorem Gathers.concat (h : Gathers xml info arrays) {name : CString} {element : E} {attrs : Attrs}
    (hattrs : copyAttrs xml (info.attrs name) (some element) = .ok attrs) :
    Gathers xml (info.assign name attrs) (arrays ++ [(name, element)]) := by
  constructor
  · intro key
    rw [StringMap.mem_keys_assign, h.keys]
    simp only [List.mem_append, List.mem_singleton]
    constructor
    · rintro (rfl | ⟨arr, harr, rfl⟩)
      · exact ⟨_, Or.inr rfl, rfl⟩
      · exact ⟨arr, Or.inl harr, rfl⟩
    · rintro ⟨arr, harr | rfl, rfl⟩
      · exact Or.inr ⟨arr, harr, rfl⟩
      · exact Or.inl rfl
  · intro name' key
    have hold : (info.attrs name).find key = attrValue info name.bytes key := by
      rw [ArrayInfo.attrs, attrValue]
      cases info.find name.bytes <;> rfl
    rw [Arrays.attributes_append, Arrays.attributes_singleton, lastValue_append, ← h.value]
    by_cases hname : name.bytes = name'
    · subst hname
      rw [if_pos rfl, ← hold, ← find_of_copyAttrs hattrs, attrValue,
        StringMap.find_assign_self]
      rfl
    · rw [if_neg hname, attrValue, StringMap.find_assign_of_ne _ (Ne.symm hname)]
      rfl

/-- The loop over nested elements gathers them all. -/
theorem Gathers.of_extractNested {elements : List E} (h : Gathers xml info arrays)
    (hrun : extractNested xml elements info = .ok info') :
    Gathers xml info' (arrays ++ elements.filterMap fun arr =>
      (xml.getAttribute arr (ascii "Name")).map fun name => (name, arr)) := by
  induction elements generalizing info arrays with
  | nil =>
      obtain rfl := Except.ok.inj hrun
      simpa using h
  | cons element elements ih =>
      obtain ⟨name, hname, hrun⟩ := Exec.of_bind_eq_ok hrun
      obtain ⟨attrs, hattrs, hrun⟩ := Exec.of_bind_eq_ok hrun
      have hnext := ih (h.concat hattrs) hrun
      rwa [List.append_assoc, List.singleton_append,
        ← List.filterMap_cons_some (by rw [eq_some_of_deref hname]; rfl)] at hnext

/-- `ExtractInfo` gathers the arrays of `Points` or `Cells`. -/
theorem gathers_of_extractInfo {element : Bytes} {root : E}
    (h : extractInfo xml element root .empty = .ok info) :
    Gathers xml info (nestedArrays xml element root) := by
  obtain ⟨parent, hparent, h⟩ := Exec.of_bind_eq_ok h
  rw [nestedArrays, eq_some_of_deref hparent]
  exact gathers_nil.of_extractNested h

/-- The loop over the names of a reader gathers the elements from its number on. -/
theorem Gathers.of_extractNamed {parent : Option E} {names : List CString} {i : ℕ}
    (h : Gathers xml info arrays) (hrun : extractNamed xml parent names i info = .ok info') :
    Gathers xml info' (arrays ++
      names.zip ((parent.map fun element => (xml.nestedElements element).drop i).getD [])) := by
  induction names generalizing info arrays i with
  | nil =>
      obtain rfl := Except.ok.inj hrun
      simpa using h
  | cons name names ih =>
      obtain ⟨element, helement, hrun⟩ := Exec.of_bind_eq_ok hrun
      obtain ⟨attrs, hattrs, hrun⟩ := Exec.of_bind_eq_ok hrun
      obtain rfl := eq_some_of_deref helement
      rcases harr : (xml.nestedElements element)[i]? with _ | arr
      · rw [harr] at hattrs
        cases hattrs
      · rw [harr] at hattrs
        obtain ⟨hi, rfl⟩ := List.getElem?_eq_some_iff.mp harr
        have hnext := ih (h.concat hattrs) hrun
        rw [List.append_assoc, List.singleton_append] at hnext
        simp only [Option.map_some, Option.getD_some] at hnext ⊢
        rwa [List.drop_eq_getElem_cons hi, List.zip_cons_cons]

/-- The loop over the names gathers the arrays of `PointData` or `CellData`. -/
theorem gathers_of_extractNamed {element : Bytes} {root : E} {names : List CString}
    (h : extractNamed xml (xml.lookupElementWithName root element) names 0 .empty = .ok info) :
    Gathers xml info (namedArrays xml element root names) := by
  have hgathers := gathers_nil.of_extractNamed h
  rw [namedArrays]
  rcases hparent : xml.lookupElementWithName root element with _ | parent
  · rw [hparent] at hgathers
    simpa using hgathers
  · rw [hparent] at hgathers
    simpa using hgathers

/-- The arrays that the reader names are gathered. -/
theorem gathers_of_extractFieldArrayInfo {reader : VtkReader E} {root : E}
    {pointArrInfo cellArrInfo : ArrayInfo}
    (h : extractFieldArrayInfo xml reader root .empty .empty = .ok (pointArrInfo, cellArrInfo)) :
    Gathers xml pointArrInfo
        (namedArrays xml (ascii "PointData") root reader.pointArrayNames) ∧
      Gathers xml cellArrInfo (namedArrays xml (ascii "CellData") root reader.cellArrayNames) := by
  obtain ⟨point, hpoint, h⟩ := Exec.of_bind_eq_ok h
  obtain ⟨cell, hcell, h⟩ := Exec.of_bind_eq_ok h
  obtain ⟨rfl, rfl⟩ := Prod.mk.inj (Except.ok.inj h)
  exact ⟨gathers_of_extractNamed hpoint, gathers_of_extractNamed hcell⟩

end attributes

/-! ## Directories -/

/-- Names of files are different if the names of the arrays are. -/
theorem arrayFileName_inj {name name' : CString}
    (h : (arrayFileName name).bytes = (arrayFileName name').bytes) : name = name' :=
  CString.ext (List.append_cancel_right h)

section directories

variable {E σ : Type} {thrift : Protocol} {heap : Heap} {dec : Decoder} {storage : Storage σ}
  {xml : VtkXml E} {s s' : σ} {metadata : List (XmlName × CString)}
  {sections : List (CString × Arrays E)}

/-- **The map of an array** whose attributes have these values is made for what they say. -/
theorem isLoaded_of_parseVtkDataArray {name : Bytes} {map : Attrs}
    {attrs : List (XmlName × CString)} (hattrs : ∀ key, map.find key = lastValue attrs key)
    {m : FileMap}
    (h : parseVtkDataArray thrift heap dec storage.base storage.codec storage.enc
      storage.headerType name map storage.appendedDataPos s = .ok (m, s')) :
    IsLoaded thrift heap dec storage name attrs m := by
  obtain ⟨t, ht, h⟩ := Exec.of_bind_eq_ok h
  obtain ⟨type, htype, h⟩ := Exec.of_bind_eq_ok h
  obtain ⟨format, hformat, h⟩ := Exec.of_bind_eq_ok h
  split at h
  next happended =>
    obtain ⟨text, htext, h⟩ := Exec.of_bind_eq_ok h
    obtain ⟨n, hn, h⟩ := Exec.of_bind_eq_ok h
    have hlookup : ∀ {key value}, map.atKey key = .ok value → lastValue attrs key = some value := by
      intro key value hkey
      rw [← hattrs]
      exact StringMap.find_of_atKey hkey
    exact ⟨type, n, s, s', ⟨⟨t, hlookup ht, htype⟩, happended ▸ hlookup hformat, text,
      hlookup htext, hn⟩, h⟩
  next => cases h

/-- **The loop over arrays** finds the map of each under the name of its file, and keeps the maps
that are there. -/
theorem parseArrays_find {arrs : List (CString × Attrs)} {maps maps' : StringMap FileMap}
    (h : parseArrays thrift heap dec storage.base storage.codec storage.enc storage.headerType
      storage.appendedDataPos arrs maps s = .ok (maps', s'))
    (hnodup : (arrs.map fun arr => arr.1.bytes).Nodup)
    (hnew : ∀ arr ∈ arrs, (arrayFileName arr.1).bytes ∉ maps.keys) :
    (∀ key m, maps.find key = some m → maps'.find key = some m) ∧
      ∀ arr ∈ arrs, ∃ m s₁ s₂, maps'.find (arrayFileName arr.1).bytes = some m ∧
        parseVtkDataArray thrift heap dec storage.base storage.codec storage.enc
          storage.headerType arr.1.bytes arr.2 storage.appendedDataPos s₁ = .ok (m, s₂) := by
  induction arrs generalizing maps s with
  | nil =>
      obtain ⟨rfl, rfl⟩ := Prod.mk.inj (Except.ok.inj h)
      exact ⟨fun _ _ hm => hm, by simp⟩
  | cons arr arrs ih =>
      obtain ⟨⟨m, s₁⟩, hm, h⟩ := Exec.of_bind_eq_ok h
      rw [List.map_cons, List.nodup_cons] at hnodup
      have hfirst := hnew arr List.mem_cons_self
      have hrest : ∀ arr' ∈ arrs,
          (arrayFileName arr'.1).bytes ∉ (maps.emplace (arrayFileName arr.1) m).keys := by
        intro arr' harr' hmem
        rcases StringMap.mem_keys_emplace.mp hmem with heq | hmem
        · apply hnodup.1
          rw [← arrayFileName_inj heq]
          exact List.mem_map_of_mem harr'
        · exact hnew arr' (List.mem_cons_of_mem _ harr') hmem
      obtain ⟨hkeep, hfind⟩ := ih h hnodup.2 hrest
      refine ⟨fun key m' hm' => hkeep key m' (StringMap.find_emplace_of_find hm' _ _), ?_⟩
      intro arr' harr'
      rcases List.mem_cons.mp harr' with rfl | harr'
      · exact ⟨m, s, s₁, hkeep _ _ (StringMap.find_emplace_self hfirst m), hm⟩
      · exact hfind arr' harr'

/-- **The directory of a section** has the maps of its arrays. -/
theorem holdsMaps_of_parseArrayGroup {arrInfo : ArrayInfo} {arrays : Arrays E} {dir : ArrayDir}
    (hgathers : Gathers xml arrInfo arrays)
    (h : parseArrayGroup thrift heap dec storage.base storage.codec storage.enc
      storage.headerType arrInfo storage.appendedDataPos s = .ok (dir, s')) :
    HoldsMaps thrift heap dec storage xml arrays dir := by
  obtain ⟨⟨maps, s₁⟩, hmaps, h⟩ := Exec.of_bind_eq_ok h
  obtain ⟨rfl, rfl⟩ := Prod.mk.inj (Except.ok.inj h)
  obtain ⟨-, hfind⟩ := parseArrays_find hmaps arrInfo.nodup_items
    fun arr _ => StringMap.notMem_keys_empty _
  constructor
  · intro key hkey
    rcases (parseArrays_keys hmaps key).mp hkey with hkey | ⟨item, hitem, rfl⟩
    · exact absurd hkey (StringMap.notMem_keys_empty key)
    · obtain ⟨arr, harr, heq⟩ := (hgathers.keys item.1.bytes).mp
        (StringMap.mem_keys_iff_items.mpr ⟨item, hitem, rfl⟩)
      exact ⟨arr, harr, by rw [CString.ext heq]⟩
  · intro arr harr
    obtain ⟨item, hitem, heq⟩ := StringMap.mem_keys_iff_items.mp
      ((hgathers.keys arr.1.bytes).mpr ⟨arr, harr, rfl⟩)
    obtain ⟨m, s₂, s₃, hm, hparse⟩ := hfind item hitem
    rw [← CString.ext heq] at hm hparse
    refine ⟨m, hm, isLoaded_of_parseVtkDataArray (fun key => ?_) hparse⟩
    have hvalue : attrValue arrInfo item.1.bytes key = item.2.find key := by
      rw [attrValue, StringMap.find_of_mem_items hitem]
      rfl
    rw [← hvalue, hgathers.value, heq]

/-- At first there are only the metadata. -/
theorem isLoadedTree_metadata {attrs : Attrs} (h : ∀ key, attrs.find key = lastValue metadata key) :
    IsLoadedTree thrift heap dec storage xml metadata []
      (StringMap.empty.emplace metadataName (.metadata ⟨attrs⟩)) where
  metadata := ⟨⟨attrs⟩, StringMap.find_emplace_self (StringMap.notMem_keys_empty _) _, h⟩
  arrays sec hsec := absurd hsec List.not_mem_nil
  keys key hkey := by
    rcases StringMap.mem_keys_emplace.mp hkey with rfl | hkey
    · exact Or.inl rfl
    · exact absurd hkey (StringMap.notMem_keys_empty key)

/-- **One more section** is loaded. -/
theorem isLoadedTree_concat {subdirs subdirs' : StringMap SubDir} {name : CString}
    {arrInfo : ArrayInfo} {arrays : Arrays E}
    (htree : IsLoadedTree thrift heap dec storage xml metadata sections subdirs)
    (hname : name ∉ metadataName :: sections.map Prod.fst)
    (hgathers : Gathers xml arrInfo arrays)
    (h : emplaceArrayGroup thrift heap dec storage.base storage.codec storage.enc
      storage.headerType name arrInfo storage.appendedDataPos subdirs s = .ok (subdirs', s')) :
    IsLoadedTree thrift heap dec storage xml metadata (sections ++ [(name, arrays)]) subdirs' := by
  obtain ⟨⟨dir, s₁⟩, hdir, h⟩ := Exec.of_bind_eq_ok h
  obtain ⟨rfl, rfl⟩ := Prod.mk.inj (Except.ok.inj h)
  have hnew : name.bytes ∉ subdirs.keys := by
    intro hmem
    apply hname
    rcases htree.keys _ hmem with heq | ⟨sec, hsec, heq⟩
    · rw [CString.ext heq]
      exact List.mem_cons_self
    · rw [CString.ext heq]
      exact List.mem_cons_of_mem _ (List.mem_map_of_mem hsec)
  constructor
  · obtain ⟨metadata', hfind, hvalues⟩ := htree.metadata
    exact ⟨metadata', StringMap.find_emplace_of_find hfind _ _, hvalues⟩
  · intro sec hsec
    rcases List.mem_append.mp hsec with hsec | hsec
    · obtain ⟨dir', hfind, hholds⟩ := htree.arrays sec hsec
      exact ⟨dir', StringMap.find_emplace_of_find hfind _ _, hholds⟩
    · obtain rfl := List.mem_singleton.mp hsec
      exact ⟨dir, StringMap.find_emplace_self hnew _, holdsMaps_of_parseArrayGroup hgathers hdir⟩
  · intro key hkey
    rcases StringMap.mem_keys_emplace.mp hkey with rfl | hkey
    · exact Or.inr ⟨_, List.mem_append_right _ (List.mem_singleton_self _), rfl⟩
    · rcases htree.keys key hkey with rfl | ⟨sec, hsec, rfl⟩
      · exact Or.inl rfl
      · exact Or.inr ⟨sec, List.mem_append_left _ hsec, rfl⟩

/-- A section that is loaded on a condition is a directory more, or none. -/
theorem isLoadedTree_concat_ite {subdirs subdirs' : StringMap SubDir} {load : Bool}
    {name : CString} {arrInfo : ArrayInfo} {arrays : Arrays E}
    (htree : IsLoadedTree thrift heap dec storage xml metadata sections subdirs)
    (hname : name ∉ metadataName :: sections.map Prod.fst)
    (hgathers : load = true → Gathers xml arrInfo arrays)
    (h : (if load then emplaceArrayGroup thrift heap dec storage.base storage.codec storage.enc
        storage.headerType name arrInfo storage.appendedDataPos subdirs s
      else .ok (subdirs, s)) = .ok (subdirs', s')) :
    IsLoadedTree thrift heap dec storage xml metadata
      (sections ++ if load then [(name, arrays)] else []) subdirs' := by
  cases load with
  | true => exact isLoadedTree_concat htree hname (hgathers rfl) h
  | false =>
      obtain ⟨rfl, rfl⟩ := Prod.mk.inj (Except.ok.inj h)
      simpa using htree

end directories

/-! ## Files -/

section files

variable {E σ : Type} {thrift : Protocol} {heap : Heap} {dec : Decoder} {input : VtkInput E σ}
  {s s' : σ} {tree : VtkTree}

/-- A header type that was parsed is the one that the root element names. -/
theorem isHeaderType_of_parseHeaderType {attrs : Attrs} {headerType : DataType}
    (h : parseHeaderType attrs = .ok headerType) :
    ∃ text, attrs.find (ascii "header_type") = some text ∧ IsHeaderType text headerType := by
  obtain ⟨text, htext, h⟩ := Exec.of_bind_eq_ok h
  refine ⟨text, StringMap.find_of_atKey htext, ?_⟩
  split at h
  next h32 => exact Or.inl ⟨h32, (Except.ok.inj h).symm⟩
  next =>
    split at h
    next h64 => exact Or.inr ⟨h64, (Except.ok.inj h).symm⟩
    next => cases h

/-- The file that is read is the one that was opened, with its attributes. -/
theorem eq_some_of_newOSFile {opened : Option (RandomAccessFile σ)} {stat : Option StatBuf}
    {file : RandomAccessFile σ} {statbuf : StatBuf}
    (h : newOSFile opened stat = .ok (file, statbuf)) :
    opened = some file ∧ stat = some statbuf := by
  cases opened with
  | none => cases h
  | some file' =>
      cases stat with
      | none => cases h
      | some statbuf' =>
          obtain ⟨rfl, rfl⟩ := Prod.mk.inj (Except.ok.inj h)
          exact ⟨rfl, rfl⟩

/-- **What is loaded** from a file of a kind. -/
theorem parseVtkFileInternal_isLoadedTree {kind : MeshKind}
    (hcls : createReader kind.meshType = .ok kind.cls)
    (h : parseVtkFileInternal thrift heap dec input kind.meshType kind.loadPoints kind.loadCells s =
      .ok (tree, s')) :
    ∃ root storage subdirs statbuf, IsStorageOf input kind.cls root storage ∧
      input.stat = some statbuf ∧ tree = .new subdirs statbuf ∧
      IsLoadedTree thrift heap dec storage input.xml (kind.metadata input) (kind.arrays input)
        subdirs := by
  rw [parseVtkFileInternal, Exec.bind_of_eq_ok hcls] at h
  dsimp only at h
  split at h
  next => cases h
  next =>
    obtain ⟨codec, hcodec, h⟩ := Exec.of_bind_eq_ok h
    obtain ⟨root, hroot, h⟩ := Exec.of_bind_eq_ok h
    obtain ⟨enc, henc, h⟩ := Exec.of_bind_eq_ok h
    obtain ⟨rootAttrs₁, hrootAttrs₁, h⟩ := Exec.of_bind_eq_ok h
    obtain ⟨headerType, hheaderType, h⟩ := Exec.of_bind_eq_ok h
    obtain ⟨rootAttrs, hrootAttrs, h⟩ := Exec.of_bind_eq_ok h
    obtain ⟨⟨pointArrInfo, cellArrInfo⟩, hfields, h⟩ := Exec.of_bind_eq_ok h
    obtain ⟨pointsInfo, hpoints, h⟩ := Exec.of_bind_eq_ok h
    obtain ⟨cellsInfo, hcells, h⟩ := Exec.of_bind_eq_ok h
    obtain ⟨⟨file, statbuf⟩, hfile, h⟩ := Exec.of_bind_eq_ok h
    obtain ⟨⟨subdirs₁, s₁⟩, hgroup₁, h⟩ := Exec.of_bind_eq_ok h
    obtain ⟨⟨subdirs₂, s₂⟩, hgroup₂, h⟩ := Exec.of_bind_eq_ok h
    obtain ⟨⟨subdirs₃, s₃⟩, hgroup₃, h⟩ := Exec.of_bind_eq_ok h
    obtain ⟨⟨subdirs₄, s₄⟩, hgroup₄, h⟩ := Exec.of_bind_eq_ok h
    obtain ⟨rfl, rfl⟩ := Prod.mk.inj (Except.ok.inj h)
    obtain ⟨hgatherPoint, hgatherCell⟩ := gathers_of_extractFieldArrayInfo hfields
    obtain ⟨text, htext, hisType⟩ := isHeaderType_of_parseHeaderType hheaderType
    have hroot := eq_some_of_deref hroot
    have hfirst : ∀ key, rootAttrs₁.find key = lastValue (input.xml.attributes root) key := by
      intro key
      rw [find_of_copyAttrs hrootAttrs₁, StringMap.find_empty, Option.or_none]
    have hmetadata : ∀ key, rootAttrs.find key = lastValue (kind.metadata input) key := by
      intro key
      rcases hmesh : input.xml.findNestedElementWithName root kind.meshType with _ | mesh
      · rw [hmesh] at hrootAttrs
        cases hrootAttrs
      · rw [hmesh] at hrootAttrs
        rw [find_of_copyAttrs hrootAttrs, hfirst, MeshKind.metadata, hroot, ← lastValue_append]
        simp only [hmesh, Option.map_some, Option.getD_some]
    set storage : Storage σ :=
      ⟨file, codec, enc, headerType, ofI64 (input.reader kind.cls).appendedDataPosition⟩
    obtain ⟨hopened, hstat⟩ := eq_some_of_newOSFile hfile
    have hstorage : IsStorageOf input kind.cls root storage :=
      ⟨hroot, hopened, hcodec, henc, ⟨text, by rw [← hfirst, htext], hisType⟩, rfl⟩
    refine ⟨root, storage, subdirs₄, statbuf, hstorage, hstat, rfl, ?_⟩
    have htree₀ := @isLoadedTree_metadata E σ thrift heap dec storage input.xml _ rootAttrs
      hmetadata
    have htree₁ := isLoadedTree_concat htree₀
      (by decide : pointdataName ∉ [metadataName]) hgatherPoint hgroup₁
    have htree₂ := isLoadedTree_concat_ite htree₁
      (by decide : pointsName ∉ [metadataName, pointdataName])
      (fun hload => gathers_of_extractInfo (by rwa [if_pos hload] at hpoints)) hgroup₂
    have htree₃ := isLoadedTree_concat htree₂ (by
      cases kind.loadPoints with
      | true => exact (by decide : celldataName ∉ [metadataName, pointdataName, pointsName])
      | false => exact (by decide : celldataName ∉ [metadataName, pointdataName])) hgatherCell
      hgroup₃
    have htree₄ := isLoadedTree_concat_ite htree₃ (by
      cases kind.loadPoints with
      | true =>
          exact (by decide : cellsName ∉ [metadataName, pointdataName, pointsName, celldataName])
      | false => exact (by decide : cellsName ∉ [metadataName, pointdataName, celldataName]))
      (fun hload => gathers_of_extractInfo (by rwa [if_pos hload] at hcells)) hgroup₄
    rw [MeshKind.arrays, arraysOf, hroot]
    exact htree₄

/-- How the arrays of a file are stored is said once. -/
theorem storage_unique {cls : VtkReaderClass} {root root' : E} {storage storage' : Storage σ}
    (h : IsStorageOf input cls root storage) (h' : IsStorageOf input cls root' storage') :
    storage = storage' := by
  obtain ⟨base, codec, enc, headerType, pos⟩ := storage
  obtain ⟨base', codec', enc', headerType', pos'⟩ := storage'
  obtain ⟨hroot, hopened, hcodec, henc, ⟨text, htext, htype⟩, hpos⟩ := h
  obtain ⟨hroot', hopened', hcodec', henc', ⟨text', htext', htype'⟩, hpos'⟩ := h'
  obtain rfl := Option.some.inj (hroot.symm.trans hroot')
  obtain rfl := Option.some.inj (hopened.symm.trans hopened')
  obtain rfl := Except.ok.inj (hcodec.symm.trans hcodec')
  obtain rfl := Except.ok.inj (henc.symm.trans henc')
  obtain rfl := Option.some.inj (htext.symm.trans htext')
  obtain rfl : headerType = headerType' := by
    rcases htype with ⟨rfl, ht⟩ | ⟨rfl, ht⟩ <;> rcases htype' with ⟨hne, ht'⟩ | ⟨hne, ht'⟩
    · exact ht.trans ht'.symm
    · exact absurd hne (by decide)
    · exact absurd hne (by decide)
    · exact ht.trans ht'.symm
  obtain rfl : pos = pos' := hpos.trans hpos'.symm
  rfl

/-- What an array is described as is said once. -/
theorem describes_unique {attrs : List (XmlName × CString)} {type type' : DataType}
    {offset offset' : ℤ} (h : Describes attrs type offset) (h' : Describes attrs type' offset') :
    type = type' ∧ offset = offset' := by
  obtain ⟨⟨text, htext, htype⟩, -, t, ht, hoffset⟩ := h
  obtain ⟨⟨text', htext', htype'⟩, -, t', ht', hoffset'⟩ := h'
  obtain rfl := Option.some.inj (htext.symm.trans htext')
  obtain rfl := Option.some.inj (ht.symm.trans ht')
  exact ⟨Except.ok.inj (htype.symm.trans htype'), Except.ok.inj (hoffset.symm.trans hoffset')⟩

/-- The kinds of files and the dispatch on names. -/
theorem parseVtkFile_eq_of_kindOf {fname : CString} {kind : MeshKind} (h : kindOf fname = some kind)
    (s : σ) :
    createReader kind.meshType = .ok kind.cls ∧
      parseVtkFile thrift heap dec input fname s =
        parseVtkFileInternal thrift heap dec input kind.meshType kind.loadPoints kind.loadCells
          s := by
  unfold kindOf at h
  unfold parseVtkFile
  split_ifs at h ⊢ with hvtu hvts hvti
  · obtain rfl := Option.some.inj h
    exact ⟨rfl, rfl⟩
  · obtain rfl := Option.some.inj h
    exact ⟨rfl, rfl⟩
  · obtain rfl := Option.some.inj h
    exact ⟨rfl, rfl⟩

/-- A file of no kind is rejected. -/
theorem parseVtkFile_of_kindOf_eq_none {fname : CString} (h : kindOf fname = none) (s : σ) :
    parseVtkFile thrift heap dec input fname s =
      .error (.thrown "Unsupported vtk file format") := by
  unfold kindOf at h
  unfold parseVtkFile
  split_ifs at h ⊢ with hvtu hvts hvti
  rfl

/-- **What is loaded from a VTK file** that is accepted. -/
theorem parseVtkFile_isLoadedTree {fname : CString}
    (h : parseVtkFile thrift heap dec input fname s = .ok (tree, s')) :
    ∃ kind root storage subdirs statbuf, kindOf fname = some kind ∧
      IsStorageOf input kind.cls root storage ∧ input.stat = some statbuf ∧
      tree = .new subdirs statbuf ∧
      IsLoadedTree thrift heap dec storage input.xml (kind.metadata input) (kind.arrays input)
        subdirs := by
  rcases hkind : kindOf fname with _ | kind
  · rw [parseVtkFile_of_kindOf_eq_none hkind] at h
    cases h
  · obtain ⟨hcls, heq⟩ := @parseVtkFile_eq_of_kindOf E σ thrift heap dec input fname kind hkind s
    rw [heq] at h
    obtain ⟨root, storage, subdirs, statbuf, hloaded⟩ := parseVtkFileInternal_isLoadedTree hcls h
    exact ⟨kind, root, storage, subdirs, statbuf, rfl, hloaded⟩

/-- The sections of a kind have plain names. -/
theorem isPlain_of_mem_arrays {kind : MeshKind} {sec : CString × Arrays E}
    (h : sec ∈ kind.arrays input) : IsPlain sec.1.bytes := by
  have hnames : ∀ name ∈ [pointdataName, pointsName, celldataName, cellsName],
      IsPlain name.bytes := by
    unfold IsPlain
    decide
  apply hnames
  rcases hroot : (input.reader kind.cls).rootElement with _ | root
  · simp only [MeshKind.arrays, arraysOf, hroot] at h
    exact absurd h List.not_mem_nil
  · simp only [MeshKind.arrays, arraysOf, hroot, List.mem_append, List.mem_singleton,
      List.mem_ite_nil_right] at h
    rcases h with ((rfl | ⟨-, rfl⟩) | rfl) | ⟨-, rfl⟩ <;> simp

variable {storage : Storage σ} {xml : VtkXml E} {metadata : List (XmlName × CString)}
  {sections : List (CString × Arrays E)} {subdirs : StringMap SubDir} {statbuf : StatBuf}

/-- What stands below the root is the directory of the metadata, or that of a section. -/
theorem sub_of_find
    (h : IsLoadedTree thrift heap dec storage xml metadata sections subdirs) {name : Bytes}
    {sub : SubDir} (hsub : subdirs.find name = some sub) :
    (∃ dir, name = metadataName.bytes ∧ sub = .metadata dir ∧
        ∀ key, dir.map.find key = lastValue metadata key) ∨
      ∃ sec ∈ sections, ∃ dir, name = sec.1.bytes ∧ sub = .array dir ∧
        HoldsMaps thrift heap dec storage xml sec.2 dir := by
  have hname := StringMap.find_isSome_iff.mp (Option.isSome_of_eq_some hsub)
  rcases h.keys name hname with rfl | ⟨sec, hsec, rfl⟩
  · obtain ⟨dir, hdir, hattrs⟩ := h.metadata
    obtain rfl := Option.some.inj (hsub.symm.trans hdir)
    exact Or.inl ⟨dir, rfl, rfl, hattrs⟩
  · obtain ⟨dir, hdir, hholds⟩ := h.arrays sec hsec
    obtain rfl := Option.some.inj (hsub.symm.trans hdir)
    exact Or.inr ⟨sec, hsec, dir, rfl, rfl, hholds⟩

/-- A file below the root is a value of the metadata, or the map of an array. -/
theorem file_of_child
    (h : IsLoadedTree thrift heap dec storage xml metadata sections subdirs) {place : List Bytes}
    {dir name : Bytes} {sub : SubDir} {ptr : FilePtr} (hsub : subdirs.find dir = some sub)
    (hchild : child ⟨place, sub.toDir⟩ name = some (.file ptr)) :
    (dir = metadataName.bytes ∧
        ∃ value, lastValue metadata name = some value ∧ ptr.file = .stringBuf value) ∨
      ∃ sec ∈ sections, ∃ arr ∈ sec.2, ∃ m, dir = sec.1.bytes ∧
        name = (arrayFileName arr.1).bytes ∧ ptr.file = .virtual m ∧
        IsLoaded thrift heap dec storage arr.1.bytes (sec.2.attributes xml arr.1.bytes) m := by
  rcases sub_of_find h hsub with ⟨dir, rfl, rfl, hattrs⟩ | ⟨sec, hsec, dir, rfl, rfl, hholds⟩
  · obtain ⟨value, hvalue, hnode⟩ := Option.map_eq_some_iff.mp hchild
    cases hnode
    exact Or.inl ⟨rfl, value, (hattrs name).symm.trans hvalue, rfl⟩
  · obtain ⟨m, hm, hnode⟩ := Option.map_eq_some_iff.mp hchild
    cases hnode
    have hkey := StringMap.find_isSome_iff.mp (Option.isSome_of_eq_some hm)
    obtain ⟨arr, harr, rfl⟩ := hholds.keys name hkey
    obtain ⟨m', hm', hloaded⟩ := hholds.maps arr harr
    obtain rfl := Option.some.inj (hm.symm.trans hm')
    exact Or.inr ⟨sec, hsec, arr, harr, m, rfl, rfl, rfl, hloaded⟩

/-- **An attribute of the metadata** is a file with its last value. -/
theorem resolve_metadata
    (h : IsLoadedTree thrift heap dec storage xml metadata sections subdirs) (key : XmlName) :
    resolve (.new subdirs statbuf) (some (filePath metadataName key.toCString)) =
      match lastValue metadata key.bytes with
      | some value => .ok (.file ⟨[metadataName.bytes, key.bytes], .stringBuf value⟩)
      | none => .error eNOENT := by
  obtain ⟨dir, hdir, hvalue⟩ := h.metadata
  have hresolve := resolve_subdir (.new subdirs statbuf) hdir ⟨by decide, by decide⟩
  have hchild : child ⟨[metadataName.bytes], (SubDir.metadata dir).toDir⟩ key.bytes =
      (dir.map.find key.bytes).map fun value =>
        .file ⟨[metadataName.bytes, key.bytes], .stringBuf value⟩ := rfl
  rw [filePath, resolve_join_of_isPlain hresolve ⟨key.ne_nil, key.separator_notMem⟩, ← hvalue, walk,
    hchild]
  cases dir.map.find key.bytes with
  | none => rfl
  | some value => rfl

/-- **An array of a section** is a file with its map. -/
theorem resolve_array (h : IsLoadedTree thrift heap dec storage xml metadata sections subdirs)
    {sec : CString × Arrays E} (hsec : sec ∈ sections) (hplain : IsPlain sec.1.bytes)
    {arr : CString × E} (harr : arr ∈ sec.2) (hsep : separator ∉ arr.1.bytes) :
    ∃ m, resolve (.new subdirs statbuf) (some (filePath sec.1 (arrayFileName arr.1))) =
        .ok (.file ⟨[sec.1.bytes, (arrayFileName arr.1).bytes], .virtual m⟩) ∧
      IsLoaded thrift heap dec storage arr.1.bytes (sec.2.attributes xml arr.1.bytes) m := by
  obtain ⟨dir, hdir, hholds⟩ := h.arrays sec hsec
  obtain ⟨m, hfind, hm⟩ := hholds.maps arr harr
  refine ⟨m, ?_, hm⟩
  have hresolve := resolve_subdir (.new subdirs statbuf) hdir hplain
  rw [filePath, resolve_join_of_isPlain hresolve (isPlain_arrayFileName.mpr hsep)]
  apply walk_singleton.mpr
  show (dir.arrMaps.find (arrayFileName arr.1).bytes).map _ = _
  rw [hfind]
  rfl

end files

/-! ## What a file shows -/

/-- **The metadata of a VTK file.** For every file that the parser accepts and every name of an
attribute: the file of this name below `METADATA` holds the last value that the root element and the
mesh element give it, and there is no such file if they give it none. -/
theorem metadata_shows {E σ : Type} (thrift : Protocol) (heap : Heap) (dec : Decoder)
    (input : VtkInput E σ) (fname : CString) (s s' : σ) (tree : VtkTree)
    (h : parseVtkFile thrift heap dec input fname s = .ok (tree, s')) :
    ∃ kind, kindOf fname = some kind ∧ ∀ key : XmlName,
      (∀ value, lastValue (kind.metadata input) key.bytes = some value →
        ∃ fh, fh.file = .stringBuf value ∧
          LeadsTo tree (some (filePath metadataName key.toCString)) (.file fh)) ∧
      (lastValue (kind.metadata input) key.bytes = none →
        openFile tree (some (filePath metadataName key.toCString)) none =
          .ok (-eNOENT, none)) := by
  obtain ⟨kind, root, storage, subdirs, statbuf, hkind, -, -, rfl, hloaded⟩ :=
    parseVtkFile_isLoadedTree h
  refine ⟨kind, hkind, fun key => ?_⟩
  have hresolve : resolve (.new subdirs statbuf) (some (filePath metadataName key.toCString)) = _ :=
    resolve_metadata hloaded key
  constructor
  · intro value hvalue
    rw [hvalue] at hresolve
    exact ⟨_, rfl, leadsTo_of_resolve hresolve⟩
  · intro hnone
    have hopen := openFile_eq (.new subdirs statbuf)
      (some (filePath metadataName key.toCString)) none
    rw [hnone] at hresolve
    rwa [hresolve] at hopen

/-- The file with one array is an image. -/
theorem kindOf_small :
    kindOf (cString "a.vti" (by decide)) = some ⟨ascii "ImageData", .imageData, false, false⟩ := rfl

/-- The file with one array has this array in the first of its sections. -/
theorem arrays_small (name : CString) :
    MeshKind.arrays ⟨ascii "ImageData", .imageData, false, false⟩ (smallInput name) =
      [(pointdataName, [(name, .array)]), (celldataName, [])] := rfl

/-- How the array of this file is stored. -/
def smallStorage : Storage Unit :=
  ⟨osFile [95, 4, 0, 0, 0, 1, 2, 3, 4], .none, .raw, .uint32, 1⟩

/-- This file says how its array is stored. -/
theorem isStorageOf_small (name : CString) :
    IsStorageOf (smallInput name) .imageData .root smallStorage where
  root_eq := rfl
  opened_eq := rfl
  codec_eq := rfl
  enc_eq := rfl
  headerType_eq := ⟨ascii "UInt32", rfl, Or.inl ⟨rfl, rfl⟩⟩
  appendedDataPos_eq := (by decide : 1 = ofI64 1)

/-- The theorem at the file with one array, of which the mesh element has an attribute `Origin`. -/
theorem metadata_shows_origin :
    ∃ tree, parseVtkFile compact zeroHeap standardDecoder (smallInput (cString "x" (by decide)))
        (cString "a.vti" (by decide)) () = .ok (tree, ()) ∧
      ∃ fh, fh.file = .stringBuf (ascii "0 0 0") ∧
        LeadsTo tree (some (filePath metadataName (cString "Origin" (by decide)))) (.file fh) := by
  obtain ⟨⟨tree, ⟨⟩⟩, htree⟩ := exists_tree_smallInput (cString "x" (by decide)) (by decide)
  obtain ⟨kind, hkind, hshows⟩ := metadata_shows _ _ _ _ _ _ _ _ htree
  rw [kindOf_small] at hkind
  obtain rfl := Option.some.inj hkind
  exact ⟨tree, htree,
    (hshows ⟨cString "Origin" (by decide), by decide, by decide⟩).1 (ascii "0 0 0") (by decide)⟩

/-- **The arrays of a VTK file.** For every file that the parser accepts and every array of a
section that is loaded: if its name has no separator, the file of this name in the directory of the
section is the map that `ParseAppendedArray` makes for the type and at the place which the last
values of the attributes of its elements give, under the compression, the encoding and the header
words of the file. -/
theorem arrays_load {E σ : Type} (thrift : Protocol) (heap : Heap) (dec : Decoder)
    (input : VtkInput E σ) (fname : CString) (s s' : σ) (tree : VtkTree)
    (h : parseVtkFile thrift heap dec input fname s = .ok (tree, s')) :
    ∃ kind root storage, kindOf fname = some kind ∧ IsStorageOf input kind.cls root storage ∧
      ∀ sec ∈ kind.arrays input, ∀ arr ∈ sec.2, separator ∉ arr.1.bytes →
        ∃ m fh, fh.file = .virtual m ∧
          LeadsTo tree (some (filePath sec.1 (arrayFileName arr.1))) (.file fh) ∧
          IsLoaded thrift heap dec storage arr.1.bytes
            (sec.2.attributes input.xml arr.1.bytes) m := by
  obtain ⟨kind, root, storage, subdirs, statbuf, hkind, hstorage, -, rfl, hloaded⟩ :=
    parseVtkFile_isLoadedTree h
  refine ⟨kind, root, storage, hkind, hstorage, fun sec hsec arr harr hsep => ?_⟩
  obtain ⟨m, hresolve, hm⟩ := resolve_array hloaded hsec (isPlain_of_mem_arrays hsec) harr hsep
  exact ⟨m, _, rfl, leadsTo_of_resolve hresolve, hm⟩

/-- The theorem at the file with one array. -/
theorem arrays_load_x :
    ∃ (tree : VtkTree) (storage : Storage Unit) (m : FileMap) (fh : FilePtr),
      parseVtkFile compact zeroHeap standardDecoder
        (smallInput (cString "x" (by decide))) (cString "a.vti" (by decide)) () = .ok (tree, ()) ∧
      fh.file = .virtual m ∧
      LeadsTo tree (some (filePath pointdataName (arrayFileName (cString "x" (by decide)))))
        (.file fh) ∧
      IsLoaded compact zeroHeap standardDecoder storage (ascii "x")
        (SmallElement.attributes (cString "x" (by decide)) .array) m := by
  obtain ⟨⟨tree, ⟨⟩⟩, htree⟩ := exists_tree_smallInput (cString "x" (by decide)) (by decide)
  obtain ⟨kind, -, storage, hkind, -, harrays⟩ := arrays_load _ _ _ _ _ _ _ _ htree
  rw [kindOf_small] at hkind
  obtain rfl := Option.some.inj hkind
  obtain ⟨m, fh, hfile, hleads, hloaded⟩ := harrays
    (pointdataName, [(cString "x" (by decide), .array)]) List.mem_cons_self
    (cString "x" (by decide), .array) List.mem_cons_self (by decide)
  exact ⟨tree, storage, m, fh, htree, hfile, hleads, hloaded⟩

end VirParquet.Verify
