import VirParquet.Verify.Appended
import VirParquet.Verify.Load
import VirParquet.Verify.Repeats

/-!
# Which VTK files are accepted

`ParseVtkFile` returns a tree exactly for the files that are well formed
(`parseVtkFile_accepts_iff`): those that the library reads, that say how their arrays are stored,
that have the elements which are asked for, and of which each array can be made a map. The order in
which the arrays of a section are parsed decides nothing: neither whether they are accepted nor what
is found in their directory (`parseArrayGroup_order`).
-/

namespace VirParquet.Verify

open VirParquet.Found VirParquet.Found.Thrift VirParquet.Found.Base64 VirParquet.Model
  VirParquet.Spec

/-! ## Elements -/

section elements

variable {E : Type} {xml : VtkXml E} {info : ArrayInfo}

/-- The loop over nested elements comes to its end exactly if all of them have names. -/
theorem extractNested_accepts_iff {elements : List E} :
    (∃ info', extractNested xml elements info = .ok info') ↔
      ∀ arr ∈ elements, ∃ name, xml.getAttribute arr (ascii "Name") = some name := by
  induction elements generalizing info with
  | nil =>
      simp only [List.not_mem_nil, false_imp_iff, implies_true, iff_true]
      exact ⟨info, rfl⟩
  | cons arr elements ih =>
      rw [List.forall_mem_cons]
      unfold extractNested
      simp only [exists_bind_eq_ok]
      constructor
      · rintro ⟨name, hname, attrs, -, hrest⟩
        exact ⟨⟨name, eq_some_of_deref hname⟩, ih.mp hrest⟩
      · rintro ⟨⟨name, hname⟩, hrest⟩
        exact ⟨name, by rw [hname]; rfl, _, rfl, ih.mpr hrest⟩

/-- `Points` or `Cells` can be read exactly if the arrays in it have names. -/
theorem extractInfo_accepts_iff {element : Bytes} {root : E} :
    (∃ info', extractInfo xml element root info = .ok info') ↔
      NestedAreNamed xml element root := by
  unfold extractInfo
  simp only [exists_bind_eq_ok, extractNested_accepts_iff]
  constructor
  · rintro ⟨parent, hparent, hnamed⟩
    exact ⟨parent, eq_some_of_deref hparent, hnamed⟩
  · rintro ⟨parent, hparent, hnamed⟩
    exact ⟨parent, by rw [hparent]; rfl, hnamed⟩

/-- The loop over the names of a reader comes to its end exactly if there are elements enough. -/
theorem extractNamed_accepts_iff {parent : Option E} {names : List CString} {i : ℕ} :
    (∃ info', extractNamed xml parent names i info = .ok info') ↔
      (names ≠ [] → ∃ element, parent = some element ∧
        i + names.length ≤ (xml.nestedElements element).length) := by
  induction names generalizing i info with
  | nil =>
      simp only [ne_eq, not_true_eq_false, false_imp_iff, iff_true]
      exact ⟨info, rfl⟩
  | cons name names ih =>
      unfold extractNamed
      simp only [exists_bind_eq_ok]
      constructor
      · rintro ⟨element, helement, attrs, hattrs, hrest⟩ -
        obtain rfl := eq_some_of_deref helement
        refine ⟨element, rfl, ?_⟩
        have hi : i < (xml.nestedElements element).length := by
          by_contra hge
          rw [List.getElem?_eq_none (not_lt.mp hge)] at hattrs
          cases hattrs
        have hrest := ih.mp hrest
        cases names with
        | nil => exact hi
        | cons name' names =>
            obtain ⟨element', heq, hle⟩ := hrest (List.cons_ne_nil _ _)
            obtain rfl := Option.some.inj heq
            rw [List.length_cons]
            omega
      · intro h
        obtain ⟨element, rfl, hle⟩ := h (List.cons_ne_nil _ _)
        rw [List.length_cons] at hle
        have hi : i < (xml.nestedElements element).length := by omega
        refine ⟨element, rfl, _, by rw [List.getElem?_eq_getElem hi]; rfl, ih.mpr fun _ => ?_⟩
        exact ⟨element, rfl, by omega⟩

/-- `PointData` and `CellData` can be read exactly if there is an element for each name. -/
theorem extractFieldArrayInfo_accepts_iff {reader : VtkReader E} {root : E} :
    (∃ infos, extractFieldArrayInfo xml reader root .empty .empty = .ok infos) ↔
      NamedAreNested xml (ascii "PointData") root reader.pointArrayNames ∧
        NamedAreNested xml (ascii "CellData") root reader.cellArrayNames := by
  have hnested : ∀ element names, NamedAreNested xml element root names ↔
      ∃ info', extractNamed xml (xml.lookupElementWithName root element) names 0 .empty =
        .ok info' := by
    intro element names
    rw [extractNamed_accepts_iff]
    simp only [Nat.zero_add]
    rfl
  rw [hnested, hnested]
  unfold extractFieldArrayInfo
  simp only [exists_bind_eq_ok]
  constructor
  · rintro ⟨point, hpoint, cell, hcell, -⟩
    exact ⟨⟨point, hpoint⟩, cell, hcell⟩
  · rintro ⟨⟨point, hpoint⟩, cell, hcell⟩
    exact ⟨point, hpoint, cell, hcell, _, rfl⟩

end elements

/-! ## Directories -/

section directories

variable {E σ : Type} {thrift : Protocol} {heap : Heap} {dec : Decoder} {storage : Storage σ}
  {xml : VtkXml E} {s : σ}

/-- **The map of an array** is made exactly for what the last values of its attributes say. -/
theorem parseVtkDataArray_iff_isLoaded {name : Bytes} {map : Attrs}
    {attrs : List (XmlName × CString)} (hattrs : ∀ key, map.find key = lastValue attrs key)
    {m : FileMap} :
    (∃ s₁ s₂, parseVtkDataArray thrift heap dec storage.base storage.codec storage.enc
      storage.headerType name map storage.appendedDataPos s₁ = .ok (m, s₂)) ↔
      IsLoaded thrift heap dec storage name attrs m := by
  constructor
  · rintro ⟨s₁, s₂, h⟩
    exact isLoaded_of_parseVtkDataArray hattrs h
  · rintro ⟨type, offset, s₁, s₂, ⟨⟨t, ht, htype⟩, hformat, text, htext, hoffset⟩, h⟩
    rw [← hattrs] at ht hformat htext
    refine ⟨s₁, s₂, ?_⟩
    rw [parseVtkDataArray, Exec.bind_of_eq_ok (StringMap.atKey_of_find ht),
      Exec.bind_of_eq_ok htype, Exec.bind_of_eq_ok (StringMap.atKey_of_find hformat), if_pos rfl,
      Exec.bind_of_eq_ok (StringMap.atKey_of_find htext), Exec.bind_of_eq_ok hoffset]
    exact h

/-- **A section is accepted** exactly if each of its arrays can be made a map of. -/
theorem parseArrayGroup_accepts_iff (h : Repeats storage.base) {arrInfo : ArrayInfo}
    {arrays : Arrays E} (hgathers : Gathers xml arrInfo arrays) :
    (∃ p, parseArrayGroup thrift heap dec storage.base storage.codec storage.enc
        storage.headerType arrInfo storage.appendedDataPos s = .ok p) ↔
      ∀ arr ∈ arrays, ∃ m,
        IsLoaded thrift heap dec storage arr.1.bytes (arrays.attributes xml arr.1.bytes) m := by
  have hitem : ∀ item ∈ arrInfo.items, ∀ m,
      (∃ s₁ s₂, parseVtkDataArray thrift heap dec storage.base storage.codec storage.enc
        storage.headerType item.1.bytes item.2 storage.appendedDataPos s₁ = .ok (m, s₂)) ↔
      IsLoaded thrift heap dec storage item.1.bytes (arrays.attributes xml item.1.bytes) m := by
    intro item hmem m
    apply parseVtkDataArray_iff_isLoaded
    intro key
    rw [← hgathers.value, attrValue, StringMap.find_of_mem_items hmem]
    rfl
  unfold parseArrayGroup
  rw [exists_bind_eq_ok]
  constructor
  · rintro ⟨p, hp, -⟩ arr harr
    have hall := (parseArrays_accepts_iff h).mp ⟨p, hp⟩
    obtain ⟨item, hmem, heq⟩ := StringMap.mem_keys_iff_items.mp
      ((hgathers.keys arr.1.bytes).mpr ⟨arr, harr, rfl⟩)
    obtain ⟨m, hm⟩ := hall item hmem
    rw [heq]
    exact ⟨m, (hitem item hmem m).mp hm⟩
  · intro hall
    have haccepts : ∀ item ∈ arrInfo.items, ∃ m s₁ s₂,
        parseVtkDataArray thrift heap dec storage.base storage.codec storage.enc
          storage.headerType item.1.bytes item.2 storage.appendedDataPos s₁ = .ok (m, s₂) := by
      intro item hmem
      obtain ⟨arr, harr, heq⟩ := (hgathers.keys item.1.bytes).mp
        (StringMap.mem_keys_iff_items.mpr ⟨item, hmem, rfl⟩)
      obtain ⟨m, hm⟩ := hall arr harr
      rw [← heq] at hm
      exact ⟨m, (hitem item hmem m).mpr hm⟩
    obtain ⟨p, hp⟩ := (parseArrays_accepts_iff h (s := s)).mpr haccepts
    exact ⟨p, hp, _, rfl⟩

/-- A section becomes a directory exactly if there is a map for each of its arrays. -/
theorem emplaceArrayGroup_accepts_iff (h : Repeats storage.base) {arrInfo : ArrayInfo}
    {arrays : Arrays E} (hgathers : Gathers xml arrInfo arrays) (name : CString)
    (subdirs : StringMap SubDir) (s : σ) :
    (∃ p, emplaceArrayGroup thrift heap dec storage.base storage.codec storage.enc
        storage.headerType name arrInfo storage.appendedDataPos subdirs s = .ok p) ↔
      ∀ arr ∈ arrays, ∃ m,
        IsLoaded thrift heap dec storage arr.1.bytes (arrays.attributes xml arr.1.bytes) m := by
  rw [← parseArrayGroup_accepts_iff h hgathers (s := s)]
  unfold emplaceArrayGroup
  rw [exists_bind_eq_ok]
  constructor
  · rintro ⟨p, hp, -⟩
    exact ⟨p, hp⟩
  · rintro ⟨p, hp⟩
    exact ⟨p, hp, _, rfl⟩

/-- A section that becomes a directory on a condition does so if there is a map for each of its
arrays. -/
theorem exists_emplaceArrayGroup_ite (h : Repeats storage.base) {load : Bool}
    {arrInfo : ArrayInfo} {arrays : Arrays E} (hgathers : load = true → Gathers xml arrInfo arrays)
    {name : CString}
    (harrays : ∀ sec ∈ if load then [(name, arrays)] else [], ∀ arr ∈ sec.2, ∃ m,
      IsLoaded thrift heap dec storage arr.1.bytes (sec.2.attributes xml arr.1.bytes) m)
    (subdirs : StringMap SubDir) (s : σ) :
    ∃ p, (if load then emplaceArrayGroup thrift heap dec storage.base storage.codec storage.enc
        storage.headerType name arrInfo storage.appendedDataPos subdirs s
      else .ok (subdirs, s) : Exec (StringMap SubDir × σ)) = .ok p := by
  cases load with
  | true =>
      exact (emplaceArrayGroup_accepts_iff h (hgathers rfl) name subdirs s).mpr
        (harrays _ (List.mem_singleton_self _))
  | false => exact ⟨_, rfl⟩

end directories

/-! ## Files -/

section files

variable {E σ : Type} {thrift : Protocol} {heap : Heap} {dec : Decoder} {input : VtkInput E σ}
  {kind : MeshKind} {root : E} {storage : Storage σ} {s : σ}

/-- A file that is accepted is well formed. -/
theorem isWellFormed_of_parseVtkFileInternal (hcls : createReader kind.meshType = .ok kind.cls)
    {tree : VtkTree} {s' : σ}
    (h : parseVtkFileInternal thrift heap dec input kind.meshType kind.loadPoints kind.loadCells s =
      .ok (tree, s')) :
    ∃ root storage, IsWellFormed thrift heap dec input kind root storage := by
  obtain ⟨root, storage, subdirs, statbuf, hstorage, hstat, -, hloaded⟩ :=
    parseVtkFileInternal_isLoadedTree hcls h
  rw [parseVtkFileInternal, Exec.bind_of_eq_ok hcls] at h
  dsimp only at h
  split at h
  next => cases h
  next hupdate =>
    obtain ⟨codec, -, h⟩ := Exec.of_bind_eq_ok h
    obtain ⟨root', hroot, h⟩ := Exec.of_bind_eq_ok h
    obtain ⟨enc, -, h⟩ := Exec.of_bind_eq_ok h
    obtain ⟨rootAttrs₁, -, h⟩ := Exec.of_bind_eq_ok h
    obtain ⟨headerType, -, h⟩ := Exec.of_bind_eq_ok h
    obtain ⟨rootAttrs, hrootAttrs, h⟩ := Exec.of_bind_eq_ok h
    obtain ⟨⟨pointArrInfo, cellArrInfo⟩, hfields, h⟩ := Exec.of_bind_eq_ok h
    obtain ⟨pointsInfo, hpoints, h⟩ := Exec.of_bind_eq_ok h
    obtain ⟨cellsInfo, hcells, -⟩ := Exec.of_bind_eq_ok h
    obtain rfl : root = root' :=
      Option.some.inj (hstorage.root_eq.symm.trans (eq_some_of_deref hroot))
    obtain ⟨hpointData, hcellData⟩ := extractFieldArrayInfo_accepts_iff.mp ⟨_, hfields⟩
    refine ⟨root, storage, by simpa using hupdate, hstorage, ⟨statbuf, hstat⟩,
      ⟨?_, hpointData, hcellData, ?_, ?_⟩, ?_⟩
    · obtain ⟨mesh, hmesh, -⟩ := Exec.of_bind_eq_ok hrootAttrs
      exact ⟨mesh, eq_some_of_deref hmesh⟩
    · intro hload
      rw [if_pos hload] at hpoints
      exact extractInfo_accepts_iff.mp ⟨_, hpoints⟩
    · intro hload
      rw [if_pos hload] at hcells
      exact extractInfo_accepts_iff.mp ⟨_, hcells⟩
    · intro sec hsec arr harr
      obtain ⟨dir, -, hholds⟩ := hloaded.arrays sec hsec
      obtain ⟨m, -, hm⟩ := hholds.maps arr harr
      exact ⟨m, hm⟩

/-- The header type that a root element names is parsed. -/
theorem parseHeaderType_of_isHeaderType {attrs : Attrs} {text : Bytes} {headerType : DataType}
    (htext : attrs.find (ascii "header_type") = some text) (htype : IsHeaderType text headerType) :
    parseHeaderType attrs = .ok headerType := by
  rw [parseHeaderType, Exec.bind_of_eq_ok (StringMap.atKey_of_find htext)]
  rcases htype with ⟨rfl, rfl⟩ | ⟨rfl, rfl⟩
  · rw [if_pos rfl]
  · rw [if_neg (by decide), if_pos rfl]

/-- A file that is well formed is accepted. -/
theorem parseVtkFileInternal_of_isWellFormed (hcls : createReader kind.meshType = .ok kind.cls)
    (hrepeats : Repeats storage.base)
    (h : IsWellFormed thrift heap dec input kind root storage) (s : σ) :
    ∃ p, parseVtkFileInternal thrift heap dec input kind.meshType kind.loadPoints kind.loadCells s =
      .ok p := by
  obtain ⟨hupdate, ⟨hroot, hopened, hcodec, henc, ⟨text, htext, htype⟩, hpos⟩, ⟨statbuf, hstat⟩,
    ⟨⟨mesh, hmesh⟩, hpointData, hcellData, hpoints, hcells⟩, harrays⟩ := h
  obtain ⟨rootAttrs₁, hrootAttrs₁⟩ : ∃ attrs, copyAttrs input.xml .empty (some root) = .ok attrs :=
    ⟨_, rfl⟩
  have hfirst : rootAttrs₁.find (ascii "header_type") = some text := by
    rw [find_of_copyAttrs hrootAttrs₁, StringMap.find_empty, Option.or_none, htext]
  obtain ⟨rootAttrs, hrootAttrs⟩ : ∃ attrs, copyAttrs input.xml rootAttrs₁
      (input.xml.findNestedElementWithName root kind.meshType) = .ok attrs := by
    rw [hmesh]
    exact ⟨_, rfl⟩
  obtain ⟨⟨pointArrInfo, cellArrInfo⟩, hfields⟩ :=
    extractFieldArrayInfo_accepts_iff.mpr ⟨hpointData, hcellData⟩
  obtain ⟨pointsInfo, hpointsInfo⟩ : ∃ info, (if kind.loadPoints then
      extractPointsInfo input.xml root .empty else .ok .empty : Exec ArrayInfo) = .ok info := by
    split_ifs with hload
    · exact extractInfo_accepts_iff.mpr (hpoints hload)
    · exact ⟨_, rfl⟩
  obtain ⟨cellsInfo, hcellsInfo⟩ : ∃ info, (if kind.loadCells then
      extractCellsInfo input.xml root .empty else .ok .empty : Exec ArrayInfo) = .ok info := by
    split_ifs with hload
    · exact extractInfo_accepts_iff.mpr (hcells hload)
    · exact ⟨_, rfl⟩
  obtain ⟨hgatherPoint, hgatherCell⟩ := gathers_of_extractFieldArrayInfo hfields
  rw [MeshKind.arrays, arraysOf, hroot] at harrays
  simp only [List.forall_mem_append, List.forall_mem_singleton] at harrays
  obtain ⟨⟨⟨harrays₁, harrays₂⟩, harrays₃⟩, harrays₄⟩ := harrays
  -- Each section is accepted, whatever state the one before it leaves.
  obtain ⟨⟨subdirs₁, s₁⟩, hgroup₁⟩ := (emplaceArrayGroup_accepts_iff hrepeats hgatherPoint
    pointdataName (StringMap.empty.emplace metadataName (.metadata ⟨rootAttrs⟩)) s).mpr harrays₁
  obtain ⟨⟨subdirs₂, s₂⟩, hgroup₂⟩ := exists_emplaceArrayGroup_ite hrepeats
    (fun hload => gathers_of_extractInfo (by rwa [if_pos hload] at hpointsInfo)) harrays₂
    subdirs₁ s₁
  obtain ⟨⟨subdirs₃, s₃⟩, hgroup₃⟩ := (emplaceArrayGroup_accepts_iff hrepeats hgatherCell
    celldataName subdirs₂ s₂).mpr harrays₃
  obtain ⟨⟨subdirs₄, s₄⟩, hgroup₄⟩ := exists_emplaceArrayGroup_ite hrepeats
    (fun hload => gathers_of_extractInfo (by rwa [if_pos hload] at hcellsInfo)) harrays₄
    subdirs₃ s₃
  have hfile : newOSFile input.opened input.stat = .ok (storage.base, statbuf) := by
    rw [hopened, hstat]
    rfl
  rw [hpos] at hgroup₁ hgroup₂ hgroup₃ hgroup₄
  refine ⟨(.new subdirs₄ statbuf, s₄), ?_⟩
  rw [parseVtkFileInternal, Exec.bind_of_eq_ok hcls]
  dsimp only
  rw [if_neg (by simp [hupdate]), Exec.bind_of_eq_ok hcodec, hroot,
    Exec.bind_of_eq_ok (show deref (some root) = .ok root from rfl), Exec.bind_of_eq_ok henc,
    Exec.bind_of_eq_ok hrootAttrs₁,
    Exec.bind_of_eq_ok (parseHeaderType_of_isHeaderType hfirst htype),
    Exec.bind_of_eq_ok hrootAttrs, Exec.bind_of_eq_ok hfields]
  dsimp only
  rw [Exec.bind_of_eq_ok hpointsInfo, Exec.bind_of_eq_ok hcellsInfo, Exec.bind_of_eq_ok hfile]
  dsimp only
  rw [Exec.bind_of_eq_ok hgroup₁]
  dsimp only
  rw [Exec.bind_of_eq_ok hgroup₂]
  dsimp only
  rw [Exec.bind_of_eq_ok hgroup₃]
  dsimp only
  rw [Exec.bind_of_eq_ok hgroup₄]

/-- **Which VTK files are accepted.** Over a base of which full reads repeat, a file is accepted,
from whatever state, exactly if its name says of which kind it is and it is well formed. -/
theorem parseVtkFile_accepts_iff {E σ : Type} (thrift : Protocol) (heap : Heap) (dec : Decoder)
    (input : VtkInput E σ) (hbase : ∀ base, input.opened = some base → Repeats base)
    (fname : CString) (s : σ) :
    (∃ tree s', parseVtkFile thrift heap dec input fname s = .ok (tree, s')) ↔
      ∃ kind root storage, kindOf fname = some kind ∧
        IsWellFormed thrift heap dec input kind root storage := by
  rcases hkind : kindOf fname with _ | kind
  · rw [parseVtkFile_of_kindOf_eq_none hkind]
    constructor
    · rintro ⟨tree, s', h⟩
      cases h
    · rintro ⟨kind, root, storage, h, -⟩
      cases h
  · obtain ⟨hcls, heq⟩ := @parseVtkFile_eq_of_kindOf E σ thrift heap dec input fname kind hkind s
    rw [heq]
    constructor
    · rintro ⟨tree, s', h⟩
      obtain ⟨root, storage, hwell⟩ := isWellFormed_of_parseVtkFileInternal hcls h
      exact ⟨kind, root, storage, rfl, hwell⟩
    · rintro ⟨kind', root, storage, h, hwell⟩
      obtain rfl := Option.some.inj h
      obtain ⟨p, hp⟩ := parseVtkFileInternal_of_isWellFormed hcls
        (hbase _ hwell.stored.opened_eq) hwell s
      exact ⟨p.1, p.2, hp⟩

/-- The file with one array is read completely. -/
theorem repeats_smallInput (name : CString) (base : RandomAccessFile Unit)
    (h : (smallInput name).opened = some base) : Repeats base := by
  obtain rfl := Option.some.inj h
  exact repeats_of_completeReads (osFile_preadLike _) (osFile_completeReads _)

/-- The theorem at the file with one array: it is well formed. -/
theorem parseVtkFile_accepts_iff_x :
    ∃ kind element storage, kindOf (cString "a.vti" (by decide)) = some kind ∧
      IsWellFormed compact zeroHeap standardDecoder (smallInput (cString "x" (by decide))) kind
        element storage := by
  obtain ⟨⟨tree, s'⟩, htree⟩ := exists_tree_smallInput (cString "x" (by decide)) (by decide)
  exact (parseVtkFile_accepts_iff compact zeroHeap standardDecoder _ (repeats_smallInput _) _ ()).mp
    ⟨tree, s', htree⟩

end files

/-! ## The order of arrays -/

section order

variable {σ : Type} (thrift : Protocol) {heap heap' : Heap} (dec : Decoder) (storage : Storage σ)

/-- The block sizes of an array with these attributes, if it is compressed and says where it is,
take fewer than `2 ^ 32` bytes. -/
def ArraySizesFit (attrs : Attrs) : Prop :=
  ∀ text offset, attrs.find (ascii "offset") = some text → atoll (cStr text) = .ok offset →
    storage.codec ≠ .none → SizesFitWord storage.headerType
      (newArrayHeaderReader dec storage.base (storage.place offset) (storage.enc == .base64))

variable {dec storage} in
/-- The headers of such an array are the same to two allocators that grant the same. -/
theorem sameHeadersOf_of_sizesFit (hbase : Repeats storage.base) (hheap : heap.SameGrants heap')
    {attrs : Attrs} (hfit : ArraySizesFit dec storage attrs) :
    SameHeadersOf heap heap' dec storage.base storage.codec storage.enc storage.headerType attrs
      storage.appendedDataPos :=
  fun text offset htext hoffset hcodec =>
    sameHeaders_of_sameGrants (repeats_newArrayHeaderReader hbase dec _ _) hheap
      (hfit text offset htext hoffset hcodec)

/-- **The order of arrays decides nothing.** Over a base of which full reads repeat, a section whose
arrays are iterated over in another order, from another state and with another allocator that grants
the same, is accepted or not alike, and the directories have the same maps under the same names. -/
theorem parseArrayGroup_order (hbase : Repeats storage.base) (hheap : heap.SameGrants heap')
    (arrInfo arrInfo' : ArrayInfo) (hperm : arrInfo.items.Perm arrInfo'.items)
    (hfit : ∀ arr ∈ arrInfo.items, ArraySizesFit dec storage arr.2) (s s' : σ) :
    ((∃ p, parseArrayGroup thrift heap dec storage.base storage.codec storage.enc
          storage.headerType arrInfo storage.appendedDataPos s = .ok p) ↔
        ∃ p, parseArrayGroup thrift heap' dec storage.base storage.codec storage.enc
          storage.headerType arrInfo' storage.appendedDataPos s' = .ok p) ∧
      ∀ dir dir' t t',
        parseArrayGroup thrift heap dec storage.base storage.codec storage.enc storage.headerType
          arrInfo storage.appendedDataPos s = .ok (dir, t) →
        parseArrayGroup thrift heap' dec storage.base storage.codec storage.enc storage.headerType
          arrInfo' storage.appendedDataPos s' = .ok (dir', t') →
        ∀ key, dir.arrMaps.find key = dir'.arrMaps.find key := by
  have hsame : ∀ arr ∈ arrInfo.items, ∀ t t', SameValue
      (parseVtkDataArray thrift heap dec storage.base storage.codec storage.enc
        storage.headerType arr.1.bytes arr.2 storage.appendedDataPos t)
      (parseVtkDataArray thrift heap' dec storage.base storage.codec storage.enc
        storage.headerType arr.1.bytes arr.2 storage.appendedDataPos t') :=
    fun arr harr => parseVtkDataArray_sameValue thrift dec hbase arr.1.bytes
      (sameHeadersOf_of_sizesFit hbase hheap (hfit arr harr))
  constructor
  · unfold parseArrayGroup
    simp only [exists_bind_eq_ok]
    have haccepts : (∃ p, parseArrays thrift heap dec storage.base storage.codec storage.enc
          storage.headerType storage.appendedDataPos arrInfo.items .empty s = .ok p) ↔
        ∃ p, parseArrays thrift heap' dec storage.base storage.codec storage.enc
          storage.headerType storage.appendedDataPos arrInfo'.items .empty s' = .ok p := by
      rw [parseArrays_accepts_iff hbase, parseArrays_accepts_iff hbase]
      simp only [← hperm.mem_iff]
      exact forall₂_congr fun arr harr => exists_congr fun m => exists_congr fun s₁ =>
        (hsame arr harr s₁ s₁).exists_eq_ok_iff m
    constructor
    · rintro ⟨p, hp, -⟩
      obtain ⟨p', hp'⟩ := haccepts.mp ⟨p, hp⟩
      exact ⟨p', hp', _, rfl⟩
    · rintro ⟨p', hp', -⟩
      obtain ⟨p, hp⟩ := haccepts.mpr ⟨p', hp'⟩
      exact ⟨p, hp, _, rfl⟩
  · intro dir dir' t t' h h' key
    obtain ⟨⟨maps, s₁⟩, hmaps, h⟩ := Exec.of_bind_eq_ok h
    obtain ⟨rfl, rfl⟩ := Prod.mk.inj (Except.ok.inj h)
    obtain ⟨⟨maps', s₁'⟩, hmaps', h'⟩ := Exec.of_bind_eq_ok h'
    obtain ⟨rfl, rfl⟩ := Prod.mk.inj (Except.ok.inj h')
    obtain ⟨-, hfind⟩ := parseArrays_find hmaps arrInfo.nodup_items
      fun arr _ => StringMap.notMem_keys_empty _
    obtain ⟨-, hfind'⟩ := parseArrays_find hmaps' arrInfo'.nodup_items
      fun arr _ => StringMap.notMem_keys_empty _
    by_cases hkey : ∃ arr ∈ arrInfo.items, key = (arrayFileName arr.1).bytes
    · obtain ⟨arr, harr, rfl⟩ := hkey
      obtain ⟨m, s₂, s₃, hm, hparse⟩ := hfind arr harr
      obtain ⟨m', s₂', s₃', hm', hparse'⟩ := hfind' arr (hperm.mem_iff.mp harr)
      -- The two maps of an array were made in different states, and with different allocators.
      obtain ⟨s₄, hparse⟩ := (hsame arr harr s₂ s₂').exists_eq_ok hparse
      obtain ⟨rfl, -⟩ := Prod.mk.inj (Except.ok.inj (hparse.symm.trans hparse'))
      exact hm.trans hm'.symm
    · have hnone : ∀ maps'' : StringMap FileMap, key ∉ maps''.keys → maps''.find key = none :=
        fun maps'' hnot =>
          Option.not_isSome_iff_eq_none.mp fun hsome => hnot (StringMap.find_isSome_iff.mp hsome)
      rw [hnone maps, hnone maps']
      · intro hmem
        rcases (parseArrays_keys hmaps' key).mp hmem with hmem | ⟨arr, harr, heq⟩
        · exact StringMap.notMem_keys_empty key hmem
        · exact hkey ⟨arr, hperm.mem_iff.mpr harr, heq⟩
      · intro hmem
        rcases (parseArrays_keys hmaps key).mp hmem with hmem | hmem
        · exact StringMap.notMem_keys_empty key hmem
        · exact hkey hmem

end order

/-- Where an array of one compressed block is stored. -/
def blockStorage : Storage Unit :=
  ⟨osFile [95, 1, 0, 0, 0, 4, 0, 0, 0, 4, 0, 0, 0, 4, 0, 0, 0, 1, 2, 3, 4], .zlib, .raw, .uint32, 1⟩

/-- What the memory is full of does not matter to what is granted. -/
theorem sameGrants_filledHeap (c c' : UInt8) : (filledHeap c).SameGrants (filledHeap c') := by
  intro n
  by_cases hn : n < 2 ^ 63
  · simp only [filledHeap, if_pos hn, Option.isSome_some]
  · simp only [filledHeap, if_neg hn]

/-- The map of this array is made for every short name. -/
theorem exists_isLoaded_block {name : CString} (hname : name.bytes.length < 2 ^ 30) :
    ∃ m, IsLoaded compact zeroHeap standardDecoder blockStorage name.bytes
      (SmallElement.attributes name .array) m := by
  have hdescribes : Describes (SmallElement.attributes name .array) .int32 0 :=
    ⟨⟨ascii "Int32", rfl, rfl⟩, rfl, ⟨ascii "0", rfl, rfl⟩⟩
  have hform : FormAt .raw .uint32 (CompressedArray.words ⟨1, 4, 4, [4], 16⟩) [1, 2, 3, 4] [95] []
      blockStorage.base :=
    ⟨Or.inl rfl, by decide, osFile_completeReads _⟩
  obtain ⟨s, hs⟩ := hform.parseCompressed standardDecoder_isStandard rfl (by decide) (by decide)
    (zeroHeap_grants (by decide : 8 < 2 ^ 63)) ()
  have hs' : parseCompressed zeroHeap (newArrayHeaderReader standardDecoder blockStorage.base
      (blockStorage.place 0) (blockStorage.enc == .base64)) blockStorage.headerType () =
        .ok (⟨1, 4, 4, [4], 16⟩, s) := hs
  have htables : Tables .int32 4 .int32 (some .int32) := ⟨rfl, rfl, rfl⟩
  have hfits : ∀ b ∈ compressedBlks ⟨1, 4, 4, [4], 17⟩, b.Fits :=
    fun b hb => fits_of_mem_compressedBlks hb
  have hshort := Layout.length_footerBytes_lt ⟨compact, 4⟩ ⟨name.bytes, .int32, some .int32, .gzip⟩
    hname hfits (by decide)
  obtain ⟨m, hm, -⟩ := @buildMapCompressed_of_lt compact name.bytes .int32 .zlib 4 .int32
    (some .int32) .gzip false htables ⟨1, 4, 4, [4], 17⟩ rfl rfl (by decide) (by decide) hshort
  refine ⟨m, .int32, 0, (), s, hdescribes, ?_⟩
  rw [parseAppendedArray, if_neg (by decide), Exec.bind_of_eq_ok hs']
  exact Exec.bind_of_eq_ok hm _

/-- The attributes of this array, as they are gathered. -/
def smallAttrs (name : CString) : Attrs :=
  (SmallElement.attributes name .array).foldl
    (fun des attr => des.assign attr.1.toCString attr.2.bytes) .empty

/-- The size of its block takes four bytes. -/
theorem arraySizesFit_block (name : CString) :
    ArraySizesFit standardDecoder blockStorage (smallAttrs name) := by
  intro text offset htext hoffset hcodec h32 s d hd
  obtain rfl : ascii "0" = text := Option.some.inj (Eq.trans rfl htext)
  obtain rfl : 0 = offset := Except.ok.inj (Eq.trans rfl hoffset)
  obtain rfl : [1, 0, 0, 0, 4, 0, 0, 0, 4, 0, 0, 0] = d := Option.some.inj (Eq.trans rfl hd)
  decide

/-- The theorem at two arrays of one compressed block, which are accepted in both orders. -/
theorem parseArrayGroup_order_xy :
    let x := cString "x" (by decide)
    let y := cString "y" (by decide)
    ∃ dir dir',
      parseArrayGroup compact zeroHeap standardDecoder blockStorage.base .zlib .raw .uint32
        ((StringMap.empty.assign x (smallAttrs x)).assign y (smallAttrs y)) 1 () =
          .ok (dir, ()) ∧
      parseArrayGroup compact (filledHeap 255) standardDecoder blockStorage.base .zlib .raw .uint32
        ((StringMap.empty.assign y (smallAttrs y)).assign x (smallAttrs x)) 1 () =
          .ok (dir', ()) ∧
      ∀ key, dir.arrMaps.find key = dir'.arrMaps.find key := by
  intro x y
  have hrepeats : Repeats blockStorage.base :=
    repeats_of_completeReads (osFile_preadLike _) (osFile_completeReads _)
  have hone : ∀ name : CString, name.bytes.length < 2 ^ 30 → ∃ m s₁ s₂,
      parseVtkDataArray compact zeroHeap standardDecoder blockStorage.base .zlib .raw .uint32
        name.bytes (smallAttrs name) 1 s₁ = .ok (m, s₂) := by
    intro name hname
    obtain ⟨m, hm⟩ := exists_isLoaded_block hname
    refine ⟨m, (parseVtkDataArray_iff_isLoaded fun key => ?_).mpr hm⟩
    have hcopy : copyAttrs (smallInput name).xml .empty (some .array) = .ok (smallAttrs name) := rfl
    rw [find_of_copyAttrs hcopy, StringMap.find_empty, Option.or_none]
    rfl
  have hperm : ((StringMap.empty.assign x (smallAttrs x)).assign y (smallAttrs y)).items.Perm
      ((StringMap.empty.assign y (smallAttrs y)).assign x (smallAttrs x)).items :=
    List.Perm.swap (x, smallAttrs x) (y, smallAttrs y) []
  have hfit : ∀ arr ∈ ((StringMap.empty.assign x (smallAttrs x)).assign y (smallAttrs y)).items,
      ArraySizesFit standardDecoder blockStorage arr.2 := by
    rintro arr (_ | ⟨_, _ | ⟨_, ⟨⟩⟩⟩)
    · exact arraySizesFit_block y
    · exact arraySizesFit_block x
  obtain ⟨haccepts, hfind⟩ := parseArrayGroup_order compact standardDecoder blockStorage hrepeats
    (sameGrants_filledHeap 0 255) _ _ hperm hfit () ()
  have haccepted : ∃ p, parseArrays compact zeroHeap standardDecoder blockStorage.base .zlib .raw
      .uint32 1 [(y, smallAttrs y), (x, smallAttrs x)] .empty () = .ok p := by
    apply (parseArrays_accepts_iff hrepeats).mpr
    rintro arr (_ | ⟨_, _ | ⟨_, ⟨⟩⟩⟩)
    · exact hone y (by decide)
    · exact hone x (by decide)
  obtain ⟨⟨maps, ⟨⟩⟩, hmaps⟩ := haccepted
  have hdir := Exec.bind_of_eq_ok hmaps fun p => .ok ((⟨p.1⟩ : ArrayDir), p.2)
  obtain ⟨⟨dir', ⟨⟩⟩, hdir'⟩ := haccepts.mp ⟨(⟨maps⟩, ()), hdir⟩
  exact ⟨⟨maps⟩, dir', hdir, hdir', hfind _ _ _ _ hdir hdir'⟩

end VirParquet.Verify
