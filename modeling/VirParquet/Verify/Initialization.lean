import VirParquet.Verify.Completeness
import VirParquet.Verify.Pages
import VirParquet.Model.Session

/-!
# Files that cannot crash the parser

`vtk_init_tree_int` catches exceptions, so a file that the parser does not understand ends the
program in good order. Null pointers and signed overflows are not caught. `IsHarmless` says what
keeps a VTK file from them: no element that is looked up is missing, the offsets of its arrays are
numbers, and its headers count no fewer and no more blocks than the loops can count. Everything
else, whatever the file holds and whatever the allocator refuses, is an exception
(`vtkInitTree_returns`).

Each function of the parser has one lemma, which says under which condition it stops at exceptions
only.
-/

namespace VirParquet.Verify

open VirParquet.Found VirParquet.Found.Thrift VirParquet.Found.Base64 VirParquet.Model
  VirParquet.Spec

/-! ## Harmless files -/

/-- An exception, which a caller may catch. -/
def IsThrown (f : Fault) : Prop := ∃ what, f = .thrown what

/-- A number of blocks that the loops can count. That over 32-bit sizes has the last block, too. -/
structure Countable (headerType : DataType) (n : ℕ) : Prop where
  pos : 1 ≤ n
  le : n ≤ 2 ^ 31
  lt : headerType = .uint32 → n < 2 ^ 31

section harmless

variable {E σ : Type}

/-- The header of an array, if it can be read, counts as many blocks as the loops can count. -/
structure HeaderInRange (codec : CompressionType) (headerType : DataType)
    (view : RandomAccessFile σ) : Prop where
  uncompressed : codec = .none → ∀ s d, fullRead view (wordSize headerType) 0 s = some d →
    1 ≤ wordAt (wordSize headerType) 0 d ∧ wordAt (wordSize headerType) 0 d ≤ 2 ^ 46
  compressed : codec ≠ .none → ∀ s d, fullRead view (3 * wordSize headerType) 0 s = some d →
    Countable headerType (wordAt (wordSize headerType) 0 d)

/-- The offset of an array, if it has one, is a number, and the header there is in range. -/
def ArrayInRange (dec : Decoder) (storage : Storage σ) (attrs : List (XmlName × CString)) : Prop :=
  ∀ text, lastValue attrs (ascii "offset") = some text →
    ∃ offset, atoll (cStr text) = .ok offset ∧
      HeaderInRange storage.codec storage.headerType
        (newArrayHeaderReader dec storage.base (storage.place offset) (storage.enc == .base64))

/-- A VTK file of a kind without anything that is undefined behaviour to the parser. -/
structure IsHarmless (dec : Decoder) (input : VtkInput E σ) (kind : MeshKind) : Prop where
  elements : ∃ root, (input.reader kind.cls).rootElement = some root ∧
    (∀ app, input.xml.findNestedElementWithName root (ascii "AppendedData") = some app →
      ∃ encoding, input.xml.getAttribute app (ascii "encoding") = some encoding) ∧
    HasElements input kind root
  arrays : ∀ root storage, IsStorageOf input kind.cls root storage →
    ∀ sec ∈ kind.arrays input, ∀ arr ∈ sec.2,
      ArrayInRange dec storage (sec.2.attributes input.xml arr.1.bytes)

end harmless

/-! ## Headers -/

section headers

variable {σ : Type} {heap : Heap} {file : RandomAccessFile σ} {what : String} {size offset : ℕ}
  {s : σ}

/-- A pointer that is not null can be followed. -/
theorem deref_failsOnly {α : Type} {x : Option α} (h : ∃ a, x = some a) :
    FailsOnly IsThrown (deref x) := by
  obtain ⟨a, rfl⟩ := h
  exact FailsOnly.of_eq_ok rfl

/-- A look-up throws at worst. -/
theorem atKey_failsOnly {α : Type} (map : StringMap α) (key : Bytes) :
    FailsOnly IsThrown (map.atKey key) := by
  rcases h : map.find key with _ | x
  · exact FailsOnly.of_eq_error (by rw [StringMap.atKey, h]) ⟨_, rfl⟩
  · exact FailsOnly.of_eq_ok (StringMap.atKey_of_find h)

/-- A read of a header throws at worst. -/
theorem readExactly_failsOnly : FailsOnly IsThrown (readExactly file what size offset s) := by
  rw [readExactly]
  split
  · split_ifs
    · exact FailsOnly.of_eq_ok rfl
    · exact FailsOnly.of_eq_error rfl ⟨_, rfl⟩
  · exact FailsOnly.of_eq_error rfl ⟨_, rfl⟩

/-- An allocation throws at worst. -/
theorem newArray_failsOnly (heap : Heap) (w n : ℕ) : FailsOnly IsThrown (heap.newArray w n) := by
  rw [Heap.newArray]
  split
  · exact FailsOnly.of_eq_ok rfl
  · exact FailsOnly.of_eq_error rfl ⟨_, rfl⟩

/-- The parser of a header of 64-bit words throws at worst. -/
theorem parseCompressed64_failsOnly :
    FailsOnly IsThrown (parseCompressed64 heap file offset s) := by
  apply readExactly_failsOnly.bind
  rintro ⟨info, s₁⟩ -
  apply (newArray_failsOnly heap 8 _).bind
  rintro cells -
  apply readExactly_failsOnly.bind
  rintro ⟨sizes, s₂⟩ -
  exact FailsOnly.of_eq_ok rfl

/-- The parser of a header of 32-bit words throws at worst if the loop can count the block sizes. -/
theorem parseCompressed32_failsOnly
    (h : ∀ d, fullRead file 12 offset s = some d → wordAt 4 0 d < 2 ^ 31) :
    FailsOnly IsThrown (parseCompressed32 heap file offset s) := by
  apply readExactly_failsOnly.bind
  rintro ⟨info, s₁⟩ hinfo
  have hlt := h info (fullRead_of_readExactly hinfo)
  apply (newArray_failsOnly heap 4 _).bind
  rintro cells -
  apply readExactly_failsOnly.bind
  rintro ⟨sizes, s₂⟩ -
  apply (newArray_failsOnly heap 8 _).bind
  rintro cells64 -
  have hlength : (leWords 4 (wordAt 4 0 info) (fill cells sizes)).length = wordAt 4 0 info :=
    length_leWords _ _ _
  have hcopy := @countUp_copyCell (leWords 4 (wordAt 4 0 info) (fill cells sizes))
    (leWords 8 (wordAt 4 0 info) cells64) (by rwa [hlength])
    ((length_leWords _ _ _).trans hlength.symm)
  rw [hlength] at hcopy
  refine (FailsOnly.of_eq_ok hcopy).bind ?_
  rintro sizes64 -
  exact FailsOnly.of_eq_ok rfl

variable {headerType : DataType}

/-- The parser of an uncompressed array's header throws at worst. -/
theorem parseUncompressed_failsOnly :
    FailsOnly IsThrown (parseUncompressed file headerType s) := by
  rw [parseUncompressed]
  split_ifs
  · apply readExactly_failsOnly.bind
    rintro ⟨bytes, s₁⟩ -
    exact FailsOnly.of_eq_ok rfl
  · apply readExactly_failsOnly.bind
    rintro ⟨bytes, s₁⟩ -
    exact FailsOnly.of_eq_ok rfl

/-- The parser of a compressed array's header throws at worst if the loop can count the blocks. -/
theorem parseCompressed_failsOnly
    (h : ∀ d, fullRead file (3 * wordSize headerType) 0 s = some d →
      Countable headerType (wordAt (wordSize headerType) 0 d)) :
    FailsOnly IsThrown (parseCompressed heap file headerType s) := by
  rw [parseCompressed]
  split_ifs with h32
  · subst h32
    exact parseCompressed32_failsOnly fun d hd => (h d hd).lt rfl
  · exact parseCompressed64_failsOnly

/-- The number of bytes is the word of the header. -/
theorem totalBytes_of_parseUncompressed {arr : UncompressedArray} {s' : σ}
    (h : parseUncompressed file headerType s = .ok (arr, s')) :
    ∃ d, fullRead file (wordSize headerType) 0 s = some d ∧
      arr.totalBytes = wordAt (wordSize headerType) 0 d := by
  rw [parseUncompressed] at h
  unfold wordSize
  split_ifs at h ⊢ with h32
  · obtain ⟨⟨d, s₁⟩, hd, h⟩ := Exec.of_bind_eq_ok h
    cases h
    exact ⟨d, fullRead_of_readExactly hd, rfl⟩
  · obtain ⟨⟨d, s₁⟩, hd, h⟩ := Exec.of_bind_eq_ok h
    cases h
    exact ⟨d, fullRead_of_readExactly hd, rfl⟩

/-- The number of blocks is the first word of the header. -/
theorem numBlks_of_parseCompressed {arr : CompressedArray} {s' : σ}
    (h : parseCompressed heap file headerType s = .ok (arr, s')) :
    ∃ d, fullRead file (3 * wordSize headerType) 0 s = some d ∧
      arr.numBlks = wordAt (wordSize headerType) 0 d := by
  rw [parseCompressed] at h
  unfold wordSize
  split_ifs at h ⊢ with h32
  · obtain ⟨⟨d, s₁⟩, hd, h⟩ := Exec.of_bind_eq_ok h
    obtain ⟨cells, -, h⟩ := Exec.of_bind_eq_ok h
    obtain ⟨⟨sizes, s₂⟩, -, h⟩ := Exec.of_bind_eq_ok h
    obtain ⟨cells64, -, h⟩ := Exec.of_bind_eq_ok h
    obtain ⟨sizes64, -, h⟩ := Exec.of_bind_eq_ok h
    cases h
    exact ⟨d, fullRead_of_readExactly hd, rfl⟩
  · obtain ⟨⟨d, s₁⟩, hd, h⟩ := Exec.of_bind_eq_ok h
    obtain ⟨cells, -, h⟩ := Exec.of_bind_eq_ok h
    obtain ⟨⟨sizes, s₂⟩, -, h⟩ := Exec.of_bind_eq_ok h
    cases h
    exact ⟨d, fullRead_of_readExactly hd, rfl⟩

end headers

/-! ## Maps -/

section maps

variable {thrift : Protocol} {name : Bytes} {type : DataType} {codec : CompressionType}
  {base64 : Bool}

/-- `BuildMap` throws at worst if the blocks of a compressed array can be counted. -/
theorem buildMapCompressed_failsOnly {arr : CompressedArray}
    (hlen : arr.compressedBlkSz.length = arr.numBlks) (hpos : 1 ≤ arr.numBlks)
    (hmax : arr.numBlks ≤ 2 ^ 31) :
    FailsOnly IsThrown (buildMapCompressed thrift name type codec base64 arr) := by
  by_cases htype : type = .unknown
  · subst htype
    exact FailsOnly.of_eq_error rfl ⟨_, rfl⟩
  · by_cases hcodec : codec = .unknownCompression
    · subst hcodec
      exact FailsOnly.of_eq_error (buildMapCompressed_unknownCompression htype hlen hpos hmax)
        ⟨_, rfl⟩
    · obtain ⟨valueSize, physical, converted, htables⟩ := exists_tables htype
      obtain ⟨c, hc⟩ := exists_codec hcodec
      rcases Nat.lt_or_ge (Layout.footerBytes ⟨thrift, valueSize⟩
        ⟨name, physical, converted, c⟩ (compressedBlks arr)).length (2 ^ 32) with hshort | hlong
      · obtain ⟨m, hm, -⟩ := @buildMapCompressed_of_lt thrift name type codec valueSize physical
          converted c base64 htables arr hc hlen hpos hmax hshort
        exact FailsOnly.of_eq_ok hm
      · exact FailsOnly.of_eq_error (buildMapCompressed_of_le htables hc hlen hpos hmax hlong)
          ⟨_, rfl⟩

/-- `BuildMap` throws at worst if the blocks of an uncompressed array can be counted. -/
theorem buildMapUncompressed_failsOnly {arr : UncompressedArray} (hpos : 1 ≤ arr.totalBytes)
    (hmax : arr.totalBytes ≤ 2 ^ 46) :
    FailsOnly IsThrown (buildMapUncompressed thrift name type base64 arr) := by
  by_cases htype : type = .unknown
  · subst htype
    exact FailsOnly.of_eq_error rfl ⟨_, rfl⟩
  · have hnum : arr.numBlks = (arr.totalBytes + 32767) / 32768 := numBlks_eq (by omega)
    have hblksPos : 1 ≤ arr.numBlks := by omega
    have hblksMax : arr.numBlks ≤ 2 ^ 31 := by omega
    obtain ⟨valueSize, physical, converted, htables⟩ := exists_tables htype
    rcases Nat.lt_or_ge (Layout.footerBytes ⟨thrift, valueSize⟩
      ⟨name, physical, converted, .uncompressed⟩ (uncompressedBlks arr)).length (2 ^ 32)
      with hshort | hlong
    · obtain ⟨m, hm, -⟩ := @buildMapUncompressed_of_lt thrift name type valueSize physical converted
        base64 htables arr hblksPos hblksMax hshort
      exact FailsOnly.of_eq_ok hm
    · exact FailsOnly.of_eq_error (buildMapUncompressed_of_le htables hblksPos hblksMax hlong)
        ⟨_, rfl⟩

end maps

/-! ## Arrays -/

section arrays

variable {E σ : Type} {thrift : Protocol} {heap : Heap} {dec : Decoder} {storage : Storage σ}
  {xml : VtkXml E} {name : Bytes} {type : DataType} {s : σ}

/-- `ParseAppendedArray` throws at worst if the header of the array is in range. -/
theorem parseAppendedArray_failsOnly {offset : ℕ}
    (h : HeaderInRange storage.codec storage.headerType
      (newArrayHeaderReader dec storage.base offset (storage.enc == .base64))) :
    FailsOnly IsThrown (parseAppendedArray thrift heap dec storage.base name type storage.codec
      storage.enc storage.headerType offset s) := by
  rw [parseAppendedArray]
  split_ifs with hcodec
  · apply parseUncompressed_failsOnly.bind
    rintro ⟨arr, s₁⟩ harr
    obtain ⟨d, hd, htotal⟩ := totalBytes_of_parseUncompressed harr
    obtain ⟨hpos, hmax⟩ := h.uncompressed hcodec s d hd
    rw [← htotal] at hpos hmax
    refine FailsOnly.bind (buildMapUncompressed_failsOnly ?_ ?_) ?_
    · exact hpos
    · exact hmax
    · rintro map -
      exact FailsOnly.of_eq_ok rfl
  · apply (parseCompressed_failsOnly fun d hd => h.compressed hcodec s d hd).bind
    rintro ⟨arr, s₁⟩ harr
    obtain ⟨d, hd, hnum⟩ := numBlks_of_parseCompressed harr
    obtain ⟨hpos, hmax, -⟩ := h.compressed hcodec s d hd
    rw [← hnum] at hpos hmax
    obtain ⟨hlen, -⟩ := length_compressedBlkSz harr
    refine FailsOnly.bind (buildMapCompressed_failsOnly ?_ ?_ ?_) ?_
    · exact hlen
    · exact hpos
    · exact hmax
    · rintro map -
      exact FailsOnly.of_eq_ok rfl

/-- A text that names no type is an exception. -/
theorem parseDataType_failsOnly (t : Bytes) : FailsOnly IsThrown (parseDataType t) := by
  rw [parseDataType]
  split_ifs
  all_goals first
    | exact FailsOnly.of_eq_ok rfl
    | exact FailsOnly.of_eq_error rfl ⟨_, rfl⟩

/-- `ParseVtkDataArray` throws at worst if the array is in range. -/
theorem parseVtkDataArray_failsOnly {map : Attrs} {attrs : List (XmlName × CString)}
    (hattrs : ∀ key, map.find key = lastValue attrs key) (h : ArrayInRange dec storage attrs) :
    FailsOnly IsThrown (parseVtkDataArray thrift heap dec storage.base storage.codec storage.enc
      storage.headerType name map storage.appendedDataPos s) := by
  rw [parseVtkDataArray]
  apply (atKey_failsOnly map _).bind
  rintro t -
  apply (parseDataType_failsOnly t).bind
  rintro type -
  apply (atKey_failsOnly map _).bind
  rintro format -
  split_ifs
  · apply (atKey_failsOnly map _).bind
    intro text htext
    have hvalue := StringMap.find_of_atKey htext
    rw [hattrs] at hvalue
    obtain ⟨offset, hoffset, hrange⟩ := h text hvalue
    refine (FailsOnly.of_eq_ok hoffset).bind ?_
    intro n hn
    obtain rfl := Except.ok.inj (hoffset.symm.trans hn)
    exact parseAppendedArray_failsOnly hrange
  · exact FailsOnly.of_eq_error rfl ⟨_, rfl⟩

/-- The loop over the arrays of a section throws at worst if each turn does. -/
theorem parseArrays_failsOnly {arrs : List (CString × Attrs)} {maps : StringMap FileMap}
    (h : ∀ arr ∈ arrs, ∀ s, FailsOnly IsThrown (parseVtkDataArray thrift heap dec storage.base
      storage.codec storage.enc storage.headerType arr.1.bytes arr.2 storage.appendedDataPos s)) :
    FailsOnly IsThrown (parseArrays thrift heap dec storage.base storage.codec storage.enc
      storage.headerType storage.appendedDataPos arrs maps s) := by
  induction arrs generalizing maps s with
  | nil => exact FailsOnly.of_eq_ok rfl
  | cons arr arrs ih =>
      obtain ⟨name, info⟩ := arr
      rw [parseArrays]
      apply (h _ List.mem_cons_self s).bind
      rintro ⟨map, s₁⟩ -
      exact ih fun arr harr => h arr (List.mem_cons_of_mem _ harr)

/-- **A section of arrays in range** becomes a directory, or the parser throws. -/
theorem emplaceArrayGroup_failsOnly {arrInfo : ArrayInfo} {arrays : Arrays E}
    (hgathers : Gathers xml arrInfo arrays)
    (h : ∀ arr ∈ arrays, ArrayInRange dec storage (arrays.attributes xml arr.1.bytes))
    {group : CString} {subdirs : StringMap SubDir} :
    FailsOnly IsThrown (emplaceArrayGroup thrift heap dec storage.base storage.codec storage.enc
      storage.headerType group arrInfo storage.appendedDataPos subdirs s) := by
  have harrays : ∀ item ∈ arrInfo.items, ∀ s, FailsOnly IsThrown (parseVtkDataArray thrift heap dec
      storage.base storage.codec storage.enc storage.headerType item.1.bytes item.2
      storage.appendedDataPos s) := by
    intro item hmem s
    obtain ⟨arr, harr, heq⟩ := (hgathers.keys item.1.bytes).mp
      (StringMap.mem_keys_iff_items.mpr ⟨item, hmem, rfl⟩)
    have hattrs : ∀ key, item.2.find key =
        lastValue (arrays.attributes xml item.1.bytes) key := by
      intro key
      rw [← hgathers.value, attrValue, StringMap.find_of_mem_items hmem]
      rfl
    rw [heq] at hattrs
    exact parseVtkDataArray_failsOnly hattrs (h arr harr)
  unfold emplaceArrayGroup parseArrayGroup
  refine FailsOnly.bind ?_ ?_
  · apply (parseArrays_failsOnly harrays).bind
    rintro ⟨maps, s₁⟩ -
    exact FailsOnly.of_eq_ok rfl
  · rintro ⟨dir, s₁⟩ -
    exact FailsOnly.of_eq_ok rfl

/-- A section of arrays in range that becomes a directory on a condition makes the parser throw at
worst. -/
theorem emplaceArrayGroup_ite_failsOnly {load : Bool} {arrInfo : ArrayInfo} {arrays : Arrays E}
    (hgathers : load = true → Gathers xml arrInfo arrays) {group : CString}
    (h : ∀ sec ∈ if load then [(group, arrays)] else [], ∀ arr ∈ sec.2,
      ArrayInRange dec storage (sec.2.attributes xml arr.1.bytes))
    {subdirs : StringMap SubDir} :
    FailsOnly IsThrown (if load then emplaceArrayGroup thrift heap dec storage.base storage.codec
        storage.enc storage.headerType group arrInfo storage.appendedDataPos subdirs s
      else .ok (subdirs, s) : Exec (StringMap SubDir × σ)) := by
  cases load with
  | true => exact emplaceArrayGroup_failsOnly (hgathers rfl) (h _ (List.mem_singleton_self _))
  | false => exact FailsOnly.of_eq_ok rfl

end arrays

/-! ## Files -/

section files

variable {E σ : Type} {thrift : Protocol} {heap : Heap} {dec : Decoder} {input : VtkInput E σ}
  {xml : VtkXml E} {kind : MeshKind} {s : σ}

/-- A compressor that is not known is an exception. -/
theorem identifyCompressionType_failsOnly (compr : Option VtkCompressor) :
    FailsOnly IsThrown (identifyCompressionType compr) := by
  cases compr with
  | none => exact FailsOnly.of_eq_ok rfl
  | some compr =>
      rw [identifyCompressionType]
      split_ifs
      · exact FailsOnly.of_eq_ok rfl
      · exact FailsOnly.of_eq_ok rfl
      · exact FailsOnly.of_eq_error rfl ⟨_, rfl⟩

/-- Appended data that says how it is encoded makes the parser throw at worst. -/
theorem parseEncodingType_failsOnly {app : Option E}
    (h : ∀ e, app = some e → ∃ encoding, xml.getAttribute e (ascii "encoding") = some encoding) :
    FailsOnly IsThrown (parseEncodingType xml app) := by
  cases app with
  | none => exact FailsOnly.of_eq_ok rfl
  | some e =>
      apply (deref_failsOnly (h e rfl)).bind
      rintro encoding -
      exact FailsOnly.of_eq_ok rfl

/-- The attributes of an element that is there are copied. -/
theorem copyAttrs_failsOnly {src : Option E} (h : ∃ e, src = some e) (des : Attrs) :
    FailsOnly IsThrown (copyAttrs xml des src) := by
  apply (deref_failsOnly h).bind
  rintro e -
  exact FailsOnly.of_eq_ok rfl

/-- A header type that is missing or unknown is an exception. -/
theorem parseHeaderType_failsOnly (map : Attrs) : FailsOnly IsThrown (parseHeaderType map) := by
  apply (atKey_failsOnly map _).bind
  rintro t -
  split_ifs
  · exact FailsOnly.of_eq_ok rfl
  · exact FailsOnly.of_eq_ok rfl
  · exact FailsOnly.of_eq_error rfl ⟨_, rfl⟩

/-- A file that cannot be opened is an exception. -/
theorem newOSFile_failsOnly (opened : Option (RandomAccessFile σ)) (stat : Option StatBuf) :
    FailsOnly IsThrown (newOSFile opened stat) := by
  cases opened with
  | none => exact FailsOnly.of_eq_error rfl ⟨_, rfl⟩
  | some file =>
      cases stat with
      | none => exact FailsOnly.of_eq_error rfl ⟨_, rfl⟩
      | some statbuf => exact FailsOnly.of_eq_ok rfl

/-- `Points` or `Cells`, which is read on a condition, makes the parser throw at worst. -/
theorem extractInfo_ite_failsOnly {load : Bool} {element : Bytes} {root : E}
    (h : load = true → NestedAreNamed xml element root) :
    FailsOnly IsThrown
      (if load then extractInfo xml element root .empty else .ok .empty : Exec ArrayInfo) := by
  cases load with
  | true =>
      obtain ⟨info, hinfo⟩ := extractInfo_accepts_iff.mpr (h rfl)
      exact FailsOnly.of_eq_ok hinfo
  | false => exact FailsOnly.of_eq_ok rfl

/-- **A harmless file** makes the parser throw at worst. -/
theorem parseVtkFileInternal_failsOnly (hcls : createReader kind.meshType = .ok kind.cls)
    (h : (input.reader kind.cls).updateInformation = true → IsHarmless dec input kind) :
    FailsOnly IsThrown (parseVtkFileInternal thrift heap dec input kind.meshType kind.loadPoints
      kind.loadCells s) := by
  rw [parseVtkFileInternal, Exec.bind_of_eq_ok hcls]
  dsimp only
  split
  next => exact FailsOnly.of_eq_error rfl ⟨_, rfl⟩
  next hupdate =>
    obtain ⟨⟨root, hroot, hencoding, helements⟩, harrays⟩ := h (by simpa using hupdate)
    obtain ⟨hmesh, hpointData, hcellData, hpoints, hcells⟩ := helements
    apply (identifyCompressionType_failsOnly _).bind
    intro codec hcodec
    apply (deref_failsOnly ⟨root, hroot⟩).bind
    intro root' hroot'
    obtain rfl := Option.some.inj ((eq_some_of_deref hroot').symm.trans hroot)
    apply (parseEncodingType_failsOnly hencoding).bind
    intro enc henc
    apply (copyAttrs_failsOnly ⟨_, rfl⟩ _).bind
    intro rootAttrs₁ hrootAttrs₁
    apply (parseHeaderType_failsOnly rootAttrs₁).bind
    intro headerType hheaderType
    apply (copyAttrs_failsOnly hmesh _).bind
    rintro rootAttrs -
    obtain ⟨infos, hinfos⟩ := extractFieldArrayInfo_accepts_iff.mpr ⟨hpointData, hcellData⟩
    refine (FailsOnly.of_eq_ok hinfos).bind ?_
    rintro ⟨pointArrInfo, cellArrInfo⟩ hfields
    obtain ⟨hgatherPoint, hgatherCell⟩ := gathers_of_extractFieldArrayInfo hfields
    apply (extractInfo_ite_failsOnly hpoints).bind
    intro pointsInfo hpointsInfo
    apply (extractInfo_ite_failsOnly hcells).bind
    intro cellsInfo hcellsInfo
    apply (newOSFile_failsOnly _ _).bind
    rintro ⟨file, statbuf⟩ hfile
    -- All that says how the arrays are stored has been read.
    obtain ⟨text, htext, hisType⟩ := isHeaderType_of_parseHeaderType hheaderType
    rw [find_of_copyAttrs hrootAttrs₁, StringMap.find_empty, Option.or_none] at htext
    have hstorage : IsStorageOf input kind.cls root'
        ⟨file, codec, enc, headerType, ofI64 (input.reader kind.cls).appendedDataPosition⟩ :=
      ⟨hroot, (eq_some_of_newOSFile hfile).1, hcodec, henc, ⟨text, htext, hisType⟩, rfl⟩
    have hinRange := harrays root' _ hstorage
    rw [MeshKind.arrays, arraysOf, hroot] at hinRange
    simp only [List.forall_mem_append, List.forall_mem_singleton] at hinRange
    obtain ⟨⟨⟨hinRange₁, hinRange₂⟩, hinRange₃⟩, hinRange₄⟩ := hinRange
    apply (emplaceArrayGroup_failsOnly hgatherPoint hinRange₁).bind
    rintro ⟨subdirs₁, s₁⟩ -
    apply (emplaceArrayGroup_ite_failsOnly
      (fun hload => gathers_of_extractInfo (by rwa [if_pos hload] at hpointsInfo)) hinRange₂).bind
    rintro ⟨subdirs₂, s₂⟩ -
    apply (emplaceArrayGroup_failsOnly hgatherCell hinRange₃).bind
    rintro ⟨subdirs₃, s₃⟩ -
    apply (emplaceArrayGroup_ite_failsOnly
      (fun hload => gathers_of_extractInfo (by rwa [if_pos hload] at hcellsInfo)) hinRange₄).bind
    rintro ⟨subdirs₄, s₄⟩ -
    exact FailsOnly.of_eq_ok rfl

end files

/-- **No harmless file crashes the program at its start**, whatever its bytes are, whatever the
allocator refuses and however the reads of the file fail: `vtk_init_tree_int` returns a tree, or
none after an exception. -/
theorem vtkInitTree_returns {E σ : Type} (thrift : Protocol) (heap : Heap) (dec : Decoder)
    (input : VtkInput E σ) (fname : CString)
    (h : ∀ kind, kindOf fname = some kind →
      (input.reader kind.cls).updateInformation = true → IsHarmless dec input kind) (s : σ) :
    ∃ tree, vtkInitTree thrift heap dec input fname s = .ok tree := by
  have hfails : FailsOnly IsThrown (parseVtkFile thrift heap dec input fname s) := by
    rcases hkind : kindOf fname with _ | kind
    · exact FailsOnly.of_eq_error (parseVtkFile_of_kindOf_eq_none hkind s) ⟨_, rfl⟩
    · obtain ⟨hcls, heq⟩ := @parseVtkFile_eq_of_kindOf E σ thrift heap dec input fname kind hkind s
      rw [heq]
      exact parseVtkFileInternal_failsOnly hcls (h kind hkind)
  rw [vtkInitTree]
  rcases hparse : parseVtkFile thrift heap dec input fname s with f | p
  · obtain ⟨what, rfl⟩ := hfails f hparse
    exact ⟨none, rfl⟩
  · exact ⟨some p, rfl⟩

/-- The theorem at the file with one array: its header says that it has four bytes. -/
theorem vtkInitTree_returns_x :
    ∃ tree, vtkInitTree compact zeroHeap standardDecoder (smallInput smallName)
      (cString "a.vti" (by decide)) () = .ok tree := by
  refine vtkInitTree_returns compact zeroHeap standardDecoder (smallInput smallName) _ ?_ ()
  intro kind hkind _
  obtain rfl := Option.some.inj (hkind.symm.trans kindOf_small)
  refine ⟨⟨.root, rfl, fun app happ => ?_, hasElements_small smallName⟩, ?_⟩
  · obtain rfl := Option.some.inj happ
    exact ⟨_, rfl⟩
  · intro element storage hstorage sec hsec arr harr text htext
    obtain rfl := storage_unique (isStorageOf_small smallName) hstorage
    obtain ⟨rfl, rfl⟩ := eq_of_mem_arrays_small hsec harr
    obtain rfl : ascii "0" = text := Option.some.inj htext
    refine ⟨0, rfl, ⟨fun _ s d hd => ?_, fun hcodec => absurd rfl hcodec⟩⟩
    obtain rfl : ([4, 0, 0, 0] : Bytes) = d := Option.some.inj hd
    decide

end VirParquet.Verify
