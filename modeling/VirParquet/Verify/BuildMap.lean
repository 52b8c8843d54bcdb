import VirParquet.Verify.Layout
import VirParquet.Spec.Parquet

/-!
# The file that `BuildMap` makes

The end of `BuildMap` and the two functions as a whole. `Column` is what the footer says about the
array beside the totals, `Layout.fileRegions` are the regions of a whole file, and `Layout.IsMapOf`
says that a map stands for them. `buildMapCompressed_of_lt` and `buildMapUncompressed_of_lt` say
that `BuildMap` returns such a map if the footer fits in the serializer's buffer, and
`bounds_of_buildMapCompressed_eq_ok` and its sibling for which arrays it returns at all.
-/

namespace VirParquet.Verify

open VirParquet.Found VirParquet.Found.Thrift VirParquet.Model VirParquet.Spec

/-! ## The column -/

/-- What the footer says about the array beside the totals. -/
structure Column where
  name : Bytes
  physical : PhysicalType
  converted : Option ConvertedType
  codec : CompressionCodec

/-- What the three tables say of a type. -/
structure Tables (type : DataType) (valueSize : ℕ) (physical : PhysicalType)
    (converted : Option ConvertedType) : Prop where
  valueSize_eq : getValueSize type = .ok valueSize
  physical_eq : toParquetType type = .ok physical
  converted_eq : toParquetConvertedType type = .ok converted

/-- The tables know every type but the unknown one. -/
theorem exists_tables {type : DataType} (h : type ≠ .unknown) :
    ∃ valueSize physical converted, Tables type valueSize physical converted := by
  cases type with
  | unknown => exact absurd rfl h
  | _ => exact ⟨_, _, _, rfl, rfl, rfl⟩

/-- There is a codec for every compression but the unknown one. -/
theorem exists_codec {codec : CompressionType} (h : codec ≠ .unknownCompression) :
    ∃ c, toParquetCodec codec = .ok c := by
  cases codec with
  | unknownCompression => exact absurd rfl h
  | _ => exact ⟨_, rfl⟩

/-- A value takes at least one byte. -/
theorem Tables.valueSize_pos {type : DataType} {valueSize : ℕ} {physical : PhysicalType}
    {converted : Option ConvertedType} (h : Tables type valueSize physical converted) :
    0 < valueSize := by
  have := h.valueSize_eq
  cases type <;> cases this <;> decide

/-- The tables say one thing of a type. -/
theorem Tables.unique {type : DataType} {valueSize valueSize' : ℕ}
    {physical physical' : PhysicalType} {converted converted' : Option ConvertedType}
    (h : Tables type valueSize physical converted)
    (h' : Tables type valueSize' physical' converted') :
    valueSize = valueSize' ∧ physical = physical' ∧ converted = converted' :=
  ⟨Except.ok.inj (h.valueSize_eq.symm.trans h'.valueSize_eq),
    Except.ok.inj (h.physical_eq.symm.trans h'.physical_eq),
    Except.ok.inj (h.converted_eq.symm.trans h'.converted_eq)⟩

/-- Blocks of 32768 bytes hold whole values. -/
theorem Tables.valueSize_dvd {type : DataType} {valueSize : ℕ} {physical : PhysicalType}
    {converted : Option ConvertedType} (h : Tables type valueSize physical converted) :
    valueSize ∣ 32768 := by
  have := h.valueSize_eq
  cases type <;> cases this <;> decide

namespace Layout

/-! ## The footer -/

section footer

variable (L : Layout) (col : Column) (blks : List Blk)

/-- The footer of a file. -/
def metaData : FileMetaData :=
  fileMetaData col.name col.physical col.converted col.codec (L.totalCompressedSize blks)
    (L.totalUncompressedSize blks) (L.totalCount blks)

/-- The bytes of the footer. -/
def footerBytes : Bytes := L.thrift.write (L.metaData col blks).fields

/-- What is thrown if the footer is too long for the serializer's buffer. -/
def footerError : Fault := serializeError L.thrift (L.metaData col blks).fields

/-- The regions of a file. -/
def fileRegions : List Region :=
  L.bodyRegions blks ++ [.direct (L.footerBytes col blks),
    .direct (leBytes 4 (L.footerBytes col blks).length), .direct par1]

/-- A file is as long as its body, its footer and eight bytes. -/
theorem totalSize_fileRegions :
    totalSize (L.fileRegions col blks) =
      totalSize (L.bodyRegions blks) + ((L.footerBytes col blks).length + 8) := by
  simp [fileRegions, totalSize, par1, ascii]

variable {L col blks}

/-- A footer can be written if the name has a length and there are few blocks. -/
theorem wellFormed_metaData (hname : col.name.length < 2 ^ 64) (hblks : ∀ b ∈ blks, b.Fits)
    (hlen : blks.length ≤ 2 ^ 31) : (L.metaData col blks).fields.WellFormed := by
  have hcompressed := totalCompressedSize_le L blks
  have huncompressed := totalUncompressedSize_le L blks
  have hcount := totalCount_le L hblks
  have h₁ : IsI64 (L.totalCompressedSize blks) := ⟨by omega, by omega⟩
  have h₂ : IsI64 (L.totalUncompressedSize blks) := ⟨by omega, by omega⟩
  have h₃ : IsI64 (L.totalCount blks) := ⟨by omega, by omega⟩
  have h₄ : IsI64 0 ∧ IsI64 4 ∧ IsI32 1 ∧ IsI32 2 := by
    simp [IsI64, IsI32]
  rcases col with ⟨name, physical, _ | converted, codec⟩ <;>
    simp_all [metaData, fileMetaData, FileMetaData.fields, SchemaElement.fields, RowGroup.fields,
      ColumnChunk.fields, ColumnMetaData.fields, Statistics.fields, Fields.ofList, Values.ofList,
      ifSet, Fields.WellFormed, Values.WellFormed, Value.WellFormed, Value.kind,
      Value.enum, Enumeration.isI32_code, Values.length, ascii]

/-- A footer is as long as the name twice, and little more. -/
theorem length_footerBytes_le (hname : col.name.length < 2 ^ 64) (hblks : ∀ b ∈ blks, b.Fits)
    (hlen : blks.length ≤ 2 ^ 31) :
    (L.footerBytes col blks).length ≤ 2 * col.name.length + 512 := by
  refine (L.thrift.length_write_le _ (wellFormed_metaData hname hblks hlen)).trans ?_
  rcases col with ⟨name, physical, _ | converted, codec⟩ <;>
    simp [metaData, fileMetaData, FileMetaData.fields, SchemaElement.fields, RowGroup.fields,
      ColumnChunk.fields, ColumnMetaData.fields, Statistics.fields, Fields.ofList, Values.ofList,
      ifSet, Fields.sizeBound, Values.sizeBound, Value.sizeBound, Value.enum, ascii] <;> omega

/-- There is room for the footer of a column with such a name. -/
theorem length_footerBytes_lt (L : Layout) (col : Column) (hname : col.name.length < 2 ^ 30)
    {blks : List Blk} (hfits : ∀ b ∈ blks, b.Fits) (hlength : blks.length ≤ 2 ^ 31) :
    (L.footerBytes col blks).length < 2 ^ 32 := by
  have hle := length_footerBytes_le (L := L) (show col.name.length < 2 ^ 64 by omega) hfits hlength
  omega

end footer

/-! ## The end of the file -/

/-- The map stands for the regions of the file. -/
structure IsMapOf (L : Layout) (col : Column) (base64 : Bool) (dataStart : ℕ) (blks : List Blk)
    (m : FileMap) : Prop where
  represents : m.Represents (L.fileRegions col blks)
  base64_eq : m.pendingBase64Decoding = base64
  dataStart_eq : m.dataStart = dataStart

section finish

variable {L : Layout} {base64 : Bool} {dataStart : ℕ} {blks : List Blk} {st : BuildState}
  {name : Bytes} {type : DataType} {codec : CompressionType} {valueSize : ℕ}
  {physical : PhysicalType} {converted : Option ConvertedType} {c : CompressionCodec}

/-- The mapped regions of a file are addressable. -/
theorem addressable_of_mem_fileRegions (hblks : ∀ b ∈ blks, b.Fits) (hlen : blks.length ≤ 2 ^ 31)
    (col : Column) {r : Region} (hr : r ∈ L.fileRegions col blks) : r.Addressable := by
  have hpayload := payloadSize_le hblks
  rcases List.mem_append.mp hr with hr | hr
  · rcases List.mem_cons.mp hr with rfl | hr
    · trivial
    · exact L.addressable_of_mem_blkRegions (by omega) hr
  · simp only [List.mem_cons, List.not_mem_nil, or_false] at hr
    rcases hr with rfl | rfl | rfl <;> trivial

/-- The footer is made of the totals, and its length stands behind it. -/
theorem appendFooter_eq (h : L.Holds base64 dataStart blks st)
    (htables : Tables type valueSize physical converted) (hcodec : toParquetCodec codec = .ok c) :
    appendFooter L.thrift st.builder name type codec st.totalCompressedSize
        st.totalUncompressedSize st.totalCount =
      (serializeToBuffer L.thrift (L.metaData ⟨name, physical, converted, c⟩ blks).fields).bind
        fun buf => .ok (buf.length, st.builder.addDirect buf) := by
  rw [appendFooter, Exec.bind_of_eq_ok htables.physical_eq, Exec.bind_of_eq_ok htables.converted_eq,
    Exec.bind_of_eq_ok hcodec, h.totalCompressedSize_eq, h.totalUncompressedSize_eq,
    h.totalCount_eq]
  rfl

/-- A footer that is too long for the serializer's buffer makes it throw. -/
theorem finishMap_of_le (h : L.Holds base64 dataStart blks st)
    (htables : Tables type valueSize physical converted) (hcodec : toParquetCodec codec = .ok c)
    (hlong : 2 ^ 32 ≤ (L.footerBytes ⟨name, physical, converted, c⟩ blks).length) :
    finishMap L.thrift name type codec st =
      .error (L.footerError ⟨name, physical, converted, c⟩ blks) := by
  have hserial := serializeToBuffer_of_le L.thrift hlong
  rw [finishMap, appendFooter_eq h htables hcodec, hserial]
  rfl

/-- **The end of a file**: the footer, its length and the four bytes. -/
theorem finishMap_of_lt (h : L.Holds base64 dataStart blks st) (hblks : ∀ b ∈ blks, b.Fits)
    (hlen : blks.length ≤ 2 ^ 31) (htables : Tables type valueSize physical converted)
    (hcodec : toParquetCodec codec = .ok c)
    (hshort : (L.footerBytes ⟨name, physical, converted, c⟩ blks).length < 2 ^ 32) :
    ∃ m, finishMap L.thrift name type codec st = .ok m ∧
      L.IsMapOf ⟨name, physical, converted, c⟩ base64 dataStart blks m := by
  set col : Column := ⟨name, physical, converted, c⟩ with hcol
  have htotal := L.totalSize_bodyRegions_le hblks
  have hdirect := L.length_directBytes_bodyRegions_le blks
  have hserial := serializeToBuffer_of_lt L.thrift hshort
  have haddr : ∀ r ∈ L.fileRegions col blks, r.Addressable := fun r hr =>
    addressable_of_mem_fileRegions hblks hlen col hr
  have htotalFile : totalSize (L.fileRegions col blks) < 2 ^ 64 := by
    rw [totalSize_fileRegions]
    omega
  have hdirectFile : (directBytes (L.fileRegions col blks)).length < 2 ^ 63 := by
    have hsum : (directBytes (L.fileRegions col blks)).length =
        (directBytes (L.bodyRegions blks)).length +
          ((L.footerBytes col blks).length + (4 + 4)) := by
      simp [fileRegions, directBytes, par1, ascii]
    omega
  obtain ⟨b, hrun, hrep, hbase64, hstart⟩ := h.builder_represents.run
    (fun r hr => haddr r (List.mem_append_right _ hr)) htotalFile hdirectFile
  refine ⟨b.finish, ?_, hrep.finish htotalFile hdirectFile haddr, hbase64.trans h.base64_eq,
    hstart.trans h.dataStart_eq⟩
  rw [finishMap, appendFooter_eq h htables hcodec, hserial]
  obtain rfl := Except.ok.inj hrun
  rfl

end finish

end Layout

/-- The footer of a file of these blocks fits in the serializer's buffer. -/
def FooterFits (thrift : Protocol) (name : Bytes) (type : DataType) (c : CompressionCodec)
    (blks : List Blk) : Prop :=
  ∃ valueSize physical converted, Tables type valueSize physical converted ∧
    (Layout.footerBytes ⟨thrift, valueSize⟩ ⟨name, physical, converted, c⟩ blks).length < 2 ^ 32

section footerFits

variable {thrift : Protocol} {name : Bytes} {type : DataType} {valueSize : ℕ}
  {physical : PhysicalType} {converted : Option ConvertedType} {c : CompressionCodec}
  {blks : List Blk} (htables : Tables type valueSize physical converted)

include htables

/-- The footer fits if its bytes are few. -/
theorem footerFits_iff : FooterFits thrift name type c blks ↔
    (Layout.footerBytes ⟨thrift, valueSize⟩ ⟨name, physical, converted, c⟩ blks).length <
      2 ^ 32 := by
  constructor
  · rintro ⟨_, _, _, htables', hshort⟩
    obtain ⟨rfl, rfl, rfl⟩ := htables.unique htables'
    exact hshort
  · exact fun hshort => ⟨_, _, _, htables, hshort⟩

/-- The footer fits if the name, which it has twice, leaves room for the rest of it. -/
theorem footerFits_of_name (hname : 2 * name.length + 512 < 2 ^ 32) (hblks : ∀ b ∈ blks, b.Fits)
    (hlen : blks.length ≤ 2 ^ 31) : FooterFits thrift name type c blks :=
  (footerFits_iff htables).mpr
    ((Layout.length_footerBytes_le (by dsimp only; omega) hblks hlen).trans_lt hname)

end footerFits

/-! ## The two functions -/

/-- The loop of `BuildMap` returns only for one to `2 ^ 31` blocks: its counter cannot hold more,
and no blocks are the largest number of them less one. -/
theorem bounds_of_countUp_eq_ok {n : ℕ} {body : ℕ → BuildState → Exec BuildState}
    {st st' : BuildState} (hn : n < 2 ^ 64)
    (h : countUp (2 ^ 31) Fault.signedOverflow (subU64 n 1) body 0 st = .ok st') :
    1 ≤ n ∧ n ≤ 2 ^ 31 := by
  have hbound : subU64 n 1 < 2 ^ 31 := by
    rcases Nat.eq_zero_or_pos (subU64 n 1) with hzero | hpos
    · omega
    · exact bound_lt_of_countUp_eq_ok hpos h
  rcases Nat.eq_zero_or_pos n with rfl | hpos
  · exact absurd hbound (by decide)
  · rw [subU64_of_le hpos hn] at hbound
    omega

/-- The pages of a compressed array are made only for one to `2 ^ 31` blocks. -/
theorem bounds_of_compressedPages_eq_ok {thrift : Protocol} {base64 : Bool} {arr : CompressedArray}
    {valueSize : ℕ} {st : BuildState} (hn : arr.numBlks < 2 ^ 64)
    (h : compressedPages thrift base64 arr valueSize = .ok st) :
    1 ≤ arr.numBlks ∧ arr.numBlks ≤ 2 ^ 31 := by
  obtain ⟨st', hloop, -⟩ := Exec.of_bind_eq_ok h
  exact bounds_of_countUp_eq_ok hn hloop

/-- `BuildMap` returns only for one to `2 ^ 31` blocks. -/
theorem bounds_of_buildMapCompressed_eq_ok {thrift : Protocol} {name : Bytes} {type : DataType}
    {codec : CompressionType} {base64 : Bool} {arr : CompressedArray} {m : FileMap}
    (hn : arr.numBlks < 2 ^ 64) (h : buildMapCompressed thrift name type codec base64 arr = .ok m) :
    1 ≤ arr.numBlks ∧ arr.numBlks ≤ 2 ^ 31 := by
  obtain ⟨valueSize, -, h⟩ := Exec.of_bind_eq_ok h
  obtain ⟨st, hpages, -⟩ := Exec.of_bind_eq_ok h
  exact bounds_of_compressedPages_eq_ok hn hpages

/-- `BuildMap` returns only for one to `2 ^ 31` blocks. -/
theorem bounds_of_buildMapUncompressed_eq_ok {thrift : Protocol} {name : Bytes} {type : DataType}
    {base64 : Bool} {arr : UncompressedArray} {m : FileMap}
    (h : buildMapUncompressed thrift name type base64 arr = .ok m) :
    1 ≤ arr.numBlks ∧ arr.numBlks ≤ 2 ^ 31 := by
  obtain ⟨valueSize, -, h⟩ := Exec.of_bind_eq_ok h
  obtain ⟨st, hpages, -⟩ := Exec.of_bind_eq_ok h
  obtain ⟨st', hloop, -⟩ := Exec.of_bind_eq_ok hpages
  have hn : arr.numBlks < 2 ^ 64 :=
    (Nat.div_le_self _ _).trans_lt (Nat.mod_lt _ (by norm_num))
  exact bounds_of_countUp_eq_ok hn hloop

section buildMap

variable {thrift : Protocol} {name : Bytes} {type : DataType} {codec : CompressionType}
  {valueSize : ℕ} {physical : PhysicalType} {converted : Option ConvertedType}
  {c : CompressionCodec} {base64 : Bool}
  (htables : Tables type valueSize physical converted)

include htables

section compressed

variable {arr : CompressedArray} (hcodec : toParquetCodec codec = .ok c)
  (hlen : arr.compressedBlkSz.length = arr.numBlks) (hpos : 1 ≤ arr.numBlks)
  (hmax : arr.numBlks ≤ 2 ^ 31)

include hcodec hlen hpos hmax

/-- **The map of a compressed array**, whose footer fits in the serializer's buffer. -/
theorem buildMapCompressed_of_lt
    (hshort : (Layout.footerBytes ⟨thrift, valueSize⟩ ⟨name, physical, converted, c⟩
      (compressedBlks arr)).length < 2 ^ 32) :
    ∃ m, buildMapCompressed thrift name type codec base64 arr = .ok m ∧
      Layout.IsMapOf ⟨thrift, valueSize⟩ ⟨name, physical, converted, c⟩ base64
        arr.dataStart (compressedBlks arr) m := by
  obtain ⟨st, hst, hholds, -⟩ := compressedPages_holds (L := ⟨thrift, valueSize⟩) hlen hpos
    hmax base64
  obtain ⟨m, hm, hmap⟩ := Layout.finishMap_of_lt hholds (fun b => fits_of_mem_compressedBlks)
    (by rw [length_compressedBlks]; omega) htables hcodec hshort
  refine ⟨m, ?_, hmap⟩
  rw [buildMapCompressed, Exec.bind_of_eq_ok htables.valueSize_eq, Exec.bind_of_eq_ok hst, hm]

/-- A compressed array whose footer is too long makes the serializer throw. -/
theorem buildMapCompressed_of_le
    (hlong : 2 ^ 32 ≤ (Layout.footerBytes ⟨thrift, valueSize⟩
      ⟨name, physical, converted, c⟩ (compressedBlks arr)).length) :
    buildMapCompressed thrift name type codec base64 arr =
      .error (Layout.footerError ⟨thrift, valueSize⟩ ⟨name, physical, converted, c⟩
        (compressedBlks arr)) := by
  obtain ⟨st, hst, hholds, -⟩ := compressedPages_holds (L := ⟨thrift, valueSize⟩) hlen hpos
    hmax base64
  have hm := Layout.finishMap_of_le hholds htables hcodec hlong
  rw [buildMapCompressed, Exec.bind_of_eq_ok htables.valueSize_eq, Exec.bind_of_eq_ok hst, hm]

end compressed

section uncompressed

variable {arr : UncompressedArray} (hpos : 1 ≤ arr.numBlks) (hmax : arr.numBlks ≤ 2 ^ 31)

include hpos hmax

/-- **The map of an uncompressed array**, whose footer fits in the serializer's buffer. -/
theorem buildMapUncompressed_of_lt
    (hshort : (Layout.footerBytes ⟨thrift, valueSize⟩
      ⟨name, physical, converted, .uncompressed⟩ (uncompressedBlks arr)).length < 2 ^ 32) :
    ∃ m, buildMapUncompressed thrift name type base64 arr = .ok m ∧
      Layout.IsMapOf ⟨thrift, valueSize⟩ ⟨name, physical, converted, .uncompressed⟩ base64
        arr.dataStart (uncompressedBlks arr) m := by
  obtain ⟨st, hst, hholds⟩ := uncompressedPages_holds (L := ⟨thrift, valueSize⟩) hpos hmax
    base64
  have hcodec : toParquetCodec .none = .ok .uncompressed := rfl
  obtain ⟨m, hm, hmap⟩ := Layout.finishMap_of_lt hholds
    (fun b hb => fits_of_mem_uncompressedBlks hb)
    (by rw [length_uncompressedBlks hpos]; omega) htables hcodec hshort
  refine ⟨m, ?_, hmap⟩
  rw [buildMapUncompressed, Exec.bind_of_eq_ok htables.valueSize_eq, Exec.bind_of_eq_ok hst, hm]

/-- An uncompressed array whose footer is too long makes the serializer throw. -/
theorem buildMapUncompressed_of_le
    (hlong : 2 ^ 32 ≤ (Layout.footerBytes ⟨thrift, valueSize⟩
      ⟨name, physical, converted, .uncompressed⟩ (uncompressedBlks arr)).length) :
    buildMapUncompressed thrift name type base64 arr =
      .error (Layout.footerError ⟨thrift, valueSize⟩ ⟨name, physical, converted, .uncompressed⟩
        (uncompressedBlks arr)) := by
  obtain ⟨st, hst, hholds⟩ := uncompressedPages_holds (L := ⟨thrift, valueSize⟩) hpos hmax
    base64
  have hcodec : toParquetCodec .none = .ok .uncompressed := rfl
  have hm := Layout.finishMap_of_le hholds htables hcodec hlong
  rw [buildMapUncompressed, Exec.bind_of_eq_ok htables.valueSize_eq, Exec.bind_of_eq_ok hst, hm]

end uncompressed

end buildMap

/-! ## The maps that they return -/

section returned

variable {thrift : Protocol} {name : Bytes} {type : DataType} {codec : CompressionType}
  {valueSize : ℕ} {physical : PhysicalType} {converted : Option ConvertedType}
  {c : CompressionCodec} {base64 : Bool} {m : FileMap}

/-- A type with a value size is known. -/
theorem ne_unknown_of_getValueSize (h : getValueSize type = .ok valueSize) : type ≠ .unknown := by
  rintro rfl
  cases h

/-- **A map that `BuildMap` returned** stands for the blocks of its compressed array, and its footer
fits. -/
theorem isMapOf_of_buildMapCompressed (htables : Tables type valueSize physical converted)
    (hcodec : toParquetCodec codec = .ok c) {arr : CompressedArray}
    (hlen : arr.compressedBlkSz.length = arr.numBlks) (hn : arr.numBlks < 2 ^ 64)
    (h : buildMapCompressed thrift name type codec base64 arr = .ok m) :
    FooterFits thrift name type c (compressedBlks arr) ∧
      Layout.IsMapOf ⟨thrift, valueSize⟩ ⟨name, physical, converted, c⟩ base64 arr.dataStart
        (compressedBlks arr) m := by
  obtain ⟨hpos, hmax⟩ := bounds_of_buildMapCompressed_eq_ok hn h
  rcases Nat.lt_or_ge (Layout.footerBytes ⟨thrift, valueSize⟩ ⟨name, physical, converted, c⟩
    (compressedBlks arr)).length (2 ^ 32) with hshort | hlong
  · obtain ⟨m', hm', hmap⟩ := buildMapCompressed_of_lt htables hcodec hlen hpos hmax hshort
    obtain rfl := Except.ok.inj (hm'.symm.trans h)
    exact ⟨(footerFits_iff htables).mpr hshort, hmap⟩
  · have herror := h.symm.trans (buildMapCompressed_of_le htables hcodec hlen hpos hmax hlong)
    cases herror

/-- **A map that `BuildMap` returned** stands for the blocks of its uncompressed array, and its
footer fits. -/
theorem isMapOf_of_buildMapUncompressed (htables : Tables type valueSize physical converted)
    {arr : UncompressedArray} (h : buildMapUncompressed thrift name type base64 arr = .ok m) :
    FooterFits thrift name type .uncompressed (uncompressedBlks arr) ∧
      Layout.IsMapOf ⟨thrift, valueSize⟩ ⟨name, physical, converted, .uncompressed⟩ base64
        arr.dataStart (uncompressedBlks arr) m := by
  obtain ⟨hpos, hmax⟩ := bounds_of_buildMapUncompressed_eq_ok h
  rcases Nat.lt_or_ge (Layout.footerBytes ⟨thrift, valueSize⟩
    ⟨name, physical, converted, .uncompressed⟩ (uncompressedBlks arr)).length (2 ^ 32)
    with hshort | hlong
  · obtain ⟨m', hm', hmap⟩ := buildMapUncompressed_of_lt htables hpos hmax hshort
    obtain rfl := Except.ok.inj (hm'.symm.trans h)
    exact ⟨(footerFits_iff htables).mpr hshort, hmap⟩
  · have herror := h.symm.trans (buildMapUncompressed_of_le htables hpos hmax hlong)
    cases herror

/-- A map that `BuildMap` returned is one of the blocks of its compressed array, of some type. -/
theorem exists_layout_of_buildMapCompressed {arr : CompressedArray}
    (hlen : arr.compressedBlkSz.length = arr.numBlks) (hn : arr.numBlks < 2 ^ 64)
    (h : buildMapCompressed thrift name type codec base64 arr = .ok m) :
    ∃ L col, Layout.IsMapOf L col base64 arr.dataStart (compressedBlks arr) m := by
  have hparts := h
  obtain ⟨valueSize, htype, hpages⟩ := Exec.of_bind_eq_ok hparts
  obtain ⟨_, _, hfinish⟩ := Exec.of_bind_eq_ok hpages
  obtain ⟨_, hfooter, _⟩ := Exec.of_bind_eq_ok hfinish
  obtain ⟨_, _, hfooter⟩ := Exec.of_bind_eq_ok hfooter
  obtain ⟨_, _, hfooter⟩ := Exec.of_bind_eq_ok hfooter
  obtain ⟨c, hcodec, _⟩ := Exec.of_bind_eq_ok hfooter
  obtain ⟨_, _, _, htables⟩ := exists_tables (ne_unknown_of_getValueSize htype)
  exact ⟨_, _, (isMapOf_of_buildMapCompressed htables hcodec hlen hn h).2⟩

/-- A map that `BuildMap` returned is one of the blocks of its uncompressed array, of some type. -/
theorem exists_layout_of_buildMapUncompressed {arr : UncompressedArray}
    (h : buildMapUncompressed thrift name type base64 arr = .ok m) :
    ∃ L col, Layout.IsMapOf L col base64 arr.dataStart (uncompressedBlks arr) m := by
  have hparts := h
  obtain ⟨valueSize, htype, -⟩ := Exec.of_bind_eq_ok hparts
  obtain ⟨_, _, _, htables⟩ := exists_tables (ne_unknown_of_getValueSize htype)
  exact ⟨_, _, (isMapOf_of_buildMapUncompressed htables h).2⟩

end returned

end VirParquet.Verify
