import VirParquet.Spec.Pages
import VirParquet.Verify.Consistency

/-!
# The pages of the maps that `BuildMap` makes

A map of `BuildMap` as `mappedPages` and `footerColumn` see it, for any blocks:
`IsMapOf.mappedPages_eq` and `IsMapOf.footerColumn_eq`. On them stand the two laws of the pages.

* `tilesOrThrows_iff`: the pages of an uncompressed array tile it if and only if it has between one
  and `2 ^ 46` bytes. Without bytes, and behind these, the number of blocks less one does not fit
  in the loop's counter.
* `keepsOrThrows_iff`: the map of a compressed array keeps all bits of the sizes in its header if
  and only if these are below `2 ^ 31`.
-/

namespace VirParquet.Verify

open VirParquet.Found VirParquet.Found.Thrift VirParquet.Found.Base64 VirParquet.Model
  VirParquet.Spec

namespace Layout

/-! ## Pages of blocks -/

section pages

variable (L : Layout)

/-- The pages of blocks whose payload begins at `offset`. -/
def mappedPages (offset : ℕ) : List Blk → List MappedPage
  | [] => []
  | b :: blks => ⟨L.headerBytes b, offset, b.compressedSize⟩ ::
      mappedPages (offset + b.compressedSize) blks

/-- The regions of blocks have the pages of the blocks, whatever other direct regions follow. -/
theorem pagesOf_blkRegions (header : Bytes) (offset : ℕ) (blks : List Blk) (bss : List Bytes) :
    pagesOf header (L.blkRegions offset blks ++ bss.map Region.direct) =
      L.mappedPages offset blks := by
  induction blks generalizing header offset with
  | nil => exact pagesOf_direct header bss
  | cons b blks ih =>
      rw [blkRegions, List.cons_append, List.cons_append, pagesOf, pagesOf, ih, mappedPages]

/-- There is a page for each block. -/
@[simp] theorem length_mappedPages (offset : ℕ) (blks : List Blk) :
    (L.mappedPages offset blks).length = blks.length := by
  induction blks generalizing offset with
  | nil => rfl
  | cons b blks ih => rw [mappedPages, List.length_cons, List.length_cons, ih]

/-- The page of a block has its header and stands behind the blocks before it. -/
theorem getElem?_mappedPages (offset : ℕ) (blks : List Blk) (k : ℕ) :
    (L.mappedPages offset blks)[k]? = blks[k]?.map fun b =>
      ⟨L.headerBytes b, offset + payloadSize (blks.take k), b.compressedSize⟩ := by
  induction blks generalizing offset k with
  | nil => rfl
  | cons b blks ih =>
      cases k with
      | zero => rfl
      | succ k =>
          rw [mappedPages, List.getElem?_cons_succ, ih, List.getElem?_cons_succ,
            List.take_succ_cons]
          simp only [payloadSize, List.map_cons, List.sum_cons, Nat.add_assoc]

/-- The sizes of the pages are those of the blocks. -/
theorem map_size_mappedPages (offset : ℕ) (blks : List Blk) :
    (L.mappedPages offset blks).map MappedPage.size = blks.map Blk.compressedSize := by
  induction blks generalizing offset with
  | nil => rfl
  | cons b blks ih => rw [mappedPages, List.map_cons, List.map_cons, ih]

/-- The headers of the pages are as long as those of the blocks. -/
theorem map_header_mappedPages (offset : ℕ) (blks : List Blk) :
    (L.mappedPages offset blks).map (fun p => p.header.length) = blks.map L.headerSize := by
  induction blks generalizing offset with
  | nil => rfl
  | cons b blks ih =>
      rw [mappedPages, List.map_cons, List.map_cons, ih]
      rfl

/-- A page header that was written is read. -/
theorem readPageHeader_headerBytes (b : Blk) :
    readPageHeader L.thrift (L.headerBytes b) = some (L.header b) := by
  have hle := L.headerSize_le b
  have hread := L.thrift.read_write (L.header b).fields [] (L.wellFormed_header b)
    (by unfold headerSize headerBytes at hle; omega)
  rw [List.append_nil] at hread
  rw [readPageHeader, headerBytes, hread]
  simp only [Option.bind_eq_bind, Option.bind_some, PageHeader.ofFields?_fields]

end pages

section map

variable {L : Layout} {col : Column} {base64 : Bool} {dataStart : ℕ} {blks : List Blk}
  {m : FileMap}

/-- **The pages of a map** that stands for the file of blocks. -/
theorem IsMapOf.mappedPages_eq (h : L.IsMapOf col base64 dataStart blks m) :
    Spec.mappedPages m = L.mappedPages 0 blks := by
  rw [Spec.mappedPages, h.represents.regions_eq]
  exact L.pagesOf_blkRegions par1 0 blks
    [L.footerBytes col blks, leBytes 4 (L.footerBytes col blks).length, par1]

/-- **The footer of a map** that stands for the file of blocks. -/
theorem IsMapOf.footerColumn_eq (h : L.IsMapOf col base64 dataStart blks m)
    (hname : col.name.length < 2 ^ 64) (hfits : ∀ b ∈ blks, b.Fits) (hlen : blks.length ≤ 2 ^ 31)
    (hshort : (L.footerBytes col blks).length < 2 ^ 32) :
    footerColumn L.thrift m = some (L.column col blks) := by
  have hlength : (L.fileRegions col blks).length = (L.bodyRegions blks).length + 3 := by
    simp [fileRegions]
  have hplace : m.n - 3 < (L.fileRegions col blks).length := by
    rw [h.represents.n_eq]
    omega
  have hregion : m.region (m.n - 3) = .direct (L.footerBytes col blks) := by
    have hindex : m.n - 3 = (L.bodyRegions blks).length := by
      rw [h.represents.n_eq]
      omega
    rw [h.represents.region_eq hplace, ← Option.some.injEq, ← List.getElem?_eq_getElem, hindex]
    simp [fileRegions]
  have hread := L.thrift.read_write (L.metaData col blks).fields []
    (wellFormed_metaData hname hfits hlen) hshort
  rw [List.append_nil] at hread
  rw [footerColumn, hregion, Region.directBytes, footerBytes, hread]
  simp only [Option.bind_eq_bind, Option.bind_some, FileMetaData.ofFields?_fields]
  rfl

end map

end Layout

/-! ## Uncompressed arrays -/

/-- The pages tile the first `total` bytes of the payload: pages of 32768 bytes one after the
other, of which the last may be shorter. -/
structure TilesArray (pages : List MappedPage) (total : ℕ) : Prop where
  length_eq : pages.length = (total + 32767) / 32768
  offset_eq : ∀ k p, pages[k]? = some p → p.offset = 32768 * k
  size_pos : ∀ p ∈ pages, 1 ≤ p.size
  size_le : ∀ p ∈ pages, p.size ≤ 32768
  size_eq : ∀ k p, pages[k]? = some p → k + 1 < pages.length → p.size = 32768
  sum_eq : (pages.map MappedPage.size).sum = total

/-- What `BuildMap` does for an array of `total` bytes: it throws, or the pages of its map tile
the array. -/
def TilesOrThrows (r : Exec FileMap) (total : ℕ) : Prop :=
  (∃ what, r = .error (.thrown what)) ∨ ∃ m, r = .ok m ∧ TilesArray (mappedPages m) total

section uncompressed

variable {thrift : Protocol} {name : Bytes} {type : DataType} {base64 : Bool}
  {arr : UncompressedArray}

/-- The blocks of an uncompressed array are full but for the last. -/
theorem getElem?_uncompressedBlks {k : ℕ} {b : Blk} (h : (uncompressedBlks arr)[k]? = some b) :
    (k < arr.numBlks - 1 ∧ b = ⟨32768, 32768⟩) ∨
      (k = arr.numBlks - 1 ∧ b = ⟨arr.lastBlkSz, arr.lastBlkSz⟩) := by
  rw [uncompressedBlks, List.getElem?_append, List.length_replicate] at h
  split at h
  · next hlt =>
      rw [List.getElem?_replicate, if_pos hlt, Option.some.injEq] at h
      exact Or.inl ⟨hlt, h.symm⟩
  · next hge =>
      have hlast : k - (arr.numBlks - 1) = 0 := by
        have := (List.getElem?_eq_some_iff.mp h).1
        simpa using this
      rw [hlast] at h
      exact Or.inr ⟨by omega, (Option.some.inj h).symm⟩

/-- Before each block of an uncompressed array there are full blocks. -/
theorem take_uncompressedBlks {k : ℕ} (h : k ≤ arr.numBlks - 1) :
    (uncompressedBlks arr).take k = List.replicate k ⟨32768, 32768⟩ := by
  rw [uncompressedBlks, List.take_append_of_le_length (by simpa using h), List.take_replicate,
    Nat.min_eq_left h]

/-- **The pages of an uncompressed array tile it**, if it is neither empty nor too long. -/
theorem tilesArray_mappedPages (L : Layout) (hpos : 1 ≤ arr.totalBytes)
    (hmax : arr.totalBytes ≤ 2 ^ 46) :
    TilesArray (L.mappedPages 0 (uncompressedBlks arr)) arr.totalBytes := by
  have hnum : arr.numBlks = (arr.totalBytes + 32767) / 32768 := numBlks_eq (by omega)
  have hlength : (uncompressedBlks arr).length = arr.numBlks :=
    length_uncompressedBlks (by omega)
  have hlastPos : 1 ≤ arr.lastBlkSz ∧ arr.lastBlkSz ≤ 32768 := by
    unfold UncompressedArray.lastBlkSz
    omega
  have hpage : ∀ k (p : MappedPage), (L.mappedPages 0 (uncompressedBlks arr))[k]? = some p →
      ∃ b : Blk, (uncompressedBlks arr)[k]? = some b ∧
        p = ⟨L.headerBytes b, 0 + Layout.payloadSize ((uncompressedBlks arr).take k),
          b.compressedSize⟩ := by
    intro k p hp
    rw [L.getElem?_mappedPages] at hp
    obtain ⟨b, hb, rfl⟩ := Option.map_eq_some_iff.mp hp
    exact ⟨b, hb, rfl⟩
  have hsize : ∀ p ∈ L.mappedPages 0 (uncompressedBlks arr), 1 ≤ p.size ∧ p.size ≤ 32768 := by
    intro p hp
    obtain ⟨k, hk⟩ := List.mem_iff_getElem?.mp hp
    obtain ⟨b, hb, rfl⟩ := hpage k p hk
    rcases getElem?_uncompressedBlks hb with ⟨-, rfl⟩ | ⟨-, rfl⟩
    · exact ⟨Nat.one_le_ofNat, le_refl 32768⟩
    · exact hlastPos
  constructor
  · rw [L.length_mappedPages, hlength, hnum]
  · intro k p hp
    obtain ⟨b, hb, rfl⟩ := hpage k p hp
    have hk : k ≤ arr.numBlks - 1 := by
      rcases getElem?_uncompressedBlks hb with ⟨hk, -⟩ | ⟨rfl, -⟩
      · exact hk.le
      · exact le_rfl
    rw [take_uncompressedBlks hk, payloadSize_replicate, Nat.zero_add]
  · intro p hp
    exact (hsize p hp).1
  · intro p hp
    exact (hsize p hp).2
  · intro k p hp hk
    rw [L.length_mappedPages, hlength] at hk
    obtain ⟨b, hb, rfl⟩ := hpage k p hp
    rcases getElem?_uncompressedBlks hb with ⟨-, rfl⟩ | ⟨rfl, -⟩
    · rfl
    · omega
  · rw [L.map_size_mappedPages]
    exact payloadSize_uncompressedBlks hpos (by omega)

/-- Of an empty array, and of one of more than `2 ^ 46` bytes, the loop has more turns than its
counter can count. -/
theorem le_subU64_numBlks (h : arr.totalBytes < 2 ^ 64)
    (hout : ¬(1 ≤ arr.totalBytes ∧ arr.totalBytes ≤ 2 ^ 46)) :
    2 ^ 31 ≤ subU64 arr.numBlks 1 := by
  unfold UncompressedArray.numBlks subU64 u64
  omega

/-- With more blocks than an `int` can count the counter overflows. -/
theorem buildMapUncompressed_overflow (htype : type ≠ .unknown)
    (h : 2 ^ 31 ≤ subU64 arr.numBlks 1) :
    buildMapUncompressed thrift name type base64 arr = .error .signedOverflow := by
  obtain ⟨valueSize, physical, converted, htables⟩ := exists_tables htype
  have hstart : UncompressedInvariant ⟨thrift, valueSize⟩ base64 arr.dataStart 0
      (.start base64 arr.dataStart) := ⟨Layout.holds_start base64 arr.dataStart, rfl⟩
  have hloop : countUp (2 ^ 31) .signedOverflow (subU64 arr.numBlks 1)
      (uncompressedTurn thrift valueSize) 0 (.start base64 arr.dataStart) =
        .error .signedOverflow :=
    countUp_overflow _ h (by norm_num) hstart fun i st hi hinv => hinv.turn hi
  rw [buildMapUncompressed, Exec.bind_of_eq_ok htables.valueSize_eq, uncompressedPages, hloop]
  rfl

/-- An overflow is neither a map nor an exception. -/
theorem not_tilesOrThrows_overflow (total : ℕ) :
    ¬TilesOrThrows (.error .signedOverflow) total := by
  rintro (⟨what, hwhat⟩ | ⟨m, hm, -⟩)
  · cases hwhat
  · cases hm

/-- **The pages of an uncompressed array tile it, or `BuildMap` throws, if and only if** the array
has between one and `2 ^ 46` bytes or an unknown type. -/
theorem tilesOrThrows_iff (thrift : Protocol) (name : Bytes) (type : DataType) (base64 : Bool)
    (arr : UncompressedArray) (h : arr.totalBytes < 2 ^ 64) :
    TilesOrThrows (buildMapUncompressed thrift name type base64 arr) arr.totalBytes ↔
      type = .unknown ∨ (1 ≤ arr.totalBytes ∧ arr.totalBytes ≤ 2 ^ 46) := by
  by_cases htype : type = .unknown
  · subst htype
    exact ⟨fun _ => Or.inl rfl, fun _ => Or.inl ⟨_, rfl⟩⟩
  rw [or_iff_right htype]
  constructor
  · intro htiles
    by_contra hout
    rw [buildMapUncompressed_overflow htype (le_subU64_numBlks h hout)] at htiles
    exact not_tilesOrThrows_overflow _ htiles
  · rintro ⟨hpos, hmax⟩
    obtain ⟨valueSize, physical, converted, htables⟩ := exists_tables htype
    have hnum : arr.numBlks = (arr.totalBytes + 32767) / 32768 := numBlks_eq (by omega)
    rcases Nat.lt_or_ge (Layout.footerBytes ⟨thrift, valueSize⟩
      ⟨name, physical, converted, .uncompressed⟩ (uncompressedBlks arr)).length (2 ^ 32)
      with hshort | hlong
    · obtain ⟨m, hm, hmap⟩ :=
        buildMapUncompressed_of_lt htables (by omega) (by omega) hshort
      refine Or.inr ⟨m, hm, ?_⟩
      rw [hmap.mappedPages_eq]
      exact tilesArray_mappedPages _ hpos hmax
    · exact Or.inl ⟨_, buildMapUncompressed_of_le htables (by omega) (by omega) hlong⟩

/-- The theorem at an array of two pages. -/
theorem tilesOrThrows_iff_twoPages :
    TilesOrThrows (buildMapUncompressed compact (ascii "x") .int32 false ⟨40000, 8⟩) 40000 :=
  (tilesOrThrows_iff compact (ascii "x") .int32 false ⟨40000, 8⟩ (by decide)).mpr (by decide)

/-- An empty array, as its parser returns it, gets no pages and no exception: the counter of the
loop overflows. -/
theorem not_tilesOrThrows_empty :
    (parseUncompressed64 (osFile (List.replicate 8 0)) 0 ()).map Prod.fst = .ok ⟨0, 8⟩ ∧
      ¬TilesOrThrows (buildMapUncompressed compact (ascii "x") .int32 false ⟨0, 8⟩) 0 := by
  refine ⟨by decide, ?_⟩
  rw [buildMapUncompressed_overflow (by decide) (by decide)]
  exact not_tilesOrThrows_overflow 0

end uncompressed

/-! ## Compressed arrays -/

/-- The sizes of all blocks of a compressed array before compression, as its header has them. -/
def uncompressedSizes (arr : CompressedArray) : List ℕ :=
  (List.range arr.numBlks).map (uncompressedBlkSz arr)

/-- Page `i` keeps all bits of the sizes of block `i`: in its header, in its region, and in the
place of its region. -/
structure KeepsPage (thrift : Protocol) (arr : CompressedArray) (valueSize i size : ℕ)
    (p : MappedPage) (header : PageHeader) : Prop where
  header_eq : readPageHeader thrift p.header = some header
  compressedPageSize_eq : header.compressedPageSize = size
  uncompressedPageSize_eq : header.uncompressedPageSize = uncompressedBlkSz arr i
  numValues_eq : Parquet.numValues header = (uncompressedBlkSz arr i / valueSize : ℕ)
  size_eq : p.size = size
  offset_eq : p.offset = (arr.compressedBlkSz.take i).sum

/-- The footer's totals are the sums over the pages, without loss. -/
structure KeepsTotals (arr : CompressedArray) (valueSize : ℕ) (pages : List MappedPage)
    (column : ColumnMetaData) : Prop where
  totalCompressedSize_eq : column.totalCompressedSize =
    ((pages.map fun p => p.header.length).sum + arr.compressedBlkSz.sum : ℕ)
  totalUncompressedSize_eq : column.totalUncompressedSize =
    ((pages.map fun p => p.header.length).sum + (uncompressedSizes arr).sum : ℕ)
  numValues_eq : column.numValues = (((uncompressedSizes arr).map (· / valueSize)).sum : ℕ)

/-- A map of a compressed array keeps all bits of the sizes in its header. -/
structure KeepsSizes (thrift : Protocol) (arr : CompressedArray) (valueSize : ℕ) (m : FileMap) :
    Prop where
  length_eq : (mappedPages m).length = arr.numBlks
  page : ∀ i p size, (mappedPages m)[i]? = some p → arr.compressedBlkSz[i]? = some size →
    ∃ header, KeepsPage thrift arr valueSize i size p header
  totals : ∃ column, footerColumn thrift m = some column ∧
    KeepsTotals arr valueSize (mappedPages m) column

/-- What `BuildMap` does for a compressed array: it throws, or its map keeps all bits. -/
def KeepsOrThrows (thrift : Protocol) (type : DataType) (arr : CompressedArray)
    (r : Exec FileMap) : Prop :=
  (∃ what, r = .error (.thrown what)) ∨
    ∃ m valueSize, r = .ok m ∧ getValueSize type = .ok valueSize ∧
      KeepsSizes thrift arr valueSize m

/-- The sizes that pages have are non-negative as signed 32-bit numbers. Where there is one block
only, no page has `blkSz`. -/
structure SizesFit (arr : CompressedArray) : Prop where
  compressedBlkSz_lt : ∀ size ∈ arr.compressedBlkSz, size < 2 ^ 31
  blkSz_lt : 2 ≤ arr.numBlks → arr.blkSz < 2 ^ 31
  lastBlkSz_lt : arr.lastBlkSz < 2 ^ 31

/-- The footer of the array's file does not fit in the serializer's buffer. -/
def FooterTooLong (thrift : Protocol) (name : Bytes) (type : DataType) (codec : CompressionType)
    (arr : CompressedArray) : Prop :=
  ∃ valueSize physical converted c, Tables type valueSize physical converted ∧
    toParquetCodec codec = .ok c ∧
    2 ^ 32 ≤ (Layout.footerBytes ⟨thrift, valueSize⟩ ⟨name, physical, converted, c⟩
      (compressedBlks arr)).length

section compressed

variable {thrift : Protocol} {name : Bytes} {type : DataType} {codec : CompressionType}
  {base64 : Bool} {arr : CompressedArray}

/-- The block of a size has this size, and the uncompressed one of its index. -/
theorem getElem?_compressedBlks {i size : ℕ} (h : arr.compressedBlkSz[i]? = some size) :
    (compressedBlks arr)[i]? = some ⟨u32 size, u32 (uncompressedBlkSz arr i)⟩ := by
  rw [compressedBlks, List.getElem?_mapIdx, h]
  rfl

section fit

variable (h : SizesFit arr)

include h

/-- The size of a block before compression fits. -/
theorem SizesFit.uncompressedBlkSz_lt (i : ℕ) :
    uncompressedBlkSz arr i < 2 ^ 31 := by
  unfold uncompressedBlkSz
  split
  · exact h.blkSz_lt (by omega)
  · exact h.lastBlkSz_lt

/-- The blocks have the sizes of the header. -/
theorem SizesFit.getElem?_compressedBlks {i size : ℕ} (hi : arr.compressedBlkSz[i]? = some size) :
    (compressedBlks arr)[i]? = some ⟨size, uncompressedBlkSz arr i⟩ ∧
      Blk.Small ⟨size, uncompressedBlkSz arr i⟩ := by
  have hsize := h.compressedBlkSz_lt size (List.mem_of_getElem? hi)
  have huncompressed := h.uncompressedBlkSz_lt i
  refine ⟨?_, hsize, huncompressed⟩
  rw [Verify.getElem?_compressedBlks hi, u32_of_lt (by omega), u32_of_lt (by omega)]

/-- The blocks are small. -/
theorem SizesFit.small {b : Blk} (hb : b ∈ compressedBlks arr) : b.Small := by
  obtain ⟨i, hi⟩ := List.mem_iff_getElem?.mp hb
  have hlt : i < arr.compressedBlkSz.length := by
    simpa using (List.getElem?_eq_some_iff.mp hi).1
  obtain ⟨hblk, hsmall⟩ := h.getElem?_compressedBlks (List.getElem?_eq_getElem hlt)
  obtain rfl := Option.some.inj (hi.symm.trans hblk)
  exact hsmall

/-- The compressed sizes of the blocks are those of the header. -/
theorem SizesFit.map_compressedSize :
    (compressedBlks arr).map Blk.compressedSize = arr.compressedBlkSz := by
  refine List.ext_getElem? fun i => ?_
  cases hi : arr.compressedBlkSz[i]? with
  | none => simpa [compressedBlks] using hi
  | some size =>
      rw [List.getElem?_map, (h.getElem?_compressedBlks hi).1]
      rfl

/-- The uncompressed sizes of the blocks are those of the header. -/
theorem SizesFit.map_uncompressedSize (hlen : arr.compressedBlkSz.length = arr.numBlks) :
    (compressedBlks arr).map Blk.uncompressedSize = uncompressedSizes arr := by
  refine List.ext_getElem (by simp [uncompressedSizes, hlen]) fun i hi hi' => ?_
  have hlt : i < arr.compressedBlkSz.length := by simpa using hi
  have hblk := (h.getElem?_compressedBlks (List.getElem?_eq_getElem hlt)).1
  rw [List.getElem?_eq_getElem (by simpa using hlt), Option.some.injEq] at hblk
  simp [uncompressedSizes, hblk]

end fit

/-- The totals of small blocks are the sums. -/
theorem Layout.totals_of_small (L : Layout) {blks : List Blk} (h : ∀ b ∈ blks, b.Small) :
    L.totalCompressedSize blks =
        (blks.map L.headerSize).sum + (blks.map Blk.compressedSize).sum ∧
      L.totalUncompressedSize blks =
        (blks.map L.headerSize).sum + (blks.map Blk.uncompressedSize).sum := by
  have hcut : ∀ b ∈ blks, u32 (L.headerSize b + b.compressedSize) =
      L.headerSize b + b.compressedSize ∧
        u32 (L.headerSize b + b.uncompressedSize) = L.headerSize b + b.uncompressedSize := by
    intro b hb
    obtain ⟨hcompressed, huncompressed⟩ := h b hb
    have hheader := L.headerSize_le b
    exact ⟨u32_of_lt (by omega), u32_of_lt (by omega)⟩
  constructor
  · rw [totalCompressedSize, List.map_congr_left fun b hb => (hcut b hb).1, List.sum_map_add]
  · rw [totalUncompressedSize, List.map_congr_left fun b hb => (hcut b hb).2, List.sum_map_add]

/-- **A map of sizes below `2 ^ 31` keeps them.** -/
theorem Layout.IsMapOf.keepsSizes {L : Layout} {col : Column} {m : FileMap}
    (hmap : L.IsMapOf col base64 arr.dataStart (compressedBlks arr) m) (h : SizesFit arr)
    (hlen : arr.compressedBlkSz.length = arr.numBlks) (hmax : arr.numBlks ≤ 2 ^ 31)
    (hname : col.name.length < 2 ^ 64)
    (hshort : (L.footerBytes col (compressedBlks arr)).length < 2 ^ 32) :
    KeepsSizes L.thrift arr L.valueSize m := by
  have hlength : (compressedBlks arr).length = arr.numBlks := by
    rw [length_compressedBlks, hlen]
  have hpages := hmap.mappedPages_eq
  constructor
  · rw [hpages, L.length_mappedPages, hlength]
  · intro i p size hp hsize
    obtain ⟨hblk, hsmall⟩ := h.getElem?_compressedBlks hsize
    rw [hpages, L.getElem?_mappedPages, hblk, Option.map_some, Option.some.injEq] at hp
    subst hp
    obtain ⟨hcompressed, huncompressed, hvalues⟩ := Layout.header_of_small (L := L) hsmall
    refine ⟨_, L.readPageHeader_headerBytes _, hcompressed, huncompressed, hvalues, rfl, ?_⟩
    rw [Nat.zero_add, Layout.payloadSize, List.map_take, h.map_compressedSize]
  · refine ⟨_, hmap.footerColumn_eq hname (fun b hb => (h.small hb).fits)
      (hlength.trans_le hmax) hshort, ?_⟩
    obtain ⟨hcompressed, huncompressed⟩ := L.totals_of_small fun b hb => h.small hb
    rw [h.map_compressedSize] at hcompressed
    rw [h.map_uncompressedSize hlen] at huncompressed
    rw [hpages]
    constructor
    · rw [L.map_header_mappedPages, ← hcompressed]
      rfl
    · rw [L.map_header_mappedPages, ← huncompressed]
      rfl
    · rw [← h.map_uncompressedSize hlen, List.map_map]
      rfl

/-- **A map that keeps the sizes** has sizes below `2 ^ 31`: page headers hold no others. -/
theorem Layout.IsMapOf.sizesFit {L : Layout} {col : Column} {m : FileMap}
    (hmap : L.IsMapOf col base64 arr.dataStart (compressedBlks arr) m)
    (hlen : arr.compressedBlkSz.length = arr.numBlks) (hpos : 1 ≤ arr.numBlks) {valueSize : ℕ}
    (h : KeepsSizes L.thrift arr valueSize m) : SizesFit arr := by
  have hsizes : ∀ i size, arr.compressedBlkSz[i]? = some size →
      size < 2 ^ 31 ∧ uncompressedBlkSz arr i < 2 ^ 31 := by
    intro i size hi
    obtain ⟨header, hpage⟩ := h.page i
      ⟨L.headerBytes ⟨u32 size, u32 (uncompressedBlkSz arr i)⟩,
        0 + Layout.payloadSize ((compressedBlks arr).take i), u32 size⟩ size
      (by rw [hmap.mappedPages_eq, L.getElem?_mappedPages, getElem?_compressedBlks hi]; rfl) hi
    have hheader := hpage.header_eq
    rw [L.readPageHeader_headerBytes, Option.some.injEq] at hheader
    subst hheader
    -- The numbers of a header are signed 32-bit numbers.
    have hcompressed : toI32 (u32 size) = (size : ℤ) := hpage.compressedPageSize_eq
    have huncompressed : toI32 (u32 (uncompressedBlkSz arr i)) = (uncompressedBlkSz arr i : ℤ) :=
      hpage.uncompressedPageSize_eq
    have hsigned := isI32_toI32 (u32 size)
    have hsigned' := isI32_toI32 (u32 (uncompressedBlkSz arr i))
    rw [hcompressed] at hsigned
    rw [huncompressed] at hsigned'
    obtain ⟨-, hup⟩ := hsigned
    obtain ⟨-, hup'⟩ := hsigned'
    exact ⟨by omega, by omega⟩
  have hblk : ∀ i < arr.numBlks, uncompressedBlkSz arr i < 2 ^ 31 := by
    intro i hi
    exact (hsizes i _ (List.getElem?_eq_getElem (by omega))).2
  constructor
  · intro size hsize
    obtain ⟨i, hi⟩ := List.mem_iff_getElem?.mp hsize
    exact (hsizes i size hi).1
  · intro htwo
    have hfirst := hblk 0 (by omega)
    rwa [uncompressedBlkSz, if_pos (by omega)] at hfirst
  · have hlast := hblk (arr.numBlks - 1) (by omega)
    rwa [uncompressedBlkSz, if_neg (by omega)] at hlast

/-- More blocks than the loop's counter can count. -/
theorem buildMapCompressed_overflow (htype : type ≠ .unknown)
    (hlen : arr.compressedBlkSz.length = arr.numBlks) (hn : arr.numBlks < 2 ^ 64)
    (hmax : 2 ^ 31 < arr.numBlks) :
    buildMapCompressed thrift name type codec base64 arr = .error .signedOverflow := by
  obtain ⟨valueSize, physical, converted, htables⟩ := exists_tables htype
  have hsub : subU64 arr.numBlks 1 = arr.numBlks - 1 := subU64_of_le (by omega) hn
  have hstart : CompressedInvariant ⟨thrift, valueSize⟩ arr base64 0
      (.start base64 arr.dataStart) := ⟨Layout.holds_start base64 arr.dataStart, rfl, rfl⟩
  have hloop : countUp (2 ^ 31) .signedOverflow (arr.numBlks - 1)
      (compressedTurn thrift arr valueSize) 0 (.start base64 arr.dataStart) =
        .error .signedOverflow :=
    countUp_overflow _ (by omega) (by norm_num) hstart fun i st hi hinv =>
      hinv.turn hlen (by omega) hi
  rw [buildMapCompressed, Exec.bind_of_eq_ok htables.valueSize_eq, compressedPages, hsub, hloop]
  rfl

/-- An unknown codec makes `BuildMap` throw, behind the pages. -/
theorem buildMapCompressed_unknownCompression (htype : type ≠ .unknown)
    (hlen : arr.compressedBlkSz.length = arr.numBlks) (hpos : 1 ≤ arr.numBlks)
    (hmax : arr.numBlks ≤ 2 ^ 31) :
    buildMapCompressed thrift name type .unknownCompression base64 arr =
      .error (.thrown "Unsupported data compression type") := by
  obtain ⟨valueSize, physical, converted, htables⟩ := exists_tables htype
  obtain ⟨st, hst, -, -⟩ := compressedPages_holds (L := ⟨thrift, valueSize⟩) hlen hpos
    hmax base64
  rw [buildMapCompressed, Exec.bind_of_eq_ok htables.valueSize_eq, Exec.bind_of_eq_ok hst,
    finishMap, appendFooter, Exec.bind_of_eq_ok htables.physical_eq,
    Exec.bind_of_eq_ok htables.converted_eq]
  rfl

/-- An overflow is neither a map nor an exception. -/
theorem not_keepsOrThrows_overflow : ¬KeepsOrThrows thrift type arr (.error .signedOverflow) := by
  rintro (⟨what, hwhat⟩ | ⟨m, valueSize, hm, -⟩)
  · cases hwhat
  · cases hm

/-- If `BuildMap` gets to the end, it throws since the footer is too long, or it keeps the sizes
exactly if they fit. -/
theorem keepsOrThrows_iff_of_footer {c : CompressionCodec} (hcodec : toParquetCodec codec = .ok c)
    (htype : type ≠ .unknown) (hname : name.length < 2 ^ 64)
    (hlen : arr.compressedBlkSz.length = arr.numBlks) (hpos : 1 ≤ arr.numBlks)
    (hmax : arr.numBlks ≤ 2 ^ 31) :
    KeepsOrThrows thrift type arr (buildMapCompressed thrift name type codec base64 arr) ↔
      FooterTooLong thrift name type codec arr ∨ SizesFit arr := by
  obtain ⟨valueSize, physical, converted, htables⟩ := exists_tables htype
  rcases Nat.lt_or_ge (Layout.footerBytes ⟨thrift, valueSize⟩
    ⟨name, physical, converted, c⟩ (compressedBlks arr)).length (2 ^ 32) with hshort | hlong
  · obtain ⟨m, hm, hmap⟩ :=
      buildMapCompressed_of_lt htables hcodec hlen hpos hmax hshort
    constructor
    · rintro (⟨what, hwhat⟩ | ⟨m', valueSize', hm', -, hkeeps⟩)
      · cases hm.symm.trans hwhat
      · obtain rfl := Except.ok.inj (hm.symm.trans hm')
        exact Or.inr (hmap.sizesFit hlen hpos hkeeps)
    · rintro (⟨valueSize', physical', converted', c', htables', hcodec', hlong⟩ | hfit)
      · exact Or.inl ⟨_, buildMapCompressed_of_le htables' hcodec' hlen hpos hmax hlong⟩
      · exact Or.inr ⟨m, valueSize, hm, htables.valueSize_eq,
          hmap.keepsSizes hfit hlen hmax hname hshort⟩
  · exact ⟨fun _ => Or.inl ⟨_, _, _, _, htables, hcodec, hlong⟩,
      fun _ => Or.inl ⟨_, buildMapCompressed_of_le htables hcodec hlen hpos hmax hlong⟩⟩

/-- A name of fewer than `2 ^ 31 - 256` characters leaves room for the rest of the footer. -/
theorem not_footerTooLong (hlen : arr.compressedBlkSz.length = arr.numBlks)
    (hmax : arr.numBlks ≤ 2 ^ 31) (hname : 2 * name.length + 512 < 2 ^ 32) :
    ¬FooterTooLong thrift name type codec arr := by
  rintro ⟨valueSize, physical, converted, c, -, -, hlong⟩
  have hle : (Layout.footerBytes ⟨thrift, valueSize⟩ ⟨name, physical, converted, c⟩
      (compressedBlks arr)).length ≤ 2 * name.length + 512 :=
    Layout.length_footerBytes_le (by dsimp only; omega)
      (fun b hb => fits_of_mem_compressedBlks hb) (by rw [length_compressedBlks, hlen]; exact hmax)
  omega

/-- **The map of a compressed array keeps all bits of the sizes in its header, or `BuildMap`
throws, if and only if** the sizes that pages have are below `2 ^ 31`: with more blocks than the
loop can count it does neither, and an unknown type or codec or a footer that is too long makes it
throw. -/
theorem keepsOrThrows_iff (thrift : Protocol) (name : Bytes) (type : DataType)
    (codec : CompressionType) (base64 : Bool) (arr : CompressedArray)
    (hname : name.length < 2 ^ 64) (hlen : arr.compressedBlkSz.length = arr.numBlks)
    (hpos : 1 ≤ arr.numBlks) (hn : arr.numBlks < 2 ^ 64) :
    (KeepsOrThrows thrift type arr (buildMapCompressed thrift name type codec base64 arr) ↔
      type = .unknown ∨ (arr.numBlks ≤ 2 ^ 31 ∧ (codec = .unknownCompression ∨
        FooterTooLong thrift name type codec arr ∨ SizesFit arr))) ∧
    (arr.numBlks ≤ 2 ^ 31 → 2 * name.length + 512 < 2 ^ 32 →
      ¬FooterTooLong thrift name type codec arr) := by
  refine ⟨?_, fun hmax hshort => not_footerTooLong hlen hmax hshort⟩
  by_cases htype : type = .unknown
  · subst htype
    exact ⟨fun _ => Or.inl rfl, fun _ => Or.inl ⟨_, rfl⟩⟩
  rw [or_iff_right htype]
  by_cases hmax : arr.numBlks ≤ 2 ^ 31
  · rw [and_iff_right hmax]
    by_cases hcodec : codec = .unknownCompression
    · subst hcodec
      exact ⟨fun _ => Or.inl rfl, fun _ =>
        Or.inl ⟨_, buildMapCompressed_unknownCompression htype hlen hpos hmax⟩⟩
    · obtain ⟨c, hc⟩ := exists_codec hcodec
      rw [or_iff_right hcodec]
      exact keepsOrThrows_iff_of_footer hc htype hname hlen hpos hmax
  · rw [buildMapCompressed_overflow htype hlen hn (by omega)]
    constructor
    · intro h
      exact absurd h not_keepsOrThrows_overflow
    · intro h
      exact absurd h.1 hmax

/-- The theorem at two blocks of integers. -/
theorem keepsOrThrows_iff_int32 :
    KeepsOrThrows compact .int32 ⟨2, 16, 8, [7, 3], 100⟩
      (buildMapCompressed compact (ascii "x") .int32 .zlib false ⟨2, 16, 8, [7, 3], 100⟩) :=
  (keepsOrThrows_iff compact (ascii "x") .int32 .zlib false ⟨2, 16, 8, [7, 3], 100⟩ (by decide) rfl
    (by decide) (by decide)).1.mpr
      (Or.inr ⟨by decide, Or.inr (Or.inr ⟨by decide, by decide, by decide⟩)⟩)

/-- A block of `2 ^ 32 + 7` bytes gets a page that takes it to have seven. -/
theorem not_keepsOrThrows_fourGibibytes :
    ¬KeepsOrThrows compact .int32 ⟨1, 16, 8, [2 ^ 32 + 7], 100⟩
      (buildMapCompressed compact (ascii "x") .int32 .zlib false
        ⟨1, 16, 8, [2 ^ 32 + 7], 100⟩) := by
  intro h
  rcases (keepsOrThrows_iff_of_footer rfl (by decide) (by decide) rfl (by decide)
    (by decide)).mp h with hlong | hfit
  · exact not_footerTooLong rfl (by decide) (by decide) hlong
  · exact absurd (hfit.compressedBlkSz_lt (2 ^ 32 + 7) (by decide)) (by decide)

end compressed

end VirParquet.Verify
