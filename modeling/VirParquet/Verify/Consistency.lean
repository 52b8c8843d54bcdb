import VirParquet.Verify.ParquetFile
import VirParquet.Verify.Pread

/-!
# Virtual files are self-consistent

The footer of a virtual file agrees with its pages: `Layout.selfConsistent` for any blocks whose
sizes are below `2 ^ 31`, where nothing is cut to 32 bits and no number turns negative, and
`buildMap_selfConsistent` for the files that `BuildMap` makes, read through `FileMap::Pread`.
-/

namespace VirParquet.Verify

open VirParquet.Found VirParquet.Found.Thrift VirParquet.Found.Base64 VirParquet.Model
  VirParquet.Spec

/-! ## The numbers of a page -/

/-- Both sizes of the block are non-negative as signed 32-bit numbers. -/
def Blk.Small (b : Blk) : Prop := b.compressedSize < 2 ^ 31 ∧ b.uncompressedSize < 2 ^ 31

/-- Small blocks fit. -/
theorem Blk.Small.fits {b : Blk} (h : b.Small) : b.Fits :=
  ⟨h.1.trans (by norm_num), h.2.trans (by norm_num)⟩

/-- The sum of numbers that are casts is the cast of the sum. -/
theorem sum_map_natCast {α : Type} {f : α → ℤ} {g : α → ℕ} {xs : List α}
    (h : ∀ x ∈ xs, f x = g x) : (xs.map f).sum = ((xs.map g).sum : ℕ) := by
  induction xs with
  | nil => rfl
  | cons x xs ih =>
      rw [List.map_cons, List.map_cons, List.sum_cons, List.sum_cons, Nat.cast_add,
        h x List.mem_cons_self, ih fun y hy => h y (List.mem_cons_of_mem _ hy)]

namespace Layout

variable {L : Layout} {col : Column} {payload : Bytes} {blks : List Blk}

/-- The header of a small block declares as many values as fit into it. -/
theorem numValues_header {b : Blk} (h : b.uncompressedSize < 2 ^ 31) :
    Parquet.numValues (L.header b) = (b.uncompressedSize / L.valueSize : ℕ) := by
  show Int.tdiv (toI32 b.uncompressedSize) L.valueSize = _
  rw [toI32_of_lt h, Int.ofNat_tdiv]

/-- The header of a small block declares its own numbers. -/
theorem header_of_small {b : Blk} (h : b.Small) :
    (L.header b).compressedPageSize = b.compressedSize ∧
      (L.header b).uncompressedPageSize = b.uncompressedSize ∧
      Parquet.numValues (L.header b) = (b.uncompressedSize / L.valueSize : ℕ) :=
  ⟨toI32_of_lt h.1, toI32_of_lt h.2, numValues_header h.2⟩

/-- **The footer of a file of small blocks agrees with its pages.** -/
theorem selfConsistent (hblks : ∀ b ∈ blks, b.Small) (hlen : blks.length ≤ 2 ^ 31)
    (hname : col.name.length < 2 ^ 64) (hshort : (L.footerBytes col blks).length < 2 ^ 32)
    (hpayload : payloadSize blks ≤ payload.length) :
    Parquet.SelfConsistent L.thrift (content payload (L.fileRegions col blks)) blks.length
      (L.file col payload blks) := by
  have hfits : ∀ b ∈ blks, b.Fits := fun b hb => (hblks b hb).fits
  have hcompressed : ∀ b ∈ blks, b.compressedSize < 2 ^ 31 := fun b hb => (hblks b hb).1
  obtain ⟨hlength, hhead, htail, hword⟩ :=
    Parquet.ends_of_written (L.content_fileRegions col payload blks)
  have hheader : ∀ b, L.headerSize b ≤ 96 := L.headerSize_le
  have hsum₁ : ∀ b ∈ blks, (L.headerSize b : ℤ) + (L.header b).compressedPageSize =
      (u32 (L.headerSize b + b.compressedSize) : ℕ) := by
    intro b hb
    have hsmall := hblks b hb
    have hle := hheader b
    rw [(header_of_small hsmall).1, u32_of_lt (by have := hsmall.1; omega), Nat.cast_add]
  have hsum₂ : ∀ b ∈ blks, (L.headerSize b : ℤ) + (L.header b).uncompressedPageSize =
      (u32 (L.headerSize b + b.uncompressedSize) : ℕ) := by
    intro b hb
    have hsmall := hblks b hb
    have hle := hheader b
    rw [(header_of_small hsmall).2.1, u32_of_lt (by have := hsmall.2; omega), Nat.cast_add]
  have hsum₃ : ∀ b ∈ blks,
      Parquet.numValues (L.header b) = (b.uncompressedSize / L.valueSize : ℕ) :=
    fun b hb => (header_of_small (hblks b hb)).2.2
  have hmap := fun f : ℕ → PageHeader → ℤ => @map_pages L payload ℤ f 4 0 blks
  exact
    { head_eq := hhead
      tail_eq := htail
      footer_length := by
        rw [hword, leNat_leBytes_of_lt (by omega), hlength]
        rfl
      walk := walkPages_content hcompressed hpayload
      read := readFile_content hfits hlen hname hshort hcompressed hpayload
      length_pages := L.length_pages 4 0 blks
      dataPageOffset_eq := rfl
      totalCompressedSize_eq :=
        (congrArg List.sum (hmap fun n h => n + h.compressedPageSize)).trans
          (sum_map_natCast hsum₁)
      totalUncompressedSize_eq :=
        (congrArg List.sum (hmap fun n h => n + h.uncompressedPageSize)).trans
          (sum_map_natCast hsum₂)
      numValues_eq :=
        (congrArg List.sum (hmap fun _ h => Parquet.numValues h)).trans (sum_map_natCast hsum₃)
      rowGroup_totalCompressedSize := rfl
      rowGroup_totalByteSize := rfl
      rowGroup_numRows := rfl
      numRows_eq := rfl }

/-- The file of a map, read through `FileMap::Pread`. -/
theorem IsMapOf.serves {base64 : Bool} {dataStart : ℕ} {m : FileMap}
    (h : L.IsMapOf col base64 dataStart blks m) {σ : Type} {dec : Decoder}
    {base : RandomAccessFile σ} {vtk : Bytes} (hbase : Delivers base64 base vtk)
    (hvtk : vtk.length < 2 ^ 63) (hstart : dataStart < 2 ^ 64)
    (hpayload : payloadSize blks ≤ (payloadOf dec base64 dataStart vtk).length) :
    Serves dec m base (content (payloadOf dec base64 dataStart vtk) (L.fileRegions col blks)) := by
  obtain ⟨hrep, rfl, rfl⟩ := h
  exact serves_content hrep hbase hvtk hstart fun r hr =>
    L.inside_of_mem_fileRegions col _ hpayload hr

end Layout

/-! ## The files of arrays -/

/-- The blocks of a compressed array whose sizes are below `2 ^ 31` are small. -/
theorem small_of_mem_compressedBlks {arr : CompressedArray}
    (hsizes : ∀ size ∈ arr.compressedBlkSz, size < 2 ^ 31) (hblkSz : arr.blkSz < 2 ^ 31)
    (hlast : arr.lastBlkSz < 2 ^ 31) {b : Blk} (hb : b ∈ compressedBlks arr) : b.Small := by
  obtain ⟨i, hi, rfl⟩ := List.mem_mapIdx.mp hb
  have hcut : ∀ n, u32 n ≤ n := fun n => Nat.mod_le _ _
  refine ⟨(hcut _).trans_lt (hsizes _ (List.getElem_mem hi)), (hcut _).trans_lt ?_⟩
  unfold uncompressedBlkSz
  split
  · exact hblkSz
  · exact hlast

/-- The blocks of an uncompressed array are small. -/
theorem small_of_mem_uncompressedBlks {arr : UncompressedArray} {b : Blk}
    (hb : b ∈ uncompressedBlks arr) : b.Small := by
  rcases List.mem_append.mp hb with hb | hb
  · obtain ⟨-, rfl⟩ := List.mem_replicate.mp hb
    exact ⟨by decide, by decide⟩
  · obtain rfl := List.mem_singleton.mp hb
    have : arr.lastBlkSz ≤ 32768 := by
      unfold UncompressedArray.lastBlkSz
      omega
    exact ⟨by dsimp only; omega, by dsimp only; omega⟩

/-- What `BuildMap` returned is the map of a self-consistent file of `n` pages, over every VTK file
that holds the payload; or the name was so long that the footer could not be serialized. -/
def YieldsParquet (thrift : Protocol) (name : Bytes) (base64 : Bool) (dataStart n payloadSize : ℕ)
    (r : Exec FileMap) : Prop :=
  ((∃ s, r = .error (serializeError thrift s)) ∧ 2 ^ 32 ≤ 2 * name.length + 512) ∨
    ∃ m, r = .ok m ∧
      ∀ (σ : Type) (dec : Decoder) (base : RandomAccessFile σ) (vtk : Bytes),
        vtk.length < 2 ^ 63 → Delivers base64 base vtk →
        payloadSize ≤ (payloadOf dec base64 dataStart vtk).length →
        ∃ V f, Serves dec m base V ∧ Parquet.SelfConsistent thrift V n f

/-- Maps of small blocks are maps of self-consistent files. -/
theorem Layout.IsMapOf.yieldsParquet {L : Layout} {col : Column} {base64 : Bool} {dataStart : ℕ}
    {blks : List Blk} {m : FileMap} (h : L.IsMapOf col base64 dataStart blks m)
    (hstart : dataStart < 2 ^ 64) (hblks : ∀ b ∈ blks, b.Small) (hlen : blks.length ≤ 2 ^ 31)
    (hname : col.name.length < 2 ^ 64) (hshort : (L.footerBytes col blks).length < 2 ^ 32) :
    YieldsParquet L.thrift col.name base64 dataStart blks.length (payloadSize blks) (.ok m) :=
  Or.inr ⟨m, rfl, fun _ _ _ _ hvtk hbase hpayload =>
    ⟨_, _, h.serves hbase hvtk hstart hpayload,
      selfConsistent hblks hlen hname hshort hpayload⟩⟩

/-- **The files that `BuildMap` makes are self-consistent Parquet files**: for compressed arrays
with sizes below `2 ^ 31` and for uncompressed arrays, of any type and codec that it supports. -/
theorem buildMap_selfConsistent (thrift : Protocol) (name : Bytes) (type : DataType)
    (base64 : Bool) (hname : name.length < 2 ^ 64) (htype : type ≠ .unknown) :
    (∀ (codec : CompressionType) (arr : CompressedArray), codec ≠ .unknownCompression →
      arr.dataStart < 2 ^ 64 → arr.compressedBlkSz.length = arr.numBlks →
      1 ≤ arr.numBlks → arr.numBlks ≤ 2 ^ 31 - 1 →
      (∀ size ∈ arr.compressedBlkSz, size < 2 ^ 31) → arr.blkSz < 2 ^ 31 →
      arr.lastBlkSz < 2 ^ 31 →
      YieldsParquet thrift name base64 arr.dataStart arr.numBlks arr.compressedBlkSz.sum
        (buildMapCompressed thrift name type codec base64 arr)) ∧
    ∀ arr : UncompressedArray, arr.dataStart < 2 ^ 64 → 1 ≤ arr.totalBytes →
      arr.totalBytes ≤ 2 ^ 45 →
      YieldsParquet thrift name base64 arr.dataStart ((arr.totalBytes + 32767) / 32768)
        arr.totalBytes (buildMapUncompressed thrift name type base64 arr) := by
  obtain ⟨valueSize, physical, converted, htables⟩ := exists_tables htype
  refine ⟨fun codec arr hcodec hstart hlen hpos hmax hsizes hblkSz hlast => ?_,
    fun arr hstart hpos hmax => ?_⟩
  · obtain ⟨c, hc⟩ := exists_codec hcodec
    have hblks : ∀ b ∈ compressedBlks arr, b.Small := fun b hb =>
      small_of_mem_compressedBlks hsizes hblkSz hlast hb
    have hlength : (compressedBlks arr).length = arr.numBlks := by
      rw [length_compressedBlks, hlen]
    have hpayload := payloadSize_compressedBlks fun size hsize =>
      (hsizes size hsize).trans (by norm_num)
    rcases Nat.lt_or_ge (Layout.footerBytes ⟨thrift, valueSize⟩
      ⟨name, physical, converted, c⟩ (compressedBlks arr)).length (2 ^ 32) with hshort | hlong
    · obtain ⟨m, hm, hmap⟩ := buildMapCompressed_of_lt htables hc hlen hpos
        (by omega) hshort
      rw [hm, ← hlength, ← hpayload]
      exact hmap.yieldsParquet hstart hblks (by omega) hname hshort
    · refine Or.inl ⟨⟨_, buildMapCompressed_of_le htables hc hlen hpos (by omega) hlong⟩, ?_⟩
      exact hlong.trans (Layout.length_footerBytes_le hname (fun b hb => (hblks b hb).fits)
        (by omega))
  · have hnum : arr.numBlks = (arr.totalBytes + 32767) / 32768 := numBlks_eq (by omega)
    have hlength : (uncompressedBlks arr).length = arr.numBlks :=
      length_uncompressedBlks (by omega)
    have hpayload := payloadSize_uncompressedBlks hpos (by omega)
    have hblks : ∀ b ∈ uncompressedBlks arr, b.Small := fun b hb =>
      small_of_mem_uncompressedBlks hb
    rcases Nat.lt_or_ge (Layout.footerBytes ⟨thrift, valueSize⟩
      ⟨name, physical, converted, .uncompressed⟩ (uncompressedBlks arr)).length (2 ^ 32)
      with hshort | hlong
    · obtain ⟨m, hm, hmap⟩ := buildMapUncompressed_of_lt htables
        (by omega : 1 ≤ arr.numBlks) (by omega) hshort
      rw [hm, ← hnum, ← hlength, ← hpayload]
      exact hmap.yieldsParquet hstart hblks (by omega) hname hshort
    · refine Or.inl ⟨⟨_, buildMapUncompressed_of_le htables (by omega) (by omega) hlong⟩, ?_⟩
      exact hlong.trans (Layout.length_footerBytes_le hname (fun b hb => (hblks b hb).fits)
        (by omega))

/-- The theorem at two blocks of integers, and at an array of two pages. -/
theorem buildMap_selfConsistent_int32 :
    YieldsParquet compact (ascii "x") false 100 2 10
        (buildMapCompressed compact (ascii "x") .int32 .zlib false ⟨2, 16, 8, [7, 3], 100⟩) ∧
      YieldsParquet compact (ascii "x") false 100 2 40000
        (buildMapUncompressed compact (ascii "x") .int32 false ⟨40000, 100⟩) :=
  ⟨(buildMap_selfConsistent compact (ascii "x") .int32 false (by decide) (by decide)).1 .zlib
      ⟨2, 16, 8, [7, 3], 100⟩ (by decide) (by decide) rfl (by decide) (by decide) (by decide)
      (by decide) (by decide),
    (buildMap_selfConsistent compact (ascii "x") .int32 false (by decide) (by decide)).2
      ⟨40000, 100⟩ (by decide) (by decide) (by decide)⟩

end VirParquet.Verify
