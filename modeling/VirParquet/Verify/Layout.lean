import VirParquet.Model.BuildMap

/-!
# The layout of a virtual Parquet file

What the loops of `BuildMap` do to their variables. A page is described by the two sizes of its
block, `Blk`; `Layout.bodyRegions` are the regions of the file up to the footer for a list of
blocks, and `Layout.Holds` is the invariant of the loops: the builder stands for these regions, and
the totals are the sums over the blocks.

`Layout.Holds.appendPage` is the step, `compressedPages_holds` and `uncompressedPages_holds` are the
runs, for any block sizes, and `Layout.finishMap_of_lt` is the end of the file.
-/

namespace VirParquet.Verify

open VirParquet.Found VirParquet.Found.Thrift VirParquet.Model

/-! ## Blocks and their regions -/

/-- The block of a page: its size in the VTK file and its size after decompression. -/
structure Blk where
  compressedSize : ℕ
  uncompressedSize : ℕ
  deriving DecidableEq, Repr

/-- Both sizes of the block are 32-bit numbers. -/
def Blk.Fits (b : Blk) : Prop := b.compressedSize < 2 ^ 32 ∧ b.uncompressedSize < 2 ^ 32

/-- What all pages of a file have in common. -/
structure Layout where
  thrift : Protocol
  valueSize : ℕ

namespace Layout

variable (L : Layout)

/-- The page header of a block, compressed or not. -/
def header (b : Blk) : PageHeader :=
  pageHeader L.valueSize b.compressedSize b.uncompressedSize true

/-- The bytes of a block's page header. -/
def headerBytes (b : Blk) : Bytes := L.thrift.write (L.header b).fields

/-- The length of a block's page header. -/
def headerSize (b : Blk) : ℕ := (L.headerBytes b).length

/-- The regions of blocks whose payload begins at `offset`. -/
def blkRegions (offset : ℕ) : List Blk → List Region
  | [] => []
  | b :: blks => .direct (L.headerBytes b) :: .mapped offset b.compressedSize ::
      blkRegions (offset + b.compressedSize) blks

/-- The regions of a file up to its footer. -/
def bodyRegions (blks : List Blk) : List Region := .direct par1 :: L.blkRegions 0 blks

/-- The payload bytes of blocks. -/
def payloadSize (blks : List Blk) : ℕ := (blks.map Blk.compressedSize).sum

/-- The sum of header lengths and compressed sizes, each cut to 32 bits. -/
def totalCompressedSize (blks : List Blk) : ℕ :=
  (blks.map fun b => u32 (L.headerSize b + b.compressedSize)).sum

/-- The sum of header lengths and uncompressed sizes, each cut to 32 bits. -/
def totalUncompressedSize (blks : List Blk) : ℕ :=
  (blks.map fun b => u32 (L.headerSize b + b.uncompressedSize)).sum

/-- The number of values of all blocks. -/
def totalCount (blks : List Blk) : ℕ := (blks.map fun b => b.uncompressedSize / L.valueSize).sum

/-! ## Page headers -/

/-- Truncated division keeps the width. -/
theorem isI32_tdiv {a : ℤ} (h : IsI32 a) (b : ℕ) : IsI32 (Int.tdiv a b) := by
  obtain ⟨hlow, hup⟩ := h
  have habs : (Int.tdiv a b).natAbs ≤ a.natAbs := by
    rw [Int.natAbs_tdiv]
    exact Nat.div_le_self _ _
  rcases le_or_gt 0 a with hpos | hneg
  · have := Int.tdiv_nonneg hpos (Int.natCast_nonneg b)
    exact ⟨by omega, by omega⟩
  · have : 0 ≤ Int.tdiv (-a) b := Int.tdiv_nonneg (by omega) (Int.natCast_nonneg b)
    rw [Int.neg_tdiv] at this
    exact ⟨by omega, by omega⟩

/-- A page header can be written, whatever its sizes. -/
theorem wellFormed_header (b : Blk) : (L.header b).fields.WellFormed := by
  refine PageHeader.wellFormed_fields (isI32_toI32 _) (isI32_toI32 _) ?_
  rintro v2 hv2
  obtain rfl := Option.some.inj hv2
  have hvalues := isI32_tdiv (isI32_toI32 b.uncompressedSize) L.valueSize
  have hzero : IsI32 0 := by decide
  exact DataPageHeaderV2.wellFormed_fields hvalues hzero hvalues hzero hzero

/-- A page header is short. -/
theorem headerSize_le (b : Blk) : L.headerSize b ≤ 96 := by
  refine (L.thrift.length_write_le _ (L.wellFormed_header b)).trans ?_
  simp [header, pageHeader, PageHeader.fields, DataPageHeaderV2.fields, Fields.ofList, ifSet,
    Fields.sizeBound, Value.sizeBound, Value.enum]

/-- A page header is not empty. -/
theorem headerSize_pos (b : Blk) : 0 < L.headerSize b :=
  List.length_pos_iff.mpr (L.thrift.write_ne_nil _)

/-- The serializer takes every page header. -/
theorem serializeToBuffer_header (b : Blk) :
    serializeToBuffer L.thrift (L.header b).fields = .ok (L.headerBytes b) := by
  have := L.headerSize_le b
  unfold headerSize headerBytes at this
  exact serializeToBuffer_of_lt L.thrift (by omega)

/-! ## Sizes -/

/-- A block more adds its header and its bytes to the regions. -/
theorem blkRegions_append_singleton (offset : ℕ) (blks : List Blk) (b : Blk) :
    L.blkRegions offset (blks ++ [b]) = L.blkRegions offset blks ++
      [.direct (L.headerBytes b), .mapped (offset + payloadSize blks) b.compressedSize] := by
  induction blks generalizing offset with
  | nil => simp [blkRegions, payloadSize]
  | cons x blks ih => simp [blkRegions, ih, payloadSize, Nat.add_assoc]

/-- The regions of blocks are as long as the headers and the blocks. -/
theorem totalSize_blkRegions (offset : ℕ) (blks : List Blk) :
    totalSize (L.blkRegions offset blks) =
      (blks.map fun b => L.headerSize b + b.compressedSize).sum := by
  induction blks generalizing offset with
  | nil => rfl
  | cons b blks ih =>
      have := ih (offset + b.compressedSize)
      simp only [totalSize, blkRegions, List.map_cons, List.sum_cons, Region.size] at this ⊢
      rw [this, headerSize, Nat.add_assoc]

/-- A sum of bounded numbers is bounded. -/
theorem sum_map_le {α : Type} {f : α → ℕ} {bound : ℕ} {xs : List α} (h : ∀ x ∈ xs, f x ≤ bound) :
    (xs.map f).sum ≤ xs.length * bound := by
  have := List.sum_le_card_nsmul (xs.map f) bound (by simpa using h)
  simpa using this

/-- The payload of few blocks is addressable. -/
theorem payloadSize_le {blks : List Blk} (h : ∀ b ∈ blks, b.Fits) :
    payloadSize blks ≤ blks.length * (2 ^ 32 - 1) :=
  sum_map_le fun b hb => Nat.le_sub_one_of_lt (h b hb).1

/-- The body of a file of bounded blocks is bounded. -/
theorem totalSize_bodyRegions_le_of_lt {blks : List Blk} {bound : ℕ}
    (h : ∀ b ∈ blks, b.compressedSize < bound) :
    totalSize (L.bodyRegions blks) ≤ 4 + blks.length * (bound + 95) := by
  have hsum : (blks.map fun b => L.headerSize b + b.compressedSize).sum ≤
      blks.length * (bound + 95) := by
    refine sum_map_le fun b hb => ?_
    have := L.headerSize_le b
    have := h b hb
    omega
  have hbody : totalSize (L.bodyRegions blks) = 4 + totalSize (L.blkRegions 0 blks) := by
    simp [bodyRegions, totalSize, par1, ascii]
  rw [hbody, totalSize_blkRegions]
  omega

/-- The body of a file of blocks that fit in 32 bits is bounded. -/
theorem totalSize_bodyRegions_le {blks : List Blk} (h : ∀ b ∈ blks, b.Fits) :
    totalSize (L.bodyRegions blks) ≤ 4 + blks.length * (2 ^ 32 + 95) :=
  L.totalSize_bodyRegions_le_of_lt fun b hb => (h b hb).1

/-- The direct bytes of the regions of blocks are their headers. -/
theorem length_directBytes_blkRegions_le (offset : ℕ) (blks : List Blk) :
    (directBytes (L.blkRegions offset blks)).length ≤ blks.length * 96 := by
  induction blks generalizing offset with
  | nil => simp [blkRegions, directBytes]
  | cons b blks ih =>
      have hrest := ih (offset + b.compressedSize)
      have hhead := L.headerSize_le b
      unfold headerSize at hhead
      simp only [directBytes, blkRegions, List.map_cons, List.flatten_cons, Region.directBytes,
        List.length_append, List.length_nil, List.length_cons] at hrest ⊢
      omega

/-- The direct bytes of the body are few. -/
theorem length_directBytes_bodyRegions_le (blks : List Blk) :
    (directBytes (L.bodyRegions blks)).length ≤ 4 + blks.length * 96 := by
  have := L.length_directBytes_blkRegions_le 0 blks
  have hbody : (directBytes (L.bodyRegions blks)).length =
      4 + (directBytes (L.blkRegions 0 blks)).length := by
    simp [bodyRegions, directBytes, par1, ascii]
    omega
  omega

/-- The mapped regions of blocks are addressable if their payload is. -/
theorem addressable_of_mem_blkRegions {blks : List Blk} {offset : ℕ}
    (h : offset + payloadSize blks ≤ 2 ^ 63 - 2) {r : Region}
    (hr : r ∈ L.blkRegions offset blks) : r.Addressable := by
  induction blks generalizing offset with
  | nil => cases hr
  | cons b blks ih =>
      simp only [payloadSize, List.map_cons, List.sum_cons] at h
      rcases List.mem_cons.mp hr with rfl | hr
      · trivial
      · rcases List.mem_cons.mp hr with rfl | hr
        · exact (Nat.le_add_right _ _).trans h
        · exact ih (by simp only [payloadSize]; omega) hr

/-! ## The invariant of the loops -/

/-- What holds of `BuildMap`'s variables when it has appended the pages of `blks`. The offset is
not part of it: the block behind the loop does not move it. -/
structure Holds (base64 : Bool) (dataStart : ℕ) (blks : List Blk) (st : BuildState) : Prop where
  builder_represents : st.builder.Represents (L.bodyRegions blks)
  base64_eq : st.builder.pendingBase64Decoding = base64
  dataStart_eq : st.builder.dataStart = dataStart
  totalCompressedSize_eq : st.totalCompressedSize = L.totalCompressedSize blks
  totalUncompressedSize_eq : st.totalUncompressedSize = L.totalUncompressedSize blks
  totalCount_eq : st.totalCount = L.totalCount blks

variable {L} {base64 : Bool} {dataStart : ℕ} {blks : List Blk} {st : BuildState}

/-- Before the first page the file has its four bytes. -/
theorem holds_start (base64 : Bool) (dataStart : ℕ) :
    L.Holds base64 dataStart [] (.start base64 dataStart) := by
  obtain ⟨b, hb, hrep, hbase64, hstart⟩ := (MapBuilder.new_represents base64 dataStart).add
    (r := .direct par1) trivial (by decide) (by decide)
  obtain rfl := Except.ok.inj hb
  exact ⟨hrep, hbase64, hstart, rfl, rfl, rfl⟩

/-- **Appending a page** adds its header and its block to the file and cannot fail before the
counter of the loop would. -/
theorem Holds.appendPage (h : L.Holds base64 dataStart blks st) (hblks : ∀ b ∈ blks, b.Fits)
    (hlen : blks.length < 2 ^ 31) {b : Blk} (hb : b.Fits)
    (hoffset : st.offset = payloadSize blks) (isCompressed : Bool) :
    ∃ builder, Model.appendPage L.thrift st.builder L.valueSize st.offset b.compressedSize
        b.uncompressedSize isCompressed = .ok (L.headerSize b, builder) ∧
      builder.Represents (L.bodyRegions (blks ++ [b])) ∧
      builder.pendingBase64Decoding = base64 ∧ builder.dataStart = dataStart := by
  have htotal := L.totalSize_bodyRegions_le hblks
  have hdirect := L.length_directBytes_bodyRegions_le blks
  have hpayload := payloadSize_le hblks
  have hheader := L.headerSize_le b
  have hcompressed := hb.1
  obtain ⟨b₁, hb₁, hrep₁, hbase64₁, hstart₁⟩ := h.builder_represents.add
    (r := .direct (L.headerBytes b)) trivial
    (by simp only [Region.size]; unfold headerSize at hheader; omega) (by omega)
  obtain rfl := Except.ok.inj hb₁
  have htotal₁ := totalSize_append_singleton (L.bodyRegions blks) (.direct (L.headerBytes b))
  have hdirect₁ := directBytes_append_singleton (L.bodyRegions blks) (.direct (L.headerBytes b))
  obtain ⟨b₂, hb₂, hrep₂, hbase64₂, hstart₂⟩ := hrep₁.add
    (r := .mapped st.offset b.compressedSize) (by unfold Region.Addressable; omega)
    (by rw [htotal₁]; simp only [Region.size]; unfold headerSize at hheader; omega)
    (by
      rw [hdirect₁, List.length_append]
      unfold headerSize at hheader
      simp only [Region.directBytes]
      omega)
  refine ⟨b₂, ?_, ?_, (hbase64₂.trans hbase64₁).trans h.base64_eq,
    (hstart₂.trans hstart₁).trans h.dataStart_eq⟩
  · have hbuf := L.serializeToBuffer_header b
    rw [Model.appendPage, pageHeader_isCompressed]
    exact (Exec.bind_of_eq_ok hbuf _).trans (Exec.bind_of_eq_ok hb₂ _)
  · rw [bodyRegions, blkRegions_append_singleton, Nat.zero_add, ← hoffset]
    simpa [bodyRegions] using hrep₂

/-- The compressed total of few blocks fits. -/
theorem totalCompressedSize_le (L : Layout) (blks : List Blk) :
    L.totalCompressedSize blks ≤ blks.length * (2 ^ 32 - 1) :=
  sum_map_le fun _ _ => Nat.le_sub_one_of_lt (u32_lt _)

/-- The uncompressed total of few blocks fits. -/
theorem totalUncompressedSize_le (L : Layout) (blks : List Blk) :
    L.totalUncompressedSize blks ≤ blks.length * (2 ^ 32 - 1) :=
  sum_map_le fun _ _ => Nat.le_sub_one_of_lt (u32_lt _)

/-- The number of values of few blocks fits. -/
theorem totalCount_le (L : Layout) {blks : List Blk} (h : ∀ b ∈ blks, b.Fits) :
    L.totalCount blks ≤ blks.length * (2 ^ 32 - 1) :=
  sum_map_le fun b hb => (Nat.div_le_self _ _).trans (Nat.le_sub_one_of_lt (h b hb).2)

/-- A block more adds its numbers to the totals. -/
theorem totals_append_singleton (L : Layout) (blks : List Blk) (b : Blk) :
    L.totalCompressedSize (blks ++ [b]) =
        L.totalCompressedSize blks + u32 (L.headerSize b + b.compressedSize) ∧
      L.totalUncompressedSize (blks ++ [b]) =
        L.totalUncompressedSize blks + u32 (L.headerSize b + b.uncompressedSize) ∧
      L.totalCount (blks ++ [b]) = L.totalCount blks + b.uncompressedSize / L.valueSize ∧
      payloadSize (blks ++ [b]) = payloadSize blks + b.compressedSize := by
  simp [totalCompressedSize, totalUncompressedSize, totalCount, payloadSize]

/-- A sum that fits does not overflow. -/
theorem addI64_natCast {a b : ℕ} (h : a + b < 2 ^ 63) :
    addI64 (a : ℤ) (b : ℤ) = .ok ((a + b : ℕ) : ℤ) := by
  rw [addI64_eq_ok (by omega) (by omega), Nat.cast_add]

/-- A block's number is added to a total that leaves room for it. -/
theorem addU64_natCast {a b : ℕ} (h : a + b < 2 ^ 63) :
    addU64 (a : ℤ) b = ((a + b : ℕ) : ℤ) := by
  rw [addU64, ofI64_natCast (by omega), toI64_of_lt h]

/-! ## Compressed arrays -/

/-- **A page of a compressed array**: its size is read, its page appended, its numbers added. -/
theorem Holds.compressedPage (h : L.Holds base64 dataStart blks st)
    (hblks : ∀ b ∈ blks, b.Fits) (hlen : blks.length < 2 ^ 31)
    (hoffset : st.offset = payloadSize blks) {arr : CompressedArray} {i size : ℕ}
    (hi : arr.compressedBlkSz[i]? = some size) (uncompressedBlkSz : ℕ) :
    ∃ st', Model.compressedPage L.thrift arr L.valueSize i uncompressedBlkSz st =
        .ok (u32 size, st') ∧
      L.Holds base64 dataStart (blks ++ [⟨u32 size, u32 uncompressedBlkSz⟩]) st' ∧
      st'.offset = st.offset ∧ st'.reads = st.reads ++ [i] := by
  have hb : Blk.Fits ⟨u32 size, u32 uncompressedBlkSz⟩ := ⟨u32_lt _, u32_lt _⟩
  obtain ⟨builder, happend, hrep, hbase64, hstart⟩ := h.appendPage hblks hlen hb hoffset true
  set b : Blk := ⟨u32 size, u32 uncompressedBlkSz⟩ with hbdef
  obtain ⟨hc, hu, hn, -⟩ := totals_append_singleton L blks b
  have hcompressed := totalCompressedSize_le L blks
  have huncompressed := totalUncompressedSize_le L blks
  have hcount := totalCount_le L hblks
  have hcut := u32_lt (L.headerSize b + b.compressedSize)
  have hcut' := u32_lt (L.headerSize b + b.uncompressedSize)
  have hvalues := Nat.div_le_self b.uncompressedSize L.valueSize
  have hfits := hb.2
  have hadd₁ := addI64_natCast (a := L.totalCompressedSize blks)
    (b := u32 (L.headerSize b + b.compressedSize)) (by omega)
  have hadd₂ := addI64_natCast (a := L.totalUncompressedSize blks)
    (b := u32 (L.headerSize b + b.uncompressedSize)) (by omega)
  have hadd₃ := addI64_natCast (a := L.totalCount blks)
    (b := b.uncompressedSize / L.valueSize) (by omega)
  rw [← h.totalCompressedSize_eq, ← hc] at hadd₁
  rw [← h.totalUncompressedSize_eq, ← hu] at hadd₂
  rw [← h.totalCount_eq, ← hn] at hadd₃
  rw [Model.compressedPage, Exec.bind_of_eq_ok (vecAt_eq_ok hi)]
  dsimp only
  rw [Exec.bind_of_eq_ok happend]
  dsimp only
  rw [Exec.bind_of_eq_ok hadd₁, Exec.bind_of_eq_ok hadd₂, Exec.bind_of_eq_ok hadd₃]
  exact ⟨_, rfl, ⟨hrep, hbase64, hstart, rfl, rfl, rfl⟩, rfl, rfl⟩

end Layout

/-- The size of block `i` before compression. -/
def uncompressedBlkSz (arr : CompressedArray) (i : ℕ) : ℕ :=
  if i + 1 < arr.numBlks then arr.blkSz else arr.lastBlkSz

/-- The blocks of the pages of a compressed array: the sizes of its header, cut to 32 bits. -/
def compressedBlks (arr : CompressedArray) : List Blk :=
  arr.compressedBlkSz.mapIdx fun i size => ⟨u32 size, u32 (uncompressedBlkSz arr i)⟩

/-- There is a block for each size. -/
@[simp] theorem length_compressedBlks (arr : CompressedArray) :
    (compressedBlks arr).length = arr.compressedBlkSz.length := List.length_mapIdx

/-- The blocks fit, whatever the header says. -/
theorem fits_of_mem_compressedBlks {arr : CompressedArray} {b : Blk}
    (h : b ∈ compressedBlks arr) : b.Fits := by
  obtain ⟨i, hi, rfl⟩ := List.mem_mapIdx.mp h
  exact ⟨u32_lt _, u32_lt _⟩

/-- The next block has the sizes of its index. -/
theorem take_succ_compressedBlks {arr : CompressedArray} {i : ℕ}
    (hi : i < arr.compressedBlkSz.length) :
    (compressedBlks arr).take (i + 1) = (compressedBlks arr).take i ++
      [⟨u32 arr.compressedBlkSz[i], u32 (uncompressedBlkSz arr i)⟩] := by
  rw [List.take_succ_eq_append_getElem (by simpa using hi)]
  unfold compressedBlks
  rw [List.getElem_mapIdx]

/-- The sizes of the blocks in the VTK file are those of the header, cut to 32 bits. -/
theorem map_compressedSize_compressedBlks (arr : CompressedArray) :
    (compressedBlks arr).map Blk.compressedSize = arr.compressedBlkSz.map u32 := by
  refine List.ext_getElem (by simp) fun i hi hi' => ?_
  simp [compressedBlks]

/-- The payload of blocks whose sizes are not cut is as long as these say. -/
theorem payloadSize_compressedBlks {arr : CompressedArray}
    (h : ∀ size ∈ arr.compressedBlkSz, size < 2 ^ 32) :
    Layout.payloadSize (compressedBlks arr) = arr.compressedBlkSz.sum := by
  have hmap : arr.compressedBlkSz.map u32 = arr.compressedBlkSz :=
    (List.map_congr_left fun size hsize => u32_of_lt (h size hsize)).trans (List.map_id _)
  rw [Layout.payloadSize, map_compressedSize_compressedBlks, hmap]

/-- The sizes of the blocks after decompression are the full one for all but the last. -/
theorem map_uncompressedSize_compressedBlks {arr : CompressedArray}
    (hlen : arr.compressedBlkSz.length = arr.numBlks) (hpos : 1 ≤ arr.numBlks) :
    (compressedBlks arr).map Blk.uncompressedSize =
      List.replicate (arr.numBlks - 1) (u32 arr.blkSz) ++ [u32 arr.lastBlkSz] := by
  refine List.ext_getElem (by simp; omega) fun i hi hi' => ?_
  rcases Nat.lt_or_ge i (arr.numBlks - 1) with hlt | hge
  · rw [List.getElem_append_left (by simpa using hlt)]
    simp [compressedBlks, uncompressedBlkSz, show i + 1 < arr.numBlks by omega]
  · rw [List.getElem_append_right (by simpa using hge)]
    simp [compressedBlks, uncompressedBlkSz, show ¬i + 1 < arr.numBlks by omega]

section compressed

variable {L : Layout} {arr : CompressedArray} {base64 : Bool} {st : BuildState} {i : ℕ}

/-- What holds before turn `i` of the loop: the pages of the first `i` blocks stand, the offset is
behind them, and their sizes were read in order. -/
structure CompressedInvariant (L : Layout) (arr : CompressedArray) (base64 : Bool) (i : ℕ)
    (st : BuildState) : Prop where
  holds : L.Holds base64 arr.dataStart ((compressedBlks arr).take i) st
  offset_eq : st.offset = Layout.payloadSize ((compressedBlks arr).take i)
  reads_eq : st.reads = List.range i

/-- Block `i` of a file gets its page. -/
theorem CompressedInvariant.page (h : CompressedInvariant L arr base64 i st)
    (hi : i < arr.compressedBlkSz.length) (hmax : i < 2 ^ 31) :
    ∃ st', compressedPage L.thrift arr L.valueSize i (uncompressedBlkSz arr i) st =
        .ok (u32 arr.compressedBlkSz[i], st') ∧
      L.Holds base64 arr.dataStart ((compressedBlks arr).take (i + 1)) st' ∧
      st'.offset = st.offset ∧ st'.reads = List.range (i + 1) := by
  have hlength := List.length_take_le i (compressedBlks arr)
  obtain ⟨st', hst', hholds, hoffset, hreads⟩ := h.holds.compressedPage
    (fun b hb => fits_of_mem_compressedBlks (List.mem_of_mem_take hb)) (by omega) h.offset_eq
    (List.getElem?_eq_getElem hi) (uncompressedBlkSz arr i)
  refine ⟨st', hst', ?_, hoffset, ?_⟩
  · rwa [take_succ_compressedBlks hi]
  · rw [hreads, h.reads_eq, List.range_succ]

/-- **A turn of the loop over the blocks** keeps the invariant. -/
theorem CompressedInvariant.turn (h : CompressedInvariant L arr base64 i st)
    (hlen : arr.compressedBlkSz.length = arr.numBlks)
    (hi : i + 1 < arr.numBlks) (hmax : i < 2 ^ 31) :
    ∃ st', compressedTurn L.thrift arr L.valueSize i st = .ok st' ∧
      CompressedInvariant L arr base64 (i + 1) st' := by
  have hlt : i < arr.compressedBlkSz.length := by omega
  obtain ⟨st', hst', hholds, hoffset, hreads⟩ := h.page hlt hmax
  have hpayload := Layout.payloadSize_le fun b (hb : b ∈ (compressedBlks arr).take i) =>
    fits_of_mem_compressedBlks (List.mem_of_mem_take hb)
  have hlength := List.length_take_le i (compressedBlks arr)
  have hcut := u32_lt arr.compressedBlkSz[i]
  have hsize : uncompressedBlkSz arr i = arr.blkSz := if_pos hi
  rw [hsize] at hst'
  refine ⟨_, Exec.bind_of_eq_ok hst' _, ⟨hholds.1, hholds.2, hholds.3, hholds.4, hholds.5,
    hholds.6⟩, ?_, hreads⟩
  obtain ⟨-, -, -, hsum⟩ := Layout.totals_append_singleton L ((compressedBlks arr).take i)
    ⟨u32 arr.compressedBlkSz[i], u32 (uncompressedBlkSz arr i)⟩
  rw [take_succ_compressedBlks hlt, hsum]
  show u64 (st'.offset + u32 arr.compressedBlkSz[i]) = _
  rw [hoffset, h.offset_eq, u64_of_lt]
  have : ((compressedBlks arr).take i).length * (2 ^ 32 - 1) ≤ i * (2 ^ 32 - 1) :=
    Nat.mul_le_mul_right _ hlength
  omega

/-- **The pages of a compressed array**, for any sizes in its header: one for each block, the sizes
read in order and each once. -/
theorem compressedPages_holds
    (hlen : arr.compressedBlkSz.length = arr.numBlks) (hpos : 1 ≤ arr.numBlks)
    (hmax : arr.numBlks ≤ 2 ^ 31) (base64 : Bool) :
    ∃ st, compressedPages L.thrift base64 arr L.valueSize = .ok st ∧
      L.Holds base64 arr.dataStart (compressedBlks arr) st ∧ st.reads = List.range arr.numBlks := by
  have hsub : subU64 arr.numBlks 1 = arr.numBlks - 1 := subU64_of_le hpos (by omega)
  have hstart : CompressedInvariant L arr base64 0 (.start base64 arr.dataStart) :=
    ⟨Layout.holds_start base64 arr.dataStart, rfl, rfl⟩
  obtain ⟨st, hst, hinv⟩ : ∃ st, countUp (2 ^ 31) .signedOverflow (arr.numBlks - 1)
      (compressedTurn L.thrift arr L.valueSize) 0 (.start base64 arr.dataStart) = .ok st ∧
        CompressedInvariant L arr base64 (arr.numBlks - 1) st :=
    countUp_total _ (by omega) (Nat.zero_le _) hstart fun i st hi h =>
      h.turn hlen (by omega) (by omega)
  have hlast : arr.numBlks - 1 < arr.compressedBlkSz.length := by omega
  obtain ⟨st', hst', hholds, -, hreads⟩ := hinv.page hlast (by omega)
  have hsize : uncompressedBlkSz arr (arr.numBlks - 1) = arr.lastBlkSz := if_neg (by omega)
  rw [hsize] at hst'
  rw [Nat.sub_add_cancel hpos] at hholds hreads
  rw [List.take_of_length_le (by simp [hlen])] at hholds
  refine ⟨st', ?_, hholds, hreads⟩
  rw [compressedPages, hsub, Exec.bind_of_eq_ok hst, Exec.bind_of_eq_ok hst']

end compressed

/-! ## Uncompressed arrays -/

/-- The blocks of the pages of an uncompressed array. -/
def uncompressedBlks (arr : UncompressedArray) : List Blk :=
  List.replicate (arr.numBlks - 1) ⟨32768, 32768⟩ ++ [⟨arr.lastBlkSz, arr.lastBlkSz⟩]

section uncompressed

variable {L : Layout} {arr : UncompressedArray} {base64 : Bool} {dataStart : ℕ} {blks : List Blk}
  {st : BuildState}

/-- **A page of an uncompressed array** is appended, and its numbers are added. -/
theorem Layout.Holds.uncompressedPage (h : L.Holds base64 dataStart blks st)
    (hblks : ∀ b ∈ blks, b.Fits) (hlen : blks.length < 2 ^ 31)
    (hoffset : st.offset = payloadSize blks) {blkSz : ℕ} (hblkSz : blkSz ≤ 32768) :
    ∃ st', Model.uncompressedPage L.thrift L.valueSize blkSz st = .ok st' ∧
      L.Holds base64 dataStart (blks ++ [⟨blkSz, blkSz⟩]) st' ∧ st'.offset = st.offset := by
  have hb : Blk.Fits ⟨blkSz, blkSz⟩ := ⟨by dsimp only; omega, by dsimp only; omega⟩
  obtain ⟨builder, happend, hrep, hbase64, hstart⟩ := h.appendPage hblks hlen hb hoffset false
  set b : Blk := ⟨blkSz, blkSz⟩ with hbdef
  obtain ⟨hc, hu, hn, -⟩ := totals_append_singleton L blks b
  have hcompressed := totalCompressedSize_le L blks
  have huncompressed := totalUncompressedSize_le L blks
  have hcount := totalCount_le L hblks
  have hheader := L.headerSize_le b
  have hvalues := Nat.div_le_self blkSz L.valueSize
  have hcut : u32 (L.headerSize b + blkSz) = L.headerSize b + blkSz := u32_of_lt (by omega)
  have hadd₁ := addU64_natCast (a := L.totalCompressedSize blks) (b := L.headerSize b + blkSz)
    (by omega)
  have hadd₂ := addU64_natCast (a := L.totalUncompressedSize blks) (b := L.headerSize b + blkSz)
    (by omega)
  have hadd₃ := addU64_natCast (a := L.totalCount blks) (b := blkSz / L.valueSize) (by omega)
  rw [← h.totalCompressedSize_eq] at hadd₁
  rw [← h.totalUncompressedSize_eq] at hadd₂
  rw [← h.totalCount_eq] at hadd₃
  have hblk : u32 blkSz = blkSz := u32_of_lt (by omega)
  rw [Model.uncompressedPage, hblk, Exec.bind_of_eq_ok happend]
  refine ⟨_, rfl, ⟨hrep, hbase64, hstart, ?_, ?_, ?_⟩, rfl⟩
  · rw [hc, hcut]
    exact hadd₁
  · rw [hu, hcut]
    exact hadd₂
  · rw [hn]
    exact hadd₃

/-- What holds before turn `i` of the loop: `i` full pages stand, and the offset is behind them. -/
structure UncompressedInvariant (L : Layout) (base64 : Bool) (dataStart i : ℕ) (st : BuildState) :
    Prop where
  holds : L.Holds base64 dataStart (List.replicate i ⟨32768, 32768⟩) st
  offset_eq : st.offset = 32768 * i

/-- Full pages have 32 KiB of payload each. -/
theorem payloadSize_replicate (i : ℕ) :
    Layout.payloadSize (List.replicate i ⟨32768, 32768⟩) = 32768 * i := by
  simp [Layout.payloadSize, Nat.mul_comm]

/-- Full pages fit. -/
theorem fits_of_mem_replicate {i : ℕ} {b : Blk} (h : b ∈ List.replicate i ⟨32768, 32768⟩) :
    b.Fits := by
  obtain ⟨-, rfl⟩ := List.mem_replicate.mp h
  exact ⟨by decide, by decide⟩

/-- **A turn of the loop over the full blocks** keeps the invariant. -/
theorem UncompressedInvariant.turn {i : ℕ} (h : UncompressedInvariant L base64 dataStart i st)
    (hi : i < 2 ^ 31) :
    ∃ st', uncompressedTurn L.thrift L.valueSize i st = .ok st' ∧
      UncompressedInvariant L base64 dataStart (i + 1) st' := by
  obtain ⟨st', hst', hholds, hoffset⟩ := h.holds.uncompressedPage
    (fun b hb => fits_of_mem_replicate hb) (by simpa using hi)
    (by rw [payloadSize_replicate]; exact h.offset_eq) (le_refl 32768)
  refine ⟨_, Exec.bind_of_eq_ok hst' _, ?_, ?_⟩
  · rw [List.replicate_succ']
    exact ⟨hholds.1, hholds.2, hholds.3, hholds.4, hholds.5, hholds.6⟩
  · show u64 (st'.offset + 32768) = _
    rw [hoffset, h.offset_eq, u64_of_lt (by omega)]
    omega

/-- **The pages of an uncompressed array** are one for each block. -/
theorem uncompressedPages_holds (hpos : 1 ≤ arr.numBlks)
    (hmax : arr.numBlks ≤ 2 ^ 31) (base64 : Bool) :
    ∃ st, uncompressedPages L.thrift base64 arr L.valueSize = .ok st ∧
      L.Holds base64 arr.dataStart (uncompressedBlks arr) st := by
  have hsub : subU64 arr.numBlks 1 = arr.numBlks - 1 := subU64_of_le hpos (by omega)
  have hstart : UncompressedInvariant L base64 arr.dataStart 0 (.start base64 arr.dataStart) :=
    ⟨Layout.holds_start base64 arr.dataStart, rfl⟩
  obtain ⟨st, hst, hinv⟩ : ∃ st, countUp (2 ^ 31) .signedOverflow (arr.numBlks - 1)
      (uncompressedTurn L.thrift L.valueSize) 0 (.start base64 arr.dataStart) = .ok st ∧
        UncompressedInvariant L base64 arr.dataStart (arr.numBlks - 1) st :=
    countUp_total _ (by omega) (Nat.zero_le _) hstart fun i st hi h => h.turn (by omega)
  have hlast : arr.lastBlkSz ≤ 32768 := by
    unfold UncompressedArray.lastBlkSz
    omega
  obtain ⟨st', hst', hholds, -⟩ := hinv.holds.uncompressedPage
    (fun b hb => fits_of_mem_replicate hb) (by simp; omega)
    (by rw [payloadSize_replicate]; exact hinv.offset_eq) hlast
  refine ⟨st', ?_, hholds⟩
  rw [uncompressedPages, hsub, Exec.bind_of_eq_ok hst, hst']

/-- There is a page for each block. -/
theorem length_uncompressedBlks (hpos : 1 ≤ arr.numBlks) :
    (uncompressedBlks arr).length = arr.numBlks := by
  rw [uncompressedBlks, List.length_append, List.length_replicate, List.length_singleton]
  omega

/-- The number of blocks is that of the bytes over the block size, rounded up. -/
theorem numBlks_eq (h : arr.totalBytes < 2 ^ 64 - 32768) :
    arr.numBlks = (arr.totalBytes + 32767) / 32768 := by
  have hadd : u64 (arr.totalBytes + 32768) = arr.totalBytes + 32768 := u64_of_lt (by omega)
  have hsub : subU64 (arr.totalBytes + 32768) 1 = arr.totalBytes + 32767 := by
    have := subU64_of_le (a := arr.totalBytes + 32768) (b := 1) (by omega) (by omega)
    omega
  rw [UncompressedArray.numBlks, hadd, hsub]

/-- The payload of an uncompressed array is all of it. -/
theorem payloadSize_uncompressedBlks (hpos : 1 ≤ arr.totalBytes)
    (h : arr.totalBytes < 2 ^ 64 - 32768) :
    Layout.payloadSize (uncompressedBlks arr) = arr.totalBytes := by
  have hlast : arr.lastBlkSz = (arr.totalBytes - 1) % 32768 + 1 := by
    rw [UncompressedArray.lastBlkSz, subU64_of_le hpos (by omega)]
  have hsum : Layout.payloadSize (uncompressedBlks arr) =
      Layout.payloadSize (List.replicate (arr.numBlks - 1) ⟨32768, 32768⟩) + arr.lastBlkSz := by
    unfold uncompressedBlks Layout.payloadSize
    rw [List.map_append, List.sum_append, List.map_singleton, List.sum_singleton]
  have hnum := numBlks_eq h
  rw [hsum, payloadSize_replicate]
  omega

/-- The blocks of an uncompressed array fit. -/
theorem fits_of_mem_uncompressedBlks {b : Blk} (h : b ∈ uncompressedBlks arr) : b.Fits := by
  rcases List.mem_append.mp h with h | h
  · exact fits_of_mem_replicate h
  · obtain rfl := List.mem_singleton.mp h
    have : arr.lastBlkSz ≤ 32768 := by
      unfold UncompressedArray.lastBlkSz
      omega
    exact ⟨by dsimp only; omega, by dsimp only; omega⟩

end uncompressed

end VirParquet.Verify
