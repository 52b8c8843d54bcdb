import VirParquet.Verify.Forms

/-!
# The values in the pages

A reader decodes the pages of a virtual file under the types that its footer declares. For the
types of four and eight bytes the values are the elements of the array (`plainValues_eq_iff`). The
types of one byte are declared as 32-bit integers, which PLAIN encoding stores in four bytes, but
their bytes are served as they are, so their pages cannot be decoded unless they are empty. Nor can
a page whose block has another size than the header gives: `holdsElements_iff`, for both kinds of
arrays.
-/

namespace VirParquet.Verify

open VirParquet.Found VirParquet.Found.Thrift VirParquet.Found.Base64 VirParquet.Model
  VirParquet.Spec

/-! ## Maps that may fail -/

section mapM

variable {α β : Type} {f g : α → Option β} {xs : List α}

/-- A map that fails on no element. -/
theorem exists_mapM (hg : ∀ x ∈ xs, ∃ y, g x = some y) : ∃ ys, xs.mapM g = some ys := by
  induction xs with
  | nil => exact ⟨[], rfl⟩
  | cons x xs ih =>
      obtain ⟨y, hy⟩ := hg x List.mem_cons_self
      obtain ⟨ys, hys⟩ := ih fun z hz => hg z (List.mem_cons_of_mem _ hz)
      exact ⟨y :: ys, by rw [List.mapM_cons, hy, hys]; rfl⟩

/-- Two maps, one of which fails on no element, agree if they do on each. -/
theorem mapM_eq_mapM_iff (hg : ∀ x ∈ xs, ∃ y, g x = some y) :
    xs.mapM f = xs.mapM g ↔ ∀ x ∈ xs, f x = g x := by
  induction xs with
  | nil => simp
  | cons x xs ih =>
      obtain ⟨y, hy⟩ := hg x List.mem_cons_self
      have hall : ∀ z ∈ xs, ∃ y, g z = some y := fun z hz => hg z (List.mem_cons_of_mem _ hz)
      obtain ⟨ys, hys⟩ := exists_mapM hall
      rw [List.forall_mem_cons, ← ih hall, List.mapM_cons, List.mapM_cons, hy, hys]
      rcases f x with _ | z
      · simp
      · rcases xs.mapM f with _ | zs <;> simp

end mapM

/-! ## One page -/

section page

variable {type : DataType} {w : ℕ} {physical : PhysicalType} {converted : Option ConvertedType}

/-- A byte string has elements of every known type. -/
theorem exists_vtkElements (htype : type ≠ .unknown) (w : ℕ) (bytes : Bytes) :
    ∃ values, vtkElements type w bytes = some values :=
  exists_mapM fun n _ => by
    cases type with
    | unknown => exact absurd rfl htype
    | _ => exact ⟨_, rfl⟩

/-- The types of more than one byte are declared with their width and meaning. -/
theorem Tables.plain_eq (h : Tables type w physical converted) (hint : type ≠ .int8)
    (huint : type ≠ .uint8) :
    Parquet.plainWidth physical = some w ∧
      Parquet.plainValue physical converted = vtkElement type := by
  obtain ⟨hw, hphysical, hconverted⟩ := h
  cases type <;> cases hw <;> cases hphysical <;> cases hconverted <;>
    first
    | exact ⟨rfl, rfl⟩
    | exact absurd rfl hint
    | exact absurd rfl huint

/-- The types of one byte are declared with four. -/
theorem Tables.plainWidth_of_byte (h : Tables type w physical converted)
    (hbyte : type = .int8 ∨ type = .uint8) : w = 1 ∧ Parquet.plainWidth physical = some 4 := by
  obtain ⟨hw, hphysical, -⟩ := h
  rcases hbyte with rfl | rfl <;> cases hw <;> cases hphysical <;> exact ⟨rfl, rfl⟩

/-- **The values of a page** are the elements of its block if the type takes more than one byte, or
if there are none. -/
theorem plainValues_eq_iff (h : Tables type w physical converted) {bytes : Bytes}
    (hdvd : w ∣ bytes.length) :
    Parquet.plainValues physical converted (bytes.length / w : ℕ) bytes =
        vtkElements type w bytes ↔ (type ≠ .int8 ∧ type ≠ .uint8) ∨ bytes = [] := by
  by_cases hbyte : type = .int8 ∨ type = .uint8
  · obtain ⟨rfl, hwidth⟩ := h.plainWidth_of_byte hbyte
    have hvalues : Parquet.plainValues physical converted (bytes.length / 1 : ℕ) bytes =
        if ((bytes.length / 1 : ℕ) : ℤ) * (4 : ℕ) = bytes.length then
          (leWords 4 (bytes.length / 1) bytes).mapM (Parquet.plainValue physical converted)
        else none := by
      rw [Parquet.plainValues, hwidth]
      rfl
    have hknown : type ≠ .unknown := by
      rintro rfl
      simp at hbyte
    obtain ⟨values, hsome⟩ := exists_vtkElements hknown 1 bytes
    rw [hvalues, hsome]
    rcases bytes with _ | ⟨x, bytes⟩
    · refine iff_of_true ?_ (Or.inr rfl)
      rw [← hsome]
      rfl
    · refine iff_of_false ?_ (by simp; tauto)
      rw [if_neg (by simp only [List.length_cons]; omega)]
      exact (Option.some_ne_none _).symm
  · rw [not_or] at hbyte
    obtain ⟨hwidth, hvalue⟩ := h.plain_eq hbyte.1 hbyte.2
    refine iff_of_true ?_ (Or.inl hbyte)
    rw [Parquet.plainValues, hwidth, vtkElements, ← hvalue]
    exact if_pos (by rw [← Nat.cast_mul, Nat.div_mul_cancel hdvd])

end page

/-! ## The pages of a file -/

/-- The file that `BuildMap` made holds the elements of the blocks, page by page. -/
def HoldsElements {σ : Type} (thrift : Protocol) (dec : Decoder)
    (decompress : CompressionCodec → Bytes → Option Bytes) (type : DataType) (w : ℕ)
    (vtk : VtkFile σ) (r : Exec FileMap) (blocks : List Bytes) : Prop :=
  ∃ m V f values, r = .ok m ∧ Serves dec m vtk.base V ∧ Parquet.readFile thrift V = some f ∧
    Parquet.tableValues decompress f = some values ∧
    blocks.mapM (vtkElements type w) = some values

section file

variable {σ : Type} {thrift : Protocol} {dec : Decoder}
  {decompress : CompressionCodec → Bytes → Option Bytes} {name : Bytes} {type : DataType} {w : ℕ}
  {physical : PhysicalType} {converted : Option ConvertedType} {c : CompressionCodec}
  {vtk : VtkFile σ}

/-- The pages of a file that declare the sizes of its blocks hold their elements exactly if these
take more than a byte each, or there are none. -/
theorem holdsElements_iff_of_declares (htables : Tables type w physical converted)
    (htype : type ≠ .unknown) {L : Layout} (hL : L.valueSize = w) {m : FileMap} {V payload : Bytes}
    {blks : List Blk} {blocks : List Bytes} (hV : Serves dec m vtk.base V)
    (hlen : V.length < 2 ^ 64)
    (hread : Parquet.readFile thrift V =
      some (L.file ⟨name, physical, converted, c⟩ payload blks))
    (hdecodes : Layout.Decodes (Parquet.decoder decompress c) payload 0 blks blocks)
    (hdeclares : L.Declares blks blocks) (hdvd : ∀ B ∈ blocks, w ∣ B.length) (s : σ) :
    HoldsElements thrift dec decompress type w vtk (.ok m) blocks ↔
      (type ≠ .int8 ∧ type ≠ .uint8) ∨ ∀ B ∈ blocks, B = [] := by
  subst hL
  have htable : Parquet.tableValues decompress
      (L.file ⟨name, physical, converted, c⟩ payload blks) = _ :=
    Layout.tableValues_file hdecodes hdeclares
  have hiff : (∀ B ∈ blocks, Parquet.plainValues physical converted (B.length / L.valueSize : ℕ) B =
      vtkElements type L.valueSize B) ↔
        (type ≠ .int8 ∧ type ≠ .uint8) ∨ ∀ B ∈ blocks, B = [] :=
    (forall₂_congr fun B hB => plainValues_eq_iff htables (hdvd B hB)).trans
      ⟨fun h => or_iff_not_imp_left.mpr fun hbyte B hB => (h B hB).resolve_left hbyte,
        fun h B hB => h.imp id fun hnil => hnil B hB⟩
  rw [← hiff, ← mapM_eq_mapM_iff fun B _ => exists_vtkElements htype L.valueSize B, ← htable]
  obtain ⟨values, hvalues⟩ := exists_mapM fun B (_ : B ∈ blocks) =>
    exists_vtkElements htype L.valueSize B
  constructor
  · rintro ⟨m', V', f, values', hm, hV', hread', hfound, hblocks⟩
    obtain rfl := Except.ok.inj hm
    obtain rfl := hV.unique hV' hlen s
    obtain rfl := Option.some.inj (hread.symm.trans hread')
    rw [hfound, hblocks]
  · intro heq
    exact ⟨m, V, _, values, rfl, hV, hread, heq.trans hvalues, hvalues⟩

/-- The pages of a file hold the elements of its blocks exactly if they declare the sizes of these
and no element is cut. -/
theorem holdsElements_iff_of_file (htables : Tables type w physical converted)
    (htype : type ≠ .unknown) {L : Layout} (hL : L.valueSize = w) {m : FileMap} {V payload : Bytes}
    {blks : List Blk} {blocks : List Bytes} (hV : Serves dec m vtk.base V)
    (hlen : V.length < 2 ^ 64)
    (hread : Parquet.readFile thrift V =
      some (L.file ⟨name, physical, converted, c⟩ payload blks))
    (hdecodes : Layout.Decodes (Parquet.decoder decompress c) payload 0 blks blocks)
    (hsmall : ∀ b ∈ blks, b.uncompressedSize < 2 ^ 31) (hdvd : ∀ B ∈ blocks, w ∣ B.length)
    (s : σ) :
    HoldsElements thrift dec decompress type w vtk (.ok m) blocks ↔
      ((type ≠ .int8 ∧ type ≠ .uint8) ∨ ∀ B ∈ blocks, B = []) ∧
        blks.map Blk.uncompressedSize = blocks.map List.length := by
  have hiff (hsizes : blks.map Blk.uncompressedSize = blocks.map List.length) :
      HoldsElements thrift dec decompress type w vtk (.ok m) blocks ↔ _ :=
    holdsElements_iff_of_declares htables htype hL hV hlen hread hdecodes
      (.of_sizes_eq hsizes hsmall (hL ▸ hdvd)) hdvd s
  constructor
  · intro h
    have hsizes : blks.map Blk.uncompressedSize = blocks.map List.length := by
      obtain ⟨m', V', f, values, hm, hV', hread', hfound, -⟩ := h
      obtain rfl := Except.ok.inj hm
      obtain rfl := hV.unique hV' hlen s
      obtain rfl := Option.some.inj (hread.symm.trans hread')
      exact Layout.sizes_eq_of_tableValues hdecodes hsmall hfound
    exact ⟨(hiff hsizes).mp h, hsizes⟩
  · rintro ⟨hvalues, hsizes⟩
    exact (hiff hsizes).mpr hvalues

/-- The blocks of a compressed array have the sizes that its header gives. -/
def HeaderSizes (arr : CompressedArray) (blocks : List Bytes) : Prop :=
  blocks.map List.length = List.replicate (arr.numBlks - 1) arr.blkSz ++ [arr.lastBlkSz]

/-- The pages of a compressed array declare the sizes that its header gives. -/
theorem sizes_eq_iff_headerSizes {arr : CompressedArray} {blocks : List Bytes}
    (hlen : arr.compressedBlkSz.length = arr.numBlks) (hpos : 1 ≤ arr.numBlks)
    (hblkSz : arr.blkSz < 2 ^ 31) (hlast : arr.lastBlkSz < 2 ^ 31) :
    (compressedBlks arr).map Blk.uncompressedSize = blocks.map List.length ↔
      HeaderSizes arr blocks := by
  rw [map_uncompressedSize_compressedBlks hlen hpos, u32_of_lt (by omega), u32_of_lt (by omega),
    HeaderSizes, eq_comm]

/-- The file of a compressed array holds its elements exactly if there is such a file, its pages
declare the sizes of the blocks, and no element is cut. -/
theorem holdsElements_compressed_iff (htype : getValueSize type = .ok w)
    (hname : name.length < 2 ^ 64) {codec : CompressionType}
    (hcodec : toParquetCodec codec = .ok c) (hnone : codec ≠ .none) {arr : CompressedArray}
    {blocks : List Bytes}
    (hblocks : CompressedBlocks (decompress c) arr (vtk.payload dec arr.dataStart) blocks)
    (hdvd : ∀ B ∈ blocks, w ∣ B.length) (hstart : arr.dataStart < 2 ^ 64) (hpos : 1 ≤ arr.numBlks)
    (hlt : arr.numBlks < 2 ^ 64) (hblkSz : arr.blkSz < 2 ^ 31) (hlast : arr.lastBlkSz < 2 ^ 31)
    (s : σ) :
    HoldsElements thrift dec decompress type w vtk
        (buildMapCompressed thrift name type codec vtk.base64 arr) blocks ↔
      (((type ≠ .int8 ∧ type ≠ .uint8) ∨ ∀ B ∈ blocks, B = []) ∧ HeaderSizes arr blocks) ∧
        arr.numBlks ≤ 2 ^ 31 ∧ FooterFits thrift name type c (compressedBlks arr) := by
  have hknown := ne_unknown_of_getValueSize htype
  obtain ⟨w', physical, converted, htables⟩ := exists_tables hknown
  obtain rfl : w' = w := Except.ok.inj (htables.valueSize_eq.symm.trans htype)
  have hbuilt : HoldsElements thrift dec decompress type w' vtk
      (buildMapCompressed thrift name type codec vtk.base64 arr) blocks →
        arr.numBlks ≤ 2 ^ 31 ∧ FooterFits thrift name type c (compressedBlks arr) := by
    rintro ⟨m, -, -, -, hm, -⟩
    exact ⟨(bounds_of_buildMapCompressed_eq_ok hlt hm).2,
      (isMapOf_of_buildMapCompressed htables hcodec hblocks.length_eq hlt hm).1⟩
  rw [← and_iff_left_of_imp hbuilt]
  refine and_congr_left fun ⟨hmax, hfooter⟩ => ?_
  obtain ⟨m, V, hm, hV, hlen, hread⟩ := hblocks.exists_file htables hname hcodec
    hstart hblkSz hlast hpos hmax hfooter
  rw [hm, ← sizes_eq_iff_headerSizes hblocks.length_eq hpos hblkSz hlast]
  exact holdsElements_iff_of_file htables hknown rfl hV hlen hread
    (hblocks.decodes (ne_uncompressed_of_toParquetCodec hcodec hnone))
    (fun b hb => (small_of_mem_compressedBlks hblocks.size_lt hblkSz hlast hb).2) hdvd s

/-- The file of an uncompressed array holds its elements exactly if there is such a file and no
element is cut. -/
theorem holdsElements_uncompressed_iff (htype : getValueSize type = .ok w)
    (hname : name.length < 2 ^ 64) {arr : UncompressedArray} {D : Bytes}
    (hform : UncompressedForm D arr (vtk.payload dec arr.dataStart)) (hD : D ≠ [])
    (hdvd : w ∣ D.length) (hstart : arr.dataStart < 2 ^ 64) (s : σ) :
    HoldsElements thrift dec decompress type w vtk
        (buildMapUncompressed thrift name type vtk.base64 arr)
        (slices 32768 ((D.length + 32767) / 32768) D) ↔
      (type ≠ .int8 ∧ type ≠ .uint8) ∧
        D.length ≤ 2 ^ 46 ∧ FooterFits thrift name type .uncompressed (uncompressedBlks arr) := by
  have hknown := ne_unknown_of_getValueSize htype
  obtain ⟨w', physical, converted, htables⟩ := exists_tables hknown
  obtain rfl : w' = w := Except.ok.inj (htables.valueSize_eq.symm.trans htype)
  have hlt := vtk.length_payload_lt dec arr.dataStart
  have hle : D.length ≤ (vtk.payload dec arr.dataStart).length := hform.length_le
  have hpos := List.length_pos_iff.mpr hD
  have hnum := hform.numBlks_eq (by omega)
  have hbuilt : HoldsElements thrift dec decompress type w' vtk
      (buildMapUncompressed thrift name type vtk.base64 arr)
      (slices 32768 ((D.length + 32767) / 32768) D) →
        D.length ≤ 2 ^ 46 ∧ FooterFits thrift name type .uncompressed (uncompressedBlks arr) := by
    rintro ⟨m, -, -, -, hm, -⟩
    have := (bounds_of_buildMapUncompressed_eq_ok hm).2
    exact ⟨by omega, (isMapOf_of_buildMapUncompressed htables hm).1⟩
  rw [← and_iff_left_of_imp hbuilt]
  refine and_congr_left fun ⟨hmax, hfooter⟩ => ?_
  obtain ⟨q, last, hq, hsum, hlastPos, hlast, hblks⟩ := hform.sizes_eq (by omega) hD
  rw [← hnum, hq]
  obtain ⟨m, V, hm, hV, hlen, hread⟩ := hform.exists_file htables hname hstart hD
    hmax hfooter
  have hsizes : (uncompressedBlks arr).map Blk.uncompressedSize =
      (slices 32768 (q + 1) D).map List.length := by
    rw [hblks, map_length_slices hsum hlast]
    simp
  have hdvdBlocks : ∀ B ∈ slices 32768 (q + 1) D, w' ∣ B.length := fun B hB =>
    dvd_of_mem_slices hsum hlast htables.valueSize_dvd hdvd (List.mem_map_of_mem hB)
  -- Some block is not empty.
  have hfirst : ¬∀ B ∈ slices 32768 (q + 1) D, B = [] := by
    intro hnil
    have hflatten : (slices 32768 (q + 1) D).flatten = D := flatten_slices_of_le (by omega)
    rw [List.flatten_eq_nil_iff.mpr hnil] at hflatten
    exact hD hflatten.symm
  rw [hm, holdsElements_iff_of_file htables hknown rfl hV hlen hread
    (hform.decodes decompress hsum hlast hblks) (fun b hb => (small_of_mem_uncompressedBlks hb).2)
    hdvdBlocks s, and_iff_left hsizes, or_iff_left hfirst]

end file

/-- **A file of an array holds its elements unless they take one byte.** For compressed arrays of
any blocks of whole values, if the header gives these their sizes (not for a full last block, whose
size it has as zero), and for uncompressed ones. Beside that only the number of blocks counts, for
which `BuildMap` has an `int`, and whether the serializer takes the footer, as it does if the name
leaves room for the rest of it. -/
theorem holdsElements_iff {σ : Type} (thrift : Protocol) (dec : Decoder)
    (decompress : CompressionCodec → Bytes → Option Bytes) (name : Bytes) (type : DataType) (w : ℕ)
    (vtk : VtkFile σ) (htype : getValueSize type = .ok w) (hname : name.length < 2 ^ 64) (s : σ) :
    (∀ (codec : CompressionType) (c : CompressionCodec) (arr : CompressedArray)
      (blocks : List Bytes), toParquetCodec codec = .ok c → codec ≠ .none →
      CompressedBlocks (decompress c) arr (vtk.payload dec arr.dataStart) blocks →
      (∀ B ∈ blocks, w ∣ B.length) → arr.dataStart < 2 ^ 64 →
      1 ≤ arr.numBlks → arr.numBlks < 2 ^ 64 → arr.blkSz < 2 ^ 31 → arr.lastBlkSz < 2 ^ 31 →
      (HoldsElements thrift dec decompress type w vtk
          (buildMapCompressed thrift name type codec vtk.base64 arr) blocks ↔
        (((type ≠ .int8 ∧ type ≠ .uint8) ∨ ∀ B ∈ blocks, B = []) ∧ HeaderSizes arr blocks) ∧
          arr.numBlks ≤ 2 ^ 31 ∧ FooterFits thrift name type c (compressedBlks arr))) ∧
    (∀ (arr : UncompressedArray) (D : Bytes),
      UncompressedForm D arr (vtk.payload dec arr.dataStart) → D ≠ [] → w ∣ D.length →
      arr.dataStart < 2 ^ 64 →
      (HoldsElements thrift dec decompress type w vtk
          (buildMapUncompressed thrift name type vtk.base64 arr)
          (slices 32768 ((D.length + 32767) / 32768) D) ↔
        (type ≠ .int8 ∧ type ≠ .uint8) ∧
          D.length ≤ 2 ^ 46 ∧ FooterFits thrift name type .uncompressed (uncompressedBlks arr))) ∧
    ∀ c blks, 2 * name.length + 512 < 2 ^ 32 → (∀ b ∈ blks, b.Fits) → blks.length ≤ 2 ^ 31 →
      FooterFits thrift name type c blks := by
  refine ⟨fun _ _ _ _ hcodec hnone hblocks hdvd hstart hpos hlt hblkSz hlast =>
      holdsElements_compressed_iff htype hname hcodec hnone hblocks hdvd hstart hpos hlt hblkSz
        hlast s,
    fun _ _ hform hD hdvd hstart =>
      holdsElements_uncompressed_iff htype hname hform hD hdvd hstart s,
    fun c blks hshort hblks hlen => ?_⟩
  obtain ⟨_, _, _, htables⟩ := exists_tables (ne_unknown_of_getValueSize htype)
  exact footerFits_of_name htables hshort hblks hlen

/-- The bytes 1 and 2 as two zlib streams. -/
def twoBytes : VtkFile Unit := .ofBytes
  [0x78, 0x01, 0x01, 1, 0, 0xfe, 0xff, 1, 0x00, 0x02, 0x00, 0x02,
    0x78, 0x01, 0x01, 1, 0, 0xfe, 0xff, 2, 0x00, 0x03, 0x00, 0x03] false (by decide)

/-- The two bytes are stored in two blocks. -/
theorem compressedBlocks_twoBytes :
    CompressedBlocks inflateStored ⟨2, 1, 1, [12, 12], 0⟩ (twoBytes.payload standardDecoder 0)
      [[1], [2]] where
  length_eq := rfl
  length_blocks := rfl
  size_lt := by decide
  payload_length := by decide
  decompress_eq := by decide

/-- The theorem at the three integers. -/
theorem holdsElements_iff_threeInts :
    HoldsElements compact standardDecoder (fun _ => inflateStored) .int32 4 threeInts
      (buildMapCompressed compact (ascii "x") .int32 .zlib threeInts.base64 ⟨2, 8, 4, [19, 15], 0⟩)
      [[1, 0, 0, 0, 2, 0, 0, 0], [3, 0, 0, 0]] :=
  have h := holdsElements_iff compact standardDecoder (fun _ => inflateStored) (ascii "x") .int32 4
    threeInts rfl (by decide) ()
  (h.1 .zlib .gzip ⟨2, 8, 4, [19, 15], 0⟩ [[1, 0, 0, 0, 2, 0, 0, 0], [3, 0, 0, 0]] rfl (by decide)
    ⟨rfl, rfl, by decide, by decide, by decide⟩ (by decide) (by decide) (by decide) (by decide)
    (by decide) (by decide)).mpr ⟨⟨by decide, rfl⟩, by decide,
      h.2.2 _ _ (by decide) (fun _ hb => fits_of_mem_compressedBlks hb) (by decide)⟩

/-- The file of the two bytes does not hold them. -/
theorem not_holdsElements_twoBytes :
    CompressedBlocks inflateStored ⟨2, 1, 1, [12, 12], 0⟩ (twoBytes.payload standardDecoder 0)
        [[1], [2]] ∧
      HeaderSizes ⟨2, 1, 1, [12, 12], 0⟩ [[1], [2]] ∧
      ¬HoldsElements compact standardDecoder (fun _ => inflateStored) .uint8 1 twoBytes
        (buildMapCompressed compact (ascii "x") .uint8 .zlib twoBytes.base64
          ⟨2, 1, 1, [12, 12], 0⟩) [[1], [2]] :=
  ⟨compressedBlocks_twoBytes, rfl, fun h =>
    absurd ((holdsElements_compressed_iff rfl (by decide) rfl (by decide) compressedBlocks_twoBytes
      (by decide) (by decide) (by decide) (by decide) (by decide) (by decide) ()).mp h).1.1
      (by decide)⟩

end VirParquet.Verify
