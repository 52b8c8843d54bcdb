import VirParquet.Verify.Appended
import VirParquet.Verify.Load
import VirParquet.Verify.Values
import VirParquet.Verify.SessionRuns

/-!
# From the arrays of a VTK file to the tables that are read

The way of an array through the whole program. `Stores` says that its blocks stand in a VTK file, in
one of the forms that the format has for them. What `ParseAppendedArray` makes of such an array is a
map with blocks that decode to the bytes of its elements (`Stores.mapsBlocks`), and such a map shows
the table of the elements if and only if its pages declare the sizes of these
(`MapsBlocks.holdsTable`). So the file in the tree that is parsed from the VTK file shows it, and
whoever reads this file in a session that is mounted on the tree, however the reads interleave,
reads the bytes of one Parquet file with this table (`tables_served`).
-/

namespace VirParquet.Verify

open VirParquet.Found VirParquet.Found.Thrift VirParquet.Found.Base64 VirParquet.Model
  VirParquet.Spec VirParquet.Spec.Path

/-! ## Elements -/

/-- The elements of two byte strings, of which the first holds whole elements, are those of both. -/
theorem vtkElements_append {type : DataType} {w : ℕ} (hw : 0 < w) {A : Bytes} (h : w ∣ A.length)
    (B : Bytes) : vtkElements type w (A ++ B) =
      (vtkElements type w A).bind fun xs => (vtkElements type w B).map (xs ++ ·) := by
  obtain ⟨n, hn⟩ := h
  have hnum : (A ++ B).length / w = n + B.length / w := by
    rw [List.length_append, hn, Nat.mul_add_div hw]
  rw [vtkElements, hnum, leWords_append _ hn, List.mapM_append, vtkElements, hn,
    Nat.mul_div_cancel_left n hw]
  cases (leWords w n A).mapM (vtkElement type) with
  | none => rfl
  | some xs =>
      show _ = ((leWords w (B.length / w) B).mapM (vtkElement type)).map (xs ++ ·)
      cases (leWords w (B.length / w) B).mapM (vtkElement type) with
      | none => rfl
      | some ys => rfl

/-- The elements of byte strings that hold whole elements are those of all of them, one after the
other. -/
theorem vtkElements_flatten {type : DataType} {w : ℕ} (hw : 0 < w) {blocks : List Bytes}
    (h : ∀ B ∈ blocks, w ∣ B.length) :
    (blocks.mapM (vtkElements type w)).map List.flatten =
      vtkElements type w blocks.flatten := by
  induction blocks with
  | nil =>
      show some [] = _
      rw [List.flatten_nil, vtkElements, List.length_nil, Nat.zero_div]
      rfl
  | cons B blocks ih =>
      rw [List.flatten_cons, vtkElements_append hw (h B List.mem_cons_self),
        ← ih fun C hC => h C (List.mem_cons_of_mem _ hC), List.mapM_cons]
      cases vtkElements type w B with
      | none => rfl
      | some xs =>
          cases blocks.mapM (vtkElements type w) with
          | none => rfl
          | some xss => rfl

/-! ## Tables -/

/-- The elements of an array as they are stored: in blocks, to which the header gives sizes. -/
structure StoredArray where
  blocks : List Bytes
  sizes : List ℕ

/-- The bytes of the elements. -/
def StoredArray.bytes (A : StoredArray) : Bytes := A.blocks.flatten

/-- The header gives each block its own size. The size of a full last block is zero instead. -/
def StoredArray.Sized (A : StoredArray) : Prop := A.sizes = A.blocks.map List.length

/-- A reader of a Parquet file finds a column of this name in it. In the column it finds the
elements of the array, unless these are of a type that takes a single byte, if and only if the
header of the array gives each block its own size. -/
def HoldsTable (thrift : Protocol) (decompress : CompressionCodec → Bytes → Option Bytes)
    (name : Bytes) (type : DataType) (w : ℕ) (A : StoredArray) (content : Bytes) : Prop :=
  ∃ f, Parquet.readFile thrift content = some f ∧ f.leaf.name = name ∧
    (type ≠ .int8 → type ≠ .uint8 →
      ((Parquet.tableValues decompress f).map List.flatten = vtkElements type w A.bytes ↔ A.Sized))

/-- A map that was built of blocks which stand in the payload and decompress to byte strings of
whole elements. -/
structure MapsBlocks (L : Layout) (col : Column) (dec : Decoder)
    (decompress : CompressionCodec → Bytes → Option Bytes) (base64 : Bool) (bytes : Bytes)
    (blks : List Blk) (blocks : List Bytes) (m : FileMap) : Prop where
  built : Built L.thrift m
  isMapOf : L.IsMapOf col base64 m.dataStart blks m
  dataStart_lt : m.dataStart < 2 ^ 64
  small : ∀ b ∈ blks, b.Small
  length_le : blks.length ≤ 2 ^ 31
  footer_lt : (L.footerBytes col blks).length < 2 ^ 32
  payload : Layout.payloadSize blks ≤ (payloadOf dec base64 m.dataStart bytes).length
  decodes : Layout.Decodes (Parquet.decoder decompress col.codec)
    (payloadOf dec base64 m.dataStart bytes) 0 blks blocks
  dvd : ∀ B ∈ blocks, L.valueSize ∣ B.length

section table

variable {thrift : Protocol} {dec : Decoder}
  {decompress : CompressionCodec → Bytes → Option Bytes} {base64 : Bool} {bytes name : Bytes}
  {type : DataType} {physical : PhysicalType} {converted : Option ConvertedType}
  {c : CompressionCodec} {w : ℕ} {blks : List Blk} {blocks : List Bytes} {m : FileMap}

/-- The file of such a map can be read. -/
theorem MapsBlocks.backed {L : Layout} {col : Column}
    (h : MapsBlocks L col dec decompress base64 bytes blks blocks m) :
    Backed dec base64 bytes (.virtual m) := by
  refine ⟨⟨_, h.built⟩, h.isMapOf.base64_eq, h.dataStart_lt, ?_⟩
  rw [h.isMapOf.represents.regions_eq]
  exact fun r hr => L.inside_of_mem_fileRegions col _ h.payload hr

/-- The file of such a map is of a size that `off_t` can say. -/
theorem MapsBlocks.fileSize_lt {L : Layout} {col : Column}
    (h : MapsBlocks L col dec decompress base64 bytes blks blocks m) :
    fileSize (.virtual m) < 2 ^ 63 := by
  have hbody := L.totalSize_bodyRegions_le_of_lt fun b hb => (h.small b hb).1
  have hlength := h.length_le
  have hfooter := h.footer_lt
  rw [h.isMapOf.fileSize_eq, Layout.totalSize_fileRegions]
  omega

/-- The values in the pages of such a map are the elements if and only if the pages declare the
sizes of the blocks. -/
theorem MapsBlocks.tableValues_iff {L : Layout}
    (h : MapsBlocks L ⟨name, physical, converted, c⟩ dec decompress base64 bytes blks blocks m)
    (htables : Tables type L.valueSize physical converted) (hint : type ≠ .int8)
    (huint : type ≠ .uint8) :
    (Parquet.tableValues decompress (L.file ⟨name, physical, converted, c⟩
        (payloadOf dec base64 m.dataStart bytes) blks)).map List.flatten =
      vtkElements type L.valueSize blocks.flatten ↔
        blks.map Blk.uncompressedSize = blocks.map List.length := by
  have hsmall : ∀ b ∈ blks, b.uncompressedSize < 2 ^ 31 := fun b hb => (h.small b hb).2
  have hknown : type ≠ .unknown := ne_unknown_of_getValueSize htables.valueSize_eq
  constructor
  · intro hvalues
    obtain ⟨elements, helements⟩ := exists_vtkElements hknown L.valueSize blocks.flatten
    obtain ⟨values, hfound, -⟩ := Option.map_eq_some_iff.mp (hvalues.trans helements)
    exact Layout.sizes_eq_of_tableValues h.decodes hsmall hfound
  · intro hsizes
    have hvalues : ∀ B ∈ blocks, Parquet.plainValues physical converted
        (B.length / L.valueSize : ℕ) B = vtkElements type L.valueSize B := fun B hB =>
      (plainValues_eq_iff htables (h.dvd B hB)).mpr (Or.inl ⟨hint, huint⟩)
    rw [Layout.tableValues_file h.decodes (.of_sizes_eq hsizes hsmall h.dvd),
      (mapM_eq_mapM_iff fun B _ => exists_vtkElements hknown L.valueSize B).mpr hvalues,
      vtkElements_flatten htables.valueSize_pos h.dvd]

/-- **The file of such a map shows the elements** of an array that it has the bytes of, if and only
if the array has the sizes that the pages declare. -/
theorem MapsBlocks.holdsTable {L : Layout} {A : StoredArray}
    (h : MapsBlocks L ⟨name, physical, converted, c⟩ dec decompress base64 bytes blks blocks m)
    (hbytes : blocks.flatten = A.bytes)
    (hsized : A.Sized ↔ blks.map Blk.uncompressedSize = blocks.map List.length)
    (htables : Tables type L.valueSize physical converted) (hname : name.length < 2 ^ 64) :
    HoldsTable L.thrift decompress name type L.valueSize A
      (contentOf dec base64 bytes (.virtual m)) := by
  have hread := Layout.readFile_content (fun b hb => (h.small b hb).fits) h.length_le hname
    h.footer_lt (fun b hb => (h.small b hb).1) h.payload
  refine ⟨L.file ⟨name, physical, converted, c⟩ (payloadOf dec base64 m.dataStart bytes) blks, ?_,
    rfl, ?_⟩
  · show Parquet.readFile L.thrift (content (payloadOf dec base64 m.dataStart bytes) m.regions) = _
    rw [h.isMapOf.represents.regions_eq]
    exact hread
  · intro hint huint
    rw [← hbytes, hsized]
    exact h.tableValues_iff htables hint huint

end table

/-! ## Arrays in a file -/

/-- The elements of an array stand at a place in a VTK file, stored as the file says: as they are,
one block behind a word with its size, or in compressed blocks of whole elements behind words with
the sizes that the header gives to these before and after compression. The header words of
compressed arrays fit in 31 bits, there are fewer than `2 ^ 30` blocks, and memory for the sizes is
granted. -/
inductive Stores {σ : Type} (heap : Heap) (decompress : CompressionCodec → Bytes → Option Bytes)
    (storage : Storage σ) (w place : ℕ) (bytes : Bytes) : StoredArray → Prop
  | plain {before after D : Bytes} (hcodec : storage.codec = .none) (hplace : before.length = place)
      (hbytes : bytes = before ++
        (appendedForm storage.enc storage.headerType [D.length] D ++ after))
      (hword : D.length < 256 ^ wordSize storage.headerType) (hdvd : w ∣ D.length) :
      Stores heap decompress storage w place bytes ⟨[D], [D.length]⟩
  | compressed {before after payload : Bytes} {arr : CompressedArray} {blocks : List Bytes}
      {c : CompressionCodec} (hcodec : toParquetCodec storage.codec = .ok c)
      (hnone : storage.codec ≠ .none) (hplace : before.length = place)
      (hbytes : bytes = before ++
        (appendedForm storage.enc storage.headerType arr.words payload ++ after))
      (hblocks : CompressedBlocks (decompress c) arr payload blocks)
      (hdvd : ∀ B ∈ blocks, w ∣ B.length) (hwords : ∀ x ∈ arr.words, x < 2 ^ 31)
      (hnum : arr.numBlks < 2 ^ 30) (hheap : heap.Grants (8 * arr.numBlks)) :
      Stores heap decompress storage w place bytes
        ⟨blocks, List.replicate (arr.numBlks - 1) arr.blkSz ++ [arr.lastBlkSz]⟩

section stores

variable {σ : Type} {thrift : Protocol} {heap : Heap} {dec : Decoder}
  {decompress : CompressionCodec → Bytes → Option Bytes} {storage : Storage σ} {w place : ℕ}
  {bytes D name : Bytes} {A : StoredArray} {type : DataType} {physical : PhysicalType}
  {converted : Option ConvertedType} {s s' : σ} {m : FileMap}

/-- Blocks are found in everything that their payload is the beginning of. -/
theorem CompressedBlocks.of_prefix {decompress : Bytes → Option Bytes} {arr : CompressedArray}
    {p q : Bytes} {blocks : List Bytes} (h : CompressedBlocks decompress arr p blocks)
    (hpq : p <+: q) : CompressedBlocks decompress arr q blocks where
  length_eq := h.length_eq
  length_blocks := h.length_blocks
  size_lt := h.size_lt
  payload_length := h.payload_length.trans hpq.length_le
  decompress_eq k hk hk' := by
    have hend : start arr.compressedBlkSz k + arr.compressedBlkSz[k] ≤ p.length := by
      rw [← start_succ hk]
      exact (start_le_sum _ _).trans h.payload_length
    rw [ slice_of_prefix hpq hend]
    exact h.decompress_eq k hk hk'

/-- The map of an uncompressed array is one of blocks of its elements. -/
theorem mapsBlocks_of_plain {enc : EncodingType} {headerType : DataType} {before after : Bytes}
    {base : RandomAccessFile σ} (hform : FormAt enc headerType [D.length] D before after base)
    (hdec : dec.IsStandard) (hword : D.length < 256 ^ wordSize headerType) (hdvd : w ∣ D.length)
    (htables : Tables type w physical converted)
    (h : parseAppendedArray thrift heap dec base name type .none enc headerType before.length s =
      .ok (m, s')) :
    ∃ blks blocks, blocks.flatten = D ∧
      blks.map Blk.uncompressedSize = blocks.map List.length ∧
      MapsBlocks ⟨thrift, w⟩ ⟨name, physical, converted, .uncompressed⟩ dec decompress
        (enc == .base64) (before ++ (appendedForm enc headerType [D.length] D ++ after)) blks blocks
        m := by
  -- The map is that of the array behind the header.
  obtain ⟨s₁, hheader⟩ := hform.parseUncompressed_of_fits hdec hword s
  rw [parseAppendedArray, if_pos rfl, Exec.bind_of_eq_ok hheader] at h
  dsimp only at h
  rw [hform.adjustDataStart_eq] at h
  obtain ⟨m', hbuild, h⟩ := Exec.of_bind_eq_ok h
  obtain ⟨rfl, -⟩ := Prod.mk.inj (Except.ok.inj h)
  set dataStart := before.length + (encodeUnit enc (headerOf headerType [D.length])).length
  have hstart : dataStart < 2 ^ 63 := hform.dataStart_lt
  obtain ⟨hpos, hmax⟩ := bounds_of_buildMapUncompressed_eq_ok hbuild
  obtain ⟨hfooter, hmap⟩ := isMapOf_of_buildMapUncompressed htables hbuild
  -- Behind the header are the elements.
  have hfound := prefix_payloadOf enc hdec
    (before ++ encodeUnit enc (headerOf headerType [D.length])) D after
  rw [← file_eq_payload, List.length_append] at hfound
  have hlt := hform.length_lt
  obtain ⟨rest, hrest⟩ := hfound
  have hplain : UncompressedForm D ⟨D.length, dataStart⟩ (payloadOf dec (enc == .base64) dataStart
      (before ++ (appendedForm enc headerType [D.length] D ++ after))) :=
    ⟨rfl, rest, hrest.symm⟩
  have hlt : D.length < 2 ^ 63 :=
    hplain.length_le.trans_lt (VtkFile.length_payload_lt ⟨_, enc == .base64, base, hform.length_lt,
      completeReads_delivers hform.completeReads _⟩ dec dataStart)
  have hne : D ≠ [] := by
    intro hnil
    have hnum : UncompressedArray.numBlks ⟨D.length, dataStart⟩ = (D.length + 32767) / 32768 :=
      hplain.numBlks_eq hlt
    have hzero : D.length = 0 := List.length_eq_zero_iff.mpr hnil
    omega
  obtain ⟨q, last, -, hsum, -, hlast, hblks⟩ := hplain.sizes_eq hlt hne
  have hflatten : (slices 32768 (q + 1) D).flatten = D := by
    apply flatten_slices_of_le
    rw [hsum, Nat.mul_succ]
    omega
  have hsizes : (uncompressedBlks ⟨D.length, dataStart⟩).map Blk.uncompressedSize =
      (slices 32768 (q + 1) D).map List.length := by
    rw [hblks, map_length_slices hsum hlast]
    simp
  have hdataStart : m'.dataStart = dataStart := hmap.dataStart_eq
  refine ⟨_, _, hflatten, hsizes, ⟨name, type, enc == .base64, Or.inr ⟨_, hbuild⟩⟩,
    hdataStart ▸ hmap, hdataStart ▸ hstart.trans (by norm_num),
    fun b hb => small_of_mem_uncompressedBlks hb, (length_uncompressedBlks hpos).trans_le hmax,
    (footerFits_iff htables).mp hfooter, ?_,
    hdataStart ▸ hplain.decodes decompress hsum hlast hblks, fun B hB =>
      dvd_of_mem_slices hsum hlast htables.valueSize_dvd hdvd (List.mem_map_of_mem hB)⟩
  have hsize : Layout.payloadSize (uncompressedBlks ⟨D.length, dataStart⟩) = D.length :=
    payloadSize_uncompressedBlks (List.length_pos_iff.mpr hne) (hlt.trans (by norm_num))
  rw [hsize, hdataStart]
  exact hplain.length_le

/-- The map of a compressed array is one of its blocks. -/
theorem mapsBlocks_of_compressed {codec : CompressionType} {c : CompressionCodec}
    {enc : EncodingType} {headerType : DataType} {before after payload : Bytes}
    {base : RandomAccessFile σ} {arr : CompressedArray} {blocks : List Bytes}
    (hform : FormAt enc headerType arr.words payload before after base) (hdec : dec.IsStandard)
    (hcodec : toParquetCodec codec = .ok c) (hnone : codec ≠ .none)
    (hblocks : CompressedBlocks (decompress c) arr payload blocks)
    (hdvd : ∀ B ∈ blocks, w ∣ B.length) (hwords : ∀ x ∈ arr.words, x < 2 ^ 31)
    (hnum : arr.numBlks < 2 ^ 30) (hheap : heap.Grants (8 * arr.numBlks))
    (htables : Tables type w physical converted)
    (h : parseAppendedArray thrift heap dec base name type codec enc headerType before.length s =
      .ok (m, s')) :
    ∃ blks, (HeaderSizes arr blocks ↔ blks.map Blk.uncompressedSize = blocks.map List.length) ∧
      MapsBlocks ⟨thrift, w⟩ ⟨name, physical, converted, c⟩ dec decompress (enc == .base64)
        (before ++ (appendedForm enc headerType arr.words payload ++ after)) blks blocks m := by
  -- The map is that of the array behind the header.
  obtain ⟨s₁, hheader⟩ := hform.parseCompressed hdec hblocks.length_eq hnum hwords hheap s
  rw [parseAppendedArray, if_neg hnone, Exec.bind_of_eq_ok hheader] at h
  dsimp only at h
  rw [hform.adjustDataStart_eq] at h
  obtain ⟨m', hbuild, h⟩ := Exec.of_bind_eq_ok h
  obtain ⟨rfl, -⟩ := Prod.mk.inj (Except.ok.inj h)
  set dataStart := before.length + (encodeUnit enc (headerOf headerType arr.words)).length
  have hstart : dataStart < 2 ^ 63 := hform.dataStart_lt
  have hlt : arr.numBlks < 2 ^ 64 := by omega
  obtain ⟨hpos, hmax⟩ := bounds_of_buildMapCompressed_eq_ok (by exact hlt) hbuild
  obtain ⟨hfooter, hmap⟩ := isMapOf_of_buildMapCompressed htables hcodec
    (by exact hblocks.length_eq) (by exact hlt) hbuild
  -- Behind the header are the blocks.
  have hfound := prefix_payloadOf enc hdec
    (before ++ encodeUnit enc (headerOf headerType arr.words)) payload after
  rw [← file_eq_payload, List.length_append] at hfound
  have hblkSz : arr.blkSz < 2 ^ 31 := hwords _ (by simp [CompressedArray.words])
  have hlast : arr.lastBlkSz < 2 ^ 31 := hwords _ (by simp [CompressedArray.words])
  set vtk : VtkFile σ := ⟨before ++ (appendedForm enc headerType arr.words payload ++ after),
    enc == .base64, base, hform.length_lt, completeReads_delivers hform.completeReads _⟩
  have hthere : CompressedBlocks (decompress c) { arr with dataStart := dataStart }
      (vtk.payload dec dataStart) blocks :=
    CompressedBlocks.of_prefix ⟨hblocks.length_eq, hblocks.length_blocks, hblocks.size_lt,
      hblocks.payload_length, hblocks.decompress_eq⟩ hfound
  have hdataStart : m'.dataStart = dataStart := hmap.dataStart_eq
  refine ⟨compressedBlks { arr with dataStart := dataStart },
    (sizes_eq_iff_headerSizes hthere.length_eq hpos hblkSz hlast).symm, ⟨name, type,
      enc == .base64, Or.inl ⟨codec, { arr with dataStart := dataStart }, hblocks.length_eq, hlt,
      hbuild⟩⟩, hdataStart ▸ hmap, hdataStart ▸ hstart.trans (by norm_num),
    fun b hb => small_of_mem_compressedBlks hblocks.size_lt hblkSz hlast hb, ?_,
    (footerFits_iff htables).mp hfooter, ?_,
    hdataStart ▸ hthere.decodes (ne_uncompressed_of_toParquetCodec hcodec hnone), hdvd⟩
  · rw [length_compressedBlks]
    exact hblocks.length_eq.trans_le hmax
  · rw [hthere.payloadSize_eq, hdataStart]
    exact hthere.payload_length

/-- **The map of an array that stands in the file** is one of blocks of its elements, and its pages
declare the sizes of these blocks if and only if the header of the array gives its blocks theirs. -/
theorem Stores.mapsBlocks (h : Stores heap decompress storage w place bytes A)
    (hdec : dec.IsStandard)
    (hheader : storage.headerType = .uint32 ∨ storage.headerType = .uint64)
    (hbase : CompleteReads storage.base bytes) (hbytes : bytes.length < 2 ^ 63)
    (htables : Tables type w physical converted)
    (hparse : parseAppendedArray thrift heap dec storage.base name type storage.codec storage.enc
      storage.headerType place s = .ok (m, s')) :
    ∃ c blks blocks, blocks.flatten = A.bytes ∧
      (A.Sized ↔ blks.map Blk.uncompressedSize = blocks.map List.length) ∧
      MapsBlocks ⟨thrift, w⟩ ⟨name, physical, converted, c⟩ dec decompress
        (storage.enc == .base64) bytes blks blocks m := by
  cases h with
  | plain hcodec hplace hfile hword hdvd =>
      subst hplace hfile
      rw [hcodec] at hparse
      obtain ⟨blks, blocks, hflatten, hsizes, hmaps⟩ :=
        mapsBlocks_of_plain ⟨hheader, hbytes, hbase⟩ hdec hword hdvd htables hparse
      exact ⟨_, blks, blocks, hflatten.trans (List.append_nil _).symm, iff_of_true rfl hsizes,
        hmaps⟩
  | compressed hcodec hnone hplace hfile hblocks hdvd hwords hnum hheap =>
      subst hplace hfile
      obtain ⟨blks, hsizes, hmaps⟩ := mapsBlocks_of_compressed ⟨hheader, hbytes, hbase⟩ hdec hcodec
        hnone hblocks hdvd hwords hnum hheap htables hparse
      exact ⟨_, blks, _, rfl, eq_comm.trans hsizes, hmaps⟩

end stores

/-! ## Files of a tree -/

section served

variable {E σ : Type} {thrift : Protocol} {heap : Heap} {dec : Decoder}
  {decompress : CompressionCodec → Bytes → Option Bytes} {input : VtkInput E σ}
  {cls : VtkReaderClass} {root : E} {storage : Storage σ} {bytes : Bytes}
  {subdirs : StringMap SubDir} {statbuf : StatBuf} {metadata : List (XmlName × CString)}
  {sections : List (CString × Arrays E)}

/-- The header words of a file are of one of two types. -/
theorem headerType_eq_or (h : IsStorageOf input cls root storage) :
    storage.headerType = .uint32 ∨ storage.headerType = .uint64 := by
  obtain ⟨text, -, htype⟩ := h.headerType_eq
  exact htype.imp And.right And.right

/-- **The map of an array** that stands where its attributes say can be read, and shows its
elements if the header gives each block its own size. -/
theorem backed_of_isLoaded (hstorage : IsStorageOf input cls root storage)
    (hdec : dec.IsStandard) (hbase : CompleteReads storage.base bytes)
    (hbytes : bytes.length < 2 ^ 63) {name : Bytes} {A : StoredArray}
    {attrs : List (XmlName × CString)} {m : FileMap}
    (h : IsLoaded thrift heap dec storage name attrs m) {type : DataType} {offset : ℤ}
    (hdescribes : Describes attrs type offset) {w : ℕ} (hw : getValueSize type = .ok w)
    (hstores : Stores heap decompress storage w (storage.place offset) bytes A) :
    Backed dec (storage.enc == .base64) bytes (.virtual m) ∧ fileSize (.virtual m) < 2 ^ 63 ∧
      (name.length < 2 ^ 64 → HoldsTable thrift decompress name type w A
        (contentOf dec (storage.enc == .base64) bytes (.virtual m))) := by
  obtain ⟨w', physical, converted, htables⟩ := exists_tables (ne_unknown_of_getValueSize hw)
  obtain rfl : w' = w := Except.ok.inj (htables.valueSize_eq.symm.trans hw)
  obtain ⟨type', offset', s, s', hdescribes', hparse⟩ := h
  obtain ⟨rfl, rfl⟩ := describes_unique hdescribes hdescribes'
  obtain ⟨c, blks, blocks, hflatten, hsized, hmaps⟩ :=
    hstores.mapsBlocks hdec (headerType_eq_or hstorage) hbase hbytes htables hparse
  exact ⟨hmaps.backed, hmaps.fileSize_lt, hmaps.holdsTable hflatten hsized htables⟩

end served

/-- **An array of a VTK file is served as a table.** For every file that the parser accepts, over a
base that reads it completely, and every array in a section that is loaded, whose name has no
separator: if its elements stand where its attributes say, in one of the forms of the format, then
there is one Parquet file with a column of this name, of a length that `off_t` can say and that
`Getattr` gives for the path of the array, and in every run of a session mounted on the tree every
read of this path that returns has the bytes of this file. If the elements take four or eight bytes,
then a reader finds them in the column, in order, if and only if the header of the array gives each
block its own size. -/
theorem tables_served {E σ T : Type} [DecidableEq T] [Fintype T] (thrift : Protocol) (heap : Heap)
    (dec : Decoder) (hdec : dec.IsStandard)
    (decompress : CompressionCodec → Bytes → Option Bytes) (input : VtkInput E σ) (fname : CString)
    (s s' : σ) (tree : VtkTree) (h : parseVtkFile thrift heap dec input fname s = .ok (tree, s'))
    (kind : MeshKind) (hkind : kindOf fname = some kind) (root : E) (storage : Storage σ)
    (hstorage : IsStorageOf input kind.cls root storage) (bytes : Bytes)
    (hbase : CompleteReads storage.base bytes) (hbytes : bytes.length < 2 ^ 63)
    (sec : CString × Arrays E) (hsec : sec ∈ kind.arrays input) (arr : CString × E)
    (harr : arr ∈ sec.2) (hsep : separator ∉ arr.1.bytes) (hname : arr.1.bytes.length < 2 ^ 64)
    (type : DataType) (offset : ℤ)
    (hdescribes : Describes (sec.2.attributes input.xml arr.1.bytes) type offset)
    (w : ℕ) (hw : getValueSize type = .ok w) (A : StoredArray)
    (hstores : Stores heap decompress storage w (storage.place offset) bytes A) :
    ∃ V f, V.length < 2 ^ 63 ∧ Parquet.readFile thrift V = some f ∧ f.leaf.name = arr.1.bytes ∧
      (type ≠ .int8 → type ≠ .uint8 →
        ((Parquet.tableValues decompress f).map List.flatten = vtkElements type w A.bytes ↔
          A.Sized)) ∧
      (∀ statbuf, getattr tree (some (filePath sec.1 (arrayFileName arr.1))) statbuf =
        .ok (0, tree.baseStatbuf.toFile V.length)) ∧
      ∀ (b : σ) (hist : List (Event T σ × Reply)) (t : Session T σ),
        Run (Session.step dec storage.base) (Session.mount tree b) hist t →
        ∀ e size offset nr x,
          (e, .data (filePath sec.1 (arrayFileName arr.1)) size offset nr x) ∈ hist →
          x = some (slice V offset size) ∧ nr = readResult x := by
  obtain ⟨kind', root', storage', subdirs, statbuf, hkind', hstorage', -, rfl, hloaded⟩ :=
    parseVtkFile_isLoadedTree h
  obtain rfl := Option.some.inj (hkind.symm.trans hkind')
  obtain rfl := storage_unique hstorage hstorage'
  obtain ⟨m, hptr, hm⟩ :=
    resolve_array hloaded hsec (isPlain_of_mem_arrays hsec) harr hsep
  obtain ⟨hbacked, hsize, htable⟩ :=
    backed_of_isLoaded hstorage hdec hbase hbytes hm hdescribes hw hstores
  obtain ⟨f, hread, hleaf, hvalues⟩ := htable hname
  rw [← hbacked.length_contentOf] at hsize
  refine ⟨_, f, hsize, hread, hleaf, hvalues, ?_, ?_⟩
  · intro statbuf'
    have hgetattr := getattr_eq (.new subdirs statbuf)
      (some (filePath sec.1 (arrayFileName arr.1))) statbuf'
    rw [hptr] at hgetattr
    rw [hgetattr, hbacked.length_contentOf]
  · intro b hist t hrun e size offset nr x hmem
    obtain ⟨hnr, ⟨hx, -⟩ | ⟨-, -, hfails⟩⟩ := data_of_run
      (completeReads_reads hbase (storage.enc == .base64)) hbytes hptr hbacked hrun hmem
    · exact ⟨hx, hnr⟩
    · exact absurd hfails (not_fails_of_delivers (completeReads_delivers hbase true))

/-! ### The file with one array -/

/-- The name of its array. -/
abbrev smallName : CString := cString "x" (by decide)

/-- It describes its array. -/
theorem describes_small :
    Describes (Arrays.attributes (smallInput smallName).xml [(smallName, .array)] smallName.bytes)
      .int32 0 where
  type_eq := ⟨ascii "Int32", by decide, rfl⟩
  format_eq := by decide
  offset_eq := ⟨ascii "0", by decide, rfl⟩

/-- The bytes of its element stand in it. -/
theorem stores_small : Stores zeroHeap (fun _ => inflateStored) smallStorage 4
    (smallStorage.place 0) [95, 4, 0, 0, 0, 1, 2, 3, 4] ⟨[[1, 2, 3, 4]], [4]⟩ :=
  @Stores.plain _ _ _ _ _ _ _ [95] [] [1, 2, 3, 4] rfl (by decide) (by decide) (by decide)
    (by decide)

/-- Its metadata are short. -/
theorem length_lastValue_small {key value : Bytes}
    (h : lastValue (MeshKind.metadata ⟨ascii "ImageData", .imageData, false, false⟩
      (smallInput smallName)) key = some value) : value.length < 2 ^ 63 := by
  obtain ⟨attr, hattr, rfl⟩ := Option.map_eq_some_iff.mp h
  have hall : ∀ attr ∈ MeshKind.metadata ⟨ascii "ImageData", .imageData, false, false⟩
      (smallInput smallName), attr.2.bytes.length < 2 ^ 63 := by decide
  exact hall attr (List.mem_filter.mp (List.mem_of_getLast? hattr)).1

/-- Its array is the only one. -/
theorem eq_of_mem_arrays_small {sec : CString × Arrays SmallElement} {arr : CString × SmallElement}
    (hsec : sec ∈ MeshKind.arrays ⟨ascii "ImageData", .imageData, false, false⟩
      (smallInput smallName)) (harr : arr ∈ sec.2) :
    sec = (pointdataName, [(smallName, .array)]) ∧ arr = (smallName, .array) := by
  rw [arrays_small] at hsec
  rcases List.mem_pair.mp hsec with rfl | rfl
  · exact ⟨rfl, List.mem_singleton.mp harr⟩
  · exact absurd harr List.not_mem_nil

/-- The elements of its array stand where its attributes say. -/
theorem stores_arrays_small {sec : CString × Arrays SmallElement} {arr : CString × SmallElement}
    (hsec : sec ∈ MeshKind.arrays ⟨ascii "ImageData", .imageData, false, false⟩
      (smallInput smallName)) (harr : arr ∈ sec.2) {type : DataType} {offset : ℤ}
    (hdescribes : Describes (sec.2.attributes (smallInput smallName).xml arr.1.bytes) type offset) :
    ∃ w A, getValueSize type = .ok w ∧ Stores zeroHeap (fun _ => inflateStored) smallStorage w
      (smallStorage.place offset) [95, 4, 0, 0, 0, 1, 2, 3, 4] A := by
  obtain ⟨rfl, rfl⟩ := eq_of_mem_arrays_small hsec harr
  obtain ⟨rfl, rfl⟩ := describes_unique describes_small hdescribes
  exact ⟨4, _, rfl, stores_small⟩

/-- The theorem at the file with one array, and a session in which the file of this array is
read. -/
theorem tables_served_x :
    ∃ (tree : VtkTree) (V : Bytes) (f : Parquet.File) (hist : List (Event (Fin 2) Unit × Reply))
      (t : Session (Fin 2) Unit) (nr : ℤ) (x : Option Bytes),
      parseVtkFile compact zeroHeap standardDecoder (smallInput smallName)
        (cString "a.vti" (by decide)) () = .ok (tree, ()) ∧
      Parquet.readFile compact V = some f ∧
      (Parquet.tableValues (fun _ => inflateStored) f).map List.flatten =
        some [.int 67305985] ∧
      Run (Session.step standardDecoder smallStorage.base) (Session.mount tree ()) hist t ∧
      (.turn 0, .data (filePath pointdataName (arrayFileName smallName)) 200 0 nr x) ∈ hist ∧
      x = some (slice V 0 200) := by
  obtain ⟨⟨tree, ⟨⟩⟩, htree⟩ := exists_tree_smallInput smallName (by decide)
  have hcomplete := osFile_completeReads [95, 4, 0, 0, 0, 1, 2, 3, 4]
  obtain ⟨V, f, -, hread, -, hvalues, -, hruns⟩ := @tables_served _ _ (Fin 2) _ _ compact zeroHeap
    standardDecoder standardDecoder_isStandard (fun _ => inflateStored) _ _ _ _ _ htree _
    kindOf_small _ smallStorage (isStorageOf_small _) _ hcomplete (by decide)
    (pointdataName, [(smallName, .array)]) List.mem_cons_self (smallName, .array)
    List.mem_cons_self (by decide) (by decide) .int32 0 describes_small 4 rfl _ stores_small
  -- A session in which the file is opened and read.
  obtain ⟨kind, _, storage, subdirs, statbuf, hkind, hstorage, -, rfl, hloaded⟩ :=
    parseVtkFile_isLoadedTree htree
  rw [kindOf_small] at hkind
  obtain rfl := Option.some.inj hkind
  obtain rfl := storage_unique (isStorageOf_small _) hstorage
  obtain ⟨m, hptr, hm⟩ := @resolve_array _ _ _ _ _ _ _ _ _ _ statbuf hloaded
    (pointdataName, [(smallName, .array)]) List.mem_cons_self ⟨by decide, by decide⟩
    (smallName, .array) List.mem_cons_self (by decide)
  obtain ⟨hbacked, -⟩ := @backed_of_isLoaded _ _ _ _ _ (fun _ => inflateStored) _ _ _ _ _
    (isStorageOf_small smallName) standardDecoder_isStandard hcomplete (by decide) _ _ _ _ hm
    .int32 0 describes_small 4 rfl stores_small
  obtain ⟨hist, t, t₁, r, hrun, hstep⟩ := exists_run_read standardDecoder smallStorage.base () hptr
    (0 : Fin 2) 200 0 (by decide) (by decide)
  have hrunning := running_of_read
    (Q := AnswersContent standardDecoder smallStorage.base _ [95, 4, 0, 0, 0, 1, 2, 3, 4])
    (sound_of_run hrun) hstep hptr fun hsize =>
      hbacked.endsWithin (completeReads_reads hcomplete _) (by decide) hsize 0
  obtain ⟨hist', t₂, nr, x, hrun', hmem⟩ := hrunning.exists_run
  have hall := (hrun.snoc hstep).trans hrun'
  exact ⟨_, V, f, _, t₂, nr, x, htree, hread, (hvalues (by decide) (by decide)).mpr rfl, hall,
    List.mem_append_right _ hmem,
    (hruns () _ t₂ hall _ 200 0 nr x (List.mem_append_right _ hmem)).1⟩

end VirParquet.Verify
