import VirParquet.Verify.Decode

/-!
# The two forms of an array

An array of a VTK file is stored compressed, block by block, or as it is. `CompressedForm` and
`UncompressedForm` are the two forms of the bytes `D`, and `SameTable` says that `BuildMap` makes
files of them in which a reader finds the same table, that of `D`.

It does so unless the last block is full (`sameTable_iff`): the header of the compressed form then
gives its size as zero, and `BuildMap` takes that as it stands. Beside that the loop counters must
have room for the blocks, and the serializer's buffer for the footers.
-/

namespace VirParquet.Verify

open VirParquet.Found VirParquet.Found.Thrift VirParquet.Found.Base64 VirParquet.Model
  VirParquet.Spec

/-! ## Forms -/

/-- The bytes `D` in blocks of `U` bytes, compressed: `arr` is the header and `payload` begins with
the blocks. The size of the last block before compression is zero if it is full. -/
structure CompressedForm (decompress : Bytes → Option Bytes) (U : ℕ) (D : Bytes)
    (arr : CompressedArray) (payload : Bytes) : Prop where
  numBlks_eq : arr.numBlks = (D.length + U - 1) / U
  blkSz_eq : arr.blkSz = U
  lastBlkSz_eq : arr.lastBlkSz = D.length % U
  blocks : CompressedBlocks decompress arr payload (slices U arr.numBlks D)

/-- The bytes `D` as they are: `arr` is the header and `payload` begins with them. -/
structure UncompressedForm (D : Bytes) (arr : UncompressedArray) (payload : Bytes) : Prop where
  totalBytes_eq : arr.totalBytes = D.length
  payload_eq : ∃ rest, payload = D ++ rest

/-- `BuildMap` makes files of both forms, and a reader finds the rows of `D` and its bytes in
both. -/
def SameTable {σ σ' : Type} (thrift : Protocol) (dec : Decoder)
    (decompress : CompressionCodec → Bytes → Option Bytes) (name : Bytes) (type : DataType)
    (codec : CompressionType) (valueSize : ℕ) (vtk : VtkFile σ) (arr : CompressedArray)
    (vtk' : VtkFile σ') (arr' : UncompressedArray) (D : Bytes) : Prop :=
  ∃ m m' V V' f f',
    buildMapCompressed thrift name type codec vtk.base64 arr = .ok m ∧
    buildMapUncompressed thrift name type vtk'.base64 arr' = .ok m' ∧
    Serves dec m vtk.base V ∧ Serves dec m' vtk'.base V' ∧
    Parquet.readFile thrift V = some f ∧ Parquet.readFile thrift V' = some f' ∧
    f.metaData.numRows = (D.length / valueSize : ℕ) ∧
    f'.metaData.numRows = (D.length / valueSize : ℕ) ∧
    Parquet.tableBytes decompress valueSize f = some D ∧
    Parquet.tableBytes decompress valueSize f' = some D

/-! ## Blocks of `D` -/

section blocks

variable {step : ℕ} {D : Bytes}

/-- A division that rounds up counts the rest as one more. -/
theorem ceil_eq (hstep : 0 < step) (n : ℕ) :
    (n + step - 1) / step = n / step + if n % step = 0 then 0 else 1 := by
  have hdiv := Nat.div_add_mod n step
  have hmod := Nat.mod_lt n hstep
  have hsplit : n + step - 1 = n % step + step - 1 + step * (n / step) := by omega
  rw [hsplit, Nat.add_mul_div_left _ _ hstep, Nat.add_comm]
  congr 1
  split
  next hzero => rw [hzero, Nat.zero_add, Nat.div_eq_of_lt (by omega)]
  next hne =>
    have : n % step + step - 1 = n % step - 1 + step * 1 := by omega
    rw [this, Nat.add_mul_div_left _ _ hstep, Nat.div_eq_of_lt (by omega)]

/-- The sizes of the blocks of `D` are full ones, and what is left. -/
theorem map_length_slices {q last : ℕ} (h : D.length = step * q + last) (hlast : last ≤ step) :
    (slices step (q + 1) D).map List.length = List.replicate q step ++ [last] := by
  refine List.ext_getElem (by simp) fun k hk₀ hk' => ?_
  have hk : k < q + 1 := by simpa using hk₀
  have hslice : ((slices step (q + 1) D).map List.length)[k] =
      min step (D.length - step * k) := by
    simp [slices]
  rw [hslice]
  rcases Nat.lt_or_ge k q with hlt | hge
  · have hmul : step * (k + 1) ≤ step * q := Nat.mul_le_mul_left step hlt
    rw [List.getElem_append_left (by simpa using hlt), List.getElem_replicate]
    rw [Nat.mul_succ] at hmul
    omega
  · obtain rfl : k = q := by omega
    rw [List.getElem_append_right (by simp)]
    simp only [List.length_replicate, Nat.sub_self, List.getElem_cons_zero]
    omega

/-- Slices of a byte string of whole values hold whole values. -/
theorem dvd_of_mem_slices {valueSize q last : ℕ} (h : D.length = step * q + last)
    (hlast : last ≤ step) (hstep : valueSize ∣ step) (hD : valueSize ∣ D.length) {x : ℕ}
    (hx : x ∈ (slices step (q + 1) D).map List.length) : valueSize ∣ x := by
  rw [map_length_slices h hlast] at hx
  rcases List.mem_append.mp hx with hx | hx
  · obtain ⟨-, rfl⟩ := List.mem_replicate.mp hx
    exact hstep
  · obtain rfl := List.mem_singleton.mp hx
    exact (Nat.dvd_add_right (hstep.mul_right q)).mp (h ▸ hD)

end blocks

/-! ## What a reader finds -/

section found

variable {thrift : Protocol} {dec : Decoder}
  {decompress : CompressionCodec → Bytes → Option Bytes} {name : Bytes} {valueSize : ℕ}
  {physical : PhysicalType} {converted : Option ConvertedType} {D : Bytes} {σ : Type}
  {m : FileMap} {base64 : Bool}

/-- The file of a map of small blocks, as a reader finds it through `FileMap::Pread`. -/
theorem Layout.IsMapOf.readFile {L : Layout} {col : Column} {blks : List Blk} {dataStart : ℕ}
    {vtk : VtkFile σ} (h : L.IsMapOf col vtk.base64 dataStart blks m)
    (hblks : ∀ b ∈ blks, b.Small) (hlen : blks.length ≤ 2 ^ 31) (hstart : dataStart < 2 ^ 64)
    (hname : col.name.length < 2 ^ 64) (hshort : (L.footerBytes col blks).length < 2 ^ 32)
    (hpayload : payloadSize blks ≤ (vtk.payload dec dataStart).length) :
    ∃ V, Serves dec m vtk.base V ∧ V.length < 2 ^ 64 ∧
      Parquet.readFile L.thrift V = some (L.file col (vtk.payload dec dataStart) blks) := by
  have hfits : ∀ b ∈ blks, b.Fits := fun b hb => (hblks b hb).fits
  refine ⟨_, h.serves vtk.delivers vtk.length_lt hstart hpayload, ?_,
    readFile_content hfits hlen hname hshort (fun b hb => (hblks b hb).1) hpayload⟩
  have hlength := length_content fun r hr => L.inside_of_mem_fileRegions col _ hpayload hr
  exact hlength.trans_lt h.represents.totalSize_lt

/-- A reader finds the elements of `D` in a file of blocks that decompress to the blocks of `D`. -/
theorem Layout.table_file (L : Layout) (col : Column) {blks : List Blk} {payload : Bytes}
    {step q last : ℕ} (hD : D.length = step * q + last) (hlast : last ≤ step)
    (hstep : step < 2 ^ 31) (hdvd : L.valueSize ∣ step) (hdvdD : L.valueSize ∣ D.length)
    (hpos : 0 < L.valueSize)
    (hsizes : blks.map Blk.uncompressedSize = List.replicate q step ++ [last])
    (hdecodes : Decodes (Parquet.decoder decompress col.codec) payload 0 blks
      (slices step (q + 1) D)) :
    (L.file col payload blks).metaData.numRows = (D.length / L.valueSize : ℕ) ∧
      Parquet.tableBytes decompress L.valueSize (L.file col payload blks) = some D := by
  have hmap := map_length_slices hD hlast
  have hmem : ∀ b ∈ blks, b.uncompressedSize ∈ (slices step (q + 1) D).map List.length := by
    intro b hb
    rw [hmap, ← hsizes]
    exact List.mem_map_of_mem hb
  have hdvdBlks : ∀ b ∈ blks, L.valueSize ∣ b.uncompressedSize := fun b hb =>
    dvd_of_mem_slices hD hlast hdvd hdvdD (hmem b hb)
  have hdeclares : L.Declares blks (slices step (q + 1) D) := by
    refine ⟨hsizes.trans hmap.symm, fun b hb => ?_, hdvdBlks⟩
    have hx := hmem b hb
    rw [hmap] at hx
    rcases List.mem_append.mp hx with hx | hx
    · rw [(List.mem_replicate.mp hx).2]
      exact hstep
    · rw [List.mem_singleton.mp hx]
      exact hlast.trans_lt hstep
  have hflatten : (slices step (q + 1) D).flatten = D := by
    refine flatten_slices_of_le ?_
    rw [hD, Nat.mul_succ]
    omega
  refine ⟨?_, by rw [tableBytes_file hdecodes hdeclares, hflatten]⟩
  have hcount := totalCount_mul hdvdBlks
  have hsum : (blks.map Blk.uncompressedSize).sum = D.length := by
    rw [hsizes, hD]
    simp [Nat.mul_comm]
  show ((L.totalCount blks : ℕ) : ℤ) = _
  rw [← hsum, ← hcount, Nat.mul_div_cancel _ hpos]

section files

variable {type : DataType} {codec : CompressionType} {c : CompressionCodec} {vtk : VtkFile σ}
  (htables : Tables type valueSize physical converted) (hname : name.length < 2 ^ 64)

include htables hname

/-- `BuildMap` makes a file of a compressed array with small blocks, whose footer fits. -/
theorem CompressedBlocks.exists_file {arr : CompressedArray} {blocks : List Bytes}
    (h : CompressedBlocks (decompress c) arr (vtk.payload dec arr.dataStart) blocks)
    (hcodec : toParquetCodec codec = .ok c) (hstart : arr.dataStart < 2 ^ 64)
    (hblkSz : arr.blkSz < 2 ^ 31) (hlast : arr.lastBlkSz < 2 ^ 31) (hpos : 1 ≤ arr.numBlks)
    (hmax : arr.numBlks ≤ 2 ^ 31) (hfooter : FooterFits thrift name type c (compressedBlks arr)) :
    ∃ m V, buildMapCompressed thrift name type codec vtk.base64 arr = .ok m ∧
      Serves dec m vtk.base V ∧ V.length < 2 ^ 64 ∧
      Parquet.readFile thrift V = some (Layout.file ⟨thrift, valueSize⟩
        ⟨name, physical, converted, c⟩ (vtk.payload dec arr.dataStart) (compressedBlks arr)) := by
  have hblks : ∀ b ∈ compressedBlks arr, b.Small := fun b hb =>
    small_of_mem_compressedBlks h.size_lt hblkSz hlast hb
  have hlength : (compressedBlks arr).length ≤ 2 ^ 31 := by
    rw [length_compressedBlks, h.length_eq]
    exact hmax
  have hshort := (footerFits_iff htables).mp hfooter
  obtain ⟨m, hm, hmap⟩ := buildMapCompressed_of_lt htables hcodec h.length_eq hpos hmax hshort
  obtain ⟨V, hV⟩ := hmap.readFile hblks hlength hstart hname hshort
    (by rw [h.payloadSize_eq]; exact h.payload_length)
  exact ⟨m, V, hm, hV⟩

/-- `BuildMap` makes a file of an uncompressed array, whose footer fits. -/
theorem UncompressedForm.exists_file {arr : UncompressedArray}
    (h : UncompressedForm D arr (vtk.payload dec arr.dataStart)) (hstart : arr.dataStart < 2 ^ 64)
    (hD : D ≠ []) (hmax : D.length ≤ 2 ^ 46)
    (hfooter : FooterFits thrift name type .uncompressed (uncompressedBlks arr)) :
    ∃ m V, buildMapUncompressed thrift name type vtk.base64 arr = .ok m ∧
      Serves dec m vtk.base V ∧ V.length < 2 ^ 64 ∧
      Parquet.readFile thrift V = some (Layout.file ⟨thrift, valueSize⟩
        ⟨name, physical, converted, .uncompressed⟩ (vtk.payload dec arr.dataStart)
        (uncompressedBlks arr)) := by
  have hpos := List.length_pos_iff.mpr hD
  have htotal := h.totalBytes_eq
  have hnum : arr.numBlks = (arr.totalBytes + 32767) / 32768 := numBlks_eq (by omega)
  have hblks : ∀ b ∈ uncompressedBlks arr, b.Small := fun b hb =>
    small_of_mem_uncompressedBlks hb
  have hlength : (uncompressedBlks arr).length ≤ 2 ^ 31 := by
    rw [length_uncompressedBlks (by omega)]
    omega
  have hpayload : Layout.payloadSize (uncompressedBlks arr) ≤
      (vtk.payload dec arr.dataStart).length := by
    obtain ⟨rest, hrest⟩ := h.payload_eq
    rw [payloadSize_uncompressedBlks (by omega) (by omega), htotal, hrest, List.length_append]
    omega
  have hshort := (footerFits_iff htables).mp hfooter
  obtain ⟨m, hm, hmap⟩ := buildMapUncompressed_of_lt htables (by omega) (by omega) hshort
  obtain ⟨V, hV⟩ := hmap.readFile hblks hlength hstart hname hshort hpayload
  exact ⟨m, V, hm, hV⟩

end files

end found

/-! ## The compressed form -/

section forms

variable {thrift : Protocol} {dec : Decoder}
  {decompress : CompressionCodec → Bytes → Option Bytes} {name : Bytes} {type : DataType}
  {codec : CompressionType} {c : CompressionCodec} {valueSize : ℕ}
  {physical : PhysicalType} {converted : Option ConvertedType}
  {U : ℕ} {D payload : Bytes} {arr : CompressedArray} {arr' : UncompressedArray}

/-- The last block of a compressed form is small. -/
theorem CompressedForm.lastBlkSz_lt (h : CompressedForm (decompress c) U D arr payload)
    (hpos : 0 < U) (hU : U < 2 ^ 31) : arr.lastBlkSz < 2 ^ 31 :=
  h.lastBlkSz_eq ▸ (Nat.mod_lt _ hpos).trans hU

/-- The blocks of a compressed form have at least one byte in all, so there is a block. -/
theorem CompressedForm.numBlks_pos (h : CompressedForm (decompress c) U D arr payload)
    (hpos : 0 < U) (hD : D ≠ []) : 1 ≤ arr.numBlks := by
  have hlen := List.length_pos_iff.mpr hD
  rw [h.numBlks_eq]
  exact (Nat.one_le_div_iff hpos).mpr (by omega)

/-- The blocks of a compressed form have the sizes that its header gives them. -/
theorem CompressedForm.sizes_eq (h : CompressedForm (decompress c) U D arr payload)
    (hpos : 0 < U) (hU : U < 2 ^ 31) (hD : D ≠ []) :
    (compressedBlks arr).map Blk.uncompressedSize =
      List.replicate (arr.numBlks - 1) U ++ [D.length % U] := by
  have hmod := Nat.mod_lt D.length hpos
  rw [map_uncompressedSize_compressedBlks h.blocks.length_eq (h.numBlks_pos hpos hD), h.blkSz_eq,
    h.lastBlkSz_eq, u32_of_lt (by omega), u32_of_lt (by omega)]

/-! ## The uncompressed form -/

/-- The payload of an uncompressed form holds its bytes. -/
theorem UncompressedForm.length_le (h : UncompressedForm D arr' payload) :
    D.length ≤ payload.length := by
  obtain ⟨rest, rfl⟩ := h.payload_eq
  rw [List.length_append]
  omega

/-- An uncompressed form has a block for every 32 KiB that it starts on. -/
theorem UncompressedForm.numBlks_eq (h : UncompressedForm D arr' payload)
    (hlen : D.length < 2 ^ 63) : arr'.numBlks = (D.length + 32767) / 32768 := by
  have htotal := h.totalBytes_eq
  rw [Verify.numBlks_eq (by omega), htotal]

/-- The blocks of an uncompressed form are full but for the last. -/
theorem UncompressedForm.sizes_eq (h : UncompressedForm D arr' payload)
    (hlen : D.length < 2 ^ 63) (hD : D ≠ []) :
    ∃ q last, arr'.numBlks = q + 1 ∧ D.length = 32768 * q + last ∧ 1 ≤ last ∧ last ≤ 32768 ∧
      uncompressedBlks arr' = List.replicate q ⟨32768, 32768⟩ ++ [⟨last, last⟩] := by
  have hpos := List.length_pos_iff.mpr hD
  have htotal := h.totalBytes_eq
  have hnum := h.numBlks_eq hlen
  have hlast : arr'.lastBlkSz = (D.length - 1) % 32768 + 1 := by
    rw [UncompressedArray.lastBlkSz, subU64_of_le (by omega) (by omega), htotal]
  exact ⟨arr'.numBlks - 1, arr'.lastBlkSz, by omega, by omega, by omega, by omega, rfl⟩

variable (decompress) in
/-- The blocks of an uncompressed form are the blocks of `D`. -/
theorem UncompressedForm.decodes {q last : ℕ} (h : UncompressedForm D arr' payload)
    (hq : D.length = 32768 * q + last) (hlast : last ≤ 32768)
    (hblks : uncompressedBlks arr' = List.replicate q ⟨32768, 32768⟩ ++ [⟨last, last⟩]) :
    Layout.Decodes (Parquet.decoder decompress .uncompressed) payload 0 (uncompressedBlks arr')
      (slices 32768 (q + 1) D) := by
  obtain ⟨rest, rfl⟩ := h.payload_eq
  rw [hblks]
  refine Layout.decodes_of_getElem (by simp) fun k hk hk' => ?_
  have hk : k < q + 1 := by simpa using hk
  have hslice : (slices 32768 (q + 1) D)[k] = slice D (32768 * k) 32768 := by
    simp [slices]
  have hstart : Layout.payloadSize ((List.replicate q (⟨32768, 32768⟩ : Blk) ++
      [(⟨last, last⟩ : Blk)]).take k) = 32768 * k := by
    rw [List.take_append_of_le_length (by simp; omega), List.take_replicate, Nat.min_eq_left
      (by omega), payloadSize_replicate]
  have hsize : (List.replicate q (⟨32768, 32768⟩ : Blk) ++
      [(⟨last, last⟩ : Blk)])[k].compressedSize =
      min 32768 (D.length - 32768 * k) := by
    rcases Nat.lt_or_ge k q with hlt | hge
    · rw [List.getElem_append_left (by simpa using hlt), List.getElem_replicate]
      dsimp only
      omega
    · obtain rfl : k = q := by omega
      rw [List.getElem_append_right (by simp)]
      simp only [List.length_replicate, Nat.sub_self, List.getElem_cons_zero]
      omega
  rw [Parquet.decoder, if_pos rfl, Nat.zero_add, hstart, hsize, hslice,
    slice_append_left (by omega), slice_min]

end forms

/-! ## The two forms -/

section sameTable

variable {σ σ' : Type} {thrift : Protocol} {dec : Decoder}
  {decompress : CompressionCodec → Bytes → Option Bytes} {name : Bytes} {type : DataType}
  {codec : CompressionType} {c : CompressionCodec} {valueSize : ℕ} {U : ℕ} {D : Bytes}
  {vtk : VtkFile σ} {vtk' : VtkFile σ'} {arr : CompressedArray} {arr' : UncompressedArray}

/-- If the last block is not full, a reader finds the same table. -/
theorem sameTable_of_mod_ne_zero (htype : getValueSize type = .ok valueSize)
    (hcodec : toParquetCodec codec = .ok c) (hnone : codec ≠ .none)
    (hname : name.length < 2 ^ 64) (hstart : arr.dataStart < 2 ^ 64)
    (hstart' : arr'.dataStart < 2 ^ 64) (hD : D ≠ []) (hdvd : valueSize ∣ D.length) (hU : 0 < U)
    (hUlt : U < 2 ^ 31) (hdvdU : valueSize ∣ U)
    (hform : CompressedForm (decompress c) U D arr (vtk.payload dec arr.dataStart))
    (hform' : UncompressedForm D arr' (vtk'.payload dec arr'.dataStart))
    (hmod : D.length % U ≠ 0) (hmax : arr.numBlks ≤ 2 ^ 31) (hmax' : D.length ≤ 2 ^ 46)
    (hfooter : FooterFits thrift name type c (compressedBlks arr))
    (hfooter' : FooterFits thrift name type .uncompressed (uncompressedBlks arr')) :
    SameTable thrift dec decompress name type codec valueSize vtk arr vtk' arr' D := by
  obtain ⟨valueSize', physical, converted, htables⟩ :=
    exists_tables (ne_unknown_of_getValueSize htype)
  obtain rfl : valueSize' = valueSize := Except.ok.inj (htables.valueSize_eq.symm.trans htype)
  have hvs := htables.valueSize_pos
  have hpos := hform.numBlks_pos hU hD
  have hc := ne_uncompressed_of_toParquetCodec hcodec hnone
  -- The compressed form.
  have hq : arr.numBlks = D.length / U + 1 := by
    rw [hform.numBlks_eq, ceil_eq hU, if_neg hmod]
  have hsizes := hform.sizes_eq hU hUlt hD
  have hdecodes := hform.blocks.decodes hc
  rw [hq, Nat.add_sub_cancel] at hsizes
  rw [hq] at hdecodes
  obtain ⟨m, V, hm, hV, -, hread⟩ := hform.blocks.exists_file htables hname
    hcodec hstart (hform.blkSz_eq ▸ hUlt) (hform.lastBlkSz_lt hU hUlt) hpos hmax hfooter
  obtain ⟨hrows, htable⟩ := Layout.table_file ⟨thrift, valueSize'⟩
    ⟨name, physical, converted, c⟩ (Nat.div_add_mod D.length U).symm (Nat.mod_lt _ hU).le hUlt
    hdvdU hdvd hvs hsizes hdecodes
  -- The uncompressed form.
  obtain ⟨q, last, hnum, hq', -, hlast, hblks'⟩ := hform'.sizes_eq (by omega) hD
  have hdecodes' := hform'.decodes decompress hq' hlast hblks'
  obtain ⟨m', V', hm', hV', -, hread'⟩ := hform'.exists_file htables hname
    hstart' hD hmax' hfooter'
  obtain ⟨hrows', htable'⟩ := Layout.table_file ⟨thrift, valueSize'⟩
    ⟨name, physical, converted, .uncompressed⟩ hq' hlast (by norm_num) htables.valueSize_dvd hdvd
    hvs (by rw [hblks']; simp) hdecodes'
  exact ⟨m, m', V, V', _, _, hm, hm', hV, hV', hread, hread', hrows, hrows', htable, htable'⟩

/-- If the last block is full, `BuildMap` gives it the size that the header has for it, which is
zero, so the rows of that block are missing. -/
theorem mod_ne_zero_of_sameTable (htype : getValueSize type = .ok valueSize)
    (hcodec : toParquetCodec codec = .ok c)
    (hname : name.length < 2 ^ 64) (hstart : arr.dataStart < 2 ^ 64) (hD : D ≠ [])
    (hdvd : valueSize ∣ D.length) (hU : 0 < U) (hUlt : U < 2 ^ 31) (hdvdU : valueSize ∣ U)
    (hform : CompressedForm (decompress c) U D arr (vtk.payload dec arr.dataStart))
    (hmax : arr.numBlks ≤ 2 ^ 31) (hfooter : FooterFits thrift name type c (compressedBlks arr))
    (s : σ)
    (h : SameTable thrift dec decompress name type codec valueSize vtk arr vtk' arr' D) :
    D.length % U ≠ 0 := by
  intro hmod
  obtain ⟨m, -, V, -, f, -, hm, -, hV, -, hread, -, hrows, -⟩ := h
  obtain ⟨valueSize', physical, converted, htables⟩ :=
    exists_tables (ne_unknown_of_getValueSize htype)
  obtain rfl : valueSize' = valueSize := Except.ok.inj (htables.valueSize_eq.symm.trans htype)
  have hvs := htables.valueSize_pos
  have hpos := hform.numBlks_pos hU hD
  -- The map is the one of the blocks, so its file is too.
  obtain ⟨m', V', hm', hV', hlen, hread'⟩ := hform.blocks.exists_file htables
    hname hcodec hstart (hform.blkSz_eq ▸ hUlt) (hform.lastBlkSz_lt hU hUlt) hpos hmax hfooter
  obtain rfl : m' = m := Except.ok.inj (hm'.symm.trans hm)
  obtain rfl : V' = V := hV'.unique hV hlen s
  obtain rfl := Option.some.inj (hread'.symm.trans hread)
  -- It has the rows of all blocks but the last.
  have hsizes := hform.sizes_eq hU hUlt hD
  have hdvdBlks : ∀ b ∈ compressedBlks arr, valueSize' ∣ b.uncompressedSize := by
    intro b hb
    have hb' := List.mem_map_of_mem (f := Blk.uncompressedSize) hb
    rw [hsizes, hmod] at hb'
    rcases List.mem_append.mp hb' with hb' | hb'
    · rw [(List.mem_replicate.mp hb').2]
      exact hdvdU
    · rw [List.mem_singleton.mp hb']
      exact dvd_zero _
  have hcount := Layout.totalCount_mul (L := ⟨thrift, valueSize'⟩) hdvdBlks
  have hrows : ((Layout.totalCount ⟨thrift, valueSize'⟩ (compressedBlks arr) : ℕ) : ℤ) =
      (D.length / valueSize' : ℕ) := hrows
  have hn : arr.numBlks = D.length / U := by
    rw [hform.numBlks_eq, ceil_eq hU, if_pos hmod, Nat.add_zero]
  rw [Nat.cast_inj.mp hrows, hsizes, hmod, Nat.div_mul_cancel hdvd, List.sum_append,
    List.sum_replicate_nat, List.sum_singleton, Nat.add_zero, hn, Nat.sub_mul,
    Nat.div_mul_cancel (Nat.dvd_of_mod_eq_zero hmod)] at hcount
  have := List.length_pos_iff.mpr hD
  omega

/-- `BuildMap` makes files of both forms only if it can count the blocks and the footers fit. -/
theorem bounds_of_sameTable (htype : getValueSize type = .ok valueSize)
    (hcodec : toParquetCodec codec = .ok c) (hU : 0 < U)
    (hform : CompressedForm (decompress c) U D arr (vtk.payload dec arr.dataStart))
    (hform' : UncompressedForm D arr' (vtk'.payload dec arr'.dataStart))
    (h : SameTable thrift dec decompress name type codec valueSize vtk arr vtk' arr' D) :
    arr.numBlks ≤ 2 ^ 31 ∧ D.length ≤ 2 ^ 46 ∧
      FooterFits thrift name type c (compressedBlks arr) ∧
      FooterFits thrift name type .uncompressed (uncompressedBlks arr') := by
  obtain ⟨valueSize', physical, converted, htables⟩ :=
    exists_tables (ne_unknown_of_getValueSize htype)
  obtain ⟨m, m', -, -, -, -, hm, hm', -⟩ := h
  have hlt := vtk'.length_payload_lt dec arr'.dataStart
  have hle := hform'.length_le
  have hnum := hform'.numBlks_eq (by omega)
  have hn : arr.numBlks ≤ D.length := by
    rw [hform.numBlks_eq, Nat.div_le_iff_le_mul_add_pred hU]
    have := Nat.le_mul_of_pos_left D.length hU
    omega
  have hbounds := bounds_of_buildMapCompressed_eq_ok (by omega) hm
  have hbounds' := bounds_of_buildMapUncompressed_eq_ok hm'
  exact ⟨hbounds.2, by omega,
    (isMapOf_of_buildMapCompressed htables hcodec hform.blocks.length_eq (by omega) hm).1,
    (isMapOf_of_buildMapUncompressed htables hm').1⟩

/-- A name that leaves room for the rest of both footers makes both fit. -/
theorem footerFits_of_forms (htype : getValueSize type = .ok valueSize)
    (hname : 2 * name.length + 512 < 2 ^ 32) (hD : D ≠ [])
    (hform : CompressedForm (decompress c) U D arr (vtk.payload dec arr.dataStart))
    (hform' : UncompressedForm D arr' (vtk'.payload dec arr'.dataStart))
    (hmax : arr.numBlks ≤ 2 ^ 31) (hmax' : D.length ≤ 2 ^ 46) :
    FooterFits thrift name type c (compressedBlks arr) ∧
      FooterFits thrift name type .uncompressed (uncompressedBlks arr') := by
  obtain ⟨_, _, _, htables⟩ := exists_tables (ne_unknown_of_getValueSize htype)
  have hpos := List.length_pos_iff.mpr hD
  have hnum := hform'.numBlks_eq (by omega)
  exact ⟨footerFits_of_name htables hname (fun b hb => fits_of_mem_compressedBlks hb)
      (by rw [length_compressedBlks, hform.blocks.length_eq]; exact hmax),
    footerFits_of_name htables hname (fun b hb => fits_of_mem_uncompressedBlks hb)
      (by rw [length_uncompressedBlks (by omega)]; omega)⟩

/-- **The two forms of an array give the same table unless its last block is full.** Beside that
only the number of blocks counts, since the loops of `BuildMap` count them in an `int`, and whether
the serializer takes the footers, as it does if the name leaves room for the rest of them. -/
theorem sameTable_iff (htype : getValueSize type = .ok valueSize)
    (hcodec : toParquetCodec codec = .ok c) (hnone : codec ≠ .none)
    (hname : name.length < 2 ^ 64) (hstart : arr.dataStart < 2 ^ 64)
    (hstart' : arr'.dataStart < 2 ^ 64) (hD : D ≠ []) (hdvd : valueSize ∣ D.length) (hU : 0 < U)
    (hUlt : U < 2 ^ 31) (hdvdU : valueSize ∣ U)
    (hform : CompressedForm (decompress c) U D arr (vtk.payload dec arr.dataStart))
    (hform' : UncompressedForm D arr' (vtk'.payload dec arr'.dataStart)) (s : σ) :
    (SameTable thrift dec decompress name type codec valueSize vtk arr vtk' arr' D ↔
      D.length % U ≠ 0 ∧ ((D.length + U - 1) / U ≤ 2 ^ 31 ∧ D.length ≤ 2 ^ 46) ∧
        FooterFits thrift name type c (compressedBlks arr) ∧
        FooterFits thrift name type .uncompressed (uncompressedBlks arr')) ∧
    (2 * name.length + 512 < 2 ^ 32 → (D.length + U - 1) / U ≤ 2 ^ 31 → D.length ≤ 2 ^ 46 →
      FooterFits thrift name type c (compressedBlks arr) ∧
        FooterFits thrift name type .uncompressed (uncompressedBlks arr')) := by
  rw [← hform.numBlks_eq]
  refine ⟨⟨fun h => ?_, fun ⟨hmod, ⟨hmax, hmax'⟩, hfooter, hfooter'⟩ => ?_⟩,
    fun hshort hmax hmax' => footerFits_of_forms htype hshort hD hform hform' hmax hmax'⟩
  · obtain ⟨hmax, hmax', hfooter, hfooter'⟩ := bounds_of_sameTable htype hcodec hU hform hform' h
    exact ⟨mod_ne_zero_of_sameTable htype hcodec hname hstart hD hdvd hU hUlt hdvdU hform hmax
      hfooter s h, ⟨hmax, hmax'⟩, hfooter, hfooter'⟩
  · exact sameTable_of_mod_ne_zero htype hcodec hnone hname hstart hstart' hD hdvd hU hUlt hdvdU
      hform hform' hmod hmax hmax' hfooter hfooter'

end sameTable

/-! ## Three integers and two -/

/-- The data of a zlib stream of one stored block, whose checksum is not looked at. -/
def inflateStored (stream : Bytes) : Option Bytes :=
  if stream.take 3 = [0x78, 0x01, 0x01] then some (slice stream 7 (leNat (slice stream 3 2)))
  else none

/-- The integers 1, 2 and 3 in blocks of two, each block a zlib stream. -/
def threeInts : VtkFile Unit := .ofBytes
  [0x78, 0x01, 0x01, 8, 0, 0xf7, 0xff, 1, 0, 0, 0, 2, 0, 0, 0, 0x00, 0x18, 0x00, 0x04,
    0x78, 0x01, 0x01, 4, 0, 0xfb, 0xff, 3, 0, 0, 0, 0x00, 0x10, 0x00, 0x04] false (by decide)

/-- The integers 1 and 2 in blocks of one, each block a zlib stream. -/
def twoInts : VtkFile Unit := .ofBytes
  [0x78, 0x01, 0x01, 4, 0, 0xfb, 0xff, 1, 0, 0, 0, 0x00, 0x08, 0x00, 0x02,
    0x78, 0x01, 0x01, 4, 0, 0xfb, 0xff, 2, 0, 0, 0, 0x00, 0x0c, 0x00, 0x03] false (by decide)

/-- The last of the three integers is half a block. -/
theorem compressedForm_threeInts :
    CompressedForm inflateStored 8 [1, 0, 0, 0, 2, 0, 0, 0, 3, 0, 0, 0] ⟨2, 8, 4, [19, 15], 0⟩
      (threeInts.payload standardDecoder 0) where
  numBlks_eq := by decide
  blkSz_eq := rfl
  lastBlkSz_eq := rfl
  blocks :=
    { length_eq := rfl
      length_blocks := rfl
      size_lt := by decide
      payload_length := by decide
      decompress_eq := by decide }

/-- The last of the two integers is a full block, so the header has zero for its size. -/
theorem compressedForm_twoInts :
    CompressedForm inflateStored 4 [1, 0, 0, 0, 2, 0, 0, 0] ⟨2, 4, 0, [15, 15], 0⟩
      (twoInts.payload standardDecoder 0) where
  numBlks_eq := by decide
  blkSz_eq := rfl
  lastBlkSz_eq := rfl
  blocks :=
    { length_eq := rfl
      length_blocks := rfl
      size_lt := by decide
      payload_length := by decide
      decompress_eq := by decide }

/-- The theorem at the three integers. -/
theorem sameTable_iff_threeInts :
    SameTable compact standardDecoder (fun _ => inflateStored) (ascii "x") .int32 .zlib 4
      threeInts ⟨2, 8, 4, [19, 15], 0⟩
      (.ofBytes [1, 0, 0, 0, 2, 0, 0, 0, 3, 0, 0, 0] false (by decide)) ⟨12, 0⟩
      [1, 0, 0, 0, 2, 0, 0, 0, 3, 0, 0, 0] := by
  have h : (SameTable compact standardDecoder (fun _ => inflateStored) (ascii "x") .int32 .zlib 4
      threeInts ⟨2, 8, 4, [19, 15], 0⟩
      (.ofBytes [1, 0, 0, 0, 2, 0, 0, 0, 3, 0, 0, 0] false (by decide)) ⟨12, 0⟩
      [1, 0, 0, 0, 2, 0, 0, 0, 3, 0, 0, 0] ↔ _) ∧ _ :=
    sameTable_iff rfl rfl (by decide) (by decide) (by decide) (by decide) (by decide) (by decide)
      (by decide) (by decide) (by decide) compressedForm_threeInts ⟨rfl, [], by decide⟩ ()
  exact h.1.mpr ⟨by decide, by decide, h.2 (by decide) (by decide) (by decide)⟩

/-- The two integers in both forms, and the table is not the same. -/
theorem not_sameTable_twoInts :
    CompressedForm inflateStored 4 [1, 0, 0, 0, 2, 0, 0, 0] ⟨2, 4, 0, [15, 15], 0⟩
        (twoInts.payload standardDecoder 0) ∧
      UncompressedForm [1, 0, 0, 0, 2, 0, 0, 0] ⟨8, 0⟩
        ((VtkFile.ofBytes [1, 0, 0, 0, 2, 0, 0, 0] false (by decide)).payload standardDecoder 0) ∧
      ¬SameTable compact standardDecoder (fun _ => inflateStored) (ascii "x") .int32 .zlib 4
        twoInts ⟨2, 4, 0, [15, 15], 0⟩
        (.ofBytes [1, 0, 0, 0, 2, 0, 0, 0] false (by decide)) ⟨8, 0⟩ [1, 0, 0, 0, 2, 0, 0, 0] := by
  have hform' : UncompressedForm [1, 0, 0, 0, 2, 0, 0, 0] ⟨8, 0⟩
      ((VtkFile.ofBytes [1, 0, 0, 0, 2, 0, 0, 0] false (by decide)).payload standardDecoder 0) :=
    ⟨rfl, [], by decide⟩
  refine ⟨compressedForm_twoInts, hform', fun h => ?_⟩
  obtain ⟨hmax, -, hfooter, -⟩ :=
    bounds_of_sameTable rfl rfl (by decide) compressedForm_twoInts hform' h
  exact mod_ne_zero_of_sameTable rfl rfl (by decide) (by decide) (by decide) (by decide)
    (by decide) (by decide) (by decide) compressedForm_twoInts hmax hfooter () h rfl

end VirParquet.Verify
