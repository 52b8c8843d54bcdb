import VirParquet.Verify.Consistency
import VirParquet.Spec.Table
import Mathlib.Algebra.BigOperators.Ring.List

/-!
# Decompressed pages

The pages of a file whose blocks decompress: `Layout.Decodes` relates blocks to the byte strings
that they stand for, and `Layout.decodes_of_getElem` gives it block by block. `Layout.mapM_pages`
turns what a reader does page by page into what it does to these byte strings, and
`Layout.tableBytes_file` and `Layout.tableValues_file` are the table of a file whose blocks have the
sizes that its pages declare, in bytes and in values.
`CompressedBlocks` says the same of the blocks of a compressed array.
-/

namespace VirParquet.Verify

open VirParquet.Found VirParquet.Model VirParquet.Spec

/-! ## Slices of a whole -/

/-- The slices of `step` bytes of a byte string, one after the other. -/
def slices (step n : ℕ) (D : Bytes) : List Bytes :=
  (List.range n).map fun k => slice D (step * k) step

/-- There are as many slices as asked for. -/
@[simp] theorem length_slices (step n : ℕ) (D : Bytes) : (slices step n D).length = n := by
  simp [slices]

/-- The slices together are the beginning of the byte string. -/
theorem flatten_slices (step n : ℕ) (D : Bytes) :
    (slices step n D).flatten = slice D 0 (step * n) := by
  induction n with
  | zero => simp [slices]
  | succ n ih =>
      have hlast : slices step (n + 1) D = slices step n D ++ [slice D (step * n) step] := by
        simp [slices, List.range_succ]
      rw [hlast, List.flatten_append, ih, List.flatten_singleton, Nat.mul_succ]
      have := slice_append_slice D 0 (step * n) step
      rwa [Nat.zero_add] at this

/-- Slices that reach the end are the whole. -/
theorem flatten_slices_of_le {step n : ℕ} {D : Bytes} (h : D.length ≤ step * n) :
    (slices step n D).flatten = D := by
  rw [flatten_slices, slice, List.drop_zero, List.take_of_length_le h]

namespace Layout

variable {L : Layout} {col : Column} {payload : Bytes} {f : Bytes → Option Bytes}

/-! ## Blocks that decompress -/

/-- The blocks, laid out from `offset` on in the payload, decompress to the given byte strings. -/
def Decodes (f : Bytes → Option Bytes) (payload : Bytes) : ℕ → List Blk → List Bytes → Prop
  | _, [], [] => True
  | offset, b :: blks, B :: Bs =>
      f (slice payload offset b.compressedSize) = some B ∧
        Decodes f payload (offset + b.compressedSize) blks Bs
  | _, _, _ => False

/-- Blocks decompress if each of them does. -/
theorem decodes_of_getElem {blks : List Blk} {Bs : List Bytes} (hlen : Bs.length = blks.length)
    {offset : ℕ} (h : ∀ k (hk : k < blks.length) (hk' : k < Bs.length),
      f (slice payload (offset + payloadSize (blks.take k)) blks[k].compressedSize) =
        some Bs[k]) : Decodes f payload offset blks Bs := by
  induction blks generalizing Bs offset with
  | nil =>
      obtain rfl : Bs = [] := List.length_eq_zero_iff.mp hlen
      trivial
  | cons b blks ih =>
      cases Bs with
      | nil => simp at hlen
      | cons B Bs =>
          refine ⟨?_, ih (by simpa using hlen) fun k hk hk' => ?_⟩
          · have := h 0 (by simp) (by simp)
            simpa [payloadSize] using this
          · have := h (k + 1) (by simpa using hk) (by simpa using hk')
            simpa [payloadSize, Nat.add_assoc] using this

/-- What is done page by page to a file whose blocks decompress, is done to the byte strings. -/
theorem mapM_pages {β : Type} {F : Parquet.Page → Option β} {g : PageHeader → Bytes → Option β}
    (hF : ∀ pos size b data,
      F ⟨pos, size, L.header b, data⟩ = (f data).bind (g (L.header b)))
    {blks : List Blk} {Bs : List Bytes} {pos offset : ℕ} (h : Decodes f payload offset blks Bs) :
    (L.pages payload pos offset blks).mapM F =
      (blks.zip Bs).mapM fun p => g (L.header p.1) p.2 := by
  induction blks generalizing Bs pos offset with
  | nil => rfl
  | cons b blks ih =>
      cases Bs with
      | nil => exact absurd h id
      | cons B Bs =>
          obtain ⟨hB, hBs⟩ := h
          rw [pages, List.zip_cons_cons, List.mapM_cons, List.mapM_cons, hF, hB, ih hBs,
            Option.bind_some]

/-- Every page of the file is decompressed, if its codec compresses. -/
theorem pageBytes_header (decompress : CompressionCodec → Bytes → Option Bytes)
    (codec : CompressionCodec) (pos size : ℕ) (b : Blk) (data : Bytes) :
    Parquet.pageBytes decompress codec ⟨pos, size, L.header b, data⟩ =
      Parquet.decoder decompress codec data := by
  rfl

/-- The blocks decompress to byte strings of the sizes that their pages declare. -/
structure Declares (L : Layout) (blks : List Blk) (Bs : List Bytes) : Prop where
  sizes_eq : blks.map Blk.uncompressedSize = Bs.map List.length
  small : ∀ b ∈ blks, b.uncompressedSize < 2 ^ 31
  dvd : ∀ b ∈ blks, L.valueSize ∣ b.uncompressedSize

/-- Pages declare byte strings of whole values by declaring their sizes. -/
theorem Declares.of_sizes_eq {blks : List Blk} {Bs : List Bytes}
    (hsizes : blks.map Blk.uncompressedSize = Bs.map List.length)
    (hsmall : ∀ b ∈ blks, b.uncompressedSize < 2 ^ 31)
    (hdvd : ∀ B ∈ Bs, L.valueSize ∣ B.length) : L.Declares blks Bs := by
  refine ⟨hsizes, hsmall, fun b hb => ?_⟩
  have hmem := List.mem_map_of_mem (f := Blk.uncompressedSize) hb
  rw [hsizes] at hmem
  obtain ⟨B, hB, hlength⟩ := List.mem_map.mp hmem
  exact hlength ▸ hdvd B hB

/-- What is done to page headers and byte strings comes down to the byte strings if it does so where
the header declares their size. -/
theorem Declares.mapM_zip {β : Type} {g : PageHeader → Bytes → Option β} {g' : Bytes → Option β}
    (hg : ∀ (b : Blk) (B : Bytes), b.uncompressedSize = B.length → b.uncompressedSize < 2 ^ 31 →
      L.valueSize ∣ B.length → g (L.header b) B = g' B)
    {blks : List Blk} {Bs : List Bytes} (h : L.Declares blks Bs) :
    (blks.zip Bs).mapM (fun p => g (L.header p.1) p.2) = Bs.mapM g' := by
  induction blks generalizing Bs with
  | nil =>
      obtain rfl : Bs = [] := by simpa using h.sizes_eq.symm
      rfl
  | cons b blks ih =>
      cases Bs with
      | nil => exact absurd h.sizes_eq (by simp)
      | cons B Bs =>
          have hsizes := h.sizes_eq
          simp only [List.map_cons, List.cons.injEq] at hsizes
          have hrest := ih ⟨hsizes.2, fun x hx => h.small x (List.mem_cons_of_mem _ hx),
            fun x hx => h.dvd x (List.mem_cons_of_mem _ hx)⟩
          have hhead := hg b B hsizes.1 (h.small b List.mem_cons_self)
            (hsizes.1 ▸ h.dvd b List.mem_cons_self)
          rw [List.zip_cons_cons, List.mapM_cons, List.mapM_cons, hhead, hrest]

/-- Keeping every element keeps the list. -/
theorem mapM_some {α : Type} (xs : List α) : xs.mapM some = some xs := by
  induction xs with
  | nil => rfl
  | cons x xs ih =>
      rw [List.mapM_cons, ih]
      rfl

/-- A map that returns fails on no element. -/
theorem exists_of_mem_mapM {α β : Type} {g : α → Option β} {xs : List α} {ys : List β}
    (h : xs.mapM g = some ys) {x : α} (hx : x ∈ xs) : ∃ y, g x = some y := by
  induction xs generalizing ys with
  | nil => cases hx
  | cons z xs ih =>
      rw [List.mapM_cons] at h
      obtain ⟨y, hy, h⟩ := Option.bind_eq_some_iff.mp h
      obtain ⟨zs, hzs, -⟩ := Option.bind_eq_some_iff.mp h
      rcases List.mem_cons.mp hx with rfl | hx
      · exact ⟨y, hy⟩
      · exact ih hzs hx

/-- **The bytes of all pages** are those that the blocks decompress to. -/
theorem tableBytes_file {decompress : CompressionCodec → Bytes → Option Bytes} {blks : List Blk}
    {Bs : List Bytes} (h : Decodes (Parquet.decoder decompress col.codec) payload 0 blks Bs)
    (hdeclares : L.Declares blks Bs) :
    Parquet.tableBytes decompress L.valueSize (L.file col payload blks) = some Bs.flatten := by
  set g : PageHeader → Bytes → Option Bytes := fun header bytes =>
    if header.uncompressedPageSize = bytes.length ∧
      Parquet.numValues header * L.valueSize = bytes.length then some bytes else none with hg
  have hmapM : (L.pages payload 4 0 blks).mapM
      (Parquet.declaredBytes decompress L.valueSize col.codec) =
        (blks.zip Bs).mapM fun p => g (L.header p.1) p.2 := by
    refine mapM_pages (fun pos size b data => ?_) h
    rw [Parquet.declaredBytes, pageBytes_header]
    rfl
  have hzip : (blks.zip Bs).mapM (fun p => g (L.header p.1) p.2) = Bs.mapM some := by
    refine hdeclares.mapM_zip fun b B hsize hsmall hdvd => if_pos ⟨?_, ?_⟩
    · rw [← hsize]
      exact toI32_of_lt hsmall
    · rw [numValues_header hsmall, hsize, ← Nat.cast_mul, Nat.div_mul_cancel hdvd]
  show Option.map List.flatten ((L.pages payload 4 0 blks).mapM
    (Parquet.declaredBytes decompress L.valueSize col.codec)) = _
  rw [hmapM, hzip, mapM_some]
  rfl

/-- The values of a page whose data decompress to `bytes`. -/
def pageValues (col : Column) (header : PageHeader) (bytes : Bytes) : Option (List Element) :=
  if header.uncompressedPageSize = bytes.length then
    Parquet.plainValues col.physical col.converted (Parquet.numValues header) bytes
  else none

/-- The values of all pages are those of what their blocks decompress to. -/
theorem tableValues_eq_mapM {decompress : CompressionCodec → Bytes → Option Bytes}
    {blks : List Blk} {Bs : List Bytes}
    (h : Decodes (Parquet.decoder decompress col.codec) payload 0 blks Bs) :
    Parquet.tableValues decompress (L.file col payload blks) =
      (blks.zip Bs).mapM fun p => pageValues col (L.header p.1) p.2 := by
  refine mapM_pages (fun pos size b data => ?_) h
  show (Parquet.pageBytes decompress col.codec ⟨pos, size, L.header b, data⟩).bind _ = _
  rw [pageBytes_header]
  rfl

/-- **The values of all pages** are those in the byte strings that the blocks decompress to. -/
theorem tableValues_file {decompress : CompressionCodec → Bytes → Option Bytes} {blks : List Blk}
    {Bs : List Bytes} (h : Decodes (Parquet.decoder decompress col.codec) payload 0 blks Bs)
    (hdeclares : L.Declares blks Bs) :
    Parquet.tableValues decompress (L.file col payload blks) =
      Bs.mapM fun B => Parquet.plainValues col.physical col.converted
        (B.length / L.valueSize : ℕ) B := by
  rw [tableValues_eq_mapM h]
  refine hdeclares.mapM_zip fun b B hsize hsmall hdvd => ?_
  have hpage : (L.header b).uncompressedPageSize = B.length := by
    rw [← hsize]
    exact toI32_of_lt hsmall
  rw [pageValues, if_pos hpage, numValues_header hsmall, hsize]

/-- Blocks that decompress are as many as the byte strings. -/
theorem Decodes.length_eq {offset : ℕ} {blks : List Blk} {Bs : List Bytes}
    (h : Decodes f payload offset blks Bs) : blks.length = Bs.length := by
  induction blks generalizing Bs offset with
  | nil =>
      cases Bs with
      | nil => rfl
      | cons B Bs => exact absurd h id
  | cons b blks ih =>
      cases Bs with
      | nil => exact absurd h id
      | cons B Bs => rw [List.length_cons, List.length_cons, ih h.2]

/-- **A table that has values** declares the sizes of the byte strings that its blocks decompress
to. -/
theorem sizes_eq_of_tableValues {decompress : CompressionCodec → Bytes → Option Bytes}
    {blks : List Blk} {Bs : List Bytes}
    (h : Decodes (Parquet.decoder decompress col.codec) payload 0 blks Bs)
    (hsmall : ∀ b ∈ blks, b.uncompressedSize < 2 ^ 31) {values : List (List Element)}
    (hvalues : Parquet.tableValues decompress (L.file col payload blks) = some values) :
    blks.map Blk.uncompressedSize = Bs.map List.length := by
  rw [tableValues_eq_mapM h] at hvalues
  have hpage : ∀ p ∈ blks.zip Bs, p.1.uncompressedSize = p.2.length := by
    intro p hp
    obtain ⟨xs, hxs⟩ := exists_of_mem_mapM hvalues hp
    have hdeclared : (L.header p.1).uncompressedPageSize = p.2.length := by
      by_contra hne
      rw [pageValues, if_neg hne] at hxs
      cases hxs
    have hsize : (L.header p.1).uncompressedPageSize = p.1.uncompressedSize :=
      toI32_of_lt (hsmall p.1 (List.of_mem_zip hp).1)
    omega
  calc blks.map Blk.uncompressedSize
      = ((blks.zip Bs).map Prod.fst).map Blk.uncompressedSize := by
        rw [List.map_fst_zip h.length_eq.le]
    _ = ((blks.zip Bs).map Prod.snd).map List.length := by
        rw [List.map_map, List.map_map]
        exact List.map_congr_left hpage
    _ = Bs.map List.length := by rw [List.map_snd_zip h.length_eq.ge]

/-- Blocks of whole values have as many values as fit into their sizes. -/
theorem totalCount_mul {blks : List Blk} (h : ∀ b ∈ blks, L.valueSize ∣ b.uncompressedSize) :
    L.totalCount blks * L.valueSize = (blks.map Blk.uncompressedSize).sum := by
  rw [totalCount, ← List.sum_map_mul_right]
  exact congrArg List.sum (List.map_congr_left fun b hb => Nat.div_mul_cancel (h b hb))

end Layout

/-! ## The blocks of a compressed array -/

/-- The header `arr` describes the blocks that `payload` begins with, and these decompress to the
given byte strings. -/
structure CompressedBlocks (decompress : Bytes → Option Bytes) (arr : CompressedArray)
    (payload : Bytes) (blocks : List Bytes) : Prop where
  length_eq : arr.compressedBlkSz.length = arr.numBlks
  length_blocks : blocks.length = arr.numBlks
  size_lt : ∀ size ∈ arr.compressedBlkSz, size < 2 ^ 31
  payload_length : arr.compressedBlkSz.sum ≤ payload.length
  decompress_eq : ∀ k (hk : k < arr.compressedBlkSz.length) (hk' : k < blocks.length),
    decompress (slice payload (start arr.compressedBlkSz k) arr.compressedBlkSz[k]) =
      some blocks[k]

section blocks

variable {decompress : CompressionCodec → Bytes → Option Bytes} {c : CompressionCodec}
  {arr : CompressedArray} {payload : Bytes} {blocks : List Bytes}

/-- The payload holds the blocks. -/
theorem CompressedBlocks.payloadSize_eq
    (h : CompressedBlocks (decompress c) arr payload blocks) :
    Layout.payloadSize (compressedBlks arr) = arr.compressedBlkSz.sum :=
  payloadSize_compressedBlks fun size hsize => (h.size_lt size hsize).trans (by norm_num)

/-- The pages of the blocks decompress to the blocks. -/
theorem CompressedBlocks.decodes (h : CompressedBlocks (decompress c) arr payload blocks)
    (hc : c ≠ .uncompressed) :
    Layout.Decodes (Parquet.decoder decompress c) payload 0 (compressedBlks arr) blocks := by
  have hmap : (compressedBlks arr).map Blk.compressedSize = arr.compressedBlkSz := by
    rw [map_compressedSize_compressedBlks]
    exact (List.map_congr_left fun size hsize =>
      u32_of_lt ((h.size_lt size hsize).trans (by norm_num))).trans (List.map_id _)
  have hlength : (compressedBlks arr).length = arr.numBlks := by
    rw [length_compressedBlks, h.length_eq]
  refine Layout.decodes_of_getElem (by rw [h.length_blocks, hlength]) fun k hk hk' => ?_
  have hk'' : k < arr.compressedBlkSz.length := by
    rw [length_compressedBlks] at hk
    exact hk
  have hsize : (compressedBlks arr)[k].compressedSize = arr.compressedBlkSz[k] := by
    rw [← List.getElem_map Blk.compressedSize (h := by simpa using hk'')]
    simp only [hmap]
  have hstart : Layout.payloadSize ((compressedBlks arr).take k) = start arr.compressedBlkSz k := by
    rw [Layout.payloadSize, List.map_take, hmap, start]
  rw [Parquet.decoder, if_neg hc, Nat.zero_add, hsize, hstart, h.decompress_eq k hk'' hk']

end blocks

/-- A codec that compresses is not the one that does not. -/
theorem ne_uncompressed_of_toParquetCodec {codec : CompressionType} {c : CompressionCodec}
    (hcodec : toParquetCodec codec = .ok c) (hnone : codec ≠ .none) : c ≠ .uncompressed := by
  cases codec <;> cases hcodec <;> simp_all

end VirParquet.Verify
