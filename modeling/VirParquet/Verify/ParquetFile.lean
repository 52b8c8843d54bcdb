import VirParquet.Verify.BuildMap

/-!
# What a reader sees in the file of a map

The content of the regions of `Layout.fileRegions`, `content_fileRegions`, and what the reference
reader makes of it, `readFile_content`: the footer that was written, and a page for each block, with
the block's slice of the payload as its data. The sums over the pages follow from the sums over the
blocks.
-/

namespace VirParquet.Verify.Layout

open VirParquet.Found VirParquet.Found.Thrift VirParquet.Model VirParquet.Spec

variable (L : Layout) (col : Column) (payload : Bytes)

/-! ## Content -/

/-- The bytes of the pages of blocks. -/
def blkBytes (offset : ℕ) : List Blk → Bytes
  | [] => []
  | b :: blks => L.headerBytes b ++ (slice payload offset b.compressedSize ++
      blkBytes (offset + b.compressedSize) blks)

/-- The regions of blocks hold the headers and the bytes of the blocks. -/
theorem content_blkRegions (offset : ℕ) (blks : List Blk) :
    content payload (L.blkRegions offset blks) = L.blkBytes payload offset blks := by
  induction blks generalizing offset with
  | nil => rfl
  | cons b blks ih =>
      have := ih (offset + b.compressedSize)
      simp only [content, blkRegions, blkBytes, List.map_cons, List.flatten_cons, Region.bytes]
        at this ⊢
      rw [this]

/-- **A file holds** the four bytes, the pages, the footer, its length and the four bytes again. -/
theorem content_fileRegions (blks : List Blk) :
    content payload (L.fileRegions col blks) =
      Parquet.magic ++ (L.blkBytes payload 0 blks ++ (L.footerBytes col blks ++
        (leBytes 4 (L.footerBytes col blks).length ++ Parquet.magic))) := by
  rw [← content_blkRegions]
  simp [content, fileRegions, bodyRegions, par1, Parquet.magic]

/-- The mapped regions of a file lie inside a payload that has its blocks. -/
theorem inside_of_mem_fileRegions {blks : List Blk} (h : payloadSize blks ≤ payload.length)
    {r : Region} (hr : r ∈ L.fileRegions col blks) : r.Inside payload := by
  have hblks : ∀ blks offset, offset + payloadSize blks ≤ payload.length →
      ∀ r ∈ L.blkRegions offset blks, r.Inside payload := by
    intro blks
    induction blks with
    | nil =>
        rintro offset - r ⟨⟩
    | cons b blks ih =>
        intro offset hoffset r hr
        simp only [payloadSize, List.map_cons, List.sum_cons] at hoffset
        rcases List.mem_cons.mp hr with rfl | hr
        · trivial
        · rcases List.mem_cons.mp hr with rfl | hr
          · exact (Nat.add_le_add_left (Nat.le_add_right _ _) _).trans hoffset
          · exact ih _ (by simp only [payloadSize]; omega) r hr
  rcases List.mem_append.mp hr with hr | hr
  · rcases List.mem_cons.mp hr with rfl | hr
    · trivial
    · exact hblks blks 0 (by omega) r hr
  · simp only [List.mem_cons, List.not_mem_nil, or_false] at hr
    rcases hr with rfl | rfl | rfl <;> trivial

/-! ## Pages -/

/-- The pages of blocks as a reader sees them. -/
def pages (pos offset : ℕ) : List Blk → List Parquet.Page
  | [] => []
  | b :: blks =>
      ⟨pos, L.headerSize b, L.header b, slice payload offset b.compressedSize⟩ ::
        pages (pos + L.headerSize b + b.compressedSize) (offset + b.compressedSize) blks

/-- **The walk over the pages** finds each of them and ends behind the last. -/
theorem walkPages_blkBytes {file rest : Bytes} {blks : List Blk}
    (hblks : ∀ b ∈ blks, b.compressedSize < 2 ^ 31) {pos offset footerStart fuel : ℕ}
    (hpayload : offset + payloadSize blks ≤ payload.length)
    (hfile : file.drop pos = L.blkBytes payload offset blks ++ rest)
    (hstop : pos + (L.blkBytes payload offset blks).length = footerStart)
    (hfuel : blks.length ≤ fuel) :
    Parquet.walkPages L.thrift file footerStart fuel pos =
      some (L.pages payload pos offset blks) := by
  induction blks generalizing pos offset fuel with
  | nil =>
      obtain rfl : pos = footerStart := by simpa [blkBytes] using hstop
      exact Parquet.walkPages_self fuel
  | cons b blks ih =>
      obtain ⟨fuel, rfl⟩ : ∃ k, fuel = k + 1 := ⟨fuel - 1, by simp at hfuel; omega⟩
      simp only [payloadSize, List.map_cons, List.sum_cons] at hpayload
      have hlen : (slice payload offset b.compressedSize).length = b.compressedSize :=
        length_slice_of_le (by omega)
      have hheader := L.headerSize_le b
      unfold headerSize at hheader
      simp only [blkBytes, List.length_append, hlen] at hstop
      have hnext : file.drop (pos + L.headerSize b + b.compressedSize) =
          L.blkBytes payload (offset + b.compressedSize) blks ++ rest := by
        rw [blkBytes, List.append_assoc, List.append_assoc] at hfile
        rw [← List.drop_drop, ← List.drop_drop, hfile, headerSize, List.drop_left,
          List.drop_left' hlen]
      have hrest := ih (fun x hx => hblks x (List.mem_cons_of_mem _ hx))
        (by simp only [payloadSize]; omega) hnext (by unfold headerSize; omega)
        (by simpa using hfuel)
      have hpage : file.drop pos = L.thrift.write (L.header b).fields ++
          (slice payload offset b.compressedSize ++
            (L.blkBytes payload (offset + b.compressedSize) blks ++ rest)) := by
        rw [hfile, blkBytes, List.append_assoc, List.append_assoc]
        rfl
      exact Parquet.walkPages_cons hpage
        (L.wellFormed_header b) (by unfold headerBytes at hheader; omega)
        (by
          rw [hlen]
          exact toI32_of_lt (hblks b List.mem_cons_self))
        (by rw [hlen]; unfold headerBytes at hstop; omega)
        (by rw [hlen]; exact hrest)

/-! ## The file -/

/-- The column metadata of a file. -/
def column (blks : List Blk) : ColumnMetaData where
  type := col.physical
  encodings := [.plain]
  pathInSchema := [col.name]
  codec := col.codec
  numValues := L.totalCount blks
  totalUncompressedSize := L.totalUncompressedSize blks
  totalCompressedSize := L.totalCompressedSize blks
  dataPageOffset := 4
  statistics := some { nullCount := some 0 }

/-- The row group of a file. -/
def rowGroup (blks : List Blk) : RowGroup where
  columns := [{ fileOffset := 0, metaData := some (L.column col blks) }]
  totalByteSize := L.totalUncompressedSize blks
  numRows := L.totalCount blks
  fileOffset := some 4
  totalCompressedSize := some (L.totalCompressedSize blks)

/-- The schema element of a file's column. -/
def leaf : SchemaElement where
  type := some col.physical
  repetitionType := some .required
  name := col.name
  numChildren := none
  convertedType := col.converted

/-- A file as a reader sees it. -/
def file (blks : List Blk) : Parquet.File where
  footerStart := 4 + (L.blkBytes payload 0 blks).length
  metaData := L.metaData col blks
  rowGroup := L.rowGroup col blks
  column := L.column col blks
  leaf := leaf col
  pages := L.pages payload 4 0 blks

/-- The bytes of the pages of blocks are at least as many as the blocks. -/
theorem length_le_length_blkBytes (offset : ℕ) (blks : List Blk) :
    blks.length ≤ (L.blkBytes payload offset blks).length := by
  induction blks generalizing offset with
  | nil => simp
  | cons b blks ih =>
      have hhead := L.headerSize_pos b
      have hrest := ih (offset + b.compressedSize)
      unfold headerSize at hhead
      simp only [blkBytes, List.length_append, List.length_cons]
      omega

variable {L col payload}

/-- The walk over the pages of a file ends at its footer. -/
theorem walkPages_content {blks : List Blk} (hblks : ∀ b ∈ blks, b.compressedSize < 2 ^ 31)
    (hpayload : payloadSize blks ≤ payload.length) :
    Parquet.walkPages L.thrift (content payload (L.fileRegions col blks))
        (4 + (L.blkBytes payload 0 blks).length)
        (content payload (L.fileRegions col blks)).length 4 =
      some (L.pages payload 4 0 blks) := by
  have hcontent := L.content_fileRegions col payload blks
  set V := content payload (L.fileRegions col blks) with hV
  have hdrop : V.drop 4 = L.blkBytes payload 0 blks ++ (L.footerBytes col blks ++
      (leBytes 4 (L.footerBytes col blks).length ++ Parquet.magic)) := by
    rw [hcontent]
    exact List.drop_left' rfl
  have hfuel : blks.length ≤ V.length := by
    have := L.length_le_length_blkBytes payload 0 blks
    rw [hcontent]
    simp only [List.length_append]
    omega
  exact L.walkPages_blkBytes payload hblks (by omega) hdrop rfl hfuel

/-- **A reader sees in a file** the footer that was written, and a page for each block. -/
theorem readFile_content {blks : List Blk} (hfits : ∀ b ∈ blks, b.Fits)
    (hlen : blks.length ≤ 2 ^ 31) (hname : col.name.length < 2 ^ 64)
    (hshort : (L.footerBytes col blks).length < 2 ^ 32)
    (hblks : ∀ b ∈ blks, b.compressedSize < 2 ^ 31)
    (hpayload : payloadSize blks ≤ payload.length) :
    Parquet.readFile L.thrift (content payload (L.fileRegions col blks)) =
      some (L.file col payload blks) := by
  have hfooter := Parquet.readFooter_eq_some
    (L.content_fileRegions col payload blks) (wellFormed_metaData hname hfits hlen) hshort
  have hwalk := @walkPages_content L col payload blks hblks hpayload
  rw [Parquet.readFile, hfooter]
  show (Parquet.walkPages L.thrift _ (4 + (L.blkBytes payload 0 blks).length) _ 4).bind
    (fun pages => some (⟨_, L.metaData col blks, L.rowGroup col blks, L.column col blks, leaf col,
      pages⟩ : Parquet.File)) = _
  rw [hwalk]
  rfl

/-! ## Sums -/

/-- There is a page for each block. -/
theorem length_pages (pos offset : ℕ) (blks : List Blk) :
    (L.pages payload pos offset blks).length = blks.length := by
  induction blks generalizing pos offset with
  | nil => rfl
  | cons b blks ih => rw [pages, List.length_cons, List.length_cons, ih]

/-- The headers of the pages of blocks are those of the blocks, whatever their places and data. -/
theorem map_pages {α : Type} (f : ℕ → PageHeader → α) (pos offset : ℕ) (blks : List Blk) :
    (L.pages payload pos offset blks).map (fun p => f p.headerSize p.header) =
      blks.map fun b => f (L.headerSize b) (L.header b) := by
  induction blks generalizing pos offset with
  | nil => rfl
  | cons b blks ih => rw [pages, List.map_cons, List.map_cons, ih]

end VirParquet.Verify.Layout
