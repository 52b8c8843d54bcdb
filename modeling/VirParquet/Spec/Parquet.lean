import VirParquet.Model.Format
import VirParquet.Found.Slice

/-!
# What a reader sees in a Parquet file

A reference reader, as a statement of what the format is: it checks the four bytes at both ends,
takes the footer from its length before the last four bytes, and walks the pages of the only column
from its data page offset to the footer, reading a header and skipping as many bytes as the header
says. `Parquet.readFile` fails if anything does not fit, in particular if the walk does not end
exactly at the footer.

`Parquet.SelfConsistent` says that the numbers of the footer agree with the pages. The facts used
about the reader: `Parquet.walkPages_cons` is a step of the walk, `Parquet.readFooter_eq_some` the
footer of a file that was written.
-/

namespace VirParquet.Spec.Parquet

open VirParquet.Found VirParquet.Found.Thrift VirParquet.Model

/-! ## The reader -/

/-- The four bytes at both ends of a file. -/
def magic : Bytes := ascii "PAR1"

/-- A page as found in a file. -/
structure Page where
  /-- Where its header begins. -/
  offset : ℕ
  /-- The length of its header. -/
  headerSize : ℕ
  header : PageHeader
  /-- The bytes behind the header, as many as it says. -/
  data : Bytes
  deriving DecidableEq, Repr

/-- The pages from a position to the footer, at most `fuel`. -/
def walkPages (thrift : Protocol) (file : Bytes) (footerStart : ℕ) : ℕ → ℕ → Option (List Page)
  | 0, pos => if pos = footerStart then some [] else none
  | fuel + 1, pos =>
      if pos = footerStart then some []
      else do
        let (fields, rest) ← thrift.read (file.drop pos)
        let header ← PageHeader.ofFields? fields
        let headerSize := file.length - pos - rest.length
        let size := header.compressedPageSize.toNat
        if 0 ≤ header.compressedPageSize ∧ pos + headerSize + size ≤ footerStart then do
          let pages ← walkPages thrift file footerStart fuel (pos + headerSize + size)
          some (⟨pos, headerSize, header, slice file (pos + headerSize) size⟩ :: pages)
        else none

/-- Where the footer begins and what it says. -/
def readFooter (thrift : Protocol) (file : Bytes) : Option (ℕ × FileMetaData) :=
  let length := leNat (slice file (file.length - 8) 4)
  if slice file 0 4 = magic ∧ slice file (file.length - 4) 4 = magic ∧
      length + 12 ≤ file.length then do
    let (fields, rest) ← thrift.read (slice file (file.length - 8 - length) length)
    let metaData ← FileMetaData.ofFields? fields
    if rest = [] then some (file.length - 8 - length, metaData) else none
  else none

/-- A file with one row group of one column. -/
structure File where
  footerStart : ℕ
  metaData : FileMetaData
  rowGroup : RowGroup
  column : ColumnMetaData
  /-- The schema element of the column. -/
  leaf : SchemaElement
  pages : List Page
  deriving DecidableEq, Repr

/-- The only item of a list. -/
def only? {α : Type} : List α → Option α
  | [x] => some x
  | _ => none

/-- The file that a byte string is. -/
def readFile (thrift : Protocol) (file : Bytes) : Option File := do
  let (footerStart, metaData) ← readFooter thrift file
  let rowGroup ← only? metaData.rowGroups
  let chunk ← only? rowGroup.columns
  let column ← chunk.metaData
  let leaf ← only? metaData.schema.tail
  let pages ← walkPages thrift file footerStart file.length column.dataPageOffset.toNat
  some ⟨footerStart, metaData, rowGroup, column, leaf, pages⟩

/-- The number of values that a page header declares. -/
def numValues (header : PageHeader) : ℤ :=
  match header.dataPageHeaderV2 with
  | some v2 => v2.numValues
  | none => 0

/-- The byte string `V` is the file `f`, has `n` pages, and its footer agrees with them. -/
structure SelfConsistent (thrift : Protocol) (V : Bytes) (n : ℕ) (f : File) : Prop where
  head_eq : slice V 0 4 = magic
  tail_eq : slice V (V.length - 4) 4 = magic
  /-- The four bytes before the last four are the length of the footer. -/
  footer_length : f.footerStart + leNat (slice V (V.length - 8) 4) + 8 = V.length
  /-- The walk from the data page offset meets the pages and ends at the footer. -/
  walk : walkPages thrift V f.footerStart V.length 4 = some f.pages
  read : readFile thrift V = some f
  length_pages : f.pages.length = n
  dataPageOffset_eq : f.column.dataPageOffset = 4
  totalCompressedSize_eq :
    (f.pages.map fun p => (p.headerSize : ℤ) + p.header.compressedPageSize).sum =
      f.column.totalCompressedSize
  totalUncompressedSize_eq :
    (f.pages.map fun p => (p.headerSize : ℤ) + p.header.uncompressedPageSize).sum =
      f.column.totalUncompressedSize
  numValues_eq : (f.pages.map fun p => numValues p.header).sum = f.column.numValues
  rowGroup_totalCompressedSize : f.rowGroup.totalCompressedSize = some f.column.totalCompressedSize
  rowGroup_totalByteSize : f.rowGroup.totalByteSize = f.column.totalUncompressedSize
  rowGroup_numRows : f.rowGroup.numRows = f.column.numValues
  numRows_eq : f.metaData.numRows = f.column.numValues

/-! ## Reading what was written -/

section walk

variable {thrift : Protocol} {file : Bytes} {footerStart : ℕ}

/-- The walk ends at the footer. -/
@[simp] theorem walkPages_self (fuel : ℕ) :
    walkPages thrift file footerStart fuel footerStart = some [] := by
  cases fuel <;> simp [walkPages]

/-- The walk over a page that was written finds this page and goes on behind it. -/
theorem walkPages_cons {pos fuel : ℕ} {header : PageHeader} {data rest : Bytes}
    {pages : List Page} (hfile : file.drop pos = thrift.write header.fields ++ (data ++ rest))
    (hheader : header.fields.WellFormed) (hshort : (thrift.write header.fields).length < 2 ^ 32)
    (hdata : header.compressedPageSize = data.length)
    (hstop : pos + (thrift.write header.fields).length + data.length ≤ footerStart)
    (hrest : walkPages thrift file footerStart fuel
      (pos + (thrift.write header.fields).length + data.length) = some pages) :
    walkPages thrift file footerStart (fuel + 1) pos =
      some (⟨pos, (thrift.write header.fields).length, header, data⟩ :: pages) := by
  have hpos : 0 < (thrift.write header.fields).length :=
    List.length_pos_iff.mpr (thrift.write_ne_nil _)
  have hread := thrift.read_write header.fields (data ++ rest) hheader hshort
  have hlen : file.length - pos - (data.length + rest.length) =
      (thrift.write header.fields).length := by
    rw [← List.length_drop, hfile, List.length_append, List.length_append, Nat.add_sub_cancel]
  have hslice : slice file (pos + (thrift.write header.fields).length) data.length = data := by
    rw [← slice_drop, hfile]
    exact slice_middle _ _ _
  have hsize : header.compressedPageSize.toNat = data.length := by
    rw [hdata, Int.toNat_natCast]
  have hgo : 0 ≤ header.compressedPageSize ∧
      pos + (thrift.write header.fields).length + data.length ≤ footerStart :=
    ⟨by rw [hdata]; exact Int.natCast_nonneg _, hstop⟩
  simp [walkPages, hfile, hread, hlen, hsize, hgo, hrest, hslice, show pos ≠ footerStart by omega]

/-- The two ends of a file that was written. -/
theorem ends_of_written {file body footer : Bytes}
    (hfile : file = magic ++ (body ++ (footer ++ (leBytes 4 footer.length ++ magic)))) :
    file.length = 4 + body.length + footer.length + 8 ∧ slice file 0 4 = magic ∧
      slice file (file.length - 4) 4 = magic ∧
      slice file (file.length - 8) 4 = leBytes 4 footer.length := by
  have hmagic : magic.length = 4 := rfl
  have hlength : file.length = 4 + body.length + footer.length + 8 := by
    rw [hfile]
    simp only [List.length_append, length_leBytes, hmagic]
    omega
  refine ⟨hlength, ?_, ?_, ?_⟩
  · rw [hfile]
    exact slice_middle [] magic _
  · have hsplit :
        file = (magic ++ (body ++ (footer ++ leBytes 4 footer.length))) ++ (magic ++ []) := by
      rw [hfile, List.append_nil, List.append_assoc, List.append_assoc, List.append_assoc]
    have := slice_middle (magic ++ (body ++ (footer ++ leBytes 4 footer.length))) magic []
    rw [← hsplit, List.length_append, List.length_append, List.length_append, length_leBytes,
      hmagic] at this
    rwa [show file.length - 4 = 4 + (body.length + (footer.length + 4)) by omega]
  · have hsplit : file = (magic ++ (body ++ footer)) ++ (leBytes 4 footer.length ++ magic) := by
      rw [hfile, List.append_assoc, List.append_assoc]
    have := slice_middle (magic ++ (body ++ footer)) (leBytes 4 footer.length) magic
    rw [← hsplit, length_leBytes, List.length_append, List.length_append, hmagic] at this
    rwa [show file.length - 8 = 4 + (body.length + footer.length) by omega]

/-- The footer of a file that was written is found. -/
theorem readFooter_eq_some {body : Bytes} {metaData : FileMetaData}
    (hfile : file = magic ++ (body ++ (thrift.write metaData.fields ++
      (leBytes 4 (thrift.write metaData.fields).length ++ magic))))
    (hmeta : metaData.fields.WellFormed) (hshort : (thrift.write metaData.fields).length < 2 ^ 32) :
    readFooter thrift file = some (4 + body.length, metaData) := by
  set footer := thrift.write metaData.fields with hfooter
  have hread := thrift.read_write metaData.fields [] hmeta hshort
  rw [List.append_nil] at hread
  obtain ⟨hlength, hhead, htail, hword⟩ := ends_of_written hfile
  have hmagic : magic.length = 4 := rfl
  have hslice : slice file (4 + body.length) footer.length = footer := by
    have hsplit : file = (magic ++ body) ++ (footer ++ (leBytes 4 footer.length ++ magic)) := by
      rw [hfile, List.append_assoc]
    have := slice_middle (magic ++ body) footer (leBytes 4 footer.length ++ magic)
    rwa [← hsplit, List.length_append, hmagic] at this
  have hlen : leNat (leBytes 4 footer.length) = footer.length :=
    leNat_leBytes_of_lt (by omega)
  have hstart : file.length - 8 - footer.length = 4 + body.length := by omega
  have henough : footer.length + 12 ≤ file.length := by omega
  simp [readFooter, hhead, hword, htail, hlen, hstart, hslice, hfooter ▸ hread, henough]

end walk

end VirParquet.Spec.Parquet
