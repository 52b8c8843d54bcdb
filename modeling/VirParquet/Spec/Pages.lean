import VirParquet.Model.FileMap
import VirParquet.Spec.Parquet

/-!
# The pages of a map

A map seen from outside: the regions that its three vectors describe, the pages among them, what
the page headers say, and what the footer says of the only column. Nothing here knows how the map
was built.

`FileMap.Represents.regions_eq` says that a map which stands for a list of regions describes this
list.
-/

namespace VirParquet.Model

open VirParquet.Found VirParquet.Found.Thrift VirParquet.Spec

/-! ## Regions -/

/-- Region `i` of a map, as its vectors describe it. -/
def FileMap.region (m : FileMap) (i : ℕ) : Region :=
  let size := m.offsets.getD (i + 1) 0 - m.offsets.getD i 0
  let underlying := m.underlyingOffsets.getD i 0
  if 0 < underlying then .mapped (underlying - 1).toNat size
  else .direct (slice m.directBuf (-underlying).toNat size)

/-- The regions of a map. -/
def FileMap.regions (m : FileMap) : List Region := (List.range m.n).map m.region

section represents

variable {m : FileMap} {rs : List Region} (h : m.Represents rs)

include h

/-- A region of a map that stands for a list of regions. -/
theorem FileMap.Represents.region_eq {i : ℕ} (hi : i < rs.length) : m.region i = rs[i] := by
  have hhere : m.offsets[i]? = some (start (rs.map Region.size) i) := by
    rw [h.offsets_eq, getElem?_starts (by simpa using hi.le)]
  have hnext : m.offsets[i + 1]? = some (start (rs.map Region.size) i + rs[i].size) := by
    rw [h.offsets_eq, getElem?_starts (by rw [List.length_map]; omega),
      start_succ (by simpa using hi), List.getElem_map]
  have hentry : m.underlyingOffsets[i]? =
      some (rs[i].underlying (directBytes (rs.take i)).length) := by
    rw [h.underlyingOffsets_eq, getElem?_underlyingOffsetsOf hi, Nat.zero_add]
  rw [region, List.getD_eq_getElem?_getD, List.getD_eq_getElem?_getD, List.getD_eq_getElem?_getD,
    hhere, hnext, hentry]
  simp only [Option.getD_some, Nat.add_sub_cancel_left]
  cases hr : rs[i] with
  | direct bytes =>
      have hslice : slice (directBytes rs) ((directBytes (rs.take i)).length + 0) bytes.length =
          slice rs[i].directBytes 0 bytes.length := slice_directBytes hi (by rw [hr]; simp)
      rw [hr, Nat.add_zero, Region.directBytes, slice_full] at hslice
      have hnonpos : ¬0 < (Region.direct bytes).underlying (directBytes (rs.take i)).length := by
        simp [Region.underlying]
      rw [if_neg hnonpos, Region.underlying, Region.size, h.directBuf_eq, neg_neg,
        Int.toNat_natCast, hslice]
  | mapped offset size =>
      have hpos : 0 < (Region.mapped offset size).underlying (directBytes (rs.take i)).length := by
        show (0 : ℤ) < 1 + offset
        omega
      rw [if_pos hpos, Region.underlying, Region.size, add_sub_cancel_left, Int.toNat_natCast]

/-- **The regions of a map that stands for a list of regions** are this list. -/
theorem FileMap.Represents.regions_eq : m.regions = rs := by
  show (List.range m.n).map m.region = rs
  refine List.ext_getElem (by simp [h.n_eq]) fun i hi hi' => ?_
  rw [List.getElem_map, List.getElem_range]
  exact h.region_eq hi'

end represents

end VirParquet.Model

namespace VirParquet.Spec

open VirParquet.Found VirParquet.Found.Thrift VirParquet.Model

/-! ## Pages -/

/-- A page of a map: the bytes of its header, and the place and size of its data in the payload. -/
structure MappedPage where
  header : Bytes
  offset : ℕ
  size : ℕ
  deriving DecidableEq, Repr

/-- The pages of a list of regions: every mapped region is the data of one, and the direct region
right before it, whose bytes are `header`, its header. -/
def pagesOf (header : Bytes) : List Region → List MappedPage
  | [] => []
  | .direct bytes :: rs => pagesOf bytes rs
  | .mapped offset size :: rs => ⟨header, offset, size⟩ :: pagesOf [] rs

/-- The pages of a map. -/
def mappedPages (m : FileMap) : List MappedPage := pagesOf [] m.regions

/-- The header that a byte string is. -/
def readPageHeader (thrift : Protocol) (bytes : Bytes) : Option PageHeader := do
  let (fields, _) ← thrift.read bytes
  PageHeader.ofFields? fields

/-- What the footer of a map says of its only column. The footer is the third region from the
end. -/
def footerColumn (thrift : Protocol) (m : FileMap) : Option ColumnMetaData := do
  let (fields, _) ← thrift.read (m.region (m.n - 3)).directBytes
  let metaData ← FileMetaData.ofFields? fields
  let rowGroup ← Parquet.only? metaData.rowGroups
  let chunk ← Parquet.only? rowGroup.columns
  chunk.metaData

/-- Direct regions at the end hold no pages. -/
theorem pagesOf_direct (header : Bytes) (bss : List Bytes) :
    pagesOf header (bss.map Region.direct) = [] := by
  induction bss generalizing header with
  | nil => rfl
  | cons bytes bss ih => exact ih bytes

end VirParquet.Spec
