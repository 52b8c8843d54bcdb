import VirParquet.Spec.Parquet
import VirParquet.Model.Arr

/-!
# The table in a Parquet file

What a reader that has walked the pages does with them. `Parquet.pageBytes` decompresses a page,
`Parquet.tableBytes` puts the pages of a file together and fails if a page does not hold what its
header declares, and `Parquet.plainValues` decodes values in PLAIN encoding under the physical and
converted type of the column, page by page for a whole file in `Parquet.tableValues`. Next to it,
`vtkElements` is what the bytes of a VTK array mean.
-/

namespace VirParquet.Spec

open VirParquet.Found VirParquet.Model

/-! ## Values -/

/-- An element of an array: an integer, or a floating-point number as its bits. -/
inductive Element
  | int (z : ℤ)
  | float (bits : ℕ)
  | double (bits : ℕ)
  deriving DecidableEq, Repr

/-- The signed integer with the low 8 bits of `n`. -/
def toI8 (n : ℕ) : ℤ := if n % 2 ^ 8 < 2 ^ 7 then (n % 2 ^ 8 : ℕ) else (n % 2 ^ 8 : ℕ) - 2 ^ 8

/-- What the word of an element of a VTK array means. -/
def vtkElement : DataType → ℕ → Option Element
  | .int8, n => some (.int (toI8 n))
  | .uint8, n => some (.int n)
  | .int32, n => some (.int (toI32 n))
  | .uint32, n => some (.int n)
  | .int64, n => some (.int (toI64 n))
  | .uint64, n => some (.int n)
  | .float32, n => some (.float n)
  | .float64, n => some (.double n)
  | .unknown, _ => none

/-- The elements of the little-endian bytes of a VTK array whose elements take `w` bytes. -/
def vtkElements (type : DataType) (w : ℕ) (bytes : Bytes) : Option (List Element) :=
  (leWords w (bytes.length / w) bytes).mapM (vtkElement type)

namespace Parquet

/-- The bytes of a value in PLAIN encoding. Types that no virtual file has are left out. -/
def plainWidth : PhysicalType → Option ℕ
  | .int32 | .float => some 4
  | .int64 | .double => some 8
  | _ => none

/-- What a stored integer `z`, of which `n` is the unsigned reading, is under a converted type. The
narrow types allow only what fits in them. -/
def convert (n : ℕ) (z : ℤ) : Option ConvertedType → Option Element
  | none | some .int32 | some .int64 => some (.int z)
  | some .uint32 | some .uint64 => some (.int n)
  | some .int8 => if -2 ^ 7 ≤ z ∧ z < 2 ^ 7 then some (.int z) else none
  | some .uint8 => if 0 ≤ z ∧ z < 2 ^ 8 then some (.int z) else none
  | _ => none

/-- What a stored word is under the physical and the converted type. -/
def plainValue (type : PhysicalType) (converted : Option ConvertedType) (n : ℕ) : Option Element :=
  match type with
  | .int32 => convert n (toI32 n) converted
  | .int64 => convert n (toI64 n) converted
  | .float => some (.float n)
  | .double => some (.double n)
  | _ => none

/-- The values of a page: as many words as it declares, and nothing else. -/
def plainValues (type : PhysicalType) (converted : Option ConvertedType) (n : ℤ) (bytes : Bytes) :
    Option (List Element) := do
  let width ← plainWidth type
  if n * width = bytes.length then (leWords width n.toNat bytes).mapM (plainValue type converted)
  else none

/-! ## Pages -/

/-- How the data of a page is decompressed. -/
def decoder (decompress : CompressionCodec → Bytes → Option Bytes) (codec : CompressionCodec) :
    Bytes → Option Bytes :=
  if codec = .uncompressed then some else decompress codec

/-- The bytes of a page's values. -/
def pageBytes (decompress : CompressionCodec → Bytes → Option Bytes) (codec : CompressionCodec)
    (p : Page) : Option Bytes :=
  match p.header.dataPageHeaderV2 with
  | some v2 => if v2.isCompressed then decoder decompress codec p.data else some p.data
  | none => none

/-- The bytes of a page, if they are as many as its header declares, in bytes and in values. -/
def declaredBytes (decompress : CompressionCodec → Bytes → Option Bytes) (valueSize : ℕ)
    (codec : CompressionCodec) (p : Page) : Option Bytes := do
  let bytes ← pageBytes decompress codec p
  if p.header.uncompressedPageSize = bytes.length ∧
      numValues p.header * valueSize = bytes.length then some bytes
  else none

/-- The bytes of all pages. -/
def tableBytes (decompress : CompressionCodec → Bytes → Option Bytes) (valueSize : ℕ) (f : File) :
    Option Bytes :=
  (f.pages.mapM (declaredBytes decompress valueSize f.column.codec)).map List.flatten

/-- The values of a page. -/
def pageValues (decompress : CompressionCodec → Bytes → Option Bytes) (f : File) (p : Page) :
    Option (List Element) := do
  let type ← f.leaf.type
  let bytes ← pageBytes decompress f.column.codec p
  if p.header.uncompressedPageSize = bytes.length then
    plainValues type f.leaf.convertedType (numValues p.header) bytes
  else none

/-- The values of all pages, page by page. -/
def tableValues (decompress : CompressionCodec → Bytes → Option Bytes) (f : File) :
    Option (List (List Element)) := f.pages.mapM (pageValues decompress f)

end Parquet

end VirParquet.Spec
