import VirParquet.Model.FileMap
import VirParquet.Model.Arr
import VirParquet.Model.Format

/-!
# Building the map of a virtual Parquet file

`BuildMap` of `fmap.cc` for the two kinds of arrays, with what it is made of: `AppendPage`,
`AppendFooter`, the three tables of types, and `ThriftSerializer`. Numbers keep the widths of the
source: sizes of blocks are cut to 32 bits where they become a page's, the totals of a compressed
array are signed sums of 32-bit terms, those of an uncompressed one wrap, and the loop counter is an
`int`, which must not pass `2 ^ 31 - 1`.

The Thrift protocol is a parameter. The loop's state `BuildState` also keeps the list of the indices
at which `compressed_blk_sz` was read.
-/

namespace VirParquet.Model

open VirParquet.Found VirParquet.Found.Thrift

/-! ## Tables -/

/-- Source: `fmap.cc`, `ToParquetConvertedType` -/
def toParquetConvertedType : DataType → Exec (Option ConvertedType)
  | .int8 => .ok (some .int8)
  | .uint8 => .ok (some .uint8)
  | .int32 => .ok (some .int32)
  | .uint32 => .ok (some .uint32)
  | .int64 => .ok (some .int64)
  | .uint64 => .ok (some .uint64)
  | .float32 => .ok none
  | .float64 => .ok none
  | .unknown => .error (.thrown "Unsupported array data type")

/-- Source: `fmap.cc`, `ToParquetType` -/
def toParquetType : DataType → Exec PhysicalType
  | .int8 | .uint8 | .int32 | .uint32 => .ok .int32
  | .int64 | .uint64 => .ok .int64
  | .float32 => .ok .float
  | .float64 => .ok .double
  | .unknown => .error (.thrown "Unsupported array data type")

/-- Source: `fmap.cc`, `ToParquetCodec` -/
def toParquetCodec : CompressionType → Exec CompressionCodec
  | .none => .ok .uncompressed
  | .zlib => .ok .gzip
  | .lz4 => .ok .lz4Raw
  | .unknownCompression => .error (.thrown "Unsupported data compression type")

/-! ## Pages and the footer -/

/-- The four bytes at both ends of the file. -/
def par1 : Bytes := ascii "PAR1"

section append

variable (thrift : Protocol)

/-- What is thrown if the memory buffer cannot take a struct.
Source: `thrift_serializer.h`, `ThriftSerializer::SerializeObject` -/
def serializeError (s : Fields) : Fault :=
  .thrown ("Couldn't serialize thrift: " ++ thrift.buffer.what s ++ "\n")

/-- Source: `thrift_serializer.h`, `ThriftSerializer::SerializeToBuffer` -/
def serializeToBuffer (s : Fields) : Exec Bytes :=
  if (thrift.write s).length < thrift.buffer.capacity then .ok (thrift.write s)
  else .error (serializeError thrift s)

/-- The serializer takes structs of less than `2 ^ 32` bytes. -/
theorem serializeToBuffer_of_lt {s : Fields} (h : (thrift.write s).length < 2 ^ 32) :
    serializeToBuffer thrift s = .ok (thrift.write s) :=
  if_pos (thrift.buffer.capacity_eq ▸ h)

/-- The serializer takes no other structs. -/
theorem serializeToBuffer_of_le {s : Fields} (h : 2 ^ 32 ≤ (thrift.write s).length) :
    serializeToBuffer thrift s = .error (serializeError thrift s) :=
  if_neg (thrift.buffer.capacity_eq ▸ not_lt.mpr h)

/-- The page header that `AppendPage` writes. `int32_t(uncompressed_size) / value_size` rounds
towards zero. What `is_compressed` sets in the header is set from the start.
Source: `fmap.cc`, `AppendPage` -/
def pageHeader (valueSize compressedSize uncompressedSize : ℕ) (isCompressed : Bool) :
    PageHeader :=
  let numValues := Int.tdiv (toI32 uncompressedSize) valueSize
  { type := .dataPageV2
    uncompressedPageSize := toI32 uncompressedSize
    compressedPageSize := toI32 compressedSize
    dataPageHeaderV2 := some
      { numValues := numValues
        numNulls := 0
        numRows := numValues
        encoding := .plain
        definitionLevelsByteLength := 0
        repetitionLevelsByteLength := 0
        isCompressed := if isCompressed then true else DataPageHeaderV2.new.isCompressed } }

/-- The header is the same for compressed and uncompressed pages. -/
theorem pageHeader_isCompressed (valueSize compressedSize uncompressedSize : ℕ)
    (isCompressed : Bool) : pageHeader valueSize compressedSize uncompressedSize isCompressed =
      pageHeader valueSize compressedSize uncompressedSize true := by
  cases isCompressed <;> rfl

/-- Source: `fmap.cc`, `AppendPage` -/
def appendPage (builder : MapBuilder) (valueSize offset compressedSize uncompressedSize : ℕ)
    (isCompressed : Bool) : Exec (ℕ × MapBuilder) := do
  let buf ← serializeToBuffer thrift
    (pageHeader valueSize compressedSize uncompressedSize isCompressed).fields
  let builder ← (builder.addDirect buf).addMappedRegion offset compressedSize
  .ok (buf.length, builder)

/-- The footer that `AppendFooter` writes.
Source: `fmap.cc`, `AppendFooter` -/
def fileMetaData (name : Bytes) (onStorageType : PhysicalType) (conv : Option ConvertedType)
    (codec : CompressionCodec) (totalCompressedSize totalUncompressedSize totalCount : ℤ) :
    FileMetaData :=
  { version := 2
    schema :=
      [{ type := none
         repetitionType := some .required
         name := ascii "vtkfile"
         numChildren := some 1
         convertedType := none },
       { type := some onStorageType
         repetitionType := some .required
         name := name
         numChildren := none
         convertedType := conv }]
    numRows := totalCount
    rowGroups :=
      [{ columns :=
           [{ fileOffset := 0
              metaData := some
                { type := onStorageType
                  encodings := [.plain]
                  pathInSchema := [name]
                  codec := codec
                  numValues := totalCount
                  totalUncompressedSize := totalUncompressedSize
                  totalCompressedSize := totalCompressedSize
                  dataPageOffset := 4
                  statistics := some { nullCount := some 0 } } }]
         totalByteSize := totalUncompressedSize
         numRows := totalCount
         fileOffset := some 4
         totalCompressedSize := some totalCompressedSize }] }

/-- Source: `fmap.cc`, `AppendFooter` -/
def appendFooter (builder : MapBuilder) (name : Bytes) (type : DataType) (codec : CompressionType)
    (totalCompressedSize totalUncompressedSize totalCount : ℤ) : Exec (ℕ × MapBuilder) := do
  let onStorageType ← toParquetType type
  let conv ← toParquetConvertedType type
  let parquetCodec ← toParquetCodec codec
  let buf ← serializeToBuffer thrift
    (fileMetaData name onStorageType conv parquetCodec totalCompressedSize totalUncompressedSize
      totalCount).fields
  .ok (buf.length, builder.addDirect buf)

end append

/-! ## The two loops -/

/-- The variables of `BuildMap`'s loops. -/
structure BuildState where
  builder : MapBuilder
  offset : ℕ
  totalCompressedSize : ℤ
  totalUncompressedSize : ℤ
  totalCount : ℤ
  /-- The indices at which `compressed_blk_sz` was read so far, in order. -/
  reads : List ℕ
  deriving DecidableEq, Repr

/-- The variables of `BuildMap` before its loop. -/
def BuildState.start (base64 : Bool) (dataStart : ℕ) : BuildState where
  builder := (MapBuilder.new base64 dataStart).addDirect par1
  offset := 0
  totalCompressedSize := 0
  totalUncompressedSize := 0
  totalCount := 0
  reads := []

section buildMap

variable (thrift : Protocol)

/-- What the loop and the block behind it do alike: append the page of block `i` and count it. The
size of the block after compression is returned.
Source: `fmap.cc`, `BuildMap` -/
def compressedPage (arr : CompressedArray) (valueSize i uncompressedBlkSz : ℕ) (st : BuildState) :
    Exec (ℕ × BuildState) := do
  let blkSz ← vecAt arr.compressedBlkSz i
  let compressedSize := u32 blkSz
  let uncompressedSize := u32 uncompressedBlkSz
  let (headerSize, builder) ← appendPage thrift st.builder valueSize st.offset compressedSize
    uncompressedSize true
  let totalCompressedSize ← addI64 st.totalCompressedSize (u32 (headerSize + compressedSize))
  let totalUncompressedSize ←
    addI64 st.totalUncompressedSize (u32 (headerSize + uncompressedSize))
  let totalCount ← addI64 st.totalCount (uncompressedSize / valueSize : ℕ)
  .ok (compressedSize,
    { builder := builder
      offset := st.offset
      totalCompressedSize := totalCompressedSize
      totalUncompressedSize := totalUncompressedSize
      totalCount := totalCount
      reads := st.reads ++ [i] })

/-- The body of the loop over all blocks but the last.
Source: `fmap.cc`, `BuildMap` -/
def compressedTurn (arr : CompressedArray) (valueSize i : ℕ) (st : BuildState) :
    Exec BuildState := do
  let (compressedSize, st) ← compressedPage thrift arr valueSize i arr.blkSz st
  .ok { st with offset := u64 (st.offset + compressedSize) }

/-- The pages of a compressed array. An array without blocks sends the loop to the largest 64-bit
number of blocks.
Source: `fmap.cc`, `BuildMap` -/
def compressedPages (base64 : Bool) (arr : CompressedArray) (valueSize : ℕ) : Exec BuildState := do
  let st ← countUp (2 ^ 31) .signedOverflow (subU64 arr.numBlks 1)
    (compressedTurn thrift arr valueSize) 0 (.start base64 arr.dataStart)
  let (_, st) ← compressedPage thrift arr valueSize (subU64 arr.numBlks 1) arr.lastBlkSz st
  .ok st

/-- Addition of an unsigned to a signed 64-bit integer, which wraps. -/
def addU64 (a : ℤ) (b : ℕ) : ℤ := toI64 (ofI64 a + b)

/-- What the loop and the block behind it do alike, for an uncompressed array.
Source: `fmap.cc`, `BuildMap` -/
def uncompressedPage (valueSize blkSz : ℕ) (st : BuildState) : Exec BuildState := do
  let (headerSize, builder) ← appendPage thrift st.builder valueSize st.offset (u32 blkSz)
    (u32 blkSz) false
  .ok
    { builder := builder
      offset := st.offset
      totalCompressedSize := addU64 st.totalCompressedSize (headerSize + blkSz)
      totalUncompressedSize := addU64 st.totalUncompressedSize (headerSize + blkSz)
      totalCount := addU64 st.totalCount (blkSz / valueSize)
      reads := st.reads }

/-- The body of the loop over all blocks but the last.
Source: `fmap.cc`, `BuildMap` -/
def uncompressedTurn (valueSize : ℕ) (_i : ℕ) (st : BuildState) : Exec BuildState := do
  let st ← uncompressedPage thrift valueSize 32768 st
  .ok { st with offset := u64 (st.offset + 32768) }

/-- The number of blocks of an uncompressed array.
Source: `fmap.cc`, `BuildMap` -/
def UncompressedArray.numBlks (arr : UncompressedArray) : ℕ :=
  subU64 (u64 (arr.totalBytes + 32768)) 1 / 32768

/-- The size of the last block of an uncompressed array.
Source: `fmap.cc`, `BuildMap` -/
def UncompressedArray.lastBlkSz (arr : UncompressedArray) : ℕ :=
  subU64 arr.totalBytes 1 % 32768 + 1

/-- The pages of an uncompressed array.
Source: `fmap.cc`, `BuildMap` -/
def uncompressedPages (base64 : Bool) (arr : UncompressedArray) (valueSize : ℕ) :
    Exec BuildState := do
  let st ← countUp (2 ^ 31) .signedOverflow (subU64 arr.numBlks 1)
    (uncompressedTurn thrift valueSize) 0 (.start base64 arr.dataStart)
  uncompressedPage thrift valueSize arr.lastBlkSz st

/-- What both functions do after the pages: the footer, its size in little-endian order, and the
four bytes at the end.
Source: `fmap.cc`, `BuildMap` -/
def finishMap (name : Bytes) (type : DataType) (codec : CompressionType) (st : BuildState) :
    Exec FileMap := do
  let (footSize, builder) ← appendFooter thrift st.builder name type codec st.totalCompressedSize
    st.totalUncompressedSize st.totalCount
  .ok ((builder.addDirect (leBytes 4 footSize)).addDirect par1).finish

/-- Source: `fmap.cc`, `BuildMap` for a `CompressedArray` -/
def buildMapCompressed (name : Bytes) (type : DataType) (codec : CompressionType) (base64 : Bool)
    (arr : CompressedArray) : Exec FileMap := do
  let valueSize ← getValueSize type
  let st ← compressedPages thrift base64 arr valueSize
  finishMap thrift name type codec st

/-- Source: `fmap.cc`, `BuildMap` for an `UncompressedArray` -/
def buildMapUncompressed (name : Bytes) (type : DataType) (base64 : Bool)
    (arr : UncompressedArray) : Exec FileMap := do
  let valueSize ← getValueSize type
  let st ← uncompressedPages thrift base64 arr valueSize
  finishMap thrift name type .none st

end buildMap

end VirParquet.Model
