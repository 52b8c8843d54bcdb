import VirParquet.Model.BuildMap

/-!
# Arrays in the appended data of a VTK file

The part of `parser.cc` that turns the place of a data array into its file map: the reader of
the array's header, which decodes base64 or only shifts positions, and `ParseAppendedArray`, which
parses the header and moves the data start behind it.

The base file is read through a state, which the functions return.
-/

namespace VirParquet.Model

open VirParquet.Found VirParquet.Found.Thrift VirParquet.Found.Base64

variable {σ : Type}

/-! ## The header reader -/

/-- A file with its positions shifted.
Source: `parser.cc`, `OffsettedRandomAccessFile` -/
def offsettedFile (base : RandomAccessFile σ) (baseOffset : ℕ) : RandomAccessFile σ where
  pread size offset s := base.pread size (u64 (baseOffset + offset)) s

/-- Source: `parser.cc`, `NewArrayHeaderReader` -/
def newArrayHeaderReader (dec : Decoder) (base : RandomAccessFile σ) (offset : ℕ)
    (isBase64Encoded : Bool) : RandomAccessFile σ :=
  if isBase64Encoded then (Base64Reader.mk base offset dec).file else offsettedFile base offset

/-- The start of the array data in the file, from its place in the header reader.
Source: `parser.cc`, `ParseAppendedArray` -/
def adjustDataStart (offset : ℕ) (isBase64Encoded : Bool) (dataStart : ℕ) : ℕ :=
  if isBase64Encoded then u64 (offset + 4 * (u64 (dataStart + 2) / 3)) else u64 (offset + dataStart)

/-! ## Arrays -/

section parse

variable (thrift : Protocol) (heap : Heap) (dec : Decoder) (file : RandomAccessFile σ)

/-- The header of an uncompressed array, with words of the header type.
Source: `parser.cc`, `ParseAppendedArray` -/
def parseUncompressed (view : RandomAccessFile σ) (headerType : DataType) (s : σ) :
    Exec (UncompressedArray × σ) :=
  if headerType = .uint32 then parseUncompressed32 view 0 s else parseUncompressed64 view 0 s

/-- The header of a compressed array, with words of the header type.
Source: `parser.cc`, `ParseAppendedArray` -/
def parseCompressed (view : RandomAccessFile σ) (headerType : DataType) (s : σ) :
    Exec (CompressedArray × σ) :=
  if headerType = .uint32 then parseCompressed32 heap view 0 s else parseCompressed64 heap view 0 s

/-- A parsed header has as many sizes as blocks. -/
theorem length_compressedBlkSz {heap : Heap} {view : RandomAccessFile σ} {headerType : DataType}
    {s s' : σ} {arr : CompressedArray}
    (h : parseCompressed heap view headerType s = .ok (arr, s')) :
    arr.compressedBlkSz.length = arr.numBlks ∧ arr.numBlks < 2 ^ 64 := by
  rw [parseCompressed] at h
  split at h
  · obtain ⟨hlen, hlt⟩ := length_compressedBlkSz32 h
    exact ⟨hlen, hlt.trans (by norm_num)⟩
  · exact length_compressedBlkSz64 h

/-- Source: `parser.cc`, `ParseAppendedArray` -/
def parseAppendedArray (name : Bytes) (type : DataType) (codec : CompressionType)
    (enc : EncodingType) (headerType : DataType) (offset : ℕ) (s : σ) : Exec (FileMap × σ) :=
  let isBase64Encoded := enc == .base64
  let view := newArrayHeaderReader dec file offset isBase64Encoded
  if codec = .none then do
    let (arr, s) ← parseUncompressed view headerType s
    let map ← buildMapUncompressed thrift name type isBase64Encoded
      { arr with dataStart := adjustDataStart offset isBase64Encoded arr.dataStart }
    .ok (map, s)
  else do
    let (arr, s) ← parseCompressed heap view headerType s
    let map ← buildMapCompressed thrift name type codec isBase64Encoded
      { arr with dataStart := adjustDataStart offset isBase64Encoded arr.dataStart }
    .ok (map, s)

end parse

end VirParquet.Model
