import VirParquet.Found.Thrift

/-!
# The structs of a Parquet file

The structs of `gen-cpp/parquet_types.h` that a virtual file holds: page headers and the footer.
For each of them `fields` is what its `write` gives the protocol, field ids and types in the order
of `parquet_types.cpp`, and `ofFields?` what its `read` makes of such fields: a field that comes
twice counts the second time, an unknown one is skipped, a required one that is missing fails.

`PageHeader.ofFields?_fields` and its siblings say that `read` undoes `write`;
`PageHeader.wellFormed_fields` and its siblings that numbers of the right width are all that `write`
needs.
-/

namespace VirParquet.Model

open VirParquet.Found VirParquet.Found.Thrift

/-! ## Enumerations -/

/-- Source: `parquet_types.h`, `Type` -/
inductive PhysicalType
  | boolean
  | int32
  | int64
  | int96
  | float
  | double
  | byteArray
  | fixedLenByteArray
  deriving DecidableEq, Repr

/-- Source: `parquet_types.h`, `Type` -/
def PhysicalType.code : PhysicalType → ℤ
  | .boolean => 0
  | .int32 => 1
  | .int64 => 2
  | .int96 => 3
  | .float => 4
  | .double => 5
  | .byteArray => 6
  | .fixedLenByteArray => 7

/-- Source: `parquet_types.cpp`, `_Type_VALUES_TO_NAMES` -/
instance : Enumeration PhysicalType where
  code := PhysicalType.code
  members := [.boolean, .int32, .int64, .int96, .float, .double, .byteArray, .fixedLenByteArray]
  find?_code a := by cases a <;> rfl
  isI32_code a := by cases a <;> decide

/-- Source: `parquet_types.h`, `ConvertedType` -/
inductive ConvertedType
  | utf8
  | map
  | mapKeyValue
  | list
  | enum
  | decimal
  | date
  | timeMillis
  | timeMicros
  | timestampMillis
  | timestampMicros
  | uint8
  | uint16
  | uint32
  | uint64
  | int8
  | int16
  | int32
  | int64
  | json
  | bson
  | interval
  deriving DecidableEq, Repr

/-- Source: `parquet_types.h`, `ConvertedType` -/
def ConvertedType.code : ConvertedType → ℤ
  | .utf8 => 0
  | .map => 1
  | .mapKeyValue => 2
  | .list => 3
  | .enum => 4
  | .decimal => 5
  | .date => 6
  | .timeMillis => 7
  | .timeMicros => 8
  | .timestampMillis => 9
  | .timestampMicros => 10
  | .uint8 => 11
  | .uint16 => 12
  | .uint32 => 13
  | .uint64 => 14
  | .int8 => 15
  | .int16 => 16
  | .int32 => 17
  | .int64 => 18
  | .json => 19
  | .bson => 20
  | .interval => 21

/-- Source: `parquet_types.cpp`, `_ConvertedType_VALUES_TO_NAMES` -/
instance : Enumeration ConvertedType where
  code := ConvertedType.code
  members := [.utf8, .map, .mapKeyValue, .list, .enum, .decimal, .date, .timeMillis, .timeMicros,
    .timestampMillis, .timestampMicros, .uint8, .uint16, .uint32, .uint64, .int8, .int16, .int32,
    .int64, .json, .bson, .interval]
  find?_code a := by cases a <;> rfl
  isI32_code a := by cases a <;> decide

/-- Source: `parquet_types.h`, `FieldRepetitionType` -/
inductive FieldRepetitionType
  | required
  | optional
  | repeated
  deriving DecidableEq, Repr

/-- Source: `parquet_types.h`, `FieldRepetitionType` -/
def FieldRepetitionType.code : FieldRepetitionType → ℤ
  | .required => 0
  | .optional => 1
  | .repeated => 2

/-- Source: `parquet_types.cpp`, `_FieldRepetitionType_VALUES_TO_NAMES` -/
instance : Enumeration FieldRepetitionType where
  code := FieldRepetitionType.code
  members := [.required, .optional, .repeated]
  find?_code a := by cases a <;> rfl
  isI32_code a := by cases a <;> decide

/-- Source: `parquet_types.h`, `Encoding` -/
inductive Encoding
  | plain
  | plainDictionary
  | rle
  | bitPacked
  | deltaBinaryPacked
  | deltaLengthByteArray
  | deltaByteArray
  | rleDictionary
  | byteStreamSplit
  deriving DecidableEq, Repr

/-- Source: `parquet_types.h`, `Encoding` -/
def Encoding.code : Encoding → ℤ
  | .plain => 0
  | .plainDictionary => 2
  | .rle => 3
  | .bitPacked => 4
  | .deltaBinaryPacked => 5
  | .deltaLengthByteArray => 6
  | .deltaByteArray => 7
  | .rleDictionary => 8
  | .byteStreamSplit => 9

/-- Source: `parquet_types.cpp`, `_Encoding_VALUES_TO_NAMES` -/
instance : Enumeration Encoding where
  code := Encoding.code
  members := [.plain, .plainDictionary, .rle, .bitPacked, .deltaBinaryPacked, .deltaLengthByteArray,
    .deltaByteArray, .rleDictionary, .byteStreamSplit]
  find?_code a := by cases a <;> rfl
  isI32_code a := by cases a <;> decide

/-- Source: `parquet_types.h`, `CompressionCodec` -/
inductive CompressionCodec
  | uncompressed
  | snappy
  | gzip
  | lzo
  | brotli
  | lz4
  | zstd
  | lz4Raw
  deriving DecidableEq, Repr

/-- Source: `parquet_types.h`, `CompressionCodec` -/
def CompressionCodec.code : CompressionCodec → ℤ
  | .uncompressed => 0
  | .snappy => 1
  | .gzip => 2
  | .lzo => 3
  | .brotli => 4
  | .lz4 => 5
  | .zstd => 6
  | .lz4Raw => 7

/-- Source: `parquet_types.cpp`, `_CompressionCodec_VALUES_TO_NAMES` -/
instance : Enumeration CompressionCodec where
  code := CompressionCodec.code
  members := [.uncompressed, .snappy, .gzip, .lzo, .brotli, .lz4, .zstd, .lz4Raw]
  find?_code a := by cases a <;> rfl
  isI32_code a := by cases a <;> decide

/-- Source: `parquet_types.h`, `PageType` -/
inductive PageType
  | dataPage
  | indexPage
  | dictionaryPage
  | dataPageV2
  deriving DecidableEq, Repr

/-- Source: `parquet_types.h`, `PageType` -/
def PageType.code : PageType → ℤ
  | .dataPage => 0
  | .indexPage => 1
  | .dictionaryPage => 2
  | .dataPageV2 => 3

/-- Source: `parquet_types.cpp`, `_PageType_VALUES_TO_NAMES` -/
instance : Enumeration PageType where
  code := PageType.code
  members := [.dataPage, .indexPage, .dictionaryPage, .dataPageV2]
  find?_code a := by cases a <;> rfl
  isI32_code a := by cases a <;> decide

/-! ## Page headers -/

/-- Source: `parquet_types.h`, `DataPageHeaderV2` -/
structure DataPageHeaderV2 where
  numValues : ℤ
  numNulls : ℤ
  numRows : ℤ
  encoding : Encoding
  definitionLevelsByteLength : ℤ
  repetitionLevelsByteLength : ℤ
  /-- Optional in the format, but its flag in `__isset` is set from the start, and nothing clears
  it. -/
  isCompressed : Bool
  deriving DecidableEq, Repr

/-- Source: `parquet_types.cpp`, `DataPageHeaderV2::DataPageHeaderV2` -/
def DataPageHeaderV2.new : DataPageHeaderV2 where
  numValues := 0
  numNulls := 0
  numRows := 0
  encoding := .plain
  definitionLevelsByteLength := 0
  repetitionLevelsByteLength := 0
  isCompressed := true

/-- Source: `parquet_types.cpp`, `DataPageHeaderV2::write` -/
def DataPageHeaderV2.fields (h : DataPageHeaderV2) : Fields :=
  .ofList
    [(1, .i32 h.numValues), (2, .i32 h.numNulls), (3, .i32 h.numRows), (4, .enum h.encoding),
      (5, .i32 h.definitionLevelsByteLength), (6, .i32 h.repetitionLevelsByteLength),
      (7, .bool h.isCompressed)]

/-- A header that does not say whether it is compressed keeps what the constructor has set.
Source: `parquet_types.cpp`, `DataPageHeaderV2::read` -/
def DataPageHeaderV2.ofFields? (fields : Fields) : Option DataPageHeaderV2 := do
  some
    { numValues := ← fields.i32? 1
      numNulls := ← fields.i32? 2
      numRows := ← fields.i32? 3
      encoding := ← fields.enum? Encoding 4
      definitionLevelsByteLength := ← fields.i32? 5
      repetitionLevelsByteLength := ← fields.i32? 6
      isCompressed := (fields.bool? 7).getD DataPageHeaderV2.new.isCompressed }

/-- Source: `parquet_types.h`, `PageHeader` -/
structure PageHeader where
  type : PageType
  uncompressedPageSize : ℤ
  compressedPageSize : ℤ
  dataPageHeaderV2 : Option DataPageHeaderV2
  deriving DecidableEq, Repr

/-- Source: `parquet_types.cpp`, `PageHeader::write` -/
def PageHeader.fields (h : PageHeader) : Fields :=
  .ofList
    ([(1, .enum h.type), (2, .i32 h.uncompressedPageSize), (3, .i32 h.compressedPageSize)] ++
      ifSet 8 (h.dataPageHeaderV2.map fun v2 => .struct v2.fields))

/-- Source: `parquet_types.cpp`, `PageHeader::read` -/
def PageHeader.ofFields? (fields : Fields) : Option PageHeader := do
  some
    { type := ← fields.enum? PageType 1
      uncompressedPageSize := ← fields.i32? 2
      compressedPageSize := ← fields.i32? 3
      dataPageHeaderV2 := ← readOptional DataPageHeaderV2.ofFields? (fields.struct? 8) }

/-- A data page header is read back. -/
@[simp] theorem DataPageHeaderV2.ofFields?_fields (h : DataPageHeaderV2) :
    ofFields? h.fields = some h := by
  simp [ofFields?, fields, Fields.ofList, Fields.i32?, Fields.enum?, Fields.bool?, Fields.last?,
    Value.enum, Value.kind]

/-- A page header is read back. -/
@[simp] theorem PageHeader.ofFields?_fields (h : PageHeader) : ofFields? h.fields = some h := by
  rcases h with ⟨_, _, _, _ | _⟩ <;>
    simp [ofFields?, fields, Fields.ofList, ifSet, Fields.i32?, Fields.enum?, Fields.struct?,
      Fields.last?, Value.enum, Value.kind, readOptional]

/-! ## The footer -/

/-- Source: `parquet_types.h`, `SchemaElement` -/
structure SchemaElement where
  type : Option PhysicalType
  repetitionType : Option FieldRepetitionType
  name : Bytes
  numChildren : Option ℤ
  convertedType : Option ConvertedType
  deriving DecidableEq, Repr

/-- Source: `parquet_types.cpp`, `SchemaElement::write` -/
def SchemaElement.fields (e : SchemaElement) : Fields :=
  .ofList
    (ifSet 1 (e.type.map .enum) ++ ifSet 3 (e.repetitionType.map .enum) ++
      [(4, .binary e.name)] ++ ifSet 5 (e.numChildren.map .i32) ++
      ifSet 6 (e.convertedType.map .enum))

/-- Source: `parquet_types.cpp`, `SchemaElement::read` -/
def SchemaElement.ofFields? (fields : Fields) : Option SchemaElement := do
  some
    { type := ← readOptional (Enumeration.ofCode? PhysicalType) (fields.i32? 1)
      repetitionType := ← readOptional (Enumeration.ofCode? FieldRepetitionType) (fields.i32? 3)
      name := ← fields.binary? 4
      numChildren := fields.i32? 5
      convertedType := ← readOptional (Enumeration.ofCode? ConvertedType) (fields.i32? 6) }

/-- Source: `parquet_types.h`, `Statistics` -/
structure Statistics where
  nullCount : Option ℤ
  deriving DecidableEq, Repr

/-- Source: `parquet_types.cpp`, `Statistics::write` -/
def Statistics.fields (s : Statistics) : Fields := .ofList (ifSet 3 (s.nullCount.map .i64))

/-- Source: `parquet_types.cpp`, `Statistics::read` -/
def Statistics.ofFields? (fields : Fields) : Option Statistics :=
  some { nullCount := fields.i64? 3 }

/-- Source: `parquet_types.h`, `ColumnMetaData` -/
structure ColumnMetaData where
  type : PhysicalType
  encodings : List Encoding
  pathInSchema : List Bytes
  codec : CompressionCodec
  numValues : ℤ
  totalUncompressedSize : ℤ
  totalCompressedSize : ℤ
  dataPageOffset : ℤ
  statistics : Option Statistics
  deriving DecidableEq, Repr

/-- Source: `parquet_types.cpp`, `ColumnMetaData::write` -/
def ColumnMetaData.fields (c : ColumnMetaData) : Fields :=
  .ofList
    ([(1, .enum c.type), (2, .list .i32 (.ofList (c.encodings.map .enum))),
      (3, .list .binary (.ofList (c.pathInSchema.map .binary))), (4, .enum c.codec),
      (5, .i64 c.numValues), (6, .i64 c.totalUncompressedSize), (7, .i64 c.totalCompressedSize),
      (9, .i64 c.dataPageOffset)] ++ ifSet 12 (c.statistics.map fun s => .struct s.fields))

/-- Source: `parquet_types.cpp`, `ColumnMetaData::read` -/
def ColumnMetaData.ofFields? (fields : Fields) : Option ColumnMetaData := do
  some
    { type := ← fields.enum? PhysicalType 1
      encodings := ← (← fields.list? 2).mapM fun v => v.i32?.bind (Enumeration.ofCode? Encoding)
      pathInSchema := ← (← fields.list? 3).mapM Value.binary?
      codec := ← fields.enum? CompressionCodec 4
      numValues := ← fields.i64? 5
      totalUncompressedSize := ← fields.i64? 6
      totalCompressedSize := ← fields.i64? 7
      dataPageOffset := ← fields.i64? 9
      statistics := ← readOptional Statistics.ofFields? (fields.struct? 12) }

/-- Source: `parquet_types.h`, `ColumnChunk` -/
structure ColumnChunk where
  fileOffset : ℤ
  metaData : Option ColumnMetaData
  deriving DecidableEq, Repr

/-- Source: `parquet_types.cpp`, `ColumnChunk::write` -/
def ColumnChunk.fields (c : ColumnChunk) : Fields :=
  .ofList ([(2, .i64 c.fileOffset)] ++ ifSet 3 (c.metaData.map fun m => .struct m.fields))

/-- Source: `parquet_types.cpp`, `ColumnChunk::read` -/
def ColumnChunk.ofFields? (fields : Fields) : Option ColumnChunk := do
  some
    { fileOffset := ← fields.i64? 2
      metaData := ← readOptional ColumnMetaData.ofFields? (fields.struct? 3) }

/-- Source: `parquet_types.h`, `RowGroup` -/
structure RowGroup where
  columns : List ColumnChunk
  totalByteSize : ℤ
  numRows : ℤ
  fileOffset : Option ℤ
  totalCompressedSize : Option ℤ
  deriving DecidableEq, Repr

/-- Source: `parquet_types.cpp`, `RowGroup::write` -/
def RowGroup.fields (g : RowGroup) : Fields :=
  .ofList
    ([(1, .list .struct (.ofList (g.columns.map fun c => .struct c.fields))),
      (2, .i64 g.totalByteSize), (3, .i64 g.numRows)] ++ ifSet 5 (g.fileOffset.map .i64) ++
      ifSet 6 (g.totalCompressedSize.map .i64))

/-- Source: `parquet_types.cpp`, `RowGroup::read` -/
def RowGroup.ofFields? (fields : Fields) : Option RowGroup := do
  some
    { columns := ← (← fields.list? 1).mapM fun v => v.struct?.bind ColumnChunk.ofFields?
      totalByteSize := ← fields.i64? 2
      numRows := ← fields.i64? 3
      fileOffset := fields.i64? 5
      totalCompressedSize := fields.i64? 6 }

/-- Source: `parquet_types.h`, `FileMetaData` -/
structure FileMetaData where
  version : ℤ
  schema : List SchemaElement
  numRows : ℤ
  rowGroups : List RowGroup
  deriving DecidableEq, Repr

/-- Source: `parquet_types.cpp`, `FileMetaData::write` -/
def FileMetaData.fields (m : FileMetaData) : Fields :=
  .ofList
    [(1, .i32 m.version), (2, .list .struct (.ofList (m.schema.map fun e => .struct e.fields))),
      (3, .i64 m.numRows),
      (4, .list .struct (.ofList (m.rowGroups.map fun g => .struct g.fields)))]

/-- Source: `parquet_types.cpp`, `FileMetaData::read` -/
def FileMetaData.ofFields? (fields : Fields) : Option FileMetaData := do
  some
    { version := ← fields.i32? 1
      schema := ← (← fields.list? 2).mapM fun v => v.struct?.bind SchemaElement.ofFields?
      numRows := ← fields.i64? 3
      rowGroups := ← (← fields.list? 4).mapM fun v => v.struct?.bind RowGroup.ofFields? }

/-- A schema element is read back. -/
@[simp] theorem SchemaElement.ofFields?_fields (e : SchemaElement) :
    ofFields? e.fields = some e := by
  rcases e with ⟨_ | _, _ | _, _, _ | _, _ | _⟩ <;>
    simp [ofFields?, fields, Fields.ofList, ifSet, Fields.i32?, Fields.binary?, Fields.last?,
      Value.enum, Value.kind, readOptional]

/-- Statistics are read back. -/
@[simp] theorem Statistics.ofFields?_fields (s : Statistics) : ofFields? s.fields = some s := by
  rcases s with ⟨_ | _⟩ <;>
    simp [ofFields?, fields, Fields.ofList, ifSet, Fields.i64?, Fields.last?, Value.kind]

/-- Column metadata are read back. -/
@[simp] theorem ColumnMetaData.ofFields?_fields (c : ColumnMetaData) :
    ofFields? c.fields = some c := by
  have hencodings : (c.encodings.map Value.enum).mapM
      (fun v => v.i32?.bind (Enumeration.ofCode? Encoding)) = some c.encodings :=
    mapM_map_eq_some (fun a => by simp [Value.enum, Value.i32?]) _
  have hpath : (c.pathInSchema.map Value.binary).mapM Value.binary? = some c.pathInSchema :=
    mapM_map_eq_some (fun a => show (Value.binary a).binary? = some a from rfl) _
  rcases c with ⟨_, _, _, _, _, _, _, _, _ | _⟩ <;>
    simp_all [ofFields?, fields, Fields.ofList, ifSet, Fields.i32?, Fields.i64?, Fields.list?,
      Fields.struct?, Fields.enum?, Fields.last?, Value.enum, Value.kind, readOptional]

/-- A column chunk is read back. -/
@[simp] theorem ColumnChunk.ofFields?_fields (c : ColumnChunk) : ofFields? c.fields = some c := by
  rcases c with ⟨_, _ | _⟩ <;>
    simp [ofFields?, fields, Fields.ofList, ifSet, Fields.i64?, Fields.struct?, Fields.last?,
      Value.kind, readOptional]

/-- A row group is read back. -/
@[simp] theorem RowGroup.ofFields?_fields (g : RowGroup) : ofFields? g.fields = some g := by
  have hcolumns : (g.columns.map fun c => Value.struct c.fields).mapM
      (fun v => v.struct?.bind ColumnChunk.ofFields?) = some g.columns :=
    mapM_map_eq_some (fun a => by simp [Value.struct?]) _
  rcases g with ⟨_, _, _, _ | _, _ | _⟩ <;>
    simp_all [ofFields?, fields, Fields.ofList, ifSet, Fields.i64?, Fields.list?, Fields.last?,
      Value.kind]

/-- File metadata are read back. -/
@[simp] theorem FileMetaData.ofFields?_fields (m : FileMetaData) : ofFields? m.fields = some m := by
  have hschema : (m.schema.map fun e => Value.struct e.fields).mapM
      (fun v => v.struct?.bind SchemaElement.ofFields?) = some m.schema :=
    mapM_map_eq_some (fun a => by simp [Value.struct?]) _
  have hrowGroups : (m.rowGroups.map fun g => Value.struct g.fields).mapM
      (fun v => v.struct?.bind RowGroup.ofFields?) = some m.rowGroups :=
    mapM_map_eq_some (fun a => by simp [Value.struct?]) _
  simp [ofFields?, fields, Fields.ofList, Fields.i32?, Fields.i64?, Fields.list?, Fields.last?,
    Value.kind, hschema, hrowGroups]

/-! ## Width -/

/-- A data page header can be written if its numbers have their width. -/
theorem DataPageHeaderV2.wellFormed_fields {h : DataPageHeaderV2} (hvalues : IsI32 h.numValues)
    (hnulls : IsI32 h.numNulls) (hrows : IsI32 h.numRows)
    (hdefinition : IsI32 h.definitionLevelsByteLength)
    (hrepetition : IsI32 h.repetitionLevelsByteLength) : h.fields.WellFormed := by
  simp [fields, Fields.ofList, Fields.WellFormed, Value.WellFormed, Value.wellFormed_enum, *]

/-- A page header can be written if its numbers have their width. -/
theorem PageHeader.wellFormed_fields {h : PageHeader} (huncompressed : IsI32 h.uncompressedPageSize)
    (hcompressed : IsI32 h.compressedPageSize)
    (hv2 : ∀ v2, h.dataPageHeaderV2 = some v2 → v2.fields.WellFormed) : h.fields.WellFormed := by
  rcases h with ⟨type, _, _, _ | _⟩ <;>
    simp_all [fields, Fields.ofList, ifSet, Fields.WellFormed, Value.WellFormed,
      Value.wellFormed_enum]

end VirParquet.Model
