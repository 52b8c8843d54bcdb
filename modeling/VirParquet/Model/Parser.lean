import VirParquet.Model.Appended
import VirParquet.Model.Fuse

/-!
# From a VTK file to its tree

The rest of `parser.cc`: how the attributes and arrays that the VTK library found in a file become
the directories of a tree. The library and the operating system are parameters. `VtkXml` is what the
methods of a `vtkXMLDataElement` answer, `VtkReader` what those of a `vtkXMLReader` do, and
`VtkInput` is all that is asked about one file.

Names of attributes are names of XML, so none is empty and none holds a separator of path components
(`XmlName`). Names of arrays are values of attributes, and may be any C string.

The order in which a `std::unordered_map` is iterated over is not specified. Here it is that of the
entries of a `StringMap`.
-/

namespace VirParquet.Model

open VirParquet.Found VirParquet.Found.Thrift VirParquet.Found.Base64

/-! ## Numbers in strings -/

/-- Source: `isspace` of the C locale -/
def isSpace (c : UInt8) : Bool := c == 32 || (9 ≤ c && c ≤ 13)

/-- Source: `isdigit` -/
def isDigit (c : UInt8) : Bool := 48 ≤ c && c ≤ 57

/-- The sign in front of a number, if there is one, and the rest. -/
def signOf : Bytes → Bool × Bytes
  | [] => (false, [])
  | c :: s => if c = 45 then (true, s) else if c = 43 then (false, s) else (false, c :: s)

/-- The number that digits stand for. -/
def ofDigits (digits : Bytes) : ℕ := digits.foldl (fun n c => 10 * n + (c.toNat - 48)) 0

/-- A number that is no `long long` is undefined behaviour.
Source: `atoll` of the C library -/
def atoll (s : Bytes) : Exec ℤ :=
  let (negative, s) := signOf (s.dropWhile isSpace)
  let n := ofDigits (s.takeWhile isDigit)
  let z : ℤ := if negative then -n else n
  if -2 ^ 63 ≤ z ∧ z < 2 ^ 63 then .ok z else .error .signedOverflow

/-! ## What the library answers -/

/-- The name of an XML attribute. -/
structure XmlName extends CString where
  ne_nil : bytes ≠ []
  separator_notMem : separator ∉ bytes

/-- The methods of `vtkXMLDataElement`, of which `E` are the objects. A null pointer is `none`. -/
structure VtkXml (E : Type) where
  /-- `GetAttributeName(i)` and `GetAttributeValue(i)` below `GetNumberOfAttributes()`. -/
  attributes : E → List (XmlName × CString)
  /-- `GetAttribute(name)`. -/
  getAttribute : E → Bytes → Option CString
  /-- `GetNestedElement(i)` below `GetNumberOfNestedElements()`. From there on it is null. -/
  nestedElements : E → List E
  /-- `FindNestedElementWithName(name)`. -/
  findNestedElementWithName : E → Bytes → Option E
  /-- `LookupElementWithName(name)`. -/
  lookupElementWithName : E → Bytes → Option E

/-- A `vtkDataCompressor`. -/
structure VtkCompressor where
  /-- `IsA(type)`. -/
  isA : Bytes → Bool

/-- What a `vtkXMLReader` and its parser answer about a file. -/
structure VtkReader (E : Type) where
  /-- `UpdateInformation()`. -/
  updateInformation : Bool
  /-- `GetXMLParser()->GetCompressor()`. -/
  compressor : Option VtkCompressor
  /-- `GetXMLParser()->GetAppendedDataPosition()`. -/
  appendedDataPosition : ℤ
  /-- `GetXMLParser()->GetRootElement()`. -/
  rootElement : Option E
  /-- `GetPointArrayName(i)` below `GetNumberOfPointArrays()`. -/
  pointArrayNames : List CString
  /-- `GetCellArrayName(i)` below `GetNumberOfCellArrays()`. -/
  cellArrayNames : List CString

/-- The three readers in use. -/
inductive VtkReaderClass
  | unstructuredGrid
  | structuredGrid
  | imageData
  deriving DecidableEq, Repr

/-- What the library and the operating system answer about a file. -/
structure VtkInput (E σ : Type) where
  xml : VtkXml E
  reader : VtkReaderClass → VtkReader E
  /-- `open`. -/
  opened : Option (RandomAccessFile σ)
  /-- `fstat`. -/
  stat : Option StatBuf

/-- Source: `fmap.cc`, `NewOSFile` -/
def newOSFile {σ : Type} (opened : Option (RandomAccessFile σ)) (stat : Option StatBuf) :
    Exec (RandomAccessFile σ × StatBuf) :=
  match opened, stat with
  | none, _ => .error (.thrown "Cannot open file for reading")
  | some _, none => .error (.thrown "Cannot stat file")
  | some file, some statbuf => .ok (file, statbuf)

/-! ## Attributes -/

/-- The attributes of an element. -/
abbrev Attrs := StringMap Bytes

/-- The attributes of arrays, by the names of the arrays. -/
abbrev ArrayInfo := StringMap Attrs

section attributes

variable {E : Type} (xml : VtkXml E)

/-- Source: `parser.cc`, `CopyAttrs` -/
def copyAttrs (des : Attrs) (src : Option E) : Exec Attrs := do
  let src ← deref src
  .ok ((xml.attributes src).foldl (fun des attr => des.assign attr.1.toCString attr.2.bytes) des)

/-- What `operator[]` gives access to: the attributes of an array, which are none at first. -/
def ArrayInfo.attrs (info : ArrayInfo) (name : CString) : Attrs :=
  (info.find name.bytes).getD .empty

/-- The loop over the elements nested in `Points` or `Cells`.
Source: `parser.cc`, `ExtractCellsInfo`, `ExtractPointsInfo` -/
def extractNested : List E → ArrayInfo → Exec ArrayInfo
  | [], info => .ok info
  | arr :: arrs, info => do
      let name ← deref (xml.getAttribute arr (ascii "Name"))
      let attrs ← copyAttrs xml (info.attrs name) (some arr)
      extractNested arrs (info.assign name attrs)

/-- The arrays nested in the element with this name.
Source: `parser.cc`, `ExtractCellsInfo`, `ExtractPointsInfo` -/
def extractInfo (element : Bytes) (root : E) (info : ArrayInfo) : Exec ArrayInfo := do
  let parent ← deref (xml.lookupElementWithName root element)
  extractNested xml (xml.nestedElements parent) info

/-- Source: `parser.cc`, `ExtractCellsInfo` -/
def extractCellsInfo (root : E) (cellsInfo : ArrayInfo) : Exec ArrayInfo :=
  extractInfo xml (ascii "Cells") root cellsInfo

/-- Source: `parser.cc`, `ExtractPointsInfo` -/
def extractPointsInfo (root : E) (pointsInfo : ArrayInfo) : Exec ArrayInfo :=
  extractInfo xml (ascii "Points") root pointsInfo

/-- The loop over the arrays that the reader names, of which the first has the number `i`.
Source: `parser.cc`, `ExtractFieldArrayInfo` -/
def extractNamed (parent : Option E) : List CString → ℕ → ArrayInfo → Exec ArrayInfo
  | [], _, info => .ok info
  | name :: names, i, info => do
      let element ← deref parent
      let attrs ← copyAttrs xml (info.attrs name) (xml.nestedElements element)[i]?
      extractNamed parent names (i + 1) (info.assign name attrs)

/-- Source: `parser.cc`, `ExtractFieldArrayInfo` -/
def extractFieldArrayInfo (reader : VtkReader E) (root : E)
    (pointArrInfo cellArrInfo : ArrayInfo) : Exec (ArrayInfo × ArrayInfo) := do
  let pd := xml.lookupElementWithName root (ascii "PointData")
  let pointArrInfo ← extractNamed xml pd reader.pointArrayNames 0 pointArrInfo
  let cd := xml.lookupElementWithName root (ascii "CellData")
  let cellArrInfo ← extractNamed xml cd reader.cellArrayNames 0 cellArrInfo
  .ok (pointArrInfo, cellArrInfo)

/-- Source: `parser.cc`, `IdentifyCompressionType` -/
def identifyCompressionType (compr : Option VtkCompressor) : Exec CompressionType :=
  match compr with
  | none => .ok .none
  | some compr =>
      if compr.isA (ascii "vtkZLibDataCompressor") then .ok .zlib
      else if compr.isA (ascii "vtkLZ4DataCompressor") then .ok .lz4
      else .error (.thrown "Unsupported data compression type")

/-- Source: `parser.cc`, `ParseEncodingType` -/
def parseEncodingType (app : Option E) : Exec EncodingType :=
  match app with
  | none => .ok .raw
  | some app => do
      let encoding ← deref (xml.getAttribute app (ascii "encoding"))
      .ok (if encoding.bytes = ascii "base64" then .base64 else .raw)

end attributes

/-- Source: `parser.cc`, `ParseHeaderType` -/
def parseHeaderType (map : Attrs) : Exec DataType := do
  let t ← map.atKey (ascii "header_type")
  if t = ascii "UInt32" then .ok .uint32
  else if t = ascii "UInt64" then .ok .uint64
  else .error (.thrown "Unknown header type")

/-! ## Arrays -/

/-- Source: `parser.cc`, `ParseVtkDataArray` -/
def parseDataType (t : Bytes) : Exec DataType :=
  if t = ascii "Int8" then .ok .int8
  else if t = ascii "UInt8" then .ok .uint8
  else if t = ascii "Int32" then .ok .int32
  else if t = ascii "UInt32" then .ok .uint32
  else if t = ascii "Int64" then .ok .int64
  else if t = ascii "UInt64" then .ok .uint64
  else if t = ascii "Float32" then .ok .float32
  else if t = ascii "Float64" then .ok .float64
  else .error (.thrown "Unsupported data array type")

/-- The name of the file of an array.
Source: `parser.cc`, `ParseArrayGroup` -/
def arrayFileName (name : CString) : CString where
  bytes := name.bytes ++ ascii ".parquet"
  nulFree h := (List.mem_append.mp h).elim name.nulFree (by decide)

section arrays

variable {σ : Type} (thrift : Protocol) (heap : Heap) (dec : Decoder) (file : RandomAccessFile σ)
  (codec : CompressionType) (enc : EncodingType) (headerType : DataType)

/-- Source: `parser.cc`, `ParseVtkDataArray` -/
def parseVtkDataArray (name : Bytes) (map : Attrs) (appendedDataPos : ℕ) (s : σ) :
    Exec (FileMap × σ) := do
  let t ← map.atKey (ascii "type")
  let type ← parseDataType t
  let format ← map.atKey (ascii "format")
  if format = ascii "appended" then do
    let offset ← map.atKey (ascii "offset")
    let n ← atoll (cStr offset)
    parseAppendedArray thrift heap dec file name type codec enc headerType
      (u64 (ofI64 n + appendedDataPos)) s
  else .error (.thrown "Unsupported data array format")

/-- The loop of `ParseArrayGroup`.
Source: `parser.cc`, `ParseArrayGroup` -/
def parseArrays (appendedDataPos : ℕ) :
    List (CString × Attrs) → StringMap FileMap → σ → Exec (StringMap FileMap × σ)
  | [], maps, s => .ok (maps, s)
  | (name, info) :: arrs, maps, s => do
      let (map, s) ← parseVtkDataArray thrift heap dec file codec enc headerType name.bytes info
        appendedDataPos s
      parseArrays appendedDataPos arrs (maps.emplace (arrayFileName name) map) s

/-- Source: `parser.cc`, `ParseArrayGroup` -/
def parseArrayGroup (arrInfo : ArrayInfo) (appendedDataPos : ℕ) (s : σ) : Exec (ArrayDir × σ) := do
  let (maps, s) ← parseArrays thrift heap dec file codec enc headerType appendedDataPos
    arrInfo.items .empty s
  .ok (⟨maps⟩, s)

/-- One of the sections of a VTK file becomes a directory.
Source: `parser.cc`, `ParseVtkFileInternal` -/
def emplaceArrayGroup (name : CString) (arrInfo : ArrayInfo) (appendedDataPos : ℕ)
    (subdirs : StringMap SubDir) (s : σ) : Exec (StringMap SubDir × σ) := do
  let (dir, s) ← parseArrayGroup thrift heap dec file codec enc headerType arrInfo
    appendedDataPos s
  .ok (subdirs.emplace name (.array dir), s)

end arrays

/-! ## Files -/

/-- The names of the directories below the root.
Source: `parser.cc`, `ParseVtkFileInternal` -/
def metadataName : CString := ⟨ascii "METADATA", by decide⟩

@[inherit_doc metadataName] def pointdataName : CString := ⟨ascii "pointdata", by decide⟩

@[inherit_doc metadataName] def pointsName : CString := ⟨ascii "points", by decide⟩

@[inherit_doc metadataName] def celldataName : CString := ⟨ascii "celldata", by decide⟩

@[inherit_doc metadataName] def cellsName : CString := ⟨ascii "cells", by decide⟩

/-- Source: `parser.cc`, `CreateReader` -/
def createReader (meshType : Bytes) : Exec VtkReaderClass :=
  if meshType = ascii "UnstructuredGrid" then .ok .unstructuredGrid
  else if meshType = ascii "StructuredGrid" then .ok .structuredGrid
  else if meshType = ascii "ImageData" then .ok .imageData
  else .error (.thrown "Unsupported vtk mesh type")

section files

variable {E σ : Type} (thrift : Protocol) (heap : Heap) (dec : Decoder) (input : VtkInput E σ)

/-- The tree keeps the file that was opened, which is not part of it here.
Source: `parser.cc`, `ParseVtkFileInternal` -/
def parseVtkFileInternal (meshType : Bytes) (loadPoints loadCells : Bool) (s : σ) :
    Exec (VtkTree × σ) := do
  let reader := input.reader (← createReader meshType)
  if !reader.updateInformation then
    .error (.thrown ("Failed to parse the input vtk file. Please make sure the file exists " ++
      "and is valid."))
  else do
    let codec ← identifyCompressionType reader.compressor
    let appendedDataPos := ofI64 reader.appendedDataPosition
    let root ← deref reader.rootElement
    let enc ← parseEncodingType input.xml
      (input.xml.findNestedElementWithName root (ascii "AppendedData"))
    let rootAttrs ← copyAttrs input.xml .empty (some root)
    let headerType ← parseHeaderType rootAttrs
    let rootAttrs ← copyAttrs input.xml rootAttrs
      (input.xml.findNestedElementWithName root meshType)
    let (pointArrInfo, cellArrInfo) ← extractFieldArrayInfo input.xml reader root .empty .empty
    let pointsInfo ←
      (if loadPoints then extractPointsInfo input.xml root .empty else .ok .empty : Exec ArrayInfo)
    let cellsInfo ←
      (if loadCells then extractCellsInfo input.xml root .empty else .ok .empty : Exec ArrayInfo)
    let (file, statbuf) ← newOSFile input.opened input.stat
    let group := emplaceArrayGroup thrift heap dec file codec enc headerType
    let subdirs := StringMap.empty.emplace metadataName (.metadata ⟨rootAttrs⟩)
    let (subdirs, s) ← group pointdataName pointArrInfo appendedDataPos subdirs s
    let (subdirs, s) ←
      (if loadPoints then group pointsName pointsInfo appendedDataPos subdirs s
        else .ok (subdirs, s) : Exec (StringMap SubDir × σ))
    let (subdirs, s) ← group celldataName cellArrInfo appendedDataPos subdirs s
    let (subdirs, s) ←
      (if loadCells then group cellsName cellsInfo appendedDataPos subdirs s
        else .ok (subdirs, s) : Exec (StringMap SubDir × σ))
    .ok (.new subdirs statbuf, s)

/-- Source: `parser.cc`, `EndsWith` -/
def endsWith (str suffix : Bytes) : Bool :=
  suffix.length ≤ str.length && str.drop (str.length - suffix.length) == suffix

/-- Source: `parser.cc`, `ParseVtkFile` -/
def parseVtkFile (fname : CString) (s : σ) : Exec (VtkTree × σ) :=
  if endsWith fname.bytes (ascii ".vtu") then
    parseVtkFileInternal thrift heap dec input (ascii "UnstructuredGrid") true true s
  else if endsWith fname.bytes (ascii ".vts") then
    parseVtkFileInternal thrift heap dec input (ascii "StructuredGrid") true false s
  else if endsWith fname.bytes (ascii ".vti") then
    parseVtkFileInternal thrift heap dec input (ascii "ImageData") false false s
  else .error (.thrown "Unsupported vtk file format")

end files

end VirParquet.Model
