import VirParquet.Spec.Tree

/-!
# What a VTK file says about its arrays

What the attributes in a VTK file mean to whoever loads it. Attributes that are given more than once
count with their last value (`lastValue`), within an element and across the elements of a section
whose arrays share a name (`Arrays.attributes`). `arrays` are the sections of a file with the
elements that describe their arrays, `IsStorageOf` says how the arrays of a file are stored, and
`Describes` where one of them is and of which type. `IsLoadedTree` is what is made of a file, and
`IsWellFormed` says which files something can be made of.
-/

namespace VirParquet.Spec

open VirParquet.Found VirParquet.Found.Thrift VirParquet.Found.Base64 VirParquet.Model

/-! ## Attributes -/

/-- The last value that an attribute is given. -/
def lastValue (attrs : List (XmlName × CString)) (key : Bytes) : Option Bytes :=
  (attrs.filter fun attr => attr.1.bytes = key).getLast?.map fun attr => attr.2.bytes

/-- What is given later counts. -/
theorem lastValue_append (attrs attrs' : List (XmlName × CString)) (key : Bytes) :
    lastValue (attrs ++ attrs') key = (lastValue attrs' key).or (lastValue attrs key) := by
  rw [lastValue, lastValue, lastValue, List.filter_append, List.getLast?_append, Option.map_or]

/-- A single attribute has the last value of its own name only. -/
theorem lastValue_singleton (attr : XmlName × CString) (key : Bytes) :
    lastValue [attr] key = if attr.1.bytes = key then some attr.2.bytes else none := by
  by_cases h : attr.1.bytes = key <;> simp [lastValue, h]

/-! ## Arrays -/

/-- The arrays of a section: their names, and the elements that describe them. -/
abbrev Arrays (E : Type) := List (CString × E)

section arrays

variable {E σ : Type}

/-- The attributes of all arrays with a name, in the order of their elements. -/
def Arrays.attributes (xml : VtkXml E) (arrays : Arrays E) (name : Bytes) :
    List (XmlName × CString) :=
  (arrays.filter fun arr => arr.1.bytes = name).flatMap fun arr => xml.attributes arr.2

/-- The attributes of the arrays of two lists are those of both, in this order. -/
theorem Arrays.attributes_append (xml : VtkXml E) (arrays arrays' : Arrays E) (name : Bytes) :
    Arrays.attributes xml (arrays ++ arrays') name =
      Arrays.attributes xml arrays name ++ Arrays.attributes xml arrays' name := by
  rw [attributes, attributes, attributes, List.filter_append, List.flatMap_append]

/-- The attributes of a single array are those of its element. -/
theorem Arrays.attributes_singleton (xml : VtkXml E) (arr : CString × E) (name : Bytes) :
    Arrays.attributes xml [arr] name = if arr.1.bytes = name then xml.attributes arr.2 else [] := by
  by_cases h : arr.1.bytes = name <;> simp [attributes, h]

/-- The arrays that the elements nested in an element describe, each with its own name. -/
def nestedArrays (xml : VtkXml E) (element : Bytes) (root : E) : Arrays E :=
  match xml.lookupElementWithName root element with
  | some parent =>
      (xml.nestedElements parent).filterMap fun arr =>
        (xml.getAttribute arr (ascii "Name")).map fun name => (name, arr)
  | none => []

/-- The arrays that the elements nested in an element describe, with the names of a reader. -/
def namedArrays (xml : VtkXml E) (element : Bytes) (root : E) (names : List CString) : Arrays E :=
  match xml.lookupElementWithName root element with
  | some parent => names.zip (xml.nestedElements parent)
  | none => []

/-- The sections of a VTK file that are loaded, with their arrays. -/
def arraysOf (input : VtkInput E σ) (cls : VtkReaderClass) (loadPoints loadCells : Bool) :
    List (CString × Arrays E) :=
  let reader := input.reader cls
  match reader.rootElement with
  | some root =>
      [(pointdataName, namedArrays input.xml (ascii "PointData") root reader.pointArrayNames)] ++
        (if loadPoints then [(pointsName, nestedArrays input.xml (ascii "Points") root)] else []) ++
        [(celldataName, namedArrays input.xml (ascii "CellData") root reader.cellArrayNames)] ++
        (if loadCells then [(cellsName, nestedArrays input.xml (ascii "Cells") root)] else [])
  | none => []

/-! ## Kinds of files -/

/-- A kind of VTK files: which element has the mesh, which reader reads it, and which sections are
loaded beside those of point data and cell data. -/
structure MeshKind where
  meshType : Bytes
  cls : VtkReaderClass
  loadPoints : Bool
  loadCells : Bool

/-- The kind of a file, by its name. -/
def kindOf (fname : CString) : Option MeshKind :=
  if endsWith fname.bytes (ascii ".vtu") then
    some ⟨ascii "UnstructuredGrid", .unstructuredGrid, true, true⟩
  else if endsWith fname.bytes (ascii ".vts") then
    some ⟨ascii "StructuredGrid", .structuredGrid, true, false⟩
  else if endsWith fname.bytes (ascii ".vti") then
    some ⟨ascii "ImageData", .imageData, false, false⟩
  else none

/-- The sections of a file of a kind, with their arrays. -/
def MeshKind.arrays (kind : MeshKind) (input : VtkInput E σ) : List (CString × Arrays E) :=
  arraysOf input kind.cls kind.loadPoints kind.loadCells

/-- The attributes of the metadata: those of the root element, and then those of the mesh. -/
def MeshKind.metadata (kind : MeshKind) (input : VtkInput E σ) : List (XmlName × CString) :=
  match (input.reader kind.cls).rootElement with
  | some root =>
      input.xml.attributes root ++
        ((input.xml.findNestedElementWithName root kind.meshType).map input.xml.attributes).getD []
  | none => []

/-- The path of a file in a directory below the root. -/
def filePath (dir name : CString) : CString :=
  Path.join (Path.join ⟨[], List.not_mem_nil⟩ dir) name

/-! ## Storage -/

/-- How the arrays of a VTK file are stored, and where. -/
structure Storage (σ : Type) where
  base : RandomAccessFile σ
  codec : CompressionType
  enc : EncodingType
  headerType : DataType
  appendedDataPos : ℕ

/-- What a header type is called. -/
def IsHeaderType (text : Bytes) (headerType : DataType) : Prop :=
  text = ascii "UInt32" ∧ headerType = .uint32 ∨ text = ascii "UInt64" ∧ headerType = .uint64

/-- How the arrays of a file with this root element are stored, according to the file. -/
structure IsStorageOf (input : VtkInput E σ) (cls : VtkReaderClass) (root : E)
    (storage : Storage σ) : Prop where
  root_eq : (input.reader cls).rootElement = some root
  opened_eq : input.opened = some storage.base
  codec_eq : identifyCompressionType (input.reader cls).compressor = .ok storage.codec
  enc_eq : parseEncodingType input.xml
    (input.xml.findNestedElementWithName root (ascii "AppendedData")) = .ok storage.enc
  headerType_eq : ∃ text, lastValue (input.xml.attributes root) (ascii "header_type") = some text ∧
    IsHeaderType text storage.headerType
  appendedDataPos_eq : storage.appendedDataPos = ofI64 (input.reader cls).appendedDataPosition

/-- The attributes of an array say of which type it is, and how far behind the start of the appended
data. -/
structure Describes (attrs : List (XmlName × CString)) (type : DataType) (offset : ℤ) : Prop where
  type_eq : ∃ text, lastValue attrs (ascii "type") = some text ∧ parseDataType text = .ok type
  format_eq : lastValue attrs (ascii "format") = some (ascii "appended")
  offset_eq : ∃ text, lastValue attrs (ascii "offset") = some text ∧
    atoll (cStr text) = .ok offset

/-- Where in the file an array is. -/
def Storage.place (storage : Storage σ) (offset : ℤ) : ℕ :=
  u64 (ofI64 offset + storage.appendedDataPos)

/-- The map of an array with these attributes. -/
def IsLoaded (thrift : Protocol) (heap : Heap) (dec : Decoder) (storage : Storage σ) (name : Bytes)
    (attrs : List (XmlName × CString)) (m : FileMap) : Prop :=
  ∃ type offset s s', Describes attrs type offset ∧
    parseAppendedArray thrift heap dec storage.base name type storage.codec storage.enc
      storage.headerType (storage.place offset) s = .ok (m, s')

/-- The maps of a directory are those of the arrays of a section. -/
structure HoldsMaps (thrift : Protocol) (heap : Heap) (dec : Decoder) (storage : Storage σ)
    (xml : VtkXml E) (arrays : Arrays E) (dir : ArrayDir) : Prop where
  keys : ∀ key ∈ dir.arrMaps.keys, ∃ arr ∈ arrays, key = (arrayFileName arr.1).bytes
  maps : ∀ arr ∈ arrays, ∃ m, dir.arrMaps.find (arrayFileName arr.1).bytes = some m ∧
    IsLoaded thrift heap dec storage arr.1.bytes (arrays.attributes xml arr.1.bytes) m

/-- The directories below the root have the metadata and the maps of the sections, and there are no
others. -/
structure IsLoadedTree (thrift : Protocol) (heap : Heap) (dec : Decoder) (storage : Storage σ)
    (xml : VtkXml E) (metadata : List (XmlName × CString)) (sections : List (CString × Arrays E))
    (subdirs : StringMap SubDir) : Prop where
  metadata : ∃ dir, subdirs.find metadataName.bytes = some (.metadata dir) ∧
    ∀ key, dir.map.find key = lastValue metadata key
  arrays : ∀ sec ∈ sections, ∃ dir, subdirs.find sec.1.bytes = some (.array dir) ∧
    HoldsMaps thrift heap dec storage xml sec.2 dir
  keys : ∀ key ∈ subdirs.keys, key = metadataName.bytes ∨ ∃ sec ∈ sections, key = sec.1.bytes

/-! ## Well-formed files -/

/-- The element that holds the arrays is there, and each array nested in it has a name. -/
def NestedAreNamed (xml : VtkXml E) (element : Bytes) (root : E) : Prop :=
  ∃ parent, xml.lookupElementWithName root element = some parent ∧
    ∀ arr ∈ xml.nestedElements parent, ∃ name, xml.getAttribute arr (ascii "Name") = some name

/-- There is an element for each array that a reader names. Without names the element that holds
them may be missing. -/
def NamedAreNested (xml : VtkXml E) (element : Bytes) (root : E) (names : List CString) : Prop :=
  names ≠ [] → ∃ parent, xml.lookupElementWithName root element = some parent ∧
    names.length ≤ (xml.nestedElements parent).length

/-- The elements of a VTK file of a kind are all there: the mesh, and those that hold arrays. -/
structure HasElements (input : VtkInput E σ) (kind : MeshKind) (root : E) : Prop where
  mesh : ∃ mesh, input.xml.findNestedElementWithName root kind.meshType = some mesh
  pointData : NamedAreNested input.xml (ascii "PointData") root
    (input.reader kind.cls).pointArrayNames
  cellData : NamedAreNested input.xml (ascii "CellData") root
    (input.reader kind.cls).cellArrayNames
  points : kind.loadPoints = true → NestedAreNamed input.xml (ascii "Points") root
  cells : kind.loadCells = true → NestedAreNamed input.xml (ascii "Cells") root

/-- A VTK file of a kind that can be loaded: the library reads it, it says how its arrays are
stored, no element is missing, and each array can be made a map of. -/
structure IsWellFormed (thrift : Protocol) (heap : Heap) (dec : Decoder) (input : VtkInput E σ)
    (kind : MeshKind) (root : E) (storage : Storage σ) : Prop where
  updateInformation : (input.reader kind.cls).updateInformation = true
  stored : IsStorageOf input kind.cls root storage
  stat : ∃ statbuf, input.stat = some statbuf
  elements : HasElements input kind root
  arrays : ∀ sec ∈ kind.arrays input, ∀ arr ∈ sec.2, ∃ m,
    IsLoaded thrift heap dec storage arr.1.bytes (sec.2.attributes input.xml arr.1.bytes) m

end arrays

end VirParquet.Spec
