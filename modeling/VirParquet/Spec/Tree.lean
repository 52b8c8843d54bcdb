import VirParquet.Spec.Path
import VirParquet.Model.Parser

/-!
# What a tree shows

What a user of a tree may expect of its listings, and what there is to see in the tree of a VTK
file. `EntriesReachable` says that each entry of a directory is found where the listing says it is.
`IsTreeOf` describes a tree by the sections of a VTK file: the names of its arrays are the names of
the files, and `sections` reads them off what the VTK library answers.
-/

namespace VirParquet.Spec

open VirParquet.Found VirParquet.Model VirParquet.Spec.Path

/-! ## Entries -/

/-- Where an object is: the names that lead to it from the root. -/
def Path.Node.place : Node → List Bytes
  | .dir ptr => ptr.place
  | .file fh => fh.place

/-- The path of an entry of a directory: the path of the directory, a separator and the name. -/
def Path.join (d e : CString) : CString where
  bytes := d.bytes ++ separator :: e.bytes
  nulFree h := (List.mem_append.mp h).elim d.nulFree fun hmem =>
    (List.mem_cons.mp hmem).elim (by decide) e.nulFree

/-- `Readdir` lists the name `e` for the directory path `d`. -/
def Listed (tree : VtkTree) (d e : CString) : Prop :=
  ∃ names, readdir tree (some d) [] = .ok (0, names) ∧ e.bytes ∈ names

/-- The operations on a path succeed and are about the object: `Getattr` and `Readdir` of a
directory, `Getattr` and `Open` of a file. -/
def LeadsTo (tree : VtkTree) (path : Option CString) : Node → Prop
  | .dir ptr =>
      (∀ statbuf, getattr tree path statbuf = .ok (0, tree.baseStatbuf.toDir)) ∧
        ∀ buf, readdir tree path buf = .ok (0, buf ++ ptr.dir.keys)
  | .file fh =>
      (∀ statbuf,
        getattr tree path statbuf = .ok (0, tree.baseStatbuf.toFile (fileSize fh.file))) ∧
        ∀ fh₀, openFile tree path fh₀ = .ok (0, some fh)

/-- **Every entry is reachable under its listed name.** The path of an entry leads to the object
that the directory has under this name, and the operations on it succeed. Entries whose paths lead
to the same place are the same entry of the same directory. -/
structure EntriesReachable (tree : VtkTree) : Prop where
  reaches : ∀ d e, Listed tree d e → ∃ ptr node, resolve tree (some d) = .ok (.dir ptr) ∧
    child ptr e.bytes = some node ∧ resolve tree (some (join d e)) = .ok node ∧
      LeadsTo tree (some (join d e)) node
  distinct : ∀ d₁ e₁ d₂ e₂ node₁ node₂, Listed tree d₁ e₁ → Listed tree d₂ e₂ →
    resolve tree (some (join d₁ e₁)) = .ok node₁ → resolve tree (some (join d₂ e₂)) = .ok node₂ →
      node₁.place = node₂.place → resolve tree (some d₁) = resolve tree (some d₂) ∧ e₁ = e₂

/-- A name that is a path component of its own. -/
def IsPlain (name : Bytes) : Prop := name ≠ [] ∧ separator ∉ name

/-! ## Sections -/

/-- A section of a VTK file: the name of its directory and the names of its arrays. -/
abbrev Section := CString × List CString

/-- The arrays of a section are the files of a directory. -/
def HoldsArrays (dir : ArrayDir) (names : List CString) : Prop :=
  ∀ e, e ∈ dir.arrMaps.keys ↔ ∃ name ∈ names, e = (arrayFileName name).bytes

/-- The directories below the root are that of the metadata and those of the sections. -/
structure IsTreeOf (subdirs : StringMap SubDir) (sections : List Section) : Prop where
  metadata : ∃ dir, subdirs.find metadataName.bytes = some (.metadata dir) ∧
    ∀ key ∈ dir.map.keys, IsPlain key
  arrays : ∀ sec ∈ sections, ∃ dir, subdirs.find sec.1.bytes = some (.array dir) ∧
    HoldsArrays dir sec.2
  keys : ∀ key ∈ subdirs.keys, key = metadataName.bytes ∨ ∃ sec ∈ sections, key = sec.1.bytes

section loaded

variable {E σ : Type}

/-- The names of the arrays nested in an element. -/
def nestedNames (xml : VtkXml E) (element : Bytes) (root : E) : List CString :=
  match xml.lookupElementWithName root element with
  | some parent => (xml.nestedElements parent).filterMap (xml.getAttribute · (ascii "Name"))
  | none => []

/-- The sections of a VTK file that are loaded, in the order in which they are. -/
def sectionsOf (input : VtkInput E σ) (cls : VtkReaderClass)
    (loadPoints loadCells : Bool) : List Section :=
  let reader := input.reader cls
  match reader.rootElement with
  | some root =>
      [(pointdataName, reader.pointArrayNames)] ++
        (if loadPoints then [(pointsName, nestedNames input.xml (ascii "Points") root)] else []) ++
        [(celldataName, reader.cellArrayNames)] ++
        (if loadCells then [(cellsName, nestedNames input.xml (ascii "Cells") root)] else [])
  | none => []

/-- The sections of a VTK file, whose name says of which kind it is. -/
def sections (input : VtkInput E σ) (fname : CString) : List Section :=
  if endsWith fname.bytes (ascii ".vtu") then sectionsOf input .unstructuredGrid true true
  else if endsWith fname.bytes (ascii ".vts") then sectionsOf input .structuredGrid true false
  else sectionsOf input .imageData false false

end loaded

end VirParquet.Spec
