import VirParquet.Spec.Loaded
import VirParquet.Spec.ReadOnly

/-!
# What is mounted of a VTK file

What a VTK file is to the users of the mounted file system, said by the file alone. Below the root
there is a directory for the metadata and one for each section; below these are files, one for each
attribute of the metadata and one for each array (`HasDir`, `HasFile`, `Holds`). `Leads` says what
this makes of the components of a path, and `IsImageOf` that an image is like that.
-/

namespace VirParquet.Spec

open VirParquet.Found VirParquet.Found.Base64 VirParquet.Model VirParquet.Spec.Path

/-- A listing of the names with a property, without repetitions. -/
def Lists (names : List Bytes) (p : Bytes → Prop) : Prop :=
  names.Nodup ∧ ∀ name, name ∈ names ↔ p name

section mounted

variable {E : Type} (statbuf : StatBuf) (metadata : List (XmlName × CString))
  (sections : List (CString × Arrays E)) (table : Arrays E → CString → Bytes → Prop)

/-- There is a directory with this name below the root. -/
def HasDir (name : Bytes) : Prop :=
  name = metadataName.bytes ∨ ∃ sec ∈ sections, name = sec.1.bytes

/-- There is a file with this name in a directory. -/
def HasFile (dir name : Bytes) : Prop :=
  dir = metadataName.bytes ∧ (∃ value, lastValue metadata name = some value) ∨
    ∃ sec ∈ sections, dir = sec.1.bytes ∧ ∃ arr ∈ sec.2, name = (arrayFileName arr.1).bytes

/-- A file in a directory has this content: the last value of an attribute, or the table of an
array. -/
inductive Holds : Bytes → Bytes → Bytes → Prop
  | value {key value : Bytes} (hvalue : lastValue metadata key = some value) :
      Holds metadataName.bytes key value
  | array {sec : CString × Arrays E} {arr : CString × E} {content : Bytes} (hsec : sec ∈ sections)
      (harr : arr ∈ sec.2) (htable : table sec.2 arr.1 content) :
      Holds sec.1.bytes (arrayFileName arr.1).bytes content

/-- What the components of a path lead to, or why they lead nowhere. -/
inductive Leads : List Bytes → Except ℤ Entry → Prop
  | root {names : List Bytes} (hnames : Lists names (HasDir sections)) :
      Leads [] (.ok (.dir statbuf.toDir names))
  | dir {dir : Bytes} {names : List Bytes} (hdir : HasDir sections dir)
      (hnames : Lists names (HasFile metadata sections dir)) :
      Leads [dir] (.ok (.dir statbuf.toDir names))
  | file {dir name content : Bytes} (hholds : Holds metadata sections table dir name content) :
      Leads [dir, name] (.ok (.file (statbuf.toFile content.length) content))
  | noDir {dir : Bytes} {names : List Bytes} (hdir : ¬HasDir sections dir) :
      Leads (dir :: names) (.error eNOENT)
  | noFile {dir name : Bytes} {names : List Bytes} (hdir : HasDir sections dir)
      (hname : ¬HasFile metadata sections dir name) :
      Leads (dir :: name :: names) (.error eNOENT)
  | inFile {dir name : Bytes} {names : List Bytes} (hname : HasFile metadata sections dir name)
      (hnames : names ≠ []) :
      Leads (dir :: name :: names) (.error eNOTDIR)

/-- **The image of a VTK file**, by what it says: its metadata, its sections and their tables. -/
structure IsImageOf (image : Image) : Prop where
  absolute : ∀ path : CString, path.bytes.head? = some separator →
    Leads statbuf metadata sections table (components path.bytes) (image.look path)
  relative : ∀ path : CString, path.bytes.head? ≠ some separator → image.look path = .error eINVAL

end mounted

end VirParquet.Spec
