import VirParquet.Model.Vfs

/-!
# The file operations

`c.cc`: how a path is resolved to a parent directory and a last name, and what `Getattr`, `Readdir`,
`Open` and `Read` do with them. A path is a null pointer or a C string. A pointer into a path is the
part of the path from there on, so that `*p` is its first byte, and zero if it is empty.

Results are the integers of the source: zero or a negative error number.
-/

namespace VirParquet.Model

open VirParquet.Found VirParquet.Found.Base64

/-! ## Constants -/

/-- The error numbers of POSIX. -/
def eNOENT : ℤ := 2

@[inherit_doc eNOENT] def eIO : ℤ := 5

@[inherit_doc eNOENT] def eNOTDIR : ℤ := 20

@[inherit_doc eNOENT] def eISDIR : ℤ := 21

@[inherit_doc eNOENT] def eINVAL : ℤ := 22

/-- The file types of POSIX. -/
def sIFDIR : ℕ := 0o040000

@[inherit_doc sIFDIR] def sIFREG : ℕ := 0o100000

/-- The bits of the file type in a mode. -/
def sIFMT : ℕ := 0o170000

/-- The search permissions of owner, group and others. -/
def sIXUSR : ℕ := 0o100

@[inherit_doc sIXUSR] def sIXGRP : ℕ := 0o010

@[inherit_doc sIXUSR] def sIXOTH : ℕ := 0o001

/-- The separator of path components. -/
def separator : UInt8 := 47

/-! ## Resolving a path -/

/-- Source: `c.cc`, `LookupRes` -/
inductive LookupRes
  | dir
  | file
  | notFound
  deriving DecidableEq, Repr

/-- The object behind a pointer. -/
def deref {α : Type} : Option α → Exec α
  | some x => .ok x
  | none => .error .nullDeref

/-- Source: `c.cc`, `Lookup` -/
def lookup (dir : Option DirPtr) (name : Bytes) : Exec LookupRes := do
  let ptr ← deref dir
  match ← ptr.dir.stat name with
  | some stat => .ok (if stat.isDir then .dir else .file)
  | none => .ok .notFound

/-- `while (*p == '/') ++p`. -/
def skipSeparators (p : Bytes) : Bytes := p.dropWhile (· = separator)

/-- `while (*p && *p != '/') ++p`: what lies before the next separator, and the rest. -/
def component (p : Bytes) : Bytes × Bytes :=
  (p.takeWhile (· ≠ separator), p.dropWhile (· ≠ separator))

/-- The rest of a path behind a component and the separators that follow it is shorter. -/
theorem length_skipSeparators_component_lt {p : Bytes}
    (h : skipSeparators (component p).2 ≠ []) :
    (skipSeparators (component p).2).length < p.length := by
  have hdrop := List.length_dropWhile_le (fun c => decide (c = separator)) (component p).2
  have hcomp := List.length_dropWhile_le (fun c => decide (c ≠ separator)) p
  rcases p with _ | ⟨c, p⟩
  · exact absurd rfl h
  · by_cases hc : c = separator
    · have hrest := List.length_dropWhile_le (fun c => decide (c = separator)) p
      have heq : skipSeparators (component (c :: p)).2 =
          p.dropWhile fun c => decide (c = separator) := by
        simp [skipSeparators, component, hc]
      rw [heq, List.length_cons]
      omega
    · have hrest := List.length_dropWhile_le (fun c => decide (c ≠ separator)) p
      have heq : (component (c :: p)).2 = p.dropWhile fun c => decide (c ≠ separator) := by
        simp [component, hc]
      rw [heq] at hdrop ⊢
      simp only [skipSeparators, List.length_cons]
      omega

/-- The loop of `ResolvePath`. It returns zero or a negative error number, the parent and the name.
Source: `c.cc`, `ResolvePath` -/
def resolveLoop (parent : Option DirPtr) (p : Bytes) : Exec (ℤ × Option DirPtr × Bytes) :=
  let name := (component p).1
  let rest := skipSeparators (component p).2
  if _hrest : rest = [] then .ok (0, parent, name)
  else do
    match ← lookup parent name with
    | .dir => do
        let ptr ← deref parent
        let next ← ptr.getDir name
        resolveLoop next rest
    | .file => .ok (-eNOTDIR, parent, name)
    | .notFound => .ok (-eNOENT, parent, name)
termination_by p.length
decreasing_by exact length_skipSeparators_component_lt _hrest

/-- `parent` and `name` are what the caller has set them to.
Source: `c.cc`, `ResolvePath` -/
def resolvePath (root : DirPtr) (path : Option CString) (parent : Option DirPtr) (name : Bytes) :
    Exec (ℤ × Option DirPtr × Bytes) :=
  match path with
  | none => .ok (-eINVAL, parent, name)
  | some path =>
      if path.bytes.head? = some separator then
        let p := skipSeparators path.bytes
        if p = [] then .ok (0, parent, name) else resolveLoop (some root) p
      else .ok (-eINVAL, parent, name)

/-! ## Attributes -/

/-- Source: `c.cc`, `MakeDirMode` -/
def makeDirMode (mode : ℕ) : ℕ :=
  sIFDIR ||| (if mode &&& sIRUSR ≠ 0 then sIRUSR ||| sIXUSR else 0)
    ||| (if mode &&& sIRGRP ≠ 0 then sIRGRP ||| sIXGRP else 0)
    ||| (if mode &&& sIROTH ≠ 0 then sIROTH ||| sIXOTH else 0)

/-- The attributes of a directory. -/
def StatBuf.toDir (statbuf : StatBuf) : StatBuf :=
  { statbuf with stMode := makeDirMode statbuf.stMode }

/-- The attributes of a file. -/
def StatBuf.toFile (statbuf : StatBuf) (fileSize : ℕ) : StatBuf :=
  { statbuf with stSize := toI64 fileSize, stMode := statbuf.stMode ||| sIFREG }

/-- Source: `c.cc`, `Getattr` for a parent and a name -/
def getattrAt (parent : Option DirPtr) (name : Bytes) (statbuf : StatBuf) :
    Exec (ℤ × StatBuf) :=
  if name = [] then .ok (0, statbuf.toDir)
  else do
    let ptr ← deref parent
    match ← ptr.dir.stat name with
    | none => .ok (-eNOENT, statbuf)
    | some stat =>
        .ok (0, if stat.isDir then statbuf.toDir else statbuf.toFile stat.fileSize)

/-- Source: `c.cc`, `Getattr` -/
def getattr (tree : VtkTree) (path : Option CString) (statbuf : StatBuf) :
    Exec (ℤ × StatBuf) := do
  let (r, parent, name) ← resolvePath tree.root path (some tree.root) []
  if r = 0 then getattrAt parent name tree.baseStatbuf else .ok (r, statbuf)

/-! ## Directories -/

/-- The loop over the iterator: `filler` is given each value and what it returns is not looked at.
Source: `c.cc`, `Readdir` -/
def fillNames (rest : List Bytes) (buf : List Bytes) : List Bytes :=
  match rest with
  | [] => buf
  | key :: rest => fillNames rest (buf ++ [cStr key])

/-- Source: `c.cc`, `Readdir` for a directory -/
def readdirOf (dir : Option DirPtr) (buf : List Bytes) : Exec (ℤ × List Bytes) := do
  let ptr ← deref dir
  .ok (0, fillNames ptr.dir.newIter.seekToFirst.rest buf)

/-- Source: `c.cc`, `Readdir` for a parent and a name -/
def readdirAt (parent : Option DirPtr) (name : Bytes) (buf : List Bytes) :
    Exec (ℤ × List Bytes) :=
  if name = [] then readdirOf parent buf
  else do
    match ← lookup parent name with
    | .dir => do
        let ptr ← deref parent
        let dir ← ptr.getDir name
        readdirOf dir buf
    | .file => .ok (-eNOTDIR, buf)
    | .notFound => .ok (-eNOENT, buf)

/-- Source: `c.cc`, `Readdir` -/
def readdir (tree : VtkTree) (path : Option CString) (buf : List Bytes) :
    Exec (ℤ × List Bytes) := do
  let (r, parent, name) ← resolvePath tree.root path (some tree.root) []
  if r = 0 then readdirAt parent name buf else .ok (r, buf)

/-! ## Files -/

/-- Source: `c.cc`, `Open` for a parent and a name -/
def openAt (parent : Option DirPtr) (name : Bytes) (fh : Option FilePtr) :
    Exec (ℤ × Option FilePtr) :=
  if name = [] then .ok (-eISDIR, fh)
  else do
    match ← lookup parent name with
    | .dir => .ok (-eISDIR, fh)
    | .file => do
        let ptr ← deref parent
        let file ← ptr.openFile name
        .ok (0, file)
    | .notFound => .ok (-eNOENT, fh)

/-- `fh` is the file handle of the caller before and after.
Source: `c.cc`, `Open` -/
def openFile (tree : VtkTree) (path : Option CString) (fh : Option FilePtr) :
    Exec (ℤ × Option FilePtr) := do
  let (r, parent, name) ← resolvePath tree.root path (some tree.root) []
  if r = 0 then openAt parent name fh else .ok (r, fh)

/-- What `Read` makes of the result of `Pread`, which it cuts to an `int`.
Source: `c.cc`, `Read` -/
def readResult (x : Option Bytes) : ℤ :=
  let nr : ℤ :=
    match x with
    | some d => toI32 d.length
    | none => -1
  if nr = -1 then - eIO else nr

/-- `Read` of an open file returns `nr`, with `x` the bytes that `Pread` wrote.
Source: `c.cc`, `Read` -/
def ReadReturns {σ : Type} (dec : Decoder) (base : RandomAccessFile σ) (fh : FilePtr)
    (size offset : ℕ) (s : σ) (nr : ℤ) (x : Option Bytes) (s' : σ) : Prop :=
  fh.file.Returns dec base size offset s x s' ∧ nr = readResult x

end VirParquet.Model
