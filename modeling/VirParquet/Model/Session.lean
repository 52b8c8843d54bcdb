import Mathlib.Data.Fintype.Basic
import VirParquet.Found.Arena
import VirParquet.Found.Run
import VirParquet.Model.Parser

/-!
# The file system as it is served

The entry points of `c.cc` that `fuse_main.c` registers, run by the threads of one process between
mount and unmount. What they share is the tree behind `private_data`, the file objects that `Open`
makes with `new` and `Release` deletes, and the underlying file. The tree owns what its files refer
to: the maps, the strings and the underlying file. An access to an object that was deleted is a
crash, and so are a second deletion and every `Fault` of an operation, as exceptions are not caught.
Only `vtkInitTree`, which makes the tree, catches them.

`Session.step` is one event. The kernel issues the requests, and by its protocol it reads from,
flushes and releases only handles that `open` returned and that it has not released, it releases
a handle only when no read of it is running, and it unmounts only when no request is running. A read
takes as many events as the loop of `FileMap::Pread` has turns, with events of other threads in
between, and anybody may change the state of the underlying file at any time.
-/

namespace VirParquet.Model

open VirParquet.Found VirParquet.Found.Thrift VirParquet.Found.Base64

/-! ## Constants -/

@[inherit_doc eNOENT] def ePERM : ℤ := 1

/-- The access modes of POSIX. -/
def oACCMODE : ℕ := 0o3

@[inherit_doc oACCMODE] def oRDONLY : ℕ := 0o0

/-! ## The process -/

/-- Why the process dies: by an access to a deleted object, by a second deletion, or by what an
operation runs into. -/
inductive Crash
  | useAfterFree
  | doubleFree
  | fault (f : Fault)
  deriving DecidableEq, Repr

/-- An operation of which no exception is caught. -/
def ofExec {α : Type} : Exec α → Except Crash α
  | .ok x => .ok x
  | .error f => .error (.fault f)

/-- A composed operation goes on with the value returned. -/
theorem Crash.bind_of_eq_ok {α β : Type} {x : Except Crash α} {a : α} (h : x = .ok a)
    (f : α → Except Crash β) : x >>= f = f a := by
  rw [h]
  rfl

/-- The tree of a file, none after an exception, which is reported. Both callers then end the
program.
Source: `c.cc`, `vtk_init_tree_int`, `TEST_init_tree` -/
def vtkInitTree {E σ : Type} (thrift : Protocol) (heap : Heap) (dec : Decoder)
    (input : VtkInput E σ) (fname : CString) (s : σ) : Except Crash (Option (VtkTree × σ)) :=
  match parseVtkFile thrift heap dec input fname s with
  | .ok p => .ok (some p)
  | .error (.thrown _) => .ok none
  | .error f => .error (.fault f)

/-- What the threads share. -/
structure Daemon (σ : Type) where
  /-- The tree behind `private_data`, none once it is deleted. -/
  tree : Option VtkTree
  /-- The file objects. -/
  files : Arena FilePtr
  /-- The underlying file. -/
  base : σ

section loop

variable {σ : Type}

/-- The variables of the loop of `FileMap::Pread` without the underlying file. -/
def PreadState.own (st : PreadState σ) : PreadState Unit := { st with base := () }

/-- The variables of the loop of `FileMap::Pread` over the underlying file. -/
def PreadState.over (st : PreadState Unit) (s : σ) : PreadState σ := { st with base := s }

/-- One turn of the loop of `FileMap::Pread` over an underlying file that others use too.
Source: `fmap.cc`, `FileMap::Pread` -/
def FileMap.sharedTurn (m : FileMap) (dec : Decoder) (base : RandomAccessFile σ)
    (st : PreadState Unit) (s : σ) : Exec ((PreadState Unit ⊕ Option Bytes) × σ) :=
  match m.preadTurn dec base (st.over s) with
  | .error e => .error e
  | .ok (.inl st') => .ok (.inl st'.own, st'.base)
  | .ok (.inr (x, s')) => .ok (.inr x, s')

/-- `Pread` of a file up to its loop, if it has one.
Source: `vfs.cc`, `StringBufFile::Pread`, `VirtualFile::Pread` -/
def VfsFile.preadStart (size offset : ℕ) : VfsFile → PreadState Unit
  | .stringBuf _ => ⟨offset, size, 0, [], ()⟩
  | .virtual map => map.preadStart size offset ()

/-- `Pread` of a file goes on by a turn of its loop or returns. A string is copied at once.
Source: `vfs.cc`, `StringBufFile::Pread`, `VirtualFile::Pread` -/
def VfsFile.preadTurn (dec : Decoder) (base : RandomAccessFile σ) (size offset : ℕ)
    (loop : PreadState Unit) (s : σ) : VfsFile → Exec ((PreadState Unit ⊕ Option Bytes) × σ)
  | .stringBuf strbuf => .ok (.inr (some (stringBufPread strbuf size offset)), s)
  | .virtual map => map.sharedTurn dec base loop s

end loop

/-- A call of `vtk_read` that is running, and how far it is. -/
structure Call where
  fh : ℕ
  path : CString
  size : ℕ
  offset : ℕ
  loop : PreadState Unit

/-! ## The entry points -/

section entry

variable {σ : Type} (dec : Decoder) (base : RandomAccessFile σ) (d : Daemon σ)

/-- The tree behind `private_data`. -/
def Daemon.privateData : Except Crash VtkTree :=
  match d.tree with
  | some tree => .ok tree
  | none => .error .useAfterFree

/-- The file object behind a handle. -/
def Daemon.file (fh : ℕ) : Except Crash FilePtr :=
  if fh = 0 then .error (.fault .nullDeref)
  else
    match d.files.find fh with
    | some file => .ok file
    | none => .error .useAfterFree

/-- Source: `c.cc`, `vtk_getattr` -/
def vtkGetattr (path : CString) (statbuf : StatBuf) : Except Crash (ℤ × StatBuf) := do
  let tree ← d.privateData
  ofExec (getattr tree (some path) statbuf)

/-- Source: `c.cc`, `vtk_readdir` -/
def vtkReaddir (path : CString) (buf : List Bytes) : Except Crash (ℤ × List Bytes) := do
  let tree ← d.privateData
  ofExec (readdir tree (some path) buf)

/-- `fh` is what stands in `fi->fh` before, and `addr` is where the allocator puts a new file
object.
Source: `c.cc`, `vtk_open`, `TEST_open` -/
def vtkOpen (path : CString) (flags addr fh : ℕ) : Except Crash (Daemon σ × ℤ × ℕ) :=
  if flags &&& oACCMODE ≠ oRDONLY then .ok (d, -ePERM, fh)
  else do
    let tree ← d.privateData
    let (r, file) ← ofExec (openFile tree (some path) none)
    if r = 0 then
      match file with
      | some file => .ok ({ d with files := d.files.alloc addr file }, r, addr)
      | none => .ok (d, r, 0)
    else .ok (d, r, fh)

/-- `vtk_read` up to the loop of `Pread`. A file refers to what the tree owns.
Source: `c.cc`, `vtk_read`, `TEST_read` -/
def vtkReadStart (fh size offset : ℕ) : Except Crash (PreadState Unit) := do
  let file ← d.file fh
  let _ ← d.privateData
  .ok (file.file.preadStart size offset)

/-- `vtk_read` goes on by a turn of the loop of `Pread`, or comes to its end.
Source: `c.cc`, `vtk_read`, `TEST_read` -/
def vtkReadTurn (call : Call) : Except Crash ((PreadState Unit ⊕ Option Bytes) × σ) := do
  let file ← d.file call.fh
  let _ ← d.privateData
  ofExec (file.file.preadTurn dec base call.size call.offset call.loop d.base)

/-- Source: `c.cc`, `vtk_flush` -/
def vtkFlush : ℤ := 0

/-- Deleting a null pointer does nothing.
Source: `c.cc`, `vtk_release`, `TEST_close`, `Release` -/
def vtkRelease (fh : ℕ) : Except Crash (Daemon σ × ℤ) :=
  if fh = 0 then .ok (d, 0)
  else
    match d.files.find fh with
    | some _ => .ok ({ d with files := d.files.free fh }, 0)
    | none => .error .doubleFree

/-- The tree deletes what it owns, the underlying file too.
Source: `c.cc`, `vtk_destroy_tree`, `TEST_destroy_tree`; `vfs.cc`, `VtkTree::~VtkTree` -/
def vtkDestroyTree : Except Crash (Daemon σ) :=
  match d.tree with
  | some _ => .ok { d with tree := none }
  | none => .error .doubleFree

end entry

/-! ## Sessions -/

/-- What can happen. Requests come with what the caller and the allocator chose. -/
inductive Event (T σ : Type)
  | getattr (path : CString) (statbuf : StatBuf)
  | readdir (path : CString)
  | openFile (path : CString) (flags addr : ℕ)
  /-- A thread begins to serve a read. -/
  | read (t : T) (fh : ℕ) (path : CString) (size offset : ℕ)
  /-- A thread that serves a read goes on by a turn. -/
  | turn (t : T)
  | flush (fh : ℕ)
  | release (fh : ℕ)
  | destroy
  /-- Somebody else uses the underlying file. -/
  | disturb (s : σ)

/-- What is answered. -/
inductive Reply
  | attr (r : ℤ) (statbuf : StatBuf)
  | names (r : ℤ) (names : List Bytes)
  | opened (r : ℤ) (fh : ℕ)
  /-- The read goes on. -/
  | pending
  /-- The read of `size` bytes at `offset` of a file opened as `path` returns `nr`, with `x` the
  bytes that `Pread` wrote. -/
  | data (path : CString) (size offset : ℕ) (nr : ℤ) (x : Option Bytes)
  | status (r : ℤ)
  | none

/-- A handle is released. -/
def Event.releases {T σ : Type} : Event T σ → Bool
  | .release _ => true
  | _ => false

/-- The thread goes on with what it reads. -/
def Event.turnOf {T σ : Type} [DecidableEq T] (t : T) : Event T σ → Bool
  | .turn t' => t' = t
  | _ => false

/-- A file was opened. -/
def Reply.opens : Reply → Bool
  | .opened r _ => r = 0
  | _ => false

/-- The process and what the kernel knows. -/
structure Session (T σ : Type) where
  daemon : Daemon σ
  /-- There is no unmount yet. -/
  mounted : Bool
  /-- The handles that are not released, with the paths they were opened for. -/
  handles : List (ℕ × CString)
  /-- What each thread reads. -/
  calls : T → Option Call

namespace Session

variable {T σ : Type} [DecidableEq T] [Fintype T] (dec : Decoder) (base : RandomAccessFile σ)

/-- The file system when it is mounted. -/
def mount (tree : VtkTree) (s : σ) : Session T σ where
  daemon := ⟨some tree, .empty, s⟩
  mounted := true
  handles := []
  calls _ := none

/-- No thread reads from the handle. -/
def Idle (s : Session T σ) (fh : ℕ) : Prop := ∀ t, ∀ call ∈ s.calls t, call.fh ≠ fh

instance (s : Session T σ) (fh : ℕ) : Decidable (s.Idle fh) := by
  unfold Idle
  infer_instance

/-- One event. The handle in `fi` is zero before a file is opened.
Source: `fuse_main.c`, `fs_oper` -/
def step : Machine (Session T σ) (Event T σ) Reply Crash := fun s event =>
  match event with
  | .getattr path statbuf =>
      if s.mounted then some do
        let (r, statbuf) ← vtkGetattr s.daemon path statbuf
        .ok (s, .attr r statbuf)
      else none
  | .readdir path =>
      if s.mounted then some do
        let (r, names) ← vtkReaddir s.daemon path []
        .ok (s, .names r names)
      else none
  | .openFile path flags addr =>
      -- The allocator returns an address that is not in use.
      if s.mounted ∧ addr ≠ 0 ∧ (s.daemon.files.find addr).isNone then some do
        let (d, r, fh) ← vtkOpen s.daemon path flags addr 0
        .ok ({ s with
          daemon := d
          handles := if r = 0 then (fh, path) :: s.handles else s.handles }, .opened r fh)
      else none
  | .read t fh path size offset =>
      if s.mounted ∧ (fh, path) ∈ s.handles ∧ (s.calls t).isNone ∧ size < 2 ^ 64 ∧
          offset < 2 ^ 63 then some do
        let loop ← vtkReadStart s.daemon fh size offset
        .ok ({ s with
          calls := Function.update s.calls t (some ⟨fh, path, size, offset, loop⟩) }, .pending)
      else none
  | .turn t =>
      match s.calls t with
      | some call => some do
          let (next, base) ← vtkReadTurn dec base s.daemon call
          let s := { s with daemon := { s.daemon with base := base } }
          match next with
          | .inl loop =>
              .ok ({ s with
                calls := Function.update s.calls t (some { call with loop := loop }) }, .pending)
          | .inr x =>
              .ok ({ s with calls := Function.update s.calls t none },
                .data call.path call.size call.offset (readResult x) x)
      | none => none
  | .flush fh =>
      if s.mounted ∧ fh ∈ s.handles.map Prod.fst then some (.ok (s, .status vtkFlush)) else none
  | .release fh =>
      if s.mounted ∧ fh ∈ s.handles.map Prod.fst ∧ s.Idle fh then some do
        let (d, r) ← vtkRelease s.daemon fh
        .ok ({ s with
          daemon := d
          handles := s.handles.filter fun handle => handle.1 ≠ fh }, .status r)
      else none
  | .destroy =>
      if s.mounted ∧ ∀ t, (s.calls t).isNone then some do
        let d ← vtkDestroyTree s.daemon
        .ok ({ s with daemon := d, mounted := false }, .none)
      else none
  | .disturb base => some (.ok ({ s with daemon := { s.daemon with base := base } }, .none))

end Session

end VirParquet.Model
