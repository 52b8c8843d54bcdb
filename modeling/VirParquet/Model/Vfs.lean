import VirParquet.Model.FileMap
import Mathlib.Data.List.AList
import Mathlib.Data.List.TakeWhile

/-!
# The virtual tree

`vfs.h` and `vfs.cc`: the three kinds of directories, the two kinds of files, and the iterator over
the names in a directory. The tree is read-only, so a pointer into it is modelled by the object and
its place: the names that lead to it from the root. Two pointers with different places point to
different objects, whatever the objects hold.

All strings that become names are made from C strings, so the names in a map have no zero byte
(`StringMap`). The virtual methods that can return a null pointer or throw do so here:
`Dir*` and `RandomAccessFile*` are options, and `at` of an absent key is a fault.
-/

namespace VirParquet.Model

open VirParquet.Found VirParquet.Found.Base64

/-! ## Strings and maps -/

/-- What a C string holds: no zero byte. -/
@[ext] structure CString where
  bytes : Bytes
  nulFree : 0 ∉ bytes
  deriving DecidableEq

/-- The bytes up to the first zero byte, which is what is seen of a string through `c_str`. -/
def cStr (s : Bytes) : Bytes := s.takeWhile (· ≠ 0)

/-- A string without a zero byte is seen as it is. -/
theorem cStr_of_nulFree {s : Bytes} (h : 0 ∉ s) : cStr s = s :=
  List.takeWhile_eq_self_iff.mpr fun x hx => by
    simp only [ne_eq, decide_eq_true_eq]
    rintro rfl
    exact h hx

/-- A `std::unordered_map` whose keys were made from C strings, in the order of its iterator. -/
structure StringMap (α : Type) where
  entries : AList fun _ : Bytes => α
  /-- No key has a zero byte. -/
  nulFree : ∀ key ∈ entries, 0 ∉ key

namespace StringMap

variable {α : Type}

/-- The keys in the order of the iterator. -/
def keys (m : StringMap α) : List Bytes := m.entries.keys

/-- `find`. -/
def find (m : StringMap α) (name : Bytes) : Option α := m.entries.lookup name

/-- `at`, which throws if there is no such key. -/
def atKey (m : StringMap α) (name : Bytes) : Exec α :=
  match m.find name with
  | some x => .ok x
  | none => .error (.thrown "std::out_of_range")

/-- A map without keys. -/
def empty : StringMap α := ⟨∅, fun _ h => absurd h (AList.notMem_empty _)⟩

/-- `operator[]` and an assignment: the value of a key is added or replaced. -/
def assign (m : StringMap α) (key : CString) (x : α) : StringMap α where
  entries := m.entries.insert key.bytes x
  nulFree k hk := by
    rcases (AList.mem_insert _).mp hk with rfl | hk
    · exact key.nulFree
    · exact m.nulFree k hk

/-- `emplace`, which leaves the value of a key that is there. -/
def emplace (m : StringMap α) (key : CString) (x : α) : StringMap α :=
  match m.find key.bytes with
  | some _ => m
  | none => m.assign key x

/-- The keys and values in the order of the iterator. -/
def items (m : StringMap α) : List (CString × α) :=
  m.entries.entries.attach.map fun entry =>
    (⟨entry.1.1, m.nulFree entry.1.1 (AList.mem_keys.mpr (List.mem_map_of_mem entry.2))⟩, entry.1.2)

/-- A key is found exactly if it is one of the keys. -/
theorem find_isSome_iff {m : StringMap α} {name : Bytes} :
    (m.find name).isSome ↔ name ∈ m.keys :=
  AList.lookup_isSome.trans AList.mem_keys

/-- Access to a key that is there returns its value. -/
theorem atKey_of_find {m : StringMap α} {name : Bytes} {x : α} (h : m.find name = some x) :
    m.atKey name = .ok x := by
  rw [atKey, h]

/-- A key whose value was accessed is there. -/
theorem find_of_atKey {m : StringMap α} {name : Bytes} {x : α} (h : m.atKey name = .ok x) :
    m.find name = some x := by
  rw [atKey] at h
  rcases hfind : m.find name with _ | y
  · rw [hfind] at h
    cases h
  · rw [hfind] at h
    rw [Except.ok.inj h]

/-- The keys of a map without keys. -/
theorem notMem_keys_empty (name : Bytes) : name ∉ (empty : StringMap α).keys := List.not_mem_nil

/-- Nothing is found in a map without keys. -/
@[simp] theorem find_empty (name : Bytes) : (empty : StringMap α).find name = none := rfl

/-- A key that was assigned has this value. -/
@[simp] theorem find_assign_self (m : StringMap α) (key : CString) (x : α) :
    (m.assign key x).find key.bytes = some x := AList.lookup_insert _

/-- An assignment keeps the values of other keys. -/
theorem find_assign_of_ne (m : StringMap α) {key : CString} {name : Bytes} (h : name ≠ key.bytes)
    (x : α) : (m.assign key x).find name = m.find name := AList.lookup_insert_ne h

/-- The keys of a map after an assignment. -/
theorem mem_keys_assign {m : StringMap α} {key : CString} {x : α} {name : Bytes} :
    name ∈ (m.assign key x).keys ↔ name = key.bytes ∨ name ∈ m.keys :=
  AList.mem_keys.symm.trans ((AList.mem_insert _).trans (or_congr Iff.rfl AList.mem_keys))

/-- The keys of a map that a key was added to. -/
theorem mem_keys_emplace {m : StringMap α} {key : CString} {x : α} {name : Bytes} :
    name ∈ (m.emplace key x).keys ↔ name = key.bytes ∨ name ∈ m.keys := by
  unfold emplace
  split
  next y hy =>
    have hmem := find_isSome_iff.mp (Option.isSome_of_eq_some hy)
    exact ⟨Or.inr, fun h => h.elim (fun h => h ▸ hmem) id⟩
  next => exact mem_keys_assign

/-- A key that was not there has the value that was added. -/
theorem find_emplace_self {m : StringMap α} {key : CString} (h : key.bytes ∉ m.keys) (x : α) :
    (m.emplace key x).find key.bytes = some x := by
  have hfind : m.find key.bytes = none :=
    Option.not_isSome_iff_eq_none.mp fun hsome => h (find_isSome_iff.mp hsome)
  rw [emplace, hfind]
  exact AList.lookup_insert _

/-- A key that was there keeps its value. -/
theorem find_emplace_of_find {m : StringMap α} {name : Bytes} {y : α} (h : m.find name = some y)
    (key : CString) (x : α) : (m.emplace key x).find name = some y := by
  unfold emplace
  split
  next => exact h
  next hnone =>
    have hname : name ≠ key.bytes := by
      rintro rfl
      rw [h] at hnone
      cases hnone
    exact (AList.lookup_insert_ne hname).trans h

/-- The keys that come with values are the keys. -/
theorem mem_keys_iff_items {m : StringMap α} {name : Bytes} :
    name ∈ m.keys ↔ ∃ item ∈ m.items, name = item.1.bytes := by
  constructor
  · intro h
    obtain ⟨entry, hentry, rfl⟩ := List.mem_map.mp h
    exact ⟨_, List.mem_map_of_mem (List.mem_attach _ ⟨entry, hentry⟩), rfl⟩
  · rintro ⟨item, hitem, rfl⟩
    obtain ⟨entry, -, rfl⟩ := List.mem_map.mp hitem
    exact List.mem_map_of_mem entry.2

/-- The keys that come with values are different. -/
theorem nodup_items (m : StringMap α) : (m.items.map fun item => item.1.bytes).Nodup := by
  have hmap : (m.items.map fun item => item.1.bytes) = m.keys := by
    rw [items, List.map_map]
    exact List.attach_map_val (f := fun entry : (_ : Bytes) × α => entry.1)
  rw [hmap]
  exact AList.keys_nodup m.entries

/-- A key comes with its value. -/
theorem find_of_mem_items {m : StringMap α} {item : CString × α} (h : item ∈ m.items) :
    m.find item.1.bytes = some item.2 := by
  obtain ⟨entry, -, rfl⟩ := List.mem_map.mp h
  exact AList.mem_lookup_iff.mpr entry.2

end StringMap

/-! ## Files -/

/-- What `stat` says of a file.
Source: `vfs.h`, `FileStat` -/
structure FileStat where
  fileSize : ℕ
  isDir : Bool
  deriving DecidableEq, Repr

/-- The two kinds of files.
Source: `vfs.cc`, `StringBufFile`, `VirtualFile` -/
inductive VfsFile
  | stringBuf (strbuf : Bytes)
  | virtual (map : FileMap)

/-- A `RandomAccessFile*` that `Open` made: the file and its place in the tree. -/
structure FilePtr where
  place : List Bytes
  file : VfsFile

/-- Source: `vfs.cc`, `StringBufFile::Pread` -/
def stringBufPread (strbuf : Bytes) (size offset : ℕ) : Bytes :=
  if offset < strbuf.length then slice strbuf offset (min (strbuf.length - offset) size) else []

/-- `Pread` of a file returns `x`.
Source: `vfs.cc`, `StringBufFile::Pread`, `VirtualFile::Pread` -/
def VfsFile.Returns {σ : Type} (dec : Decoder) (base : RandomAccessFile σ) (size offset : ℕ)
    (s : σ) (x : Option Bytes) (s' : σ) : VfsFile → Prop
  | .stringBuf strbuf => x = some (stringBufPread strbuf size offset) ∧ s' = s
  | .virtual map => map.Returns dec base size offset s x s'

/-! ## Directories -/

/-- Source: `vfs.h`, `MetadataDir` -/
structure MetadataDir where
  map : StringMap Bytes

/-- Source: `vfs.h`, `ArrayDir` -/
structure ArrayDir where
  arrMaps : StringMap FileMap

/-- The directories below the root. -/
inductive SubDir
  | metadata (dir : MetadataDir)
  | array (dir : ArrayDir)

/-- The time stamps of a `struct stat`. -/
structure Timespec where
  sec : ℤ
  nsec : ℤ
  deriving DecidableEq, Repr

/-- Source: `struct stat` of POSIX -/
structure StatBuf where
  stDev : ℕ
  stIno : ℕ
  stMode : ℕ
  stNlink : ℕ
  stUid : ℕ
  stGid : ℕ
  stRdev : ℕ
  stSize : ℤ
  stBlksize : ℤ
  stBlocks : ℤ
  stAtim : Timespec
  stMtim : Timespec
  stCtim : Timespec
  deriving DecidableEq, Repr

/-- The read permissions of owner, group and others. -/
def sIRUSR : ℕ := 0o400

@[inherit_doc sIRUSR] def sIRGRP : ℕ := 0o040

@[inherit_doc sIRUSR] def sIROTH : ℕ := 0o004

/-- The attributes of the VTK file that files of the tree have too.
Source: `vfs.cc`, `SanitizedStat` -/
def sanitizedStat (input : StatBuf) : StatBuf where
  stDev := input.stDev
  stIno := 0
  stMode := input.stMode &&& (sIRUSR ||| sIRGRP ||| sIROTH)
  stNlink := 0
  stUid := input.stUid
  stGid := input.stGid
  stRdev := input.stRdev
  stSize := 0
  stBlksize := 0
  stBlocks := 0
  stAtim := input.stAtim
  stMtim := input.stMtim
  stCtim := input.stCtim

/-- Source: `vfs.h`, `VtkTree` -/
structure VtkTree where
  subdirs : StringMap SubDir
  baseStatbuf : StatBuf

/-- Source: `vfs.cc`, `VtkTree::VtkTree` -/
def VtkTree.new (subdirs : StringMap SubDir) (statbuf : StatBuf) : VtkTree :=
  ⟨subdirs, sanitizedStat statbuf⟩

/-- The three classes of directories.
Source: `vfs.h`, `Dir` -/
inductive Dir
  | tree (dir : VtkTree)
  | metadata (dir : MetadataDir)
  | array (dir : ArrayDir)

/-- A directory below the root as a directory. -/
def SubDir.toDir : SubDir → Dir
  | .metadata dir => .metadata dir
  | .array dir => .array dir

/-- A `Dir*` that is not null: the directory and its place in the tree. -/
structure DirPtr where
  place : List Bytes
  dir : Dir

/-- The root of a tree. -/
def VtkTree.root (tree : VtkTree) : DirPtr := ⟨[], .tree tree⟩

/-- Source: `vfs.cc`, `Stat` of the three classes -/
def Dir.stat (name : Bytes) : Dir → Exec (Option FileStat)
  | .tree dir => .ok ((dir.subdirs.find name).map fun _ => ⟨0, true⟩)
  | .metadata dir => .ok ((dir.map.find name).map fun value => ⟨value.length, false⟩)
  | .array dir =>
      match dir.arrMaps.find name with
      | some map => do
          let fileSize ← map.fileSize
          .ok (some ⟨fileSize, false⟩)
      | none => .ok none

/-- Source: `vfs.cc`, `GetDir` of the three classes -/
def DirPtr.getDir (ptr : DirPtr) (name : Bytes) : Exec (Option DirPtr) :=
  match ptr.dir with
  | .tree dir => do
      let subdir ← dir.subdirs.atKey name
      .ok (some ⟨ptr.place ++ [name], subdir.toDir⟩)
  | .metadata _ => .ok none
  | .array _ => .ok none

/-- Source: `vfs.cc`, `Open` of the three classes -/
def DirPtr.openFile (ptr : DirPtr) (name : Bytes) : Exec (Option FilePtr) :=
  match ptr.dir with
  | .tree _ => .ok none
  | .metadata dir => do
      let value ← dir.map.atKey name
      .ok (some ⟨ptr.place ++ [name], .stringBuf value⟩)
  | .array dir => do
      let map ← dir.arrMaps.atKey name
      .ok (some ⟨ptr.place ++ [name], .virtual map⟩)

/-- The keys of a directory in the order of its iterator. -/
def Dir.keys : Dir → List Bytes
  | .tree dir => dir.subdirs.keys
  | .metadata dir => dir.map.keys
  | .array dir => dir.arrMaps.keys

/-! ## The iterator -/

/-- The iterator over the keys of a directory. `rest` are the keys from its position on, none at
the end.
Source: `vfs.cc`, `KeyIter` -/
structure KeyIter where
  keys : List Bytes
  rest : List Bytes

/-- Source: `vfs.cc`, `KeyIter::KeyIter`, `NewIter` of the three classes -/
def Dir.newIter (dir : Dir) : KeyIter := ⟨dir.keys, []⟩

/-- Source: `vfs.cc`, `KeyIter::SeekToFirst` -/
def KeyIter.seekToFirst (it : KeyIter) : KeyIter := { it with rest := it.keys }

end VirParquet.Model
