import VirParquet.Model.Fuse

/-!
# What a path means

A path is split at its separators, and empty components are dropped. `Path.resolve` looks up the
components from the root in turn: what is missing and what is a file in the middle of the path are
errors, and what the last component names is the object of the path. The three operations are
classifications of it.
-/

namespace VirParquet.Spec.Path

open VirParquet.Found VirParquet.Model

/-- The components of a path. -/
def components (path : Bytes) : List Bytes := (path.splitOn separator).filter (· ≠ [])

/-- An object of the tree. -/
inductive Node
  | dir (ptr : DirPtr)
  | file (ptr : FilePtr)

/-- The object that a directory has under a name. -/
def child (ptr : DirPtr) (name : Bytes) : Option Node :=
  match ptr.dir with
  | .tree dir => (dir.subdirs.find name).map fun sub => .dir ⟨ptr.place ++ [name], sub.toDir⟩
  | .metadata dir =>
      (dir.map.find name).map fun value => .file ⟨ptr.place ++ [name], .stringBuf value⟩
  | .array dir =>
      (dir.arrMaps.find name).map fun map => .file ⟨ptr.place ++ [name], .virtual map⟩

/-- The object behind a list of components, or an error number. -/
def walk (ptr : DirPtr) : List Bytes → Except ℤ Node
  | [] => .ok (.dir ptr)
  | [name] =>
      match child ptr name with
      | some node => .ok node
      | none => .error eNOENT
  | name :: names =>
      match child ptr name with
      | some (.dir next) => walk next names
      | some (.file _) => .error eNOTDIR
      | none => .error eNOENT

/-- The object of a path, or an error number. -/
def resolve (tree : VtkTree) (path : Option CString) : Except ℤ Node :=
  match path with
  | none => .error eINVAL
  | some path =>
      if path.bytes.head? = some separator then walk tree.root (components path.bytes)
      else .error eINVAL

/-- The size of a file. -/
def fileSize : VfsFile → ℕ
  | .stringBuf strbuf => strbuf.length
  | .virtual map => map.offsets.getLast map.offsets_ne

end VirParquet.Spec.Path
