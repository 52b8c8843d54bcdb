import VirParquet.Spec.Mounted
import VirParquet.Verify.Pipeline
import VirParquet.Verify.Refinement

/-!
# The mounted file system shows the VTK file

The image of the tree that is parsed from a VTK file is that of the VTK file (`isImageOf_imageOf`):
what each path leads to is said by the metadata, the sections and the elements of the arrays alone.
So a session that is mounted on the tree is, in every run, a file system that nobody writes to and
that shows this image (`loaded_session_refines`).
-/

namespace VirParquet.Verify

open VirParquet.Found VirParquet.Found.Thrift VirParquet.Found.Base64 VirParquet.Model
  VirParquet.Spec VirParquet.Spec.Path

/-- A file has the table of an array of a section, whose elements stand in the VTK file where its
attributes say. -/
def IsTableOf {E σ : Type} (thrift : Protocol) (heap : Heap)
    (decompress : CompressionCodec → Bytes → Option Bytes) (xml : VtkXml E) (storage : Storage σ)
    (bytes : Bytes) (arrays : Arrays E) (name : CString) (content : Bytes) : Prop :=
  ∃ type offset w A, Describes (arrays.attributes xml name.bytes) type offset ∧
    getValueSize type = .ok w ∧
    Stores heap decompress storage w (storage.place offset) bytes A ∧
    HoldsTable thrift decompress name.bytes type w A content

section names

variable {E σ : Type} {thrift : Protocol} {heap : Heap} {dec : Decoder} {storage : Storage σ}
  {xml : VtkXml E} {metadata : List (XmlName × CString)} {sections : List (CString × Arrays E)}
  {subdirs : StringMap SubDir} {statbuf : StatBuf} {dir name : Bytes} {sub : SubDir}

/-- The directories below the root are those of the tree. -/
theorem hasDir_iff (h : IsLoadedTree thrift heap dec storage xml metadata sections subdirs) :
    HasDir sections dir ↔ ∃ sub, subdirs.find dir = some sub := by
  constructor
  · rintro (rfl | ⟨sec, hsec, rfl⟩)
    · obtain ⟨dir, hdir, -⟩ := h.metadata
      exact ⟨_, hdir⟩
    · obtain ⟨dir, hdir, -⟩ := h.arrays sec hsec
      exact ⟨_, hdir⟩
  · rintro ⟨sub, hsub⟩
    rcases sub_of_find h hsub with ⟨-, rfl, -⟩ | ⟨sec, hsec, -, rfl, -⟩
    · exact Or.inl rfl
    · exact Or.inr ⟨sec, hsec, rfl⟩

/-- The files of a directory below the root are those in the tree. -/
theorem hasFile_iff (h : IsLoadedTree thrift heap dec storage xml metadata sections subdirs)
    (hsub : subdirs.find dir = some sub) (place : List Bytes) :
    HasFile metadata sections dir name ↔ ∃ node, child ⟨place, sub.toDir⟩ name = some node := by
  constructor
  · rintro (⟨rfl, value, hvalue⟩ | ⟨sec, hsec, rfl, arr, harr, rfl⟩)
    · obtain ⟨dir, hdir, hattrs⟩ := h.metadata
      obtain rfl := Option.some.inj (hsub.symm.trans hdir)
      have hfind : dir.map.find name = some value := (hattrs name).trans hvalue
      exact ⟨_, congrArg (Option.map _) hfind⟩
    · obtain ⟨dir, hdir, hholds⟩ := h.arrays sec hsec
      obtain rfl := Option.some.inj (hsub.symm.trans hdir)
      obtain ⟨m, hm, -⟩ := hholds.maps arr harr
      exact ⟨_, congrArg (Option.map _) hm⟩
  · rintro ⟨ptr | ptr, hchild⟩
    · exact absurd hchild (child_toDir_ne_dir place sub name ptr)
    · rcases file_of_child h hsub hchild with ⟨hdir, value, hvalue, -⟩ |
        ⟨sec, hsec, arr, harr, -, hdir, hname, -⟩
      · exact Or.inl ⟨hdir, value, hvalue⟩
      · exact Or.inr ⟨sec, hsec, hdir, arr, harr, hname⟩

/-- A listing of a directory lists the names that lead somewhere. -/
theorem lists_keys (ptr : DirPtr) {p : Bytes → Prop}
    (h : ∀ name, p name ↔ ∃ node, child ptr name = some node) : Lists ptr.dir.keys p :=
  ⟨(keys_spec ptr.dir).2, fun name => mem_keys_iff.trans (h name).symm⟩

end names

section image

variable {E σ : Type} {thrift : Protocol} {heap : Heap} {dec : Decoder}
  {decompress : CompressionCodec → Bytes → Option Bytes} {input : VtkInput E σ}
  {cls : VtkReaderClass} {root : E} {storage : Storage σ} {bytes : Bytes}
  {subdirs : StringMap SubDir} {statbuf : StatBuf} {metadata : List (XmlName × CString)}
  {sections : List (CString × Arrays E)} {table : Arrays E → CString → Bytes → Prop}
  {base64 : Bool}

/-- What the components of a path lead to is what the VTK file says, if the files hold this. -/
theorem leads_walk
    (h : IsLoadedTree thrift heap dec storage input.xml metadata sections subdirs)
    (hholds : ∀ dir sub name ptr, subdirs.find dir = some sub →
      child ⟨[dir], sub.toDir⟩ name = some (.file ptr) →
      Backed dec base64 bytes ptr.file ∧
        Holds metadata sections table dir name (contentOf dec base64 bytes ptr.file))
    (names : List Bytes) :
    Leads (sanitizedStat statbuf) metadata sections table names
      ((walk (VtkTree.new subdirs statbuf).root names).map (entryOf dec base64 bytes statbuf)) := by
  have hroot : ∀ dir, child (VtkTree.new subdirs statbuf).root dir =
      (subdirs.find dir).map fun sub => .dir ⟨[dir], sub.toDir⟩ := fun _ => rfl
  have hdirs : ∀ dir, HasDir sections dir ↔
      ∃ node, child (VtkTree.new subdirs statbuf).root dir = some node := by
    intro dir
    rw [hasDir_iff h, hroot, ← Option.isSome_iff_exists, ← Option.isSome_iff_exists,
      Option.isSome_map]
  rcases names with _ | ⟨dir, names⟩
  · exact .root (lists_keys (VtkTree.new subdirs statbuf).root hdirs)
  rcases hsub : subdirs.find dir with _ | sub
  · -- There is no such directory, whatever comes behind it.
    have hchild : child (VtkTree.new subdirs statbuf).root dir = none := by rw [hroot, hsub]; rfl
    have hwalk : walk (VtkTree.new subdirs statbuf).root (dir :: names) = .error eNOENT := by
      cases names with
      | nil => rw [walk, hchild]
      | cons name names => rw [walk_cons_cons, hchild]
    rw [hwalk]
    refine .noDir fun hdir => ?_
    obtain ⟨sub, hsome⟩ := (hasDir_iff h).mp hdir
    rw [hsub] at hsome
    cases hsome
  have hchild : child (VtkTree.new subdirs statbuf).root dir = some (.dir ⟨[dir], sub.toDir⟩) := by
    rw [hroot, hsub]
    rfl
  have hdir := (hasDir_iff h).mpr ⟨sub, hsub⟩
  rcases names with _ | ⟨name, names⟩
  · rw [walk_singleton.mpr hchild]
    exact .dir hdir (lists_keys ⟨[dir], sub.toDir⟩ fun name => hasFile_iff h hsub [dir])
  rw [walk_cons_cons, hchild]
  rcases hfile : child ⟨[dir], sub.toDir⟩ name with _ | (ptr | ptr)
  · have hwalk : walk ⟨[dir], sub.toDir⟩ (name :: names) = .error eNOENT := by
      cases names with
      | nil => rw [walk, hfile]
      | cons next names => rw [walk_cons_cons, hfile]
    dsimp only
    rw [hwalk]
    refine .noFile hdir fun hname => ?_
    obtain ⟨node, hsome⟩ := (hasFile_iff h hsub [dir]).mp hname
    rw [hfile] at hsome
    cases hsome
  · exact absurd hfile (child_toDir_ne_dir _ sub name ptr)
  · obtain ⟨hbacked, hcontent⟩ := hholds dir sub name ptr hsub hfile
    rcases names with _ | ⟨next, names⟩
    · dsimp only
      rw [walk_singleton.mpr hfile]
      have hlength := hbacked.length_contentOf
      show Leads _ _ _ _ _ (.ok (.file (StatBuf.toFile _ (fileSize ptr.file)) _))
      rw [← hlength]
      exact .file hcontent
    · dsimp only
      rw [walk_cons_cons, hfile]
      exact .inFile ((hasFile_iff h hsub [dir]).mpr ⟨_, hfile⟩) (List.cons_ne_nil _ _)

/-- The files of the tree can be read and hold what the VTK file says, if all arrays stand where
their attributes say. -/
theorem holds_of_child
    (h : IsLoadedTree thrift heap dec storage input.xml metadata sections subdirs)
    (hstorage : IsStorageOf input cls root storage) (hdec : dec.IsStandard)
    (hbase : CompleteReads storage.base bytes) (hbytes : bytes.length < 2 ^ 63)
    (hvalues : ∀ key value, lastValue metadata key = some value → value.length < 2 ^ 63)
    (hnames : ∀ sec ∈ sections, ∀ arr ∈ sec.2, arr.1.bytes.length < 2 ^ 64)
    (hstores : ∀ sec ∈ sections, ∀ arr ∈ sec.2, ∀ type offset,
      Describes (sec.2.attributes input.xml arr.1.bytes) type offset →
      ∃ w A, getValueSize type = .ok w ∧
        Stores heap decompress storage w (storage.place offset) bytes A)
    {place : List Bytes} {dir name : Bytes} {sub : SubDir} {ptr : FilePtr}
    (hsub : subdirs.find dir = some sub)
    (hchild : child ⟨place, sub.toDir⟩ name = some (.file ptr)) :
    Backed dec (storage.enc == .base64) bytes ptr.file ∧ fileSize ptr.file < 2 ^ 63 ∧
      Holds metadata sections (IsTableOf thrift heap decompress input.xml storage bytes) dir name
        (contentOf dec (storage.enc == .base64) bytes ptr.file) := by
  rcases file_of_child h hsub hchild with ⟨rfl, value, hvalue, hfile⟩ |
    ⟨sec, hsec, arr, harr, m, rfl, rfl, hfile, hm⟩
  · rw [hfile]
    exact ⟨hvalues name value hvalue, hvalues name value hvalue, .value hvalue⟩
  · rw [hfile]
    have hdescribed := hm
    obtain ⟨type, offset, -, -, hdescribes, -⟩ := hdescribed
    obtain ⟨w, A, hw, hstored⟩ := hstores sec hsec arr harr type offset hdescribes
    obtain ⟨hbacked, hsize, htable⟩ :=
      backed_of_isLoaded hstorage hdec hbase hbytes hm hdescribes hw hstored
    exact ⟨hbacked, hsize, .array hsec harr
      ⟨type, offset, w, A, hdescribes, hw, hstored, htable (hnames sec hsec arr harr)⟩⟩

/-- **The image of the tree is that of the VTK file**, if its files hold what the VTK file says. -/
theorem isImageOf_imageOf
    (h : IsLoadedTree thrift heap dec storage input.xml metadata sections subdirs)
    (hfiles : FilesShown dec base64 bytes subdirs statbuf)
    (hholds : ∀ dir sub name ptr, subdirs.find dir = some sub →
      child ⟨[dir], sub.toDir⟩ name = some (.file ptr) →
      Backed dec base64 bytes ptr.file ∧
        Holds metadata sections table dir name (contentOf dec base64 bytes ptr.file)) :
    IsImageOf (sanitizedStat statbuf) metadata sections table (imageOf hfiles) where
  absolute path hhead := by
    have hlook : (imageOf hfiles).look path =
        (walk (VtkTree.new subdirs statbuf).root (components path.bytes)).map
          (entryOf dec base64 bytes statbuf) := by
      show (resolve _ (some path)).map _ = _
      rw [resolve, if_pos hhead]
    rw [hlook]
    exact leads_walk h hholds _
  relative path hhead := look_imageOf_error hfiles (by rw [resolve, if_neg hhead])

end image

/-- **A session over a VTK file shows what it says.** For every file that the parser accepts, over a
base that reads it completely: if all arrays of the sections that are loaded stand where their
attributes say, then there is one image of a file system, which has the attributes of the metadata
with their last values and the arrays with their tables, at their paths and nowhere else, and in
every run of a session that is mounted on the tree all requests are answered as this image says, and
no read fails. -/
theorem loaded_session_refines {E σ T : Type} [DecidableEq T] [Fintype T] (thrift : Protocol)
    (heap : Heap) (dec : Decoder) (hdec : dec.IsStandard)
    (decompress : CompressionCodec → Bytes → Option Bytes) (input : VtkInput E σ) (fname : CString)
    (s s' : σ) (tree : VtkTree) (h : parseVtkFile thrift heap dec input fname s = .ok (tree, s'))
    (kind : MeshKind) (hkind : kindOf fname = some kind) (root : E) (storage : Storage σ)
    (hstorage : IsStorageOf input kind.cls root storage) (statbuf : StatBuf)
    (hstat : input.stat = some statbuf) (bytes : Bytes)
    (hbase : CompleteReads storage.base bytes) (hbytes : bytes.length < 2 ^ 63)
    (hvalues : ∀ key value,
      lastValue (kind.metadata input) key = some value → value.length < 2 ^ 63)
    (hnames : ∀ sec ∈ kind.arrays input, ∀ arr ∈ sec.2, arr.1.bytes.length < 2 ^ 64)
    (hstores : ∀ sec ∈ kind.arrays input, ∀ arr ∈ sec.2, ∀ type offset,
      Describes (sec.2.attributes input.xml arr.1.bytes) type offset →
      ∃ w A, getValueSize type = .ok w ∧
        Stores heap decompress storage w (storage.place offset) bytes A) :
    ∃ image, IsImageOf (sanitizedStat statbuf) (kind.metadata input) (kind.arrays input)
        (IsTableOf thrift heap decompress input.xml storage bytes) image ∧
      ∀ (b : σ) (hist : List (Event T σ × Reply)) (t : Session T σ),
        Run (Session.step dec storage.base) (Session.mount tree b) hist t →
        Trace (FsSpec image False) (FsState.mount T) hist (shown t) := by
  obtain ⟨kind', root', storage', subdirs, statbuf', hkind', hstorage', hstat', rfl, hloaded⟩ :=
    parseVtkFile_isLoadedTree h
  obtain rfl := Option.some.inj (hkind.symm.trans hkind')
  obtain rfl := storage_unique hstorage hstorage'
  obtain rfl := Option.some.inj (hstat.symm.trans hstat')
  have hholds : ∀ dir sub name ptr, subdirs.find dir = some sub →
      child ⟨[dir], sub.toDir⟩ name = some (.file ptr) → _ := fun dir sub name ptr hsub hchild =>
    holds_of_child hloaded hstorage hdec hbase hbytes hvalues hnames hstores hsub hchild
  have hfiles : FilesShown dec (storage.enc == .base64) bytes subdirs statbuf := by
    intro path ptr hptr
    obtain ⟨dir, sub, name, -, hsub, hchild⟩ := walk_eq_file (walk_of_resolve hptr).2
    obtain ⟨hbacked, hsize, -⟩ := hholds dir sub name ptr hsub hchild
    exact ⟨hbacked, hsize⟩
  refine ⟨imageOf hfiles, isImageOf_imageOf hloaded hfiles fun dir sub name ptr hsub hchild => ?_,
    fun b hist t hrun => ?_⟩
  · obtain ⟨hbacked, -, hcontent⟩ := hholds dir sub name ptr hsub hchild
    exact ⟨hbacked, hcontent⟩
  · have hnever := eq_false (not_fails_of_delivers (completeReads_delivers hbase true))
    rw [← hnever]
    exact trace_of_run (completeReads_reads hbase (storage.enc == .base64)) hbytes hfiles hrun

/-- The theorem at the file with one array. -/
theorem loaded_session_refines_x :
    ∃ tree statbuf image, parseVtkFile compact zeroHeap standardDecoder (smallInput smallName)
        (cString "a.vti" (by decide)) () = .ok (tree, ()) ∧
      IsImageOf (sanitizedStat statbuf)
        (MeshKind.metadata ⟨ascii "ImageData", .imageData, false, false⟩ (smallInput smallName))
        [(pointdataName, [(smallName, .array)]), (celldataName, [])]
        (IsTableOf compact zeroHeap (fun _ => inflateStored) (smallInput smallName).xml smallStorage
          [95, 4, 0, 0, 0, 1, 2, 3, 4]) image ∧
      ∀ (hist : List (Event (Fin 2) Unit × Reply)) (t : Session (Fin 2) Unit),
        Run (Session.step standardDecoder smallStorage.base) (Session.mount tree ()) hist t →
        Trace (FsSpec image False) (FsState.mount (Fin 2)) hist (shown t) := by
  obtain ⟨⟨tree, ⟨⟩⟩, htree⟩ := exists_tree_smallInput smallName (by decide)
  have hlength : ∀ sec ∈ MeshKind.arrays ⟨ascii "ImageData", .imageData, false, false⟩
      (smallInput smallName), ∀ arr ∈ sec.2, arr.1.bytes.length < 2 ^ 64 := by
    intro sec hsec arr harr
    obtain ⟨-, rfl⟩ := eq_of_mem_arrays_small hsec harr
    decide
  obtain ⟨image, himage, hruns⟩ := loaded_session_refines (T := Fin 2) compact zeroHeap
    standardDecoder standardDecoder_isStandard (fun _ => inflateStored) _ _ _ _ _ htree _
    kindOf_small _ smallStorage (isStorageOf_small _) _ rfl _
    (osFile_completeReads [95, 4, 0, 0, 0, 1, 2, 3, 4]) (by decide)
    (fun _ _ hvalue => length_lastValue_small hvalue) hlength
    (fun _ hsec _ harr _ _ hdescribes => stores_arrays_small hsec harr hdescribes)
  rw [arrays_small] at himage
  exact ⟨tree, _, image, htree, himage, hruns ()⟩

end VirParquet.Verify
