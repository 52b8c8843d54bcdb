import VirParquet.Verify.Load
import VirParquet.Verify.SessionRuns

/-!
# Whatever the VTK file says

Nothing compares what the headers of the arrays say with the bytes that the VTK file has, and
whoever may write to the file may change these at any time. Still a file that was parsed is safe to
serve: each map in its tree is one that `BuildMap` returned (`served_of_isLoadedTree`), so its
vectors fit together, whatever it maps. `accepted_session_safe` is about all runs of all sessions
over accepted files: they do not crash, and a read that returns has failed or has as many bytes as
the file has there.
-/

namespace VirParquet.Verify

open VirParquet.Found VirParquet.Found.Thrift VirParquet.Found.Base64 VirParquet.Model
  VirParquet.Spec VirParquet.Spec.Path

section loaded

variable {E σ : Type} {thrift : Protocol} {heap : Heap} {dec : Decoder} {storage : Storage σ}
  {xml : VtkXml E} {metadata : List (XmlName × CString)} {sections : List (CString × Arrays E)}
  {subdirs : StringMap SubDir} {statbuf : StatBuf}

/-- `ParseAppendedArray` returns what `BuildMap` does. -/
theorem built_of_parseAppendedArray {base : RandomAccessFile σ} {name : Bytes} {type : DataType}
    {codec : CompressionType} {enc : EncodingType} {headerType : DataType} {offset : ℕ} {s s' : σ}
    {m : FileMap} (h : parseAppendedArray thrift heap dec base name type codec enc headerType offset
      s = .ok (m, s')) : Built thrift m := by
  rw [parseAppendedArray] at h
  split at h
  · obtain ⟨⟨arr, s₁⟩, -, h⟩ := Exec.of_bind_eq_ok h
    obtain ⟨m', hbuild, h⟩ := Exec.of_bind_eq_ok h
    obtain ⟨rfl, -⟩ := Prod.mk.inj (Except.ok.inj h)
    exact ⟨name, type, _, Or.inr ⟨_, hbuild⟩⟩
  · obtain ⟨⟨arr, s₁⟩, hheader, h⟩ := Exec.of_bind_eq_ok h
    obtain ⟨m', hbuild, h⟩ := Exec.of_bind_eq_ok h
    obtain ⟨rfl, -⟩ := Prod.mk.inj (Except.ok.inj h)
    obtain ⟨hlen, hlt⟩ := length_compressedBlkSz hheader
    refine ⟨name, type, _, Or.inl ⟨codec, _, ?_, ?_, hbuild⟩⟩
    · exact hlen
    · exact hlt

/-- The files of a tree that was parsed are served, whatever they map. -/
theorem served_of_isLoadedTree
    (h : IsLoadedTree thrift heap dec storage xml metadata sections subdirs) {path : CString}
    {ptr : FilePtr} (hptr : resolve (.new subdirs statbuf) (some path) = .ok (.file ptr)) :
    Served ptr.file := by
  obtain ⟨dir, sub, name, -, hsub, hchild⟩ := walk_eq_file (walk_of_resolve hptr).2
  rcases file_of_child h hsub hchild with ⟨-, value, -, hfile⟩ |
    ⟨_, -, _, -, m, -, -, hfile, _, _, _, _, -, hparse⟩
  · rw [hfile]
    trivial
  · rw [hfile]
    exact ⟨thrift, built_of_parseAppendedArray hparse⟩

end loaded

/-- **No session over an accepted file crashes, whatever the file holds.** For every VTK file that
the parser accepts, over a base that never returns more than it is asked for: no run of a session
mounted on the tree comes to a crash, and each read that returns says that it has failed, or returns
as many bytes as the file that its path leads to has there. Below `2 ^ 63` the size of this file is
the one that `Getattr` reports. -/
theorem accepted_session_safe {E σ T : Type} [DecidableEq T] [Fintype T] (thrift : Protocol)
    (heap : Heap) (dec : Decoder) (input : VtkInput E σ) (fname : CString) (s s' : σ)
    (tree : VtkTree) (h : parseVtkFile thrift heap dec input fname s = .ok (tree, s'))
    (base : RandomAccessFile σ) (hbase : Bounded base) (b : σ)
    (hist : List (Event T σ × Reply)) (t : Session T σ)
    (hrun : Run (Session.step dec base) (Session.mount tree b) hist t) :
    Safe (Session.step dec base) t ∧
      ∀ e path size offset nr x, (e, .data path size offset nr x) ∈ hist →
        ∃ fh, LeadsTo tree (some path) (.file fh) ∧
          (fileSize fh.file < 2 ^ 63 → ∀ statbuf, ∃ statbuf',
            getattr tree (some path) statbuf = .ok (0, statbuf') ∧
              statbuf'.stSize = fileSize fh.file) ∧
          (x = none ∧ nr = - eIO ∨
            ∃ d, x = some d ∧ nr = readResult x ∧
              d.length = min size (fileSize fh.file - offset)) := by
  obtain ⟨_, _, _, subdirs, statbuf, -, -, -, rfl, hloaded⟩ := parseVtkFile_isLoadedTree h
  have hgood : FilesKeep dec base
      (fun file size offset x => ∀ d, x = some d → d.length = min size (fileSize file - offset))
      (.new subdirs statbuf) fun _ => True := fun path _ ptr hptr size offset hsize =>
    (served_of_isLoadedTree hloaded hptr).neverFails hbase hsize offset
  refine ⟨safe_of_filesKeep hgood hrun, fun e path size offset nr x hmem => ?_⟩
  obtain ⟨ptr, hptr, rfl, hlength⟩ := answers_of_run hgood hrun hmem trivial
  have hleads : LeadsTo (.new subdirs statbuf) (some path) (.file ptr) := leadsTo_of_resolve hptr
  refine ⟨ptr, hleads, fun hsize statbuf' => ⟨_, hleads.1 statbuf', toI64_of_lt hsize⟩, ?_⟩
  cases x with
  | none => exact Or.inl ⟨rfl, rfl⟩
  | some d => exact Or.inr ⟨d, rfl, rfl, hlength d rfl⟩

/-- The theorem at the file with one array, mounted over a base that has become empty, and a session
in which the attribute `Origin` is read. -/
theorem accepted_session_safe_x :
    ∃ (tree : VtkTree) (hist : List (Event (Fin 2) Unit × Reply)) (t : Session (Fin 2) Unit)
      (nr : ℤ) (x : Option Bytes) (fh : FilePtr),
      parseVtkFile compact zeroHeap standardDecoder (smallInput (cString "x" (by decide)))
        (cString "a.vti" (by decide)) () = .ok (tree, ()) ∧
      Run (Session.step standardDecoder (osFile [])) (Session.mount tree ()) hist t ∧
      Safe (Session.step standardDecoder (osFile [])) t ∧
      (.turn 0, .data (filePath metadataName (cString "Origin" (by decide))) 200 2 nr x) ∈ hist ∧
      LeadsTo tree (some (filePath metadataName (cString "Origin" (by decide)))) (.file fh) ∧
      (x = none ∧ nr = - eIO ∨
        ∃ d, x = some d ∧ nr = readResult x ∧ d.length = min 200 (fileSize fh.file - 2)) := by
  obtain ⟨⟨tree, ⟨⟩⟩, htree⟩ := exists_tree_smallInput (cString "x" (by decide)) (by decide)
  obtain ⟨kind, _, _, subdirs, statbuf, hkind, -, -, rfl, hloaded⟩ :=
    parseVtkFile_isLoadedTree htree
  rw [kindOf_small] at hkind
  obtain rfl := Option.some.inj hkind
  have hptr : resolve (.new subdirs statbuf)
      (some (filePath metadataName (cString "Origin" (by decide)))) =
        .ok (.file ⟨[metadataName.bytes, ascii "Origin"], .stringBuf (ascii "0 0 0")⟩) :=
    resolve_metadata hloaded ⟨cString "Origin" (by decide), by decide, by decide⟩
  obtain ⟨hist, t, t₁, r, hrun, hstep⟩ := exists_run_read standardDecoder (osFile []) () hptr
    (0 : Fin 2) 200 2 (by decide) (by decide)
  have hrunning := running_of_read (Q := fun _ _ _ _ => True) (sound_of_run hrun) hstep hptr
    fun hsize => (served_of_isLoadedTree hloaded hptr).endsWithin (osFile_preadLike []) hsize
      (by rintro m ⟨⟩)
  obtain ⟨hist', t₂, nr, x, hrun', hmem⟩ := hrunning.exists_run
  have hall := (hrun.snoc hstep).trans hrun'
  obtain ⟨hsafe, hreads⟩ := accepted_session_safe compact zeroHeap standardDecoder _ _ _ _ _ htree
    (osFile []) (bounded_of_preadLike (osFile_preadLike [])) () _ t₂ hall
  obtain ⟨fh, hleads, -, hdata⟩ := hreads _ _ 200 2 nr x (List.mem_append_right _ hmem)
  exact ⟨_, _, t₂, nr, x, fh, htree, hall, hsafe, List.mem_append_right _ hmem, hleads, hdata⟩

end VirParquet.Verify
