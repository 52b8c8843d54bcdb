import VirParquet.Spec.ReadOnly
import VirParquet.Verify.SessionRuns

/-!
# The mounted file system is one that nobody writes to

`imageOf` is the image of a tree whose files are all those of a VTK file: what its paths lead to,
and what the files hold. Each event of a session is allowed by `FsSpec` over this image
(`shows_step`), where all that is left of the session is the handles and what each thread
reads (`shown`). So the history of every run is one of a file system that nobody writes to
(`session_refines`), and its answers fit together (`session_coherent`).
-/

namespace VirParquet.Verify

open VirParquet.Found VirParquet.Found.Thrift VirParquet.Found.Base64 VirParquet.Model
  VirParquet.Spec VirParquet.Spec.Path

/-! ## The image of a tree -/

section image

/-- The mode of a directory lets nobody write. -/
theorem makeDirMode_and_writeBits (mode : ℕ) : makeDirMode mode &&& writeBits = 0 := by
  unfold makeDirMode
  split_ifs <;> decide

/-- The mode of a file lets nobody write. -/
theorem sanitizedStat_or_and_writeBits (statbuf : StatBuf) :
    ((sanitizedStat statbuf).stMode ||| sIFREG) &&& writeBits = 0 := by
  have hbits : (sIRUSR ||| sIRGRP ||| sIROTH) &&& writeBits = 0 := by decide
  have htype : sIFREG &&& writeBits = 0 := by decide
  rw [Nat.and_or_distrib_right, htype]
  show (statbuf.stMode &&& (sIRUSR ||| sIRGRP ||| sIROTH)) &&& writeBits ||| 0 = 0
  rw [Nat.and_assoc, hbits, Nat.and_zero, Nat.zero_or]

variable (dec : Decoder) (base64 : Bool) (bytes : Bytes) (subdirs : StringMap SubDir)
  (statbuf₀ : StatBuf)

/-- All files of a tree are those of a VTK file, and of sizes that `off_t` can say. -/
def FilesShown : Prop :=
  ∀ path ptr, resolve (.new subdirs statbuf₀) (some path) = .ok (.file ptr) →
    Backed dec base64 bytes ptr.file ∧ fileSize ptr.file < 2 ^ 63

/-- What there is of an object of a tree for its users. -/
def entryOf : Node → Entry
  | .dir ptr => .dir (sanitizedStat statbuf₀).toDir ptr.dir.keys
  | .file ptr => .file ((sanitizedStat statbuf₀).toFile (fileSize ptr.file))
      (contentOf dec base64 bytes ptr.file)

variable {dec base64 bytes subdirs statbuf₀}

/-- **The image of a tree.** -/
def imageOf (hfiles : FilesShown dec base64 bytes subdirs statbuf₀) : Image where
  look path := (resolve (.new subdirs statbuf₀) (some path)).map (entryOf dec base64 bytes statbuf₀)
  error_ne path e h := by
    rcases hnode : resolve (.new subdirs statbuf₀) (some path) with e' | node
    · rw [hnode] at h
      cases h
      exact ne_zero_of_resolve_eq_error hnode
    · rw [hnode] at h
      cases h
  readOnly path entry h := by
    rcases hnode : resolve (.new subdirs statbuf₀) (some path) with e | ptr | ptr
    · rw [hnode] at h
      cases h
    · rw [hnode] at h
      cases h
      exact makeDirMode_and_writeBits _
    · rw [hnode] at h
      cases h
      exact sanitizedStat_or_and_writeBits statbuf₀
  dir_mode path statbuf names h := by
    rcases hnode : resolve (.new subdirs statbuf₀) (some path) with e | ptr | ptr
    · rw [hnode] at h
      cases h
    · rw [hnode] at h
      cases h
      exact makeDirMode_and _
    · rw [hnode] at h
      cases h
  file_mode path statbuf content h := by
    rcases hnode : resolve (.new subdirs statbuf₀) (some path) with e | ptr | ptr
    · rw [hnode] at h
      cases h
    · rw [hnode] at h
      cases h
    · rw [hnode] at h
      cases h
      exact sanitizedStat_or_and statbuf₀
  file_size path statbuf content h := by
    rcases hnode : resolve (.new subdirs statbuf₀) (some path) with e | ptr | ptr
    · rw [hnode] at h
      cases h
    · rw [hnode] at h
      cases h
    · rw [hnode] at h
      cases h
      obtain ⟨hbacked, hlt⟩ := hfiles path ptr hnode
      rw [hbacked.length_contentOf]
      exact toI64_of_lt hlt
  mem_names_iff d e statbuf names h hplain := by
    rcases hnode : resolve (.new subdirs statbuf₀) (some d) with e' | ptr | ptr
    · rw [hnode] at h
      cases h
    · rw [hnode] at h
      cases h
      rw [resolve_join_of_isPlain hnode hplain, mem_keys_iff]
      constructor
      · rintro ⟨node, hchild⟩
        rw [walk_singleton.mpr hchild]
        exact ⟨_, rfl⟩
      · rintro ⟨entry, hentry⟩
        rcases hwalk : walk ptr [e.bytes] with e' | node
        · rw [hwalk] at hentry
          cases hentry
        · exact ⟨node, walk_singleton.mp hwalk⟩
    · rw [hnode] at h
      cases h

/-- Where a path leads in the image. -/
theorem look_imageOf (hfiles : FilesShown dec base64 bytes subdirs statbuf₀) {path : CString}
    {node : Node} (h : resolve (.new subdirs statbuf₀) (some path) = .ok node) :
    (imageOf hfiles).look path = .ok (entryOf dec base64 bytes statbuf₀ node) := by
  show (resolve (.new subdirs statbuf₀) (some path)).map _ = _
  rw [h]
  rfl

/-- Why a path leads nowhere in the image. -/
theorem look_imageOf_error (hfiles : FilesShown dec base64 bytes subdirs statbuf₀) {path : CString}
    {e : ℤ} (h : resolve (.new subdirs statbuf₀) (some path) = .error e) :
    (imageOf hfiles).look path = .error e := by
  show (resolve (.new subdirs statbuf₀) (some path)).map _ = _
  rw [h]
  rfl

end image

/-! ## Simulation -/

/-- What is asked by a read, without how far it is. -/
def requestOf (c : Call) : Request := ⟨c.fh, c.path, c.size, c.offset⟩

/-- What there is to know of a session for its users. -/
def shown {T σ : Type} (s : Session T σ) : FsState T where
  mounted := s.mounted
  handles := s.handles
  reads := Option.map requestOf ∘ s.calls

section simulation

variable {T σ : Type} [DecidableEq T] [Fintype T] {dec : Decoder} {base : RandomAccessFile σ}
  {base64 : Bool} {bytes : Bytes} {subdirs : StringMap SubDir} {statbuf₀ : StatBuf}
  {s s' : Session T σ} {e : Event T σ} {r : Reply}

omit [Fintype T] in
/-- What is shown of a session when a thread goes on. -/
theorem shown_update (s : Session T σ) (d : Daemon σ) (t : T) (x : Option Call) :
    shown { s with
      daemon := d
      calls := Function.update s.calls t x } =
      { shown s with reads := Function.update (shown s).reads t (x.map requestOf) } :=
  congrArg (FsState.mk s.mounted s.handles) (Function.comp_update _ _ _ _)

/-- Nothing is asked of a file system that is not mounted. -/
theorem mounted_of_asks {tree : VtkTree} (h : Sound tree s) (hasks : Asks e)
    (hstep : Session.step dec base s e = some (.ok (s', r))) : s.mounted = true := by
  by_contra hnot
  cases e with
  | disturb => exact hasks
  | turn t =>
      rcases hc : s.calls t with _ | c
      · simp only [Session.step, hc] at hstep
        cases hstep
      · exact hnot (h.call t c hc).1
  | _ => simp [Session.step, hnot] at hstep

omit [Fintype T] in
/-- What happens is answered over the image. -/
theorem fsStep_of_happens (hfiles : FilesShown dec base64 bytes subdirs statbuf₀)
    (hsound : Sound (.new subdirs statbuf₀) s)
    (htracked : Tracked dec base (AnswersContent dec base base64 bytes) (.new subdirs statbuf₀)
      (fun _ => True) s)
    (h : Happens dec base (.new subdirs statbuf₀) s e r s') :
    FsStep (imageOf hfiles) (Fails base bytes) (shown s) e r (shown s') := by
  cases h with
  | @getattr path st st' r hgetattr =>
      have heq := getattr_eq (.new subdirs statbuf₀) (some path) st
      rcases hnode : resolve (.new subdirs statbuf₀) (some path) with e | ptr | ptr
      · rw [hnode] at heq
        obtain ⟨st'', hst''⟩ := heq
        obtain ⟨rfl, rfl⟩ := Prod.mk.inj (Except.ok.inj (hgetattr.symm.trans hst''))
        exact .noAttr (look_imageOf_error hfiles hnode)
      · rw [hnode] at heq
        obtain ⟨rfl, rfl⟩ := Prod.mk.inj (Except.ok.inj (hgetattr.symm.trans heq))
        exact .attr (look_imageOf hfiles hnode)
      · rw [hnode] at heq
        obtain ⟨rfl, rfl⟩ := Prod.mk.inj (Except.ok.inj (hgetattr.symm.trans heq))
        exact .attr (look_imageOf hfiles hnode)
  | @readdir path r names hreaddir =>
      have heq := hreaddir.symm.trans (readdir_eq (.new subdirs statbuf₀) (some path) [])
      rcases hnode : resolve (.new subdirs statbuf₀) (some path) with e | ptr | ptr
      · rw [hnode] at heq
        obtain ⟨rfl, rfl⟩ := Prod.mk.inj (Except.ok.inj heq)
        exact .noDir (look_imageOf_error hfiles hnode)
      · rw [hnode] at heq
        obtain ⟨rfl, rfl⟩ := Prod.mk.inj (Except.ok.inj heq)
        exact .names (look_imageOf hfiles hnode)
      · rw [hnode] at heq
        obtain ⟨rfl, rfl⟩ := Prod.mk.inj (Except.ok.inj heq)
        exact .notDir (look_imageOf hfiles hnode)
  | @refused path flags addr r hr hmode hopen =>
      by_cases hread : flags &&& oACCMODE = oRDONLY
      · have heq := (hopen hread).symm.trans (openFile_eq (.new subdirs statbuf₀) (some path) none)
        rcases hnode : resolve (.new subdirs statbuf₀) (some path) with e | ptr | ptr
        · rw [hnode] at heq
          obtain ⟨rfl, -⟩ := Prod.mk.inj (Except.ok.inj heq)
          exact .noFile hread (look_imageOf_error hfiles hnode)
        · rw [hnode] at heq
          obtain ⟨rfl, -⟩ := Prod.mk.inj (Except.ok.inj heq)
          exact .isDir hread (look_imageOf hfiles hnode)
        · rw [hnode] at heq
          exact absurd (Prod.mk.inj (Except.ok.inj heq)).1 hr
      · obtain rfl := hmode hread
        exact .notPermitted hread
  | @opened path flags addr ptr hmode haddr hfree hptr =>
      refine .opened hmode haddr ?_ (look_imageOf hfiles hptr)
      intro hmem
      obtain ⟨⟨fh, path'⟩, hhandle, rfl⟩ := List.mem_map.mp hmem
      obtain ⟨-, ptr', hfind, -⟩ := hsound.handle fh path' hhandle
      rw [hfree] at hfind
      cases hfind
  | @read t fh size offset path ptr hmounted hhandle hidle hptr hsize =>
      have hnone : (shown s).reads t = none := congrArg (Option.map requestOf) hidle
      rw [shown_update]
      exact .read hhandle hnone
  | @more t c ptr loop b hc hptr hturn =>
      have hrequest : (shown s).reads t = some (requestOf c) :=
        congrArg (Option.map requestOf) hc
      have hsame : shown { s with
          daemon := { s.daemon with base := b }
          calls := Function.update s.calls t (some { c with loop := loop }) } = shown s := by
        have hreads : Function.update (shown s).reads t (some (requestOf c)) = (shown s).reads :=
          Function.update_eq_self_iff.mpr hrequest.symm
        exact (shown_update s _ t _).trans (congrArg (FsState.mk s.mounted s.handles) hreads)
      rw [hsame]
      exact .pending hrequest
  | @done t c ptr x b hc hptr hturn =>
      have hrequest : (shown s).reads t = some (requestOf c) :=
        congrArg (Option.map requestOf) hc
      obtain ⟨ptr', hptr', -, hfail, hdata⟩ :=
        htracked.answers (Happens.done hc hptr hturn) trivial
      obtain rfl := eq_of_resolve hptr hptr'
      rw [shown_update]
      refine .data hrequest (look_imageOf hfiles hptr) ?_
      cases x with
      | none => exact Or.inr ⟨rfl, hfail rfl⟩
      | some d => exact Or.inl (congrArg some (hdata d rfl))
  | flush => exact .flush
  | @release fh hfh hidle =>
      refine .release hfh ?_
      intro t q hq
      obtain ⟨c, hc, rfl⟩ := Option.map_eq_some_iff.mp hq
      exact hidle t c hc
  | destroy hidle => exact .destroy fun t => congrArg (Option.map requestOf) (hidle t)
  | disturb => exact .disturb

variable (dec base base64 bytes subdirs statbuf₀) in
/-- What is shown of a session whose handles are sound and whose reads are on their way. -/
def Shows (s : Session T σ) (a : FsState T) : Prop :=
  Sound (.new subdirs statbuf₀) s ∧
    Tracked dec base (AnswersContent dec base base64 bytes) (.new subdirs statbuf₀)
      (fun _ => True) s ∧ a = shown s

omit [DecidableEq T] [Fintype T] in
/-- What is shown at first. -/
theorem shows_mount (b : σ) : Shows dec base base64 bytes subdirs statbuf₀
    (Session.mount (.new subdirs statbuf₀) b) (FsState.mount T) :=
  ⟨sound_mount _ b, fun _ _ hc => absurd hc (Option.some_ne_none _).symm, rfl⟩

/-- **Each event is answered over the image**, and what is shown afterwards is what the answer
leaves. -/
theorem shows_step (hbase : Reads base64 base bytes) (hbytes : bytes.length < 2 ^ 63)
    (hfiles : FilesShown dec base64 bytes subdirs statbuf₀) {a : FsState T}
    (h : Shows dec base base64 bytes subdirs statbuf₀ s a)
    (hstep : Session.step dec base s e = some (.ok (s', r))) :
    ∃ a', FsSpec (imageOf hfiles) (Fails base bytes) a e r a' ∧
      Shows dec base base64 bytes subdirs statbuf₀ s' a' := by
  obtain ⟨hsound, htracked, rfl⟩ := h
  have hgood : FilesKeep dec base (AnswersContent dec base base64 bytes) (.new subdirs statbuf₀)
      fun _ => True := filesKeep_of_backed hbase hbytes fun path _ ptr hptr =>
    (hfiles path ptr hptr).1
  have hhappens := hsound.happens hstep
  refine ⟨shown s', ⟨?_, fsStep_of_happens hfiles hsound htracked hhappens⟩, ?_⟩
  · intro hasks
    exact mounted_of_asks hsound hasks hstep
  · exact ⟨hsound.of_happens hhappens, htracked.of_happens hgood hhappens, rfl⟩

/-- What is shown of a run is a trace over the image. -/
theorem trace_of_run (hbase : Reads base64 base bytes) (hbytes : bytes.length < 2 ^ 63)
    (hfiles : FilesShown dec base64 bytes subdirs statbuf₀) {b : σ}
    {hist : List (Event T σ × Reply)}
    (hrun : Run (Session.step dec base) (Session.mount (.new subdirs statbuf₀) b) hist s) :
    Trace (FsSpec (imageOf hfiles) (Fails base bytes)) (FsState.mount T) hist (shown s) := by
  have hsim : ∀ (s : Session T σ) a e r s', Shows dec base base64 bytes subdirs statbuf₀ s a →
      Session.step dec base s e = some (.ok (s', r)) →
      ∃ a', FsSpec (imageOf hfiles) (Fails base bytes) a e r a' ∧
        Shows dec base base64 bytes subdirs statbuf₀ s' a' :=
    fun _ _ _ _ _ h hstep => shows_step hbase hbytes hfiles h hstep
  obtain ⟨a, htrace, -, -, rfl⟩ := hrun.trace_of_simulates _ (shows_mount b) hsim
  exact htrace

end simulation

/-- Files of no more than `2 ^ 30` pages are of sizes that `off_t` can say. -/
theorem fileSize_lt_of_isMapOf {L : Layout} {col : Column} {base64 : Bool} {dataStart : ℕ}
    {blks : List Blk} {m : FileMap} (h : L.IsMapOf col base64 dataStart blks m)
    (hfits : ∀ b ∈ blks, b.Fits) (hblks : blks.length ≤ 2 ^ 30)
    (hname : col.name.length < 2 ^ 30) : fileSize (.virtual m) < 2 ^ 63 := by
  have hbody := L.totalSize_bodyRegions_le hfits
  have hfooter := L.length_footerBytes_le (show col.name.length < 2 ^ 64 by omega) hfits (by omega)
  rw [h.fileSize_eq, Layout.totalSize_fileRegions]
  omega

/-- The tree of an array of four bytes shows its files. -/
theorem filesShown_fourBytes {m : FileMap}
    (hm : buildMapUncompressed compact (ascii "x") .int32 false ⟨4, 4⟩ = .ok m)
    (hbacked : Backed standardDecoder false [4, 0, 0, 0, 1, 2, 3, 4] (.virtual m)) :
    FilesShown standardDecoder false [4, 0, 0, 0, 1, 2, 3, 4] (pointDataOf m) plainStat := by
  obtain ⟨m', physical, converted, hm', hmap⟩ := exists_map_fourBytes
  obtain rfl := Except.ok.inj (hm.symm.trans hm')
  intro path ptr hptr
  rw [file_of_resolve_pointDataOf hptr]
  exact ⟨hbacked, fileSize_lt_of_isMapOf hmap (fun b hb => fits_of_mem_uncompressedBlks hb)
    (by decide) (by decide : (ascii "x").length < 2 ^ 30)⟩

/-! ## Runs -/

/-- **The mounted file system is one that nobody writes to.** Over a tree whose files are all those
of a VTK file, the history of every run is that of a trace over the image of the tree: whatever the
threads do and in which order their turns are taken, each request is answered as the image says, and
each read as if it were done at once when it returns. -/
theorem session_refines {T σ : Type} [DecidableEq T] [Fintype T] (dec : Decoder)
    (base : RandomAccessFile σ) (base64 : Bool) (bytes : Bytes) (subdirs : StringMap SubDir)
    (statbuf₀ : StatBuf) (hbase : Reads base64 base bytes) (hbytes : bytes.length < 2 ^ 63)
    (hfiles : FilesShown dec base64 bytes subdirs statbuf₀) (b : σ)
    (hist : List (Event T σ × Reply)) (s : Session T σ)
    (hrun : Run (Session.step dec base) (Session.mount (.new subdirs statbuf₀) b) hist s) :
    Trace (FsSpec (imageOf hfiles) (Fails base bytes)) (FsState.mount T) hist (shown s) :=
  trace_of_run hbase hbytes hfiles hrun

/-- The theorem at a session in which a file of four bytes is read. -/
theorem session_refines_fourBytes :
    ∃ (m : FileMap) (hist : List (Event (Fin 2) Unit × Reply)) (s : Session (Fin 2) Unit)
      (image : Image) (fails : Prop),
      buildMapUncompressed compact (ascii "x") .int32 false ⟨4, 4⟩ = .ok m ∧
      Run (Session.step standardDecoder (osFile [4, 0, 0, 0, 1, 2, 3, 4]))
        (Session.mount (.new (pointDataOf m) plainStat) ()) hist s ∧
      hist ≠ [] ∧ Trace (FsSpec image fails) (FsState.mount (Fin 2)) hist (shown s) := by
  obtain ⟨m, hist, s, nr, x, hm, hbacked, hrun, hmem⟩ := exists_session_fourBytes
  exact ⟨m, hist, s, _, _, hm, hrun, List.ne_nil_of_mem hmem,
    session_refines standardDecoder (osFile [4, 0, 0, 0, 1, 2, 3, 4]) false
      [4, 0, 0, 0, 1, 2, 3, 4] (pointDataOf m) plainStat (osFile_completeReads _).shortReads
      (by decide) (filesShown_fourBytes hm hbacked) () hist s hrun⟩

end VirParquet.Verify
