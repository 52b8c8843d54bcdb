import VirParquet.Verify.AnyFile

/-!
# When the threads of a session can hang

A read that asks a raw map for a byte behind the end of the VTK file is given zero bytes and asks
again. So a thread that serves it never comes to its end, whatever others do. `session_ends_iff`
says that this is the only way to hang a thread of a session that is mounted on an accepted file:
over all bases that read the VTK file like `pread` its reads end, in every run, exactly if all that
the raw maps of the tree stand for lies inside the VTK file.
-/

namespace VirParquet.Verify

open VirParquet.Found VirParquet.Found.Thrift VirParquet.Found.Base64 VirParquet.Model
  VirParquet.Spec VirParquet.Spec.Path

variable {T σ : Type} [DecidableEq T] [Fintype T] {dec : Decoder} {base : RandomAccessFile σ}
  {tree : VtkTree} {s : Session T σ}

/-! ## Reads that end -/

/-- The reads of a thread end: however a run goes on after a read has begun, there is a number of
turns that the thread does not get to before the read returns. -/
def ReadsEnd (dec : Decoder) (base : RandomAccessFile σ) (tree : VtkTree) (b : σ) (t : T) : Prop :=
  ∀ hist s fh path size offset s₁ r,
    Run (Session.step dec base) (Session.mount tree b : Session T σ) hist s →
    Session.step dec base s (.read t fh path size offset) = some (.ok (s₁, r)) →
    ∃ n, ∀ hist' s₂, Run (Session.step dec base) s₁ hist' s₂ →
      (∀ x ∈ hist', x.1.turnOf t = true → x.2 = .pending) →
      hist'.countP (fun x => x.1.turnOf t) < n

/-- All that the raw maps of a tree stand for lies inside a file of this length. -/
def MapsInFile (tree : VtkTree) (fileLength : ℕ) : Prop :=
  ∀ path ptr m, resolve tree (some path) = .ok (.file ptr) → ptr.file = .virtual m →
    ∀ size offset, RequestInFile m fileLength size offset

/-- The reads of a thread end if nothing is mapped behind the end of the file. -/
theorem readsEnd_of_mapsInFile {bytes : Bytes} (hbase : PreadLike base bytes)
    (hserved : ∀ path ptr, resolve tree (some path) = .ok (.file ptr) → Served ptr.file)
    (hin : MapsInFile tree bytes.length) (b : σ) (t : T) : ReadsEnd dec base tree b t := by
  intro hist s fh path size offset s₁ r hrun hstep
  obtain ⟨-, -, ptr, hptr, -⟩ := call_of_read (sound_of_run hrun) hstep
  refine ⟨turnBound ptr.file size offset, fun hist' s₂ hrun' hpending => ?_⟩
  have hrunning := running_of_read (Q := fun _ _ _ _ => True) (sound_of_run hrun) hstep hptr
    fun hsize => (hserved path ptr hptr).endsWithin hbase hsize fun m hm =>
      hin path ptr m hptr hm size offset
  exact (hrunning.countP_lt hrun' hpending).1

/-! ## Reads that do not end -/

section stuck

variable {m : FileMap} {rs : List Region} {file : Bytes} {size offset i place pos : ℕ} {t : T}
  {path : CString}

/-- The thread serves a read that does not end: the byte that the file does not have is still to be
read. -/
def Stuck (tree : VtkTree) (m : FileMap) (rs : List Region) (path : CString) (pos : ℕ) (t : T)
    (s : Session T Unit) : Prop :=
  Sound tree s ∧ ∃ c ptr, s.calls t = some c ∧ c.path = path ∧
    resolve tree (some path) = .ok (.file ptr) ∧ ptr.file = .virtual m ∧
    StuckInvariant rs pos c.loop

/-- **A turn of such a read** leaves it where it is. -/
theorem Stuck.turn {s : Session T Unit} (h : Stuck tree m rs path pos t s)
    (hrep : m.Represents rs) (hfile : file.length < 2 ^ 64)
    (hbyte : BeyondFile m rs file.length size offset i place pos) :
    ∃ s', Session.step dec (osFile file) s (.turn t) = some (.ok (s', .pending)) ∧
      Stuck tree m rs path pos t s' := by
  obtain ⟨hsound, c, ptr, hc, rfl, hptr, hvirtual, hloop⟩ := h
  obtain ⟨st', hturn, hst'⟩ : ∃ st', m.preadTurn dec (osFile file) c.loop = .ok (.inl st') ∧
      StuckInvariant rs pos st' := hbyte.turn hrep hfile hloop
  have hshared : ptr.file.preadTurn dec (osFile file) c.size c.offset c.loop s.daemon.base =
      .ok (.inl st'.own, st'.base) := by
    have hover : c.loop.over s.daemon.base = c.loop := rfl
    rw [hvirtual, VfsFile.preadTurn, FileMap.sharedTurn, hover, hturn]
  rcases turn_of_call hsound hc hptr with ⟨loop, b, s', hnext, hstep, hsound', hc'⟩ |
    ⟨x, b, s', hnext, -⟩ | ⟨f, hnext⟩
  · cases hshared.symm.trans hnext
    exact ⟨s', hstep, hsound', _, ptr, hc', rfl, hptr, hvirtual, hst'⟩
  · cases hshared.symm.trans hnext
  · cases hshared.symm.trans hnext

/-- **A read of a byte that the file does not have hangs its thread.** -/
theorem not_readsEnd_of_beyondFile (hrep : m.Represents rs) (hfile : file.length < 2 ^ 64)
    {ptr : FilePtr} (hptr : resolve tree (some path) = .ok (.file ptr))
    (hvirtual : ptr.file = .virtual m) (hsize : size < 2 ^ 64) (hoffset : offset < 2 ^ 63)
    (hbyte : BeyondFile m rs file.length size offset i place pos) :
    ¬ReadsEnd dec (osFile file) tree () t := by
  intro hends
  obtain ⟨hist, s, s₁, r, hrun, hstep⟩ := exists_run_read dec (osFile file) () hptr t size offset
    hsize hoffset
  obtain ⟨n, hn⟩ := hends hist s 1 path size offset s₁ r hrun hstep
  obtain ⟨hsound, -, ptr', hptr', hc⟩ := call_of_read (sound_of_run hrun) hstep
  obtain rfl := eq_of_resolve hptr hptr'
  have hend := regionStart_le rs (i + 1)
  have hlt := hbyte.lt_start
  have hlow := hbyte.offset_le
  have hup := hbyte.pos_lt
  have hstart : StuckInvariant rs pos (ptr.file.preadStart size offset) := by
    rw [hvirtual]
    exact ⟨atRegion_preadStart hrep (by omega) (by omega) (), hlow, hup, hsize⟩
  have hstuck : Stuck tree m rs path pos t s₁ :=
    ⟨hsound, _, ptr, hc, rfl, hptr, hvirtual, hstart⟩
  -- The thread takes as many turns as it is given, and the read is still pending.
  have hgo : ∀ s, Stuck tree m rs path pos t s → ∃ e r s',
      Session.step dec (osFile file) s e = some (.ok (s', r)) ∧ Stuck tree m rs path pos t s' ∧
        e.turnOf t = true ∧ (e.turnOf t = true → r = .pending) := by
    intro s hs
    obtain ⟨s', hturn, hs'⟩ := hs.turn hrep hfile hbyte
    exact ⟨.turn t, .pending, s', hturn, hs', by simp [Event.turnOf], fun _ => rfl⟩
  obtain ⟨hist', s₂, hrun', -, hpending, hcount⟩ := Run.exists_countP
    (Stuck tree m rs path pos t) (Event.turnOf t)
    (fun x : Event T Unit × Reply => x.1.turnOf t = true → x.2 = .pending) hgo hstuck n
  exact (hn hist' s₂ hrun' hpending).ne hcount

/-- If the reads of a thread end over the file that the operating system serves, then nothing is
mapped behind its end. -/
theorem mapsInFile_of_readsEnd (hfile : file.length < 2 ^ 64)
    (hserved : ∀ path ptr, resolve tree (some path) = .ok (.file ptr) → Served ptr.file)
    (hends : ReadsEnd dec (osFile file) tree () t) : MapsInFile tree file.length := by
  intro path ptr m hptr hvirtual size offset
  have hserved := hserved path ptr hptr
  rw [hvirtual] at hserved
  obtain ⟨thrift, hbuilt⟩ := hserved
  obtain ⟨rs, hrep⟩ := hbuilt.exists_represents
  rw [requestInFile_iff hrep]
  intro hraw i hi place len pos hr hlow hup _ _
  by_contra hbeyond
  -- A request for the byte, whose offset the kernel can pass on.
  have hpos : pos < 2 ^ 64 := hup.trans_le ((regionStart_le rs (i + 1)).trans hrep.totalSize_lt.le)
  have hbyte : BeyondFile m rs file.length (pos - min pos (2 ^ 63 - 1) + 1)
      (min pos (2 ^ 63 - 1)) i place pos :=
    ⟨hraw, hi, ⟨len, by rw [List.getElem?_eq_getElem hi, hr]⟩, hlow, hup, by omega, by omega,
      not_lt.mp hbeyond⟩
  exact not_readsEnd_of_beyondFile hrep hfile hptr hvirtual (by omega) (by omega) hbyte hends

end stuck

/-- **When the reads of a thread end.** For every VTK file that the parser accepts, and every file
that is there under its name when the tree is mounted: the reads of a thread end, in all runs over
all bases that read this file like `pread`, if and only if all that the raw maps of the tree stand
for lies inside this file. -/
theorem session_ends_iff {E σ T : Type} [DecidableEq T] [Fintype T] (thrift : Protocol)
    (heap : Heap) (dec : Decoder) (input : VtkInput E σ) (fname : CString) (s s' : σ)
    (tree : VtkTree) (h : parseVtkFile thrift heap dec input fname s = .ok (tree, s'))
    (file : Bytes) (hfile : file.length < 2 ^ 64) (t : T) :
    (∀ (ρ : Type) (base : RandomAccessFile ρ) (b : ρ), PreadLike base file →
        ReadsEnd dec base tree b t) ↔
      MapsInFile tree file.length := by
  obtain ⟨_, _, _, subdirs, statbuf, -, -, -, rfl, hloaded⟩ := parseVtkFile_isLoadedTree h
  have hserved : ∀ path ptr, resolve (.new subdirs statbuf) (some path) = .ok (.file ptr) →
      Served ptr.file := fun path ptr => served_of_isLoadedTree hloaded
  constructor
  · intro hends
    exact mapsInFile_of_readsEnd hfile hserved (hends Unit (osFile file) () (osFile_preadLike file))
  · intro hin ρ base b hbase
    exact readsEnd_of_mapsInFile hbase hserved hin b t

/-- The theorem at the file with one array, which has lost its last bytes when it is mounted. -/
theorem session_ends_iff_x :
    ∃ tree, parseVtkFile compact zeroHeap standardDecoder (smallInput (cString "x" (by decide)))
        (cString "a.vti" (by decide)) () = .ok (tree, ()) ∧
      ((∀ (ρ : Type) (base : RandomAccessFile ρ) (b : ρ), PreadLike base [95, 4, 0, 0, 0, 1] →
          ReadsEnd standardDecoder base tree b (0 : Fin 2)) ↔ MapsInFile tree 6) := by
  obtain ⟨⟨tree, ⟨⟩⟩, htree⟩ := exists_tree_smallInput (cString "x" (by decide)) (by decide)
  exact ⟨tree, htree, session_ends_iff compact zeroHeap standardDecoder _ _ _ _ _ htree
    [95, 4, 0, 0, 0, 1] (by decide) 0⟩

end VirParquet.Verify
