import VirParquet.Verify.SharedReads
import VirParquet.Verify.Tree

/-!
# What an event does

One event of a session, given the invariant `Sound` of its handles. Each entry point of `c.cc` has a
lemma that says what it does there, and `step_spec` puts them together: an event cannot happen, it
does one of the things that `Happens` lists, or it is a turn of a read that runs into a fault.
`Sound.of_happens` says that the handles stay sound, and `sound_of_run` that they are in every run.
-/

namespace VirParquet.Verify

open VirParquet.Found VirParquet.Found.Thrift VirParquet.Found.Base64 VirParquet.Model
  VirParquet.Spec VirParquet.Spec.Path

variable {T σ : Type} [DecidableEq T] [Fintype T] {dec : Decoder} {base : RandomAccessFile σ}
  {tree : VtkTree} {s s' : Session T σ}

/-! ## What can happen -/

/-- The errors of a path are not zero. -/
theorem ne_zero_of_resolve_eq_error {path : Option CString} {e : ℤ}
    (h : resolve tree path = .error e) : e ≠ 0 := by
  rcases resolvePath_spec tree path with ⟨-, hnode⟩ | ⟨parent, name, -, -, hnode⟩ |
    ⟨e', -, -, -, he, hnode⟩
  · rw [hnode] at h
    cases h
  · rw [hnode, walk] at h
    rcases hchild : child parent name with _ | node
    · rw [hchild] at h
      cases h
      decide
    · rw [hchild] at h
      cases h
  · rw [hnode] at h
    cases h
    exact he

/-- A path leads to one file. -/
theorem eq_of_resolve {path : Option CString} {ptr ptr' : FilePtr}
    (h : resolve tree path = .ok (.file ptr)) (h' : resolve tree path = .ok (.file ptr')) :
    ptr = ptr' := by
  rw [h] at h'
  cases h'
  rfl

/-- A path leads to a file, or opening it gives an error. -/
theorem openFile_cases (tree : VtkTree) (path : CString) :
    (∃ ptr, resolve tree (some path) = .ok (.file ptr)) ∨
      ∃ r, r ≠ 0 ∧ openFile tree (some path) none = .ok (r, none) := by
  have hopen := openFile_eq tree (some path) none
  rcases hnode : resolve tree (some path) with e | ptr | ptr
  · rw [hnode] at hopen
    have hne := ne_zero_of_resolve_eq_error hnode
    exact Or.inr ⟨-e, by omega, hopen⟩
  · rw [hnode] at hopen
    exact Or.inr ⟨-eISDIR, by decide, hopen⟩
  · rw [hnode] at hopen
    exact Or.inl ⟨ptr, rfl⟩

/-- The handles are sound: the file objects are those of the handles, each handle is that of the
file which its path leads to, and reads run on handles. -/
structure Sound (tree : VtkTree) (s : Session T σ) : Prop where
  tree_eq : s.daemon.tree = if s.mounted then some tree else none
  owned : s.daemon.files.Owned (s.handles.map Prod.fst)
  handle : ∀ fh path, (fh, path) ∈ s.handles → fh ≠ 0 ∧
    ∃ ptr, s.daemon.files.find fh = some ptr ∧ resolve tree (some path) = .ok (.file ptr)
  call : ∀ t c, s.calls t = some c → s.mounted = true ∧ (c.fh, c.path) ∈ s.handles

/-- What an event does when nothing goes wrong. -/
inductive Happens (dec : Decoder) (base : RandomAccessFile σ) (tree : VtkTree) (s : Session T σ) :
    Event T σ → Reply → Session T σ → Prop
  | getattr {path : CString} {statbuf statbuf' : StatBuf} {r : ℤ}
      (hgetattr : getattr tree (some path) statbuf = .ok (r, statbuf')) :
      Happens dec base tree s (.getattr path statbuf) (.attr r statbuf') s
  | readdir {path : CString} {r : ℤ} {names : List Bytes}
      (hreaddir : readdir tree (some path) [] = .ok (r, names)) :
      Happens dec base tree s (.readdir path) (.names r names) s
  | refused {path : CString} {flags addr : ℕ} {r : ℤ} (hr : r ≠ 0)
      (hmode : flags &&& oACCMODE ≠ oRDONLY → r = -ePERM)
      (hopen : flags &&& oACCMODE = oRDONLY → openFile tree (some path) none = .ok (r, none)) :
      Happens dec base tree s (.openFile path flags addr) (.opened r 0) s
  | opened {path : CString} {flags addr : ℕ} {ptr : FilePtr}
      (hmode : flags &&& oACCMODE = oRDONLY) (haddr : addr ≠ 0)
      (hfree : s.daemon.files.find addr = none)
      (hptr : resolve tree (some path) = .ok (.file ptr)) :
      Happens dec base tree s (.openFile path flags addr) (.opened 0 addr)
        { s with
          daemon := { s.daemon with files := s.daemon.files.alloc addr ptr }
          handles := (addr, path) :: s.handles }
  | read {t : T} {fh size offset : ℕ} {path : CString} {ptr : FilePtr}
      (hmounted : s.mounted = true) (hhandle : (fh, path) ∈ s.handles) (hidle : s.calls t = none)
      (hptr : resolve tree (some path) = .ok (.file ptr)) (hsize : size < 2 ^ 64) :
      Happens dec base tree s (.read t fh path size offset) .pending
        { s with
          calls := Function.update s.calls t
            (some ⟨fh, path, size, offset, ptr.file.preadStart size offset⟩) }
  | more {t : T} {c : Call} {ptr : FilePtr} {loop : PreadState Unit} {b : σ}
      (hc : s.calls t = some c) (hptr : resolve tree (some c.path) = .ok (.file ptr))
      (hturn : ptr.file.preadTurn dec base c.size c.offset c.loop s.daemon.base =
        .ok (.inl loop, b)) :
      Happens dec base tree s (.turn t) .pending
        { s with
          daemon := { s.daemon with base := b }
          calls := Function.update s.calls t (some { c with loop := loop }) }
  | done {t : T} {c : Call} {ptr : FilePtr} {x : Option Bytes} {b : σ}
      (hc : s.calls t = some c) (hptr : resolve tree (some c.path) = .ok (.file ptr))
      (hturn : ptr.file.preadTurn dec base c.size c.offset c.loop s.daemon.base =
        .ok (.inr x, b)) :
      Happens dec base tree s (.turn t) (.data c.path c.size c.offset (readResult x) x)
        { s with
          daemon := { s.daemon with base := b }
          calls := Function.update s.calls t none }
  | flush {fh : ℕ} : Happens dec base tree s (.flush fh) (.status 0) s
  | release {fh : ℕ} (hfh : fh ∈ s.handles.map Prod.fst) (hidle : s.Idle fh) :
      Happens dec base tree s (.release fh) (.status 0)
        { s with
          daemon := { s.daemon with files := s.daemon.files.free fh }
          handles := s.handles.filter fun handle => handle.1 ≠ fh }
  | destroy (hidle : ∀ t, s.calls t = none) :
      Happens dec base tree s .destroy .none
        { s with
          daemon := { s.daemon with tree := none }
          mounted := false }
  | disturb {b : σ} :
      Happens dec base tree s (.disturb b) .none { s with daemon := { s.daemon with base := b } }

/-! ### The entry points -/

section entry

omit [DecidableEq T] [Fintype T]

variable (h : Sound tree s) (hmounted : s.mounted = true)

include h hmounted

/-- The tree is there while the file system is mounted. -/
theorem Sound.privateData_eq : s.daemon.privateData = .ok tree := by
  have htree := h.tree_eq
  rw [if_pos hmounted] at htree
  rw [Daemon.privateData, htree]

/-- `vtk_getattr` gives attributes, or an error. -/
theorem Sound.vtkGetattr_eq (path : CString) (statbuf : StatBuf) :
    ∃ r statbuf', getattr tree (some path) statbuf = .ok (r, statbuf') ∧
      vtkGetattr s.daemon path statbuf = .ok (r, statbuf') := by
  have hrun : vtkGetattr s.daemon path statbuf = ofExec (getattr tree (some path) statbuf) :=
    Crash.bind_of_eq_ok (h.privateData_eq hmounted) _
  have hgetattr := getattr_eq tree (some path) statbuf
  rcases hnode : resolve tree (some path) with e | ptr | ptr
  · rw [hnode] at hgetattr
    obtain ⟨statbuf', hgetattr⟩ := hgetattr
    exact ⟨_, _, hgetattr, by rw [hrun, hgetattr]; rfl⟩
  · rw [hnode] at hgetattr
    exact ⟨_, _, hgetattr, by rw [hrun, hgetattr]; rfl⟩
  · rw [hnode] at hgetattr
    exact ⟨_, _, hgetattr, by rw [hrun, hgetattr]; rfl⟩

/-- `vtk_readdir` gives names, or an error. -/
theorem Sound.vtkReaddir_eq (path : CString) :
    ∃ r names, readdir tree (some path) [] = .ok (r, names) ∧
      vtkReaddir s.daemon path [] = .ok (r, names) := by
  have hrun : vtkReaddir s.daemon path [] = ofExec (readdir tree (some path) []) :=
    Crash.bind_of_eq_ok (h.privateData_eq hmounted) _
  have hreaddir := readdir_eq tree (some path) []
  exact ⟨_, _, hreaddir, by rw [hrun, hreaddir]; rfl⟩

/-- `vtk_open` for reading makes a file object of the file of the path. -/
theorem Sound.vtkOpen_of_file {path : CString} {ptr : FilePtr}
    (hptr : resolve tree (some path) = .ok (.file ptr)) {flags : ℕ}
    (hmode : flags &&& oACCMODE = oRDONLY) (addr fh : ℕ) :
    vtkOpen s.daemon path flags addr fh =
      .ok ({ s.daemon with files := s.daemon.files.alloc addr ptr }, 0, addr) := by
  have hopen := openFile_eq tree (some path) none
  rw [hptr] at hopen
  rw [vtkOpen, if_neg (not_not.mpr hmode), Crash.bind_of_eq_ok (h.privateData_eq hmounted), hopen]
  rfl

/-- `vtk_open` of a path that leads to no file gives an error. -/
theorem Sound.vtkOpen_eq (path : CString) {flags : ℕ} (hmode : flags &&& oACCMODE = oRDONLY)
    (addr fh : ℕ) :
    (∃ ptr, resolve tree (some path) = .ok (.file ptr)) ∨
      ∃ r, r ≠ 0 ∧ openFile tree (some path) none = .ok (r, none) ∧
        vtkOpen s.daemon path flags addr fh = .ok (s.daemon, r, fh) := by
  rcases openFile_cases tree path with ⟨ptr, hptr⟩ | ⟨r, hr, hopen⟩
  · exact Or.inl ⟨ptr, hptr⟩
  · refine Or.inr ⟨r, hr, hopen, ?_⟩
    rw [vtkOpen, if_neg (not_not.mpr hmode), Crash.bind_of_eq_ok (h.privateData_eq hmounted), hopen]
    exact if_neg hr

omit hmounted in
/-- The object behind a handle is there. -/
theorem Sound.file_eq {fh : ℕ} {path : CString} (hmem : (fh, path) ∈ s.handles) :
    ∃ ptr, s.daemon.file fh = .ok ptr ∧ resolve tree (some path) = .ok (.file ptr) := by
  obtain ⟨hne, ptr, hfind, hptr⟩ := h.handle fh path hmem
  refine ⟨ptr, ?_, hptr⟩
  rw [Daemon.file, if_neg hne, hfind]

/-- `vtk_read` of a handle begins at the file of its path. -/
theorem Sound.vtkReadStart_eq {fh : ℕ} {path : CString} (hmem : (fh, path) ∈ s.handles)
    (size offset : ℕ) :
    ∃ ptr, resolve tree (some path) = .ok (.file ptr) ∧
      vtkReadStart s.daemon fh size offset = .ok (ptr.file.preadStart size offset) := by
  obtain ⟨ptr, hfile, hptr⟩ := h.file_eq hmem
  refine ⟨ptr, hptr, ?_⟩
  rw [vtkReadStart, Crash.bind_of_eq_ok hfile, Crash.bind_of_eq_ok (h.privateData_eq hmounted)]

variable (dec base) in
omit hmounted in
/-- `vtk_read` goes on at the file of its path. -/
theorem Sound.vtkReadTurn_eq {t : T} {c : Call} (hc : s.calls t = some c) :
    ∃ ptr, resolve tree (some c.path) = .ok (.file ptr) ∧ vtkReadTurn dec base s.daemon c =
      ofExec (ptr.file.preadTurn dec base c.size c.offset c.loop s.daemon.base) := by
  obtain ⟨hmounted, hhandle⟩ := h.call t c hc
  obtain ⟨ptr, hfile, hptr⟩ := h.file_eq hhandle
  refine ⟨ptr, hptr, ?_⟩
  rw [vtkReadTurn, Crash.bind_of_eq_ok hfile, Crash.bind_of_eq_ok (h.privateData_eq hmounted)]

omit hmounted in
/-- `vtk_release` of a handle deletes its file object. -/
theorem Sound.vtkRelease_eq {fh : ℕ} (hfh : fh ∈ s.handles.map Prod.fst) :
    vtkRelease s.daemon fh = .ok ({ s.daemon with files := s.daemon.files.free fh }, 0) := by
  obtain ⟨⟨fh', path⟩, hhandle, rfl⟩ := List.mem_map.mp hfh
  obtain ⟨hne, ptr, hfind, -⟩ := h.handle fh' path hhandle
  rw [vtkRelease, if_neg hne, hfind]

/-- `vtk_destroy_tree` deletes the tree. -/
theorem Sound.vtkDestroyTree_eq : vtkDestroyTree s.daemon = .ok { s.daemon with tree := none } := by
  have htree := h.tree_eq
  rw [if_pos hmounted] at htree
  rw [vtkDestroyTree, htree]

end entry

/-! ### One event -/

variable (dec base) in
/-- A file is opened for reading. -/
theorem Sound.step_openFile (h : Sound tree s) {path : CString} {ptr : FilePtr} {flags addr : ℕ}
    (hgo : s.mounted ∧ addr ≠ 0 ∧ (s.daemon.files.find addr).isNone)
    (hmode : flags &&& oACCMODE = oRDONLY) (hptr : resolve tree (some path) = .ok (.file ptr)) :
    Session.step dec base s (.openFile path flags addr) = some (.ok
      ({ s with
        daemon := { s.daemon with files := s.daemon.files.alloc addr ptr }
        handles := (addr, path) :: s.handles }, .opened 0 addr)) := by
  simp only [Session.step, if_pos hgo, h.vtkOpen_of_file hgo.1 hptr hmode]
  rfl

variable (dec base) in
/-- A thread begins to read the file of a handle. -/
theorem Sound.step_read (h : Sound tree s) (t : T) (fh : ℕ) (path : CString) {size offset : ℕ}
    (hgo : s.mounted ∧ (fh, path) ∈ s.handles ∧ (s.calls t).isNone ∧ size < 2 ^ 64 ∧
      offset < 2 ^ 63) :
    ∃ ptr, resolve tree (some path) = .ok (.file ptr) ∧
      Session.step dec base s (.read t fh path size offset) = some (.ok
        ({ s with
          calls := Function.update s.calls t
            (some ⟨fh, path, size, offset, ptr.file.preadStart size offset⟩) }, .pending)) := by
  obtain ⟨ptr, hptr, hrun⟩ := h.vtkReadStart_eq hgo.1 hgo.2.1 size offset
  refine ⟨ptr, hptr, ?_⟩
  simp only [Session.step, if_pos hgo, hrun]
  rfl

variable (dec base) in
/-- **What an event can do**: it cannot happen, it does one of the things listed, or it is a turn
whose read runs into a fault. -/
theorem step_spec (h : Sound tree s) (e : Event T σ) :
    Session.step dec base s e = none ∨
      (∃ r s', Session.step dec base s e = some (.ok (s', r)) ∧
        Happens dec base tree s e r s') ∨
      ∃ t c ptr f, e = .turn t ∧ s.calls t = some c ∧
        resolve tree (some c.path) = .ok (.file ptr) ∧
        ptr.file.preadTurn dec base c.size c.offset c.loop s.daemon.base = .error f ∧
        Session.step dec base s e = some (.error (.fault f)) := by
  cases e with
  | getattr path statbuf =>
      by_cases hmounted : s.mounted = true
      · obtain ⟨r, statbuf', hgetattr, hrun⟩ := h.vtkGetattr_eq hmounted path statbuf
        refine Or.inr (Or.inl ⟨_, _, ?_, .getattr hgetattr⟩)
        simp only [Session.step, if_pos hmounted, hrun]
        rfl
      · exact Or.inl (if_neg hmounted)
  | readdir path =>
      by_cases hmounted : s.mounted = true
      · obtain ⟨r, names, hreaddir, hrun⟩ := h.vtkReaddir_eq hmounted path
        refine Or.inr (Or.inl ⟨_, _, ?_, .readdir hreaddir⟩)
        simp only [Session.step, if_pos hmounted, hrun]
        rfl
      · exact Or.inl (if_neg hmounted)
  | openFile path flags addr =>
      by_cases hgo : s.mounted ∧ addr ≠ 0 ∧ (s.daemon.files.find addr).isNone
      · have hfree := Option.isNone_iff_eq_none.mp hgo.2.2
        by_cases hmode : flags &&& oACCMODE = oRDONLY
        · rcases h.vtkOpen_eq hgo.1 path hmode addr 0 with ⟨ptr, hptr⟩ | ⟨r, hr, hopen, hrun⟩
          · exact Or.inr (Or.inl ⟨_, _, h.step_openFile dec base hgo hmode hptr,
              .opened hmode hgo.2.1 hfree hptr⟩)
          · refine Or.inr (Or.inl ⟨_, _, ?_,
              .refused hr (fun hne => absurd hmode hne) fun _ => hopen⟩)
            simp only [Session.step, if_pos hgo, hrun, bind, Except.bind, if_neg hr]
        · refine Or.inr (Or.inl ⟨_, _, ?_, .refused (by decide : -ePERM ≠ 0) (fun _ => rfl)
            fun heq => absurd heq hmode⟩)
          simp only [Session.step, if_pos hgo, vtkOpen, ne_eq, hmode, not_false_eq_true, if_true]
          rfl
      · exact Or.inl (if_neg hgo)
  | read t fh path size offset =>
      by_cases hgo : s.mounted ∧ (fh, path) ∈ s.handles ∧ (s.calls t).isNone ∧ size < 2 ^ 64 ∧
          offset < 2 ^ 63
      · obtain ⟨ptr, hptr, hstep⟩ := h.step_read dec base t fh path hgo
        exact Or.inr (Or.inl ⟨_, _, hstep, .read hgo.1 hgo.2.1
          (Option.isNone_iff_eq_none.mp hgo.2.2.1) hptr hgo.2.2.2.1⟩)
      · exact Or.inl (if_neg hgo)
  | turn t =>
      rcases hc : s.calls t with _ | c
      · exact Or.inl (by simp only [Session.step, hc])
      · obtain ⟨ptr, hptr, hrun⟩ := h.vtkReadTurn_eq dec base hc
        rcases hturn : ptr.file.preadTurn dec base c.size c.offset c.loop s.daemon.base with
          f | ⟨loop | x, b⟩
        · refine Or.inr (Or.inr ⟨t, c, ptr, f, rfl, hc, hptr, hturn, ?_⟩)
          simp only [Session.step, hc, hrun, hturn]
          rfl
        · refine Or.inr (Or.inl ⟨_, _, ?_, .more hc hptr hturn⟩)
          simp only [Session.step, hc, hrun, hturn]
          rfl
        · refine Or.inr (Or.inl ⟨_, _, ?_, .done hc hptr hturn⟩)
          simp only [Session.step, hc, hrun, hturn]
          rfl
  | flush fh =>
      by_cases hgo : s.mounted ∧ fh ∈ s.handles.map Prod.fst
      · exact Or.inr (Or.inl ⟨_, _, if_pos hgo, .flush⟩)
      · exact Or.inl (if_neg hgo)
  | release fh =>
      by_cases hgo : s.mounted ∧ fh ∈ s.handles.map Prod.fst ∧ s.Idle fh
      · refine Or.inr (Or.inl ⟨_, _, ?_, .release hgo.2.1 hgo.2.2⟩)
        simp only [Session.step, if_pos hgo, h.vtkRelease_eq hgo.2.1]
        rfl
      · exact Or.inl (if_neg hgo)
  | destroy =>
      by_cases hgo : s.mounted ∧ ∀ t, (s.calls t).isNone
      · refine Or.inr (Or.inl ⟨_, _, ?_,
          .destroy fun t => Option.isNone_iff_eq_none.mp (hgo.2 t)⟩)
        simp only [Session.step, if_pos hgo, h.vtkDestroyTree_eq hgo.1]
        rfl
      · exact Or.inl (if_neg hgo)
  | disturb b => exact Or.inr (Or.inl ⟨_, _, rfl, .disturb⟩)

/-- An event that happened is one of those listed. -/
theorem Sound.happens (h : Sound tree s) {e : Event T σ} {r : Reply}
    (hstep : Session.step dec base s e = some (.ok (s', r))) :
    Happens dec base tree s e r s' := by
  rcases step_spec dec base h e with hnone | ⟨r', s'', hsome, hhappens⟩ |
    ⟨-, -, -, f, -, -, -, -, hcrash⟩
  · rw [hnone] at hstep
    cases hstep
  · rw [hsome] at hstep
    cases hstep
    exact hhappens
  · rw [hcrash] at hstep
    cases hstep

/-! ## The handles -/

omit [DecidableEq T] [Fintype T] in
/-- There are no handles at first. -/
theorem sound_mount (tree : VtkTree) (b : σ) : Sound tree (Session.mount tree b : Session T σ) where
  tree_eq := rfl
  owned := Arena.owned_empty
  handle _ _ hmem := absurd hmem List.not_mem_nil
  call _ _ hc := by cases hc

omit [DecidableEq T] [Fintype T] in
/-- The addresses of all handles but one are all addresses but this. -/
theorem map_filter_ne (handles : List (ℕ × CString)) (fh : ℕ)
    (h : (handles.map Prod.fst).Nodup) :
    (handles.filter fun handle => handle.1 ≠ fh).map Prod.fst =
      (handles.map Prod.fst).erase fh := by
  rw [h.erase_eq_filter, List.filter_map]
  congr 1
  refine List.filter_congr fun handle _ => ?_
  rw [Function.comp_apply, bne, decide_not]
  rfl

omit [Fintype T] in
/-- A call after one thread has begun or ended its own. -/
theorem eq_some_of_update {calls : T → Option Call} {t t' : T} {x : Option Call} {c : Call}
    (h : Function.update calls t x t' = some c) :
    t' = t ∧ x = some c ∨ t' ≠ t ∧ calls t' = some c := by
  by_cases ht : t' = t
  · rw [ht, Function.update_self] at h
    exact Or.inl ⟨ht, h⟩
  · rw [Function.update_of_ne ht] at h
    exact Or.inr ⟨ht, h⟩

omit [Fintype T] in
/-- **The handles stay sound.** -/
theorem Sound.of_happens (h : Sound tree s) {e : Event T σ} {r : Reply}
    (hstep : Happens dec base tree s e r s') : Sound tree s' := by
  cases hstep with
  | getattr => exact h
  | readdir => exact h
  | refused => exact h
  | flush => exact h
  | @opened path flags addr ptr _ haddr hfree hptr =>
      refine ⟨h.tree_eq, h.owned.alloc hfree ptr, ?_, ?_⟩
      · intro fh path' hmem
        rcases List.mem_cons.mp hmem with heq | hmem
        · obtain ⟨rfl, rfl⟩ := Prod.mk.inj heq
          exact ⟨haddr, ptr, Arena.find_alloc_self _ _ _, hptr⟩
        · obtain ⟨hne, ptr', hfind, hptr'⟩ := h.handle fh path' hmem
          refine ⟨hne, ptr', ?_, hptr'⟩
          rwa [Arena.find_alloc_of_ne]
          rintro rfl
          rw [hfree] at hfind
          cases hfind
      · intro t c hc
        obtain ⟨hmounted, hmem⟩ := h.call t c hc
        exact ⟨hmounted, List.mem_cons_of_mem _ hmem⟩
  | @read t fh size offset path ptr hmounted hhandle _ =>
      refine ⟨h.tree_eq, h.owned, h.handle, ?_⟩
      intro t' c hc
      rcases eq_some_of_update hc with ⟨-, heq⟩ | ⟨-, hc⟩
      · obtain rfl := Option.some.inj heq
        exact ⟨hmounted, hhandle⟩
      · exact h.call t' c hc
  | @more t c ptr loop b hc =>
      refine ⟨h.tree_eq, h.owned, h.handle, ?_⟩
      intro t' c' hc'
      rcases eq_some_of_update hc' with ⟨-, heq⟩ | ⟨-, hc'⟩
      · obtain rfl := Option.some.inj heq
        exact h.call t c hc
      · exact h.call t' c' hc'
  | @done t c ptr x b hc =>
      refine ⟨h.tree_eq, h.owned, h.handle, ?_⟩
      intro t' c' hc'
      rcases eq_some_of_update hc' with ⟨-, heq⟩ | ⟨-, hc'⟩
      · cases heq
      · exact h.call t' c' hc'
  | @release fh _ hidle =>
      refine ⟨h.tree_eq, ?_, ?_, ?_⟩
      · show (s.daemon.files.free fh).Owned ((s.handles.filter _).map Prod.fst)
        rw [map_filter_ne s.handles fh h.owned.nodup]
        exact h.owned.free fh
      · intro fh' path hmem
        obtain ⟨hmem, hne⟩ := List.mem_filter.mp hmem
        obtain ⟨hzero, ptr, hfind, hptr⟩ := h.handle fh' path hmem
        refine ⟨hzero, ptr, ?_, hptr⟩
        rwa [Arena.find_free_of_ne _ (by simpa using hne)]
      · intro t c hc
        obtain ⟨hmounted, hmem⟩ := h.call t c hc
        refine ⟨hmounted, List.mem_filter.mpr ⟨hmem, ?_⟩⟩
        simpa using hidle t c hc
  | destroy hidle =>
      refine ⟨rfl, h.owned, h.handle, ?_⟩
      intro t c hc
      have hc : s.calls t = some c := hc
      rw [hidle t] at hc
      cases hc
  | disturb => exact ⟨h.tree_eq, h.owned, h.handle, h.call⟩

/-- The handles are sound in every run. -/
theorem sound_of_run {b : σ} {hist : List (Event T σ × Reply)}
    (hrun : Run (Session.step dec base) (Session.mount tree b) hist s) : Sound tree s :=
  hrun.invariant (Sound tree) (sound_mount tree b) fun _ _ _ _ h hstep =>
    h.of_happens (h.happens hstep)

omit [DecidableEq T] [Fintype T] in
/-- One handle fewer is left when one of them is released. -/
theorem Sound.length_release (h : Sound tree s) {fh : ℕ} (hfh : fh ∈ s.handles.map Prod.fst) :
    (s.handles.filter fun handle => handle.1 ≠ fh).length + 1 = s.handles.length := by
  have hmap := map_filter_ne s.handles fh h.owned.nodup
  have hlen := congrArg List.length hmap
  rw [List.length_map, List.length_erase_of_mem hfh, List.length_map] at hlen
  have hpos : 0 < s.handles.length := by
    rw [← List.length_map (f := Prod.fst)]
    exact List.length_pos_of_mem hfh
  omega

end VirParquet.Verify
