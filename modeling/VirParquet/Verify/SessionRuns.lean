import VirParquet.Verify.Session

/-!
# Every run of the file system

What holds in every run of a session from its mount on, however the threads interleave and whatever
else happens to the underlying file. `Tracked` says of the reads that are running that they will
return what they should, and `Running` of one read how many turns it still has.

* `session_safe`: over a tree of readable files no run crashes.
* `session_reads`: every read that returns gives what the file holds that its handle was opened for.
* `session_handles`: the file objects are those of the handles that are not released.
* `session_progress`: a read needs no more turns than are known when it begins.
-/

namespace VirParquet.Verify

open VirParquet.Found VirParquet.Found.Thrift VirParquet.Found.Base64 VirParquet.Model
  VirParquet.Spec VirParquet.Spec.Path

variable {T σ : Type} [DecidableEq T] [Fintype T] {dec : Decoder} {base : RandomAccessFile σ}
  {tree : VtkTree} {s s' : Session T σ}

/-! ## Reads -/

section reads

variable {Q : VfsFile → ℕ → ℕ → Option Bytes → Prop} {good : CString → Prop}

/-- Reads of the files of these paths never fault, and return what `Q` says of the file, the size
and the offset, if they return. -/
def FilesKeep (dec : Decoder) (base : RandomAccessFile σ)
    (Q : VfsFile → ℕ → ℕ → Option Bytes → Prop) (tree : VtkTree) (good : CString → Prop) : Prop :=
  ∀ path, good path → ∀ ptr, resolve tree (some path) = .ok (.file ptr) → ∀ size offset,
    size < 2 ^ 64 → NeverFails (fun loop b => ptr.file.preadTurn dec base size offset loop b)
      (Q ptr.file size offset) (ptr.file.preadStart size offset)

/-- The reads of these paths that are running will not fault, and return what `Q` says. -/
def Tracked (dec : Decoder) (base : RandomAccessFile σ) (Q : VfsFile → ℕ → ℕ → Option Bytes → Prop)
    (tree : VtkTree) (good : CString → Prop) (s : Session T σ) : Prop :=
  ∀ t c, s.calls t = some c → good c.path → ∀ ptr,
    resolve tree (some c.path) = .ok (.file ptr) →
      NeverFails (fun loop b => ptr.file.preadTurn dec base c.size c.offset loop b)
        (Q ptr.file c.size c.offset) c.loop

omit [Fintype T] in
/-- **Reads stay on their way.** -/
theorem Tracked.of_happens (htracked : Tracked dec base Q tree good s)
    (hgood : FilesKeep dec base Q tree good) {e : Event T σ} {r : Reply}
    (hstep : Happens dec base tree s e r s') : Tracked dec base Q tree good s' := by
  cases hstep with
  | getattr => exact htracked
  | readdir => exact htracked
  | refused => exact htracked
  | opened => exact htracked
  | flush => exact htracked
  | release => exact htracked
  | destroy => exact htracked
  | disturb => exact htracked
  | @read t fh size offset path ptr _ _ _ hptr hsize =>
      intro t' c hc hpath ptr' hptr'
      rcases eq_some_of_update hc with ⟨-, heq⟩ | ⟨-, hc⟩
      · obtain rfl := Option.some.inj heq
        obtain rfl := eq_of_resolve hptr hptr'
        exact hgood path hpath ptr hptr size offset hsize
      · exact htracked t' c hc hpath ptr' hptr'
  | @more t c ptr loop b hc hptr hturn =>
      intro t' c' hc' hpath ptr' hptr'
      rcases eq_some_of_update hc' with ⟨-, heq⟩ | ⟨-, hc'⟩
      · obtain rfl := Option.some.inj heq
        obtain rfl := eq_of_resolve hptr hptr'
        rcases (htracked t c hc hpath ptr hptr).turn s.daemon.base with
          ⟨loop', b', hturn', hrest⟩ | ⟨x, b', hturn', -⟩
        · rw [hturn] at hturn'
          cases hturn'
          exact hrest
        · rw [hturn] at hturn'
          cases hturn'
      · exact htracked t' c' hc' hpath ptr' hptr'
  | @done t c ptr x b hc =>
      intro t' c' hc' hpath ptr' hptr'
      rcases eq_some_of_update hc' with ⟨-, heq⟩ | ⟨-, hc'⟩
      · cases heq
      · exact htracked t' c' hc' hpath ptr' hptr'

/-- Reads are on their way in every run. -/
theorem tracked_of_run (hgood : FilesKeep dec base Q tree good) {b : σ}
    {hist : List (Event T σ × Reply)}
    (hrun : Run (Session.step dec base) (Session.mount tree b) hist s) :
    Sound tree s ∧ Tracked dec base Q tree good s :=
  hrun.invariant (fun s => Sound tree s ∧ Tracked dec base Q tree good s)
    ⟨sound_mount tree b, fun _ _ hc => by cases hc⟩ fun _ _ _ _ h hstep =>
      have hhappens := h.1.happens hstep
      ⟨h.1.of_happens hhappens, h.2.of_happens hgood hhappens⟩

omit [Fintype T] in
/-- The reply to a turn in which a read returns is right. -/
theorem Tracked.answers (htracked : Tracked dec base Q tree good s) {e : Event T σ}
    {path : CString} {size offset : ℕ} {nr : ℤ} {x : Option Bytes}
    (hstep : Happens dec base tree s e (.data path size offset nr x) s') (hpath : good path) :
    ∃ ptr, resolve tree (some path) = .ok (.file ptr) ∧ nr = readResult x ∧
      Q ptr.file size offset x := by
  cases hstep with
  | @done t c ptr x b hc hptr hturn =>
      rcases (htracked t c hc hpath ptr hptr).turn s.daemon.base with
        ⟨loop', b', hturn', -⟩ | ⟨x', b', hturn', hx⟩
      · rw [hturn] at hturn'
        cases hturn'
      · rw [hturn] at hturn'
        cases hturn'
        exact ⟨ptr, hptr, rfl, hx⟩

/-- **What has been answered is right**, in every run. -/
theorem answers_of_run (hgood : FilesKeep dec base Q tree good) {b : σ}
    {hist : List (Event T σ × Reply)}
    (hrun : Run (Session.step dec base) (Session.mount tree b) hist s) {e : Event T σ}
    {path : CString} {size offset : ℕ} {nr : ℤ} {x : Option Bytes}
    (hmem : (e, .data path size offset nr x) ∈ hist) (hpath : good path) :
    ∃ ptr, resolve tree (some path) = .ok (.file ptr) ∧ nr = readResult x ∧
      Q ptr.file size offset x := by
  refine hrun.reply_of_mem (fun s => Sound tree s ∧ Tracked dec base Q tree good s)
    (fun _ r => ∀ path size offset nr x, r = .data path size offset nr x → good path →
      ∃ ptr, resolve tree (some path) = .ok (.file ptr) ∧ nr = readResult x ∧
        Q ptr.file size offset x) ⟨sound_mount tree b, fun _ _ hc => by cases hc⟩ ?_ hmem
    path size offset nr x rfl hpath
  rintro s e r s' ⟨hsound, htracked⟩ hstep
  have hhappens := hsound.happens hstep
  refine ⟨⟨hsound.of_happens hhappens, htracked.of_happens hgood hhappens⟩, ?_⟩
  rintro path size offset nr x rfl hpath
  exact htracked.answers hhappens hpath

/-- No run comes to a crash if no read faults. -/
theorem safe_of_filesKeep (hgood : FilesKeep dec base Q tree fun _ => True) {b : σ}
    {hist : List (Event T σ × Reply)}
    (hrun : Run (Session.step dec base) (Session.mount tree b) hist s) :
    Safe (Session.step dec base) s := by
  obtain ⟨hsound, htracked⟩ := tracked_of_run hgood hrun
  intro e crash hcrash
  rcases step_spec dec base hsound e with hnone | ⟨r', s'', hsome, -⟩ |
    ⟨t, c, ptr, f, rfl, hc, hptr, hturn, -⟩
  · rw [hnone] at hcrash
    cases hcrash
  · rw [hsome] at hcrash
    cases hcrash
  · rcases (htracked t c hc trivial ptr hptr).turn s.daemon.base with
      ⟨loop, b', hturn', -⟩ | ⟨x, b', hturn', -⟩
    · rw [hturn] at hturn'
      cases hturn'
    · rw [hturn] at hturn'
      cases hturn'

end reads

/-! ### Files of a VTK file -/

section backed

variable {bytes : Bytes} {base64 : Bool} {good : CString → Prop}

/-- What reads return of files that hold something. -/
abbrev AnswersContent (dec : Decoder) (base : RandomAccessFile σ) (base64 : Bool) (bytes : Bytes)
    (file : VfsFile) : ℕ → ℕ → Option Bytes → Prop :=
  Answers base bytes (contentOf dec base64 bytes file)

/-- Reads of the files of a tree over a VTK file return what these hold. -/
theorem filesKeep_of_backed (hbase : Reads base64 base bytes) (hbytes : bytes.length < 2 ^ 63)
    (hfiles : ∀ path, good path → ∀ ptr, resolve tree (some path) = .ok (.file ptr) →
      Backed dec base64 bytes ptr.file) :
    FilesKeep dec base (AnswersContent dec base base64 bytes) tree good :=
  fun path hpath ptr hptr _ offset hsize =>
    ((hfiles path hpath ptr hptr).endsWithin hbase hbytes hsize offset).neverFails

end backed

/-! ## Progress -/

section progress

variable {Q : VfsFile → ℕ → ℕ → Option Bytes → Prop} {t : T} {path : CString} {size offset : ℕ}
  {ptr : FilePtr} {n : ℕ}

/-- **The next turn of a thread that serves a read**: the read goes on, or it returns, or it runs
into a fault. -/
theorem turn_of_call (hsound : Sound tree s) {c : Call} (hc : s.calls t = some c)
    (hptr : resolve tree (some c.path) = .ok (.file ptr)) :
    (∃ loop b s', ptr.file.preadTurn dec base c.size c.offset c.loop s.daemon.base =
        .ok (.inl loop, b) ∧ Session.step dec base s (.turn t) = some (.ok (s', .pending)) ∧
        Sound tree s' ∧ s'.calls t = some { c with loop := loop }) ∨
      (∃ x b s', ptr.file.preadTurn dec base c.size c.offset c.loop s.daemon.base =
          .ok (.inr x, b) ∧
        Session.step dec base s (.turn t) =
          some (.ok (s', .data c.path c.size c.offset (readResult x) x))) ∨
      ∃ f, ptr.file.preadTurn dec base c.size c.offset c.loop s.daemon.base = .error f := by
  rcases step_spec dec base hsound (.turn t) with hnone |
    ⟨r, s', hsome, hhappens⟩ | ⟨t', c', ptr', f, heq, hc', hptr', hturn, -⟩
  · simp [Session.step, hc] at hnone
  · have hsound' := hsound.of_happens hhappens
    cases hhappens with
    | @more _ c' ptr' loop b hc' hptr' hturn =>
        obtain rfl := Option.some.inj (hc.symm.trans hc')
        obtain rfl := eq_of_resolve hptr hptr'
        exact Or.inl ⟨loop, b, _, hturn, hsome, hsound', Function.update_self ..⟩
    | @done _ c' ptr' x b hc' hptr' hturn =>
        obtain rfl := Option.some.inj (hc.symm.trans hc')
        obtain rfl := eq_of_resolve hptr hptr'
        exact Or.inr (Or.inl ⟨x, b, _, hturn, hsome⟩)
  · cases heq
    obtain rfl := Option.some.inj (hc.symm.trans hc')
    obtain rfl := eq_of_resolve hptr hptr'
    exact Or.inr (Or.inr ⟨f, hturn⟩)

/-- A read that begins is served by its thread, from the start of its loop on. -/
theorem call_of_read (hsound : Sound tree s) {fh : ℕ} {r : Reply}
    (hstep : Session.step dec base s (.read t fh path size offset) = some (.ok (s', r))) :
    Sound tree s' ∧ size < 2 ^ 64 ∧ ∃ ptr, resolve tree (some path) = .ok (.file ptr) ∧
      s'.calls t = some ⟨fh, path, size, offset, ptr.file.preadStart size offset⟩ := by
  have hhappens := hsound.happens hstep
  have hsound' := hsound.of_happens hhappens
  cases hhappens with
  | @read _ _ _ _ _ ptr _ _ _ hptr hsize =>
      exact ⟨hsound', hsize, ptr, hptr, Function.update_self ..⟩

/-- The thread serves a read of the file of the path, which will return with `Q` after at most `n`
turns. -/
def Running (dec : Decoder) (base : RandomAccessFile σ) (Q : VfsFile → ℕ → ℕ → Option Bytes → Prop)
    (tree : VtkTree) (path : CString) (size offset : ℕ) (t : T) (n : ℕ) (s : Session T σ) : Prop :=
  Sound tree s ∧ ∃ fh loop ptr, s.calls t = some ⟨fh, path, size, offset, loop⟩ ∧
    resolve tree (some path) = .ok (.file ptr) ∧
    EndsWithin (fun loop b => ptr.file.preadTurn dec base size offset loop b)
      (Q ptr.file size offset) n loop

/-- **Events of others** leave a read where it is. -/
theorem Running.of_other (h : Running dec base Q tree path size offset t n s)
    {e : Event T σ} {r : Reply} (hstep : Session.step dec base s e = some (.ok (s', r)))
    (hother : e.turnOf t = false) : Running dec base Q tree path size offset t n s' := by
  obtain ⟨hsound, fh, loop, ptr, hc, hptr, hends⟩ := h
  have hhappens := hsound.happens hstep
  refine ⟨hsound.of_happens hhappens, fh, loop, ptr, ?_, hptr, hends⟩
  cases hhappens with
  | @read t' _ _ _ _ _ _ _ hidle =>
      have hne : t ≠ t' := by
        rintro rfl
        rw [hidle] at hc
        cases hc
      exact (Function.update_of_ne hne ..).trans hc
  | @more t' _ _ _ _ _ _ _ =>
      have hne : t' ≠ t := by simpa [Event.turnOf] using hother
      exact (Function.update_of_ne hne.symm ..).trans hc
  | @done t' _ _ _ _ _ _ _ =>
      have hne : t' ≠ t := by simpa [Event.turnOf] using hother
      exact (Function.update_of_ne hne.symm ..).trans hc
  | _ => exact hc

/-- **Its own turns** bring a read on, or it returns. -/
theorem Running.turn (h : Running dec base Q tree path size offset t n s) :
    ∃ s' r, Session.step dec base s (.turn t) = some (.ok (s', r)) ∧
      ((r = .pending ∧ ∃ k, k < n ∧ Running dec base Q tree path size offset t k s') ∨
        ∃ nr x, r = .data path size offset nr x) := by
  obtain ⟨hsound, fh, loop, ptr, hc, hptr, hends⟩ := h
  rcases turn_of_call hsound hc hptr with
    ⟨loop', b, s', hturn, hstep, hsound', hc'⟩ | ⟨x, b, s', -, hstep⟩ | ⟨f, hturn⟩
  · refine ⟨s', _, hstep, Or.inl ⟨rfl, ?_⟩⟩
    rcases hends.turn s.daemon.base with ⟨_, b', k, hturn', hlt, hrest⟩ | ⟨x, b', hturn', -⟩
    · cases hturn.symm.trans hturn'
      exact ⟨k, hlt, hsound', fh, loop', ptr, hc', hptr, hrest⟩
    · cases hturn.symm.trans hturn'
  · exact ⟨s', _, hstep, Or.inr ⟨_, _, rfl⟩⟩
  · rcases hends.turn s.daemon.base with ⟨_, b', k, hturn', -, -⟩ | ⟨x, b', hturn', -⟩
    · cases hturn.symm.trans hturn'
    · cases hturn.symm.trans hturn'

/-- A turn after which the read goes on has used up a turn. -/
theorem Running.of_own (h : Running dec base Q tree path size offset t n s)
    {e : Event T σ} {r : Reply} (hstep : Session.step dec base s e = some (.ok (s', r)))
    (hown : e.turnOf t = true) (hpending : r = .pending) :
    ∃ k, k < n ∧ Running dec base Q tree path size offset t k s' := by
  obtain rfl : e = .turn t := by
    cases e with
    | turn t' => simpa [Event.turnOf] using hown
    | _ => simp [Event.turnOf] at hown
  obtain ⟨s'', r', hturn, ⟨-, hmore⟩ | ⟨nr, x, rfl⟩⟩ := h.turn
  · rw [hstep] at hturn
    cases hturn
    exact hmore
  · rw [hstep] at hturn
    cases hturn
    cases hpending

/-- A read that begins will return, if reads of its file do. -/
theorem running_of_read (hsound : Sound tree s) {fh : ℕ} {r : Reply}
    (hstep : Session.step dec base s (.read t fh path size offset) = some (.ok (s', r)))
    (hptr : resolve tree (some path) = .ok (.file ptr))
    (hends : size < 2 ^ 64 →
      EndsWithin (fun loop b => ptr.file.preadTurn dec base size offset loop b)
        (Q ptr.file size offset) n (ptr.file.preadStart size offset)) :
    Running dec base Q tree path size offset t n s' := by
  obtain ⟨hsound', hsize, ptr', hptr', hc⟩ := call_of_read hsound hstep
  obtain rfl := eq_of_resolve hptr hptr'
  exact ⟨hsound', _, _, _, hc, hptr, hends hsize⟩

/-- **Pending reads** have had fewer turns than they need, and can take the next one. -/
theorem Running.countP_lt (h : Running dec base Q tree path size offset t n s)
    {hist : List (Event T σ × Reply)} (hrun : Run (Session.step dec base) s hist s')
    (hpending : ∀ x ∈ hist, x.1.turnOf t = true → x.2 = .pending) :
    hist.countP (fun x => x.1.turnOf t) < n ∧
      ∃ s'' r, Session.step dec base s' (.turn t) = some (.ok (s'', r)) := by
  obtain ⟨k, hk, hle⟩ := hrun.countP_add_le (Running dec base Q tree path size offset t)
    (Event.turnOf t) (fun x => x.1.turnOf t = true → x.2 = .pending)
    (fun n s e r s' h hnext hok hown => h.of_own hnext hown (hok hown))
    (fun n s e r s' h hnext _ hother => h.of_other hnext hother) hpending h
  obtain ⟨s'', r, hturn, -⟩ := hk.turn
  refine ⟨?_, s'', r, hturn⟩
  have hpos : k ≠ 0 := by
    rintro rfl
    obtain ⟨-, _, _, _, -, -, hends⟩ := hk
    exact hends
  omega

/-- Its own turns alone bring a read to its end. -/
theorem Running.exists_run (h : Running dec base Q tree path size offset t n s) :
    ∃ hist s' nr x, Run (Session.step dec base) s hist s' ∧
      (.turn t, .data path size offset nr x) ∈ hist := by
  induction n using Nat.strong_induction_on generalizing s with
  | _ n ih =>
      obtain ⟨s', r, hstep, ⟨-, k, hlt, hmore⟩ | ⟨nr, x, rfl⟩⟩ := h.turn
      · obtain ⟨hist, s'', nr, x, hrun, hmem⟩ := ih k hlt hmore
        exact ⟨_, s'', nr, x, (Run.single hstep).trans hrun, List.mem_append_right _ hmem⟩
      · exact ⟨_, s', nr, x, Run.single hstep, List.mem_singleton_self _⟩

end progress

/-! ## A session with one array -/

section one

/-- The only file of a tree with one array is its map. -/
theorem file_of_resolve_pointDataOf {m : FileMap} {path : CString} {ptr : FilePtr}
    (h : resolve (.new (pointDataOf m) plainStat) (some path) = .ok (.file ptr)) :
    ptr.file = .virtual m := by
  have hdirs : ∀ name sub, (pointDataOf m).find name = some sub →
      sub = .array ⟨StringMap.empty.assign ⟨ascii "x.parquet", by decide⟩ m⟩ := by
    intro name sub hsub
    by_cases hname : name = pointdataName.bytes
    · rw [hname, pointDataOf, StringMap.find_assign_self] at hsub
      exact (Option.some.inj hsub).symm
    · rw [pointDataOf, StringMap.find_assign_of_ne _ hname] at hsub
      cases hsub
  rcases file_of_resolve h with ⟨name, dir, key, value, hsub, -, -⟩ |
    ⟨name, dir, key, map, hsub, hmap, hfile⟩
  · cases hdirs name _ hsub
  · cases hdirs name _ hsub
    rw [hfile]
    by_cases hkey : key = ascii "x.parquet"
    · have hself : (StringMap.empty.assign ⟨ascii "x.parquet", by decide⟩ m).find
          (ascii "x.parquet") = some m := StringMap.find_assign_self _ _ _
      rw [hkey, hself] at hmap
      rw [Option.some.inj hmap]
    · rw [StringMap.find_assign_of_ne _ hkey] at hmap
      cases hmap

/-- The map of an array of four bytes over its file. -/
theorem exists_backed_fourBytes :
    ∃ m, buildMapUncompressed compact (ascii "x") .int32 false ⟨4, 4⟩ = .ok m ∧
      Backed standardDecoder false [4, 0, 0, 0, 1, 2, 3, 4] (.virtual m) := by
  obtain ⟨m, physical, converted, hm, hmap⟩ := exists_map_fourBytes
  have hbuilt : Built compact m := ⟨ascii "x", .int32, false, Or.inr ⟨_, hm⟩⟩
  have hreadable : Readable standardDecoder
      (.ofBytes [4, 0, 0, 0, 1, 2, 3, 4] false (by decide)) (.virtual m) :=
    readable_of_isMapOf hbuilt hmap (by decide) (by decide)
  exact ⟨m, hm, readable_iff_backed.mp hreadable⟩

/-- A file can be opened and a read of it can begin. -/
theorem exists_run_read (dec : Decoder) (base : RandomAccessFile σ) (b : σ) {path : CString}
    {ptr : FilePtr} (hptr : resolve tree (some path) = .ok (.file ptr)) (t : T) (size offset : ℕ)
    (hsize : size < 2 ^ 64) (hoffset : offset < 2 ^ 63) :
    ∃ hist s s₁ r, Run (Session.step dec base) (Session.mount tree b) hist s ∧
      Session.step dec base s (.read t 1 path size offset) = some (.ok (s₁, r)) := by
  have hmount : Sound tree (Session.mount tree b : Session T σ) := sound_mount tree b
  have hopen : Session.step dec base (Session.mount tree b : Session T σ)
      (.openFile path 0 1) = _ := hmount.step_openFile dec base ⟨rfl, by decide, rfl⟩ rfl hptr
  have hrun := Run.single hopen
  obtain ⟨_, -, hread⟩ := (sound_of_run hrun).step_read dec base t 1 path
    ⟨rfl, List.mem_cons_self, rfl, hsize, hoffset⟩
  exact ⟨_, _, _, _, hrun, hread⟩

/-- There is a session in which the file of an array of four bytes is opened and read. -/
theorem exists_session_fourBytes :
    ∃ (m : FileMap) (hist : List (Event (Fin 2) Unit × Reply)) (s : Session (Fin 2) Unit) (nr : ℤ)
      (x : Option Bytes),
      buildMapUncompressed compact (ascii "x") .int32 false ⟨4, 4⟩ = .ok m ∧
      Backed standardDecoder false [4, 0, 0, 0, 1, 2, 3, 4] (.virtual m) ∧
      Run (Session.step standardDecoder (osFile [4, 0, 0, 0, 1, 2, 3, 4]))
        (Session.mount (.new (pointDataOf m) plainStat) ()) hist s ∧
      (.turn 0, .data pointDataPath 200 0 nr x) ∈ hist := by
  obtain ⟨m, hm, hbacked⟩ := exists_backed_fourBytes
  have hptr := resolve_pointDataPath m
  obtain ⟨hist, s, s₁, r, hrun, hread⟩ := exists_run_read standardDecoder
    (osFile [4, 0, 0, 0, 1, 2, 3, 4]) () hptr (0 : Fin 2) 200 0 (by decide)
    (by decide)
  have hrunning := running_of_read
    (Q := AnswersContent standardDecoder (osFile _) false [4, 0, 0, 0, 1, 2, 3, 4])
    (sound_of_run hrun) hread hptr fun hsize =>
      hbacked.endsWithin (osFile_completeReads _).shortReads (by decide) hsize 0
  obtain ⟨hist', s₂, nr, x, hrun', hmem⟩ := hrunning.exists_run
  exact ⟨m, _, s₂, nr, x, hm, hbacked, (hrun.snoc hread).trans hrun',
    List.mem_append_right _ hmem⟩

end one

/-! ## Runs -/

/-- No run over a tree of readable files comes to a crash. -/
theorem safe_of_run {bytes : Bytes} {base64 : Bool} (hbase : Reads base64 base bytes)
    (hbytes : bytes.length < 2 ^ 63)
    (hfiles : ∀ path ptr, resolve tree (some path) = .ok (.file ptr) →
      Backed dec base64 bytes ptr.file) {b : σ} {hist : List (Event T σ × Reply)}
    (hrun : Run (Session.step dec base) (Session.mount tree b) hist s) :
    Safe (Session.step dec base) s :=
  safe_of_filesKeep (filesKeep_of_backed hbase hbytes fun path _ => hfiles path) hrun

/-- **No run crashes**, over a tree whose files are all those of a VTK file: whatever the threads
and the kernel do and in which order, no deleted object is touched, nothing is deleted twice, and no
operation faults. -/
theorem session_safe {T σ : Type} [DecidableEq T] [Fintype T] (dec : Decoder)
    (base : RandomAccessFile σ) (base64 : Bool) (bytes : Bytes) (tree : VtkTree)
    (hbase : Reads base64 base bytes) (hbytes : bytes.length < 2 ^ 63)
    (hfiles : ∀ path ptr, resolve tree (some path) = .ok (.file ptr) →
      Backed dec base64 bytes ptr.file) (b : σ) (hist : List (Event T σ × Reply))
    (s : Session T σ) (hrun : Run (Session.step dec base) (Session.mount tree b) hist s) :
    Safe (Session.step dec base) s :=
  safe_of_run hbase hbytes hfiles hrun

/-- The theorem at a session in which a file of four bytes is read. -/
theorem session_safe_fourBytes :
    ∃ m hist s, buildMapUncompressed compact (ascii "x") .int32 false ⟨4, 4⟩ = .ok m ∧
      Run (Session.step standardDecoder (osFile [4, 0, 0, 0, 1, 2, 3, 4]))
        (Session.mount (.new (pointDataOf m) plainStat) () : Session (Fin 2) Unit) hist s ∧
      hist ≠ [] ∧ Safe (Session.step standardDecoder (osFile [4, 0, 0, 0, 1, 2, 3, 4])) s := by
  obtain ⟨m, hist, s, nr, x, hm, hbacked, hrun, hmem⟩ := exists_session_fourBytes
  refine ⟨m, hist, s, hm, hrun, List.ne_nil_of_mem hmem, ?_⟩
  refine session_safe standardDecoder (osFile [4, 0, 0, 0, 1, 2, 3, 4]) false
    [4, 0, 0, 0, 1, 2, 3, 4] _ (osFile_completeReads _).shortReads (by decide) ?_ () hist s hrun
  intro path ptr hptr
  rw [file_of_resolve_pointDataOf hptr]
  exact hbacked

/-- A read that has returned gave what its file returns. -/
theorem data_of_run {bytes : Bytes} {base64 : Bool} (hbase : Reads base64 base bytes)
    (hbytes : bytes.length < 2 ^ 63) {path : CString} {ptr : FilePtr}
    (hptr : resolve tree (some path) = .ok (.file ptr)) (hfile : Backed dec base64 bytes ptr.file)
    {b : σ} {hist : List (Event T σ × Reply)}
    (hrun : Run (Session.step dec base) (Session.mount tree b) hist s) {e : Event T σ}
    {size offset : ℕ} {nr : ℤ} {x : Option Bytes}
    (hmem : (e, .data path size offset nr x) ∈ hist) :
    nr = readResult x ∧
      ((x = some (slice (contentOf dec base64 bytes ptr.file) offset size) ∧
          (size < 2 ^ 31 →
            nr = (slice (contentOf dec base64 bytes ptr.file) offset size).length)) ∨
        (x = none ∧ nr = - eIO ∧ Fails base bytes)) := by
  have hgood : FilesKeep dec base (AnswersContent dec base base64 bytes) tree (· = path) :=
    filesKeep_of_backed hbase hbytes (by
      rintro path' rfl ptr' hptr'
      rwa [← eq_of_resolve hptr hptr'])
  obtain ⟨ptr', hptr', rfl, hnone, hsome⟩ := answers_of_run hgood hrun hmem rfl
  obtain rfl := eq_of_resolve hptr hptr'
  refine ⟨rfl, ?_⟩
  cases x with
  | none => exact Or.inr ⟨rfl, rfl, hnone rfl⟩
  | some d =>
      obtain rfl := hsome d rfl
      refine Or.inl ⟨rfl, fun hsize => readResult_of_lt ?_⟩
      rw [length_slice]
      omega

/-- **What reads return.** In every run, a read that returns has the bytes of the file that its path
leads to, whatever happened between its turns, and counts them, or says that the underlying file has
failed. Nothing is assumed about the other files of the tree. -/
theorem session_reads {T σ : Type} [DecidableEq T] [Fintype T] (dec : Decoder)
    (base : RandomAccessFile σ) (base64 : Bool) (bytes : Bytes) (tree : VtkTree)
    (hbase : Reads base64 base bytes) (hbytes : bytes.length < 2 ^ 63) (path : CString)
    (ptr : FilePtr) (hptr : resolve tree (some path) = .ok (.file ptr))
    (hfile : Backed dec base64 bytes ptr.file) (b : σ) (hist : List (Event T σ × Reply))
    (s : Session T σ) (hrun : Run (Session.step dec base) (Session.mount tree b) hist s)
    (e : Event T σ) (size offset : ℕ) (nr : ℤ) (x : Option Bytes)
    (hmem : (e, .data path size offset nr x) ∈ hist) :
    nr = readResult x ∧
      ((x = some (slice (contentOf dec base64 bytes ptr.file) offset size) ∧
          (size < 2 ^ 31 →
            nr = (slice (contentOf dec base64 bytes ptr.file) offset size).length)) ∨
        (x = none ∧ nr = - eIO ∧ Fails base bytes)) :=
  data_of_run hbase hbytes hptr hfile hrun hmem

/-- The theorem at a session in which a file of four bytes is read. -/
theorem session_reads_fourBytes :
    ∃ m nr x, buildMapUncompressed compact (ascii "x") .int32 false ⟨4, 4⟩ = .ok m ∧
      nr = readResult x ∧
        ((x = some (slice (contentOf standardDecoder false [4, 0, 0, 0, 1, 2, 3, 4] (.virtual m))
              0 200) ∧
            (200 < 2 ^ 31 → nr = (slice (contentOf standardDecoder false
              [4, 0, 0, 0, 1, 2, 3, 4] (.virtual m)) 0 200).length)) ∨
          (x = none ∧ nr = - eIO ∧ Fails (osFile [4, 0, 0, 0, 1, 2, 3, 4])
            [4, 0, 0, 0, 1, 2, 3, 4])) := by
  obtain ⟨m, hist, s, nr, x, hm, hbacked, hrun, hmem⟩ := exists_session_fourBytes
  exact ⟨m, nr, x, hm, session_reads standardDecoder (osFile [4, 0, 0, 0, 1, 2, 3, 4]) false
    [4, 0, 0, 0, 1, 2, 3, 4] _ (osFile_completeReads _).shortReads (by decide) pointDataPath _
    (resolve_pointDataPath m) hbacked () hist s hrun _ 200 0 nr x hmem⟩

/-- **No file object is lost or kept.** After every run the file objects are those at the addresses
of the handles, which are distinct and not zero, and there are as many as files were opened and not
released. So once all have been released there are none. -/
theorem session_handles {T σ : Type} [DecidableEq T] [Fintype T] (dec : Decoder)
    (base : RandomAccessFile σ) (tree : VtkTree) (b : σ) (hist : List (Event T σ × Reply))
    (s : Session T σ) (hrun : Run (Session.step dec base) (Session.mount tree b) hist s) :
    (∀ a, (s.daemon.files.find a).isSome ↔ a ∈ s.handles.map Prod.fst) ∧
      (s.handles.map Prod.fst).Nodup ∧ 0 ∉ s.handles.map Prod.fst ∧
      hist.countP (fun x => x.2.opens) =
        hist.countP (fun x => x.1.releases) + s.handles.length := by
  have hsound := sound_of_run hrun
  refine ⟨hsound.owned.isSome_iff, hsound.owned.nodup, ?_, ?_⟩
  · intro hmem
    obtain ⟨⟨fh, path⟩, hhandle, hzero⟩ := List.mem_map.mp hmem
    exact (hsound.handle fh path hhandle).1 hzero
  · have hboth : Sound tree s ∧ hist.countP (fun x => x.2.opens) =
        hist.countP (fun x => x.1.releases) + s.handles.length := by
      refine hrun.history_invariant (fun hist s => Sound tree s ∧
        hist.countP (fun x => x.2.opens) =
          hist.countP (fun x => x.1.releases) + s.handles.length) ?_ ?_
      · exact ⟨sound_mount tree b, rfl⟩
      · rintro hist s e r s' ⟨hs, hcount⟩ hstep
        have hhappens := hs.happens hstep
        refine ⟨hs.of_happens hhappens, ?_⟩
        rw [List.countP_append, List.countP_append, List.countP_singleton, List.countP_singleton,
          hcount]
        cases hhappens with
        | refused hr => simp [Reply.opens, Event.releases, hr]
        | opened =>
            simp only [Reply.opens, Event.releases, decide_true, Bool.false_eq_true, if_false,
              if_true, List.length_cons]
            omega
        | release hfh =>
            have hlen := hs.length_release hfh
            simp only [Reply.opens, Event.releases, Bool.false_eq_true, if_false, if_true]
            omega
        | _ => simp [Reply.opens, Event.releases]
    exact hboth.2

/-- The theorem at a session in which a file of four bytes is read. -/
theorem session_handles_fourBytes :
    ∃ m hist s, Run (Session.step standardDecoder (osFile [4, 0, 0, 0, 1, 2, 3, 4]))
        (Session.mount (.new (pointDataOf m) plainStat) () : Session (Fin 2) Unit) hist s ∧
      hist ≠ [] ∧
      (∀ a, (s.daemon.files.find a).isSome ↔ a ∈ s.handles.map Prod.fst) ∧
      (s.handles.map Prod.fst).Nodup ∧ 0 ∉ s.handles.map Prod.fst ∧
      hist.countP (fun x => x.2.opens) =
        hist.countP (fun x => x.1.releases) + s.handles.length := by
  obtain ⟨m, hist, s, nr, x, hm, hbacked, hrun, hmem⟩ := exists_session_fourBytes
  exact ⟨m, hist, s, hrun, List.ne_nil_of_mem hmem, session_handles _ _ _ _ hist s hrun⟩

/-- **Reads come to an end.** In every run after a read has begun and in which it has not returned,
its thread has had fewer turns than there are bytes to return and regions in the map of the file,
and one more; and its next turn can be taken. -/
theorem session_progress {T σ : Type} [DecidableEq T] [Fintype T] (dec : Decoder)
    (base : RandomAccessFile σ) (base64 : Bool) (bytes : Bytes) (tree : VtkTree)
    (hbase : Reads base64 base bytes) (hbytes : bytes.length < 2 ^ 63) (b : σ)
    (hist : List (Event T σ × Reply)) (s s₁ : Session T σ)
    (hrun : Run (Session.step dec base) (Session.mount tree b) hist s)
    (t : T) (fh : ℕ) (path : CString) (size offset : ℕ) (r : Reply)
    (hstep : Session.step dec base s (.read t fh path size offset) = some (.ok (s₁, r)))
    (ptr : FilePtr) (hptr : resolve tree (some path) = .ok (.file ptr))
    (hfile : Backed dec base64 bytes ptr.file) (hist' : List (Event T σ × Reply))
    (s₂ : Session T σ) (hrun' : Run (Session.step dec base) s₁ hist' s₂)
    (hpending : ∀ x ∈ hist', x.1.turnOf t = true → x.2 = .pending) :
    hist'.countP (fun x => x.1.turnOf t) < turnBound ptr.file size offset ∧
      ∃ s₃ r', Session.step dec base s₂ (.turn t) = some (.ok (s₃, r')) := by
  exact (running_of_read (Q := AnswersContent dec base base64 bytes) (sound_of_run hrun) hstep hptr
    fun hsize => hfile.endsWithin hbase hbytes hsize offset).countP_lt hrun' hpending

/-- The theorem at the beginning of a read of a file of four bytes. -/
theorem session_progress_fourBytes :
    ∃ m, buildMapUncompressed compact (ascii "x") .int32 false ⟨4, 4⟩ = .ok m ∧
      0 < turnBound (.virtual m) 200 0 ∧
      ∃ (s s' : Session (Fin 2) Unit) (r : Reply),
        Session.step standardDecoder (osFile [4, 0, 0, 0, 1, 2, 3, 4]) s (.turn 0) =
          some (.ok (s', r)) := by
  obtain ⟨m, hm, hbacked⟩ := exists_backed_fourBytes
  have hptr := resolve_pointDataPath m
  obtain ⟨hist, s, s₁, r, hrun, hread⟩ := exists_run_read standardDecoder
    (osFile [4, 0, 0, 0, 1, 2, 3, 4]) () hptr (0 : Fin 2) 200 0 (by decide)
    (by decide)
  obtain ⟨hbound, s₃, r', hturn⟩ := session_progress standardDecoder
    (osFile [4, 0, 0, 0, 1, 2, 3, 4]) false [4, 0, 0, 0, 1, 2, 3, 4] _
    (osFile_completeReads _).shortReads (by decide) () hist s s₁ hrun 0 1 pointDataPath 200 0 r
    hread _ hptr hbacked [] s₁ .nil fun x hx => absurd hx List.not_mem_nil
  exact ⟨m, hm, hbound, s₁, s₃, r', hturn⟩

end VirParquet.Verify
