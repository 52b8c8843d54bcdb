import VirParquet.Found.Interference
import VirParquet.Model.Session
import VirParquet.Verify.Client

/-!
# Reads while others use the underlying file

A read of a file of the tree whose turns interleave with anything that changes the state of the
underlying file. What the loop of `FileMap::Pread` has written and where it is do not depend on that
state, so `endsWithin_pread` says for the shared loop what `returns_content` says for the loop
alone: it ends, within a number of turns that is known at its start, and returns the content of the
file.

* `Backed`: the regular files of a tree over a VTK file, and `VfsFile.content` what they hold.
* `Backed.endsWithin`: a read of such a file returns its content, or fails where the underlying file
  has failed.
* `Served.neverFails`: whatever the maps of a tree say and whatever the underlying file holds, a
  read does not fault.
-/

namespace VirParquet.Verify

open VirParquet.Found VirParquet.Found.Thrift VirParquet.Found.Base64 VirParquet.Model
  VirParquet.Spec VirParquet.Spec.Path

variable {σ : Type} {dec : Decoder} {base : RandomAccessFile σ} {bytes : Bytes}

/-- Some read of the underlying file fails though it is inside the file. -/
def Fails (base : RandomAccessFile σ) (bytes : Bytes) : Prop :=
  ∃ len place s, len ≤ bytes.length - place ∧ (base.pread len place s).1 = none

/-- A base that serves a VTK file does not fail, unless it serves base64 and is complete anyway. -/
theorem not_fails_of_delivers {base64 : Bool} (h : Delivers base64 base bytes) :
    ¬Fails base bytes := by
  rintro ⟨len, place, s, hplace, hfail⟩
  cases base64 with
  | true =>
      have hcomplete : CompleteReads base bytes := h
      exact hcomplete.succeedsInside len place s hplace hfail
  | false =>
      have hboth : ShortReads base bytes ∧ SucceedsInside base bytes := h
      exact hboth.2 len place s hplace hfail

/-- A base that reads a file completely can serve it in both encodings. -/
theorem completeReads_reads (h : CompleteReads base bytes) (base64 : Bool) :
    Reads base64 base bytes := by
  cases base64 with
  | true => exact h
  | false => exact h.shortReads

/-! ## One turn -/

section turn

variable {m : FileMap} {rs : List Region} {V : Bytes}

/-- What a read of a region does: it returns a beginning of what stands there, and at least a byte
if it is asked for any, or it fails because the underlying file has failed. -/
theorem read_region (h : m.Represents rs) (hbase : Reads m.pendingBase64Decoding base bytes)
    (hbytes : bytes.length < 2 ^ 63) (hstart : m.dataStart < 2 ^ 64)
    (hinside : ∀ r ∈ rs, r.Inside (payloadOf dec m.pendingBase64Decoding m.dataStart bytes))
    (hV : V = content (payloadOf dec m.pendingBase64Decoding m.dataStart bytes) rs)
    {i pos len : ℕ} (hi : i < rs.length) (hlow : regionStart rs i ≤ pos)
    (hup : pos + len ≤ regionStart rs (i + 1)) (s : σ) :
    ∃ x s', m.read dec base i (pos - regionStart rs i) len s = .ok (x, s') ∧
      (x = none → Fails base bytes) ∧
      ∀ d, x = some d → d <+: slice V pos len ∧ (0 < len → 0 < d.length) := by
  subst hV
  have hend := regionStart_le rs (i + 1)
  have hlength := length_content hinside
  cases hmode : m.pendingBase64Decoding with
  | false =>
      simp only [Reads, payloadOf, hmode, Bool.false_eq_true, if_false] at hbase hinside ⊢
      rcases read_region_raw (s := s) h hmode hbase (by omega) hstart hinside hi hlow hup with
        ⟨d, hread, rfl, hlen⟩ | ⟨place, hread, hplace, hd⟩
      · refine ⟨_, s, hread, by simp, ?_⟩
        intro d hd
        obtain rfl := Option.some.inj hd
        exact ⟨List.prefix_rfl, fun hpos => hlen.symm ▸ hpos⟩
      · exact ⟨_, _, hread, fun hfail => ⟨len, place, s, hplace, hfail⟩, hd⟩
  | true =>
      simp only [Reads, payloadOf, hmode, if_true] at hbase hinside hlength ⊢
      obtain ⟨s', hread⟩ :=
        read_region_base64 (s := s) h hmode hbase hbytes hinside hi hlow hup
      refine ⟨_, s', hread, by simp, ?_⟩
      intro d hd
      obtain rfl := Option.some.inj hd
      refine ⟨List.prefix_rfl, fun hpos => ?_⟩
      rwa [length_slice_of_le (by omega)]

/-- How many bytes and regions the loop has before it. -/
def turnsLeft (rs : List Region) (st : PreadState Unit) : ℕ :=
  min st.size (totalSize rs - st.offset) + (rs.length - st.i)

/-- **The rule of a shared turn.** If reads of single regions inside the request do not fault,
return no more than is asked for and give `F` when they fail, and what they return at a place has
`D`, which keeps `P` of what was written, then a turn goes on behind the bytes of its region, or the
read returns. A turn that reads a byte if it asks for any brings the loop on. -/
theorem sharedTurn_of_reads (h : m.Represents rs) {size ori : ℕ} (hsize : size < 2 ^ 64)
    (P : Bytes → Prop) (D : ℕ → ℕ → Bytes → Prop) (F : Prop)
    (hread : ∀ i pos len s, i < rs.length → regionStart rs i ≤ pos →
      pos + len ≤ regionStart rs (i + 1) → ori ≤ pos → pos + len ≤ ori + size →
      ∃ x s', m.read dec base i (pos - regionStart rs i) len s = .ok (x, s') ∧ (x = none → F) ∧
        ∀ d, x = some d → d.length ≤ len ∧ D pos len d)
    (hP : ∀ buf len d, P buf → D (ori + buf.length) len d → P (buf ++ d))
    {st : PreadState Unit} (hst : PreadInvariant rs size ori (fun _ buf _ => P buf) st) (s : σ) :
    (∃ st' s' len d, m.sharedTurn dec base st s = .ok (.inl st', s') ∧
        PreadInvariant rs size ori (fun _ buf _ => P buf) st' ∧ D st.offset len d ∧
        ((0 < len → 0 < d.length) → turnsLeft rs st' < turnsLeft rs st)) ∨
      ∃ x s', m.sharedTurn dec base st s = .ok (.inr x, s') ∧ (x = none → F) ∧
        ∀ d, x = some d → d.length = min size (totalSize rs - ori) ∧ P d := by
  obtain ⟨hoffset, hrest, hfile, hatRegion, hbuf⟩ := hst
  by_cases hgo : st.size ≠ 0 ∧ st.offset < totalSize rs
  · have hown := hatRegion hgo.2 hgo.1
    have hat : AtRegion rs (st.over s) :=
      ⟨hown.size_ne, hown.offset_lt, hown.i_lt, hown.start_le, hown.le_start⟩
    have hlow := hown.start_le
    have hup := hown.le_start
    have hi := hown.i_lt
    have hend := regionStart_le rs (st.i + 1)
    have hturn : turnSize rs (st.over s) = min st.size (regionStart rs (st.i + 1) - st.offset) :=
      turnSize_eq rs (st.over s)
    obtain ⟨x, s', hx, hfail, hd⟩ := hread st.i st.offset (turnSize rs (st.over s)) s hi hlow
      (by omega) (by omega) (by omega)
    cases x with
    | none =>
        refine Or.inr ⟨none, s', ?_, hfail, by simp⟩
        rw [FileMap.sharedTurn, preadTurn_none h hat hx]
    | some d =>
        obtain ⟨hle, hD⟩ := hd d rfl
        refine Or.inl ⟨_, s', turnSize rs (st.over s), d,
          by rw [FileMap.sharedTurn, preadTurn_some h hat hx hle
            (show st.size < 2 ^ 64 by omega)], ?_, hD, fun hprogress => ?_⟩
        · refine ⟨?_, ?_, Or.inl ?_, fun hlt hne => ?_, ?_⟩
          · show st.offset + d.length = ori + (st.buf ++ d).length
            rw [List.length_append]
            omega
          · show st.size - d.length + (st.buf ++ d).length = size
            rw [List.length_append]
            omega
          · show st.offset + d.length ≤ totalSize rs
            omega
          · have hnext := hat.next hle hne hlt (st.buf ++ d) s'
            exact ⟨hnext.size_ne, hnext.offset_lt, hnext.i_lt, hnext.start_le, hnext.le_start⟩
          · exact hP st.buf _ d hbuf (hoffset ▸ hD)
        · -- Either bytes were read, or the region was empty and the cursor moves.
          have hcursor : regionStart rs (st.i + 1) ≤ st.offset + d.length ∨ 0 < d.length := by
            omega
          show min (st.size - d.length) (totalSize rs - (st.offset + d.length)) + (rs.length -
              if regionStart rs (st.i + 1) ≤ st.offset + d.length then st.i + 1 else st.i) <
            min st.size (totalSize rs - st.offset) + (rs.length - st.i)
          split <;> omega
  · refine Or.inr ⟨some st.buf, s, ?_, by simp, ?_⟩
    · rw [FileMap.sharedTurn]
      by_cases hzero : st.size = 0
      · rw [preadTurn_of_size_eq_zero (show (st.over s).size = 0 from hzero)]
        rfl
      · have heof : totalSize rs ≤ (st.over s).offset := by
          show totalSize rs ≤ st.offset
          omega
        rw [preadTurn_of_eof h heof]
        rfl
    · rintro d hd
      obtain rfl := Option.some.inj hd
      refine ⟨?_, hbuf⟩
      rcases hfile with hle | hnil
      · omega
      · rw [hnil] at hrest hoffset ⊢
        simp only [List.length_nil] at hrest hoffset ⊢
        omega

/-- The variables of a read have the invariant at its start. -/
theorem preadInvariant_preadStart (h : m.Represents rs) (size ori : ℕ) {P : Bytes → Prop}
    (hP : P []) : PreadInvariant rs size ori (fun _ buf _ => P buf) (m.preadStart size ori ()) := by
  refine ⟨?_, ?_, Or.inr rfl, fun hlt hne => atRegion_preadStart h hne hlt (), hP⟩
  · simp [FileMap.preadStart]
  · simp [FileMap.preadStart]

/-- What holds of the variables of a read between its turns, whatever the underlying file is up to:
what was written is what stands in the file from the beginning of the read on. -/
abbrev Written (rs : List Region) (V : Bytes) (size ori : ℕ) : PreadState Unit → Prop :=
  PreadInvariant rs size ori fun _ buf _ => buf = slice V ori buf.length

/-- What a read of `size` bytes at `ori` returns: the bytes there, or a failure of the underlying
file. -/
def Answers (base : RandomAccessFile σ) (bytes V : Bytes) (size ori : ℕ) (x : Option Bytes) :
    Prop :=
  (x = none → Fails base bytes) ∧ ∀ d, x = some d → d = slice V ori size

/-- **One turn of a shared read** goes on behind the bytes of its region, or returns. -/
theorem sharedTurn_spec (h : m.Represents rs) (hbase : Reads m.pendingBase64Decoding base bytes)
    (hbytes : bytes.length < 2 ^ 63) (hstart : m.dataStart < 2 ^ 64)
    (hinside : ∀ r ∈ rs, r.Inside (payloadOf dec m.pendingBase64Decoding m.dataStart bytes))
    (hV : V = content (payloadOf dec m.pendingBase64Decoding m.dataStart bytes) rs) {size ori : ℕ}
    (hsize : size < 2 ^ 64) {st : PreadState Unit} (hst : Written rs V size ori st) (s : σ) :
    (∃ st' s', m.sharedTurn dec base st s = .ok (.inl st', s') ∧ Written rs V size ori st' ∧
        turnsLeft rs st' < turnsLeft rs st) ∨
      ∃ x s', m.sharedTurn dec base st s = .ok (.inr x, s') ∧
        Answers base bytes V size ori x := by
  have hlength : V.length = totalSize rs := hV ▸ length_content hinside
  have hread : ∀ i pos len (s : σ), i < rs.length → regionStart rs i ≤ pos →
      pos + len ≤ regionStart rs (i + 1) → ori ≤ pos → pos + len ≤ ori + size →
      ∃ x s', m.read dec base i (pos - regionStart rs i) len s = .ok (x, s') ∧
        (x = none → Fails base bytes) ∧
        ∀ d, x = some d → d.length ≤ len ∧ d <+: slice V pos len ∧ (0 < len → 0 < d.length) := by
    intro i pos len s hi hlow hup _ _
    obtain ⟨x, s', hx, hfail, hd⟩ := read_region h hbase hbytes hstart hinside hV hi hlow hup s
    refine ⟨x, s', hx, hfail, fun d heq => ?_⟩
    obtain ⟨hpre, hprogress⟩ := hd d heq
    have hle := hpre.length_le
    rw [length_slice] at hle
    exact ⟨by omega, hpre, hprogress⟩
  rcases sharedTurn_of_reads h hsize (fun buf => buf = slice V ori buf.length) _ _ hread
    (fun buf len d hbuf hd => by
      rw [List.length_append, ← slice_append_slice, ← hbuf, ← eq_slice_of_prefix hd.1]) hst s with
    ⟨st', s', len, d, hturn, hst', ⟨-, hprogress⟩, hleft⟩ | ⟨x, s', hturn, hfail, hd⟩
  · exact Or.inl ⟨st', s', hturn, hst', hleft hprogress⟩
  · refine Or.inr ⟨x, s', hturn, hfail, fun d heq => ?_⟩
    obtain ⟨hall, hbuf⟩ := hd d heq
    rw [hbuf, hall, ← hlength, slice_min]

/-- **A shared read returns the content**, within as many turns as there are regions in the map and
bytes in what it returns, and one more. -/
theorem endsWithin_pread (h : m.Represents rs) (hbase : Reads m.pendingBase64Decoding base bytes)
    (hbytes : bytes.length < 2 ^ 63) (hstart : m.dataStart < 2 ^ 64)
    (hinside : ∀ r ∈ rs, r.Inside (payloadOf dec m.pendingBase64Decoding m.dataStart bytes))
    (hV : V = content (payloadOf dec m.pendingBase64Decoding m.dataStart bytes) rs) {size : ℕ}
    (hsize : size < 2 ^ 64) (ori : ℕ) :
    EndsWithin (m.sharedTurn dec base) (Answers base bytes V size ori)
      (min size (totalSize rs - ori) + rs.length + 1) (m.preadStart size ori ()) := by
  have hinit : Written rs V size ori (m.preadStart size ori ()) :=
    preadInvariant_preadStart h size ori (slice_zero V ori).symm
  have hends := endsWithin_of_variant (Written rs V size ori) (turnsLeft rs)
    (fun st s hst => sharedTurn_spec h hbase hbytes hstart hinside hV hsize hst s) hinit
  apply hends.mono
  simp only [turnsLeft, FileMap.preadStart]
  omega

/-! ### Any base -/

/-- A base that never returns more than it is asked for. This is all that `pread` promises of a file
that anybody may write to, whatever it holds. -/
def Bounded (base : RandomAccessFile σ) : Prop :=
  ∀ size offset s d, (base.pread size offset s).1 = some d → d.length ≤ size

/-- A file that is read like `pread` is bounded. -/
theorem bounded_of_preadLike (h : PreadLike base bytes) : Bounded base := fun _ _ _ _ hd =>
  (h.length_le hd).trans (min_le_left _ _)

/-- A read of a region does not fault and returns no more than it is asked for. -/
theorem read_region_of_bounded (h : m.Represents rs) (hbase : Bounded base) {i pos len : ℕ}
    (hi : i < rs.length) (hlow : regionStart rs i ≤ pos)
    (hup : pos + len ≤ regionStart rs (i + 1)) (s : σ) :
    ∃ x s', m.read dec base i (pos - regionStart rs i) len s = .ok (x, s') ∧
      ∀ d, x = some d → d.length ≤ len := by
  have hbounds := region_bounds hi hlow hup
  rcases hr : rs[i] with direct | ⟨place, size⟩
  · rw [hr] at hbounds
    refine ⟨_, s, h.read_direct hi hr hbounds, fun d hd => ?_⟩
    obtain rfl := Option.some.inj hd
    exact (length_slice_of_le hbounds).le
  · cases hmode : m.pendingBase64Decoding with
    | false => exact ⟨_, _, h.read_raw hi hr hmode, fun d hd => hbase _ _ _ _ hd⟩
    | true =>
        exact ⟨_, _, h.read_base64 hi hr hmode, fun d hd =>
          (Base64Reader.length_of_pread_eq_some hd).le⟩

/-- **A shared read never faults** over any bounded base, and what it returns, if it does, has all
the bytes that the map has there. -/
theorem neverFails_pread (h : m.Represents rs) (hbase : Bounded base) {size : ℕ}
    (hsize : size < 2 ^ 64) (ori : ℕ) :
    NeverFails (m.sharedTurn dec base)
      (fun x => ∀ d, x = some d → d.length = min size (totalSize rs - ori))
      (m.preadStart size ori ()) := by
  refine ⟨PreadInvariant rs size ori fun _ _ _ => True,
    preadInvariant_preadStart h size ori trivial, fun st s hst => ?_⟩
  have hread : ∀ i pos len (s : σ), i < rs.length → regionStart rs i ≤ pos →
      pos + len ≤ regionStart rs (i + 1) → ori ≤ pos → pos + len ≤ ori + size →
      ∃ x s', m.read dec base i (pos - regionStart rs i) len s = .ok (x, s') ∧ (x = none → True) ∧
        ∀ d, x = some d → d.length ≤ len ∧ True := by
    intro i pos len s hi hlow hup _ _
    obtain ⟨x, s', hx, hd⟩ := read_region_of_bounded h hbase hi hlow hup s
    exact ⟨x, s', hx, fun _ => trivial, fun d heq => ⟨hd d heq, trivial⟩⟩
  rcases sharedTurn_of_reads h hsize (fun _ => True) (fun _ _ _ => True) True hread
    (fun _ _ _ _ _ => trivial) hst s with ⟨st', s', -, -, hturn, hst', -⟩ | ⟨x, s', hturn, -, hd⟩
  · exact Or.inl ⟨st', s', hturn, hst'⟩
  · exact Or.inr ⟨x, s', hturn, fun d heq => (hd d heq).1⟩

/-- **A shared read of a request inside the file ends** over any base that reads the file like
`pread`, though not necessarily with what stands there: a base64 read may fail. -/
theorem endsWithin_of_requestInFile (h : m.Represents rs) (hbase : PreadLike base bytes) {size : ℕ}
    (hsize : size < 2 ^ 64) {ori : ℕ} (hin : RequestInFile m bytes.length size ori) :
    EndsWithin (m.sharedTurn dec base) (fun _ => True)
      (min size (totalSize rs - ori) + rs.length + 1) (m.preadStart size ori ()) := by
  have hread : ∀ i pos len (s : σ), i < rs.length → regionStart rs i ≤ pos →
      pos + len ≤ regionStart rs (i + 1) → ori ≤ pos → pos + len ≤ ori + size →
      ∃ x s', m.read dec base i (pos - regionStart rs i) len s = .ok (x, s') ∧ (x = none → True) ∧
        ∀ d, x = some d → d.length ≤ len ∧ (0 < len → 0 < d.length) := by
    intro i pos len s hi hlow hup hori hreq
    obtain ⟨x, s', hx, hd⟩ := read_region_of_requestInFile h hbase hin hi hlow hup hori hreq s
    exact ⟨x, s', hx, fun _ => trivial, hd⟩
  have hends := endsWithin_of_variant (Q := fun _ => True)
    (PreadInvariant rs size ori fun _ _ _ => True) (turnsLeft rs) (fun st s hst => by
      rcases sharedTurn_of_reads h hsize (fun _ => True) (fun _ len d => 0 < len → 0 < d.length)
        True hread (fun _ _ _ _ _ => trivial) hst s with
        ⟨st', s', len, d, hturn, hst', hprogress, hleft⟩ | ⟨x, s', hturn, -, -⟩
      · exact Or.inl ⟨st', s', hturn, hst', hleft hprogress⟩
      · exact Or.inr ⟨x, s', hturn, trivial⟩)
    (preadInvariant_preadStart h size ori trivial)
  apply hends.mono
  simp only [turnsLeft, FileMap.preadStart]
  omega

end turn

/-! ## Files of a tree -/

/-- The regular files of a tree over a VTK file: strings, and the maps that `BuildMap` returned for
arrays in the encoding of the VTK file, with all that they map inside its data. -/
def Backed (dec : Decoder) (base64 : Bool) (bytes : Bytes) : VfsFile → Prop
  | .stringBuf strbuf => strbuf.length < 2 ^ 63
  | .virtual m => (∃ thrift, Built thrift m) ∧ m.pendingBase64Decoding = base64 ∧
      m.dataStart < 2 ^ 64 ∧ ∀ r ∈ m.regions, r.Inside (payloadOf dec base64 m.dataStart bytes)

/-- Over a VTK file that is served without failures these are the readable files. -/
theorem readable_iff_backed {vtk : VtkFile σ} {file : VfsFile} :
    Readable dec vtk file ↔ Backed dec vtk.base64 vtk.bytes file := by
  cases file <;> rfl

/-- What a file holds. -/
def contentOf (dec : Decoder) (base64 : Bool) (bytes : Bytes) : VfsFile → Bytes
  | .stringBuf strbuf => strbuf
  | .virtual m => content (payloadOf dec base64 m.dataStart bytes) m.regions

/-- The turns that a read of a file takes at most: one for each byte, one for each region, and one
to return. -/
def turnBound (file : VfsFile) (size offset : ℕ) : ℕ :=
  min size (fileSize file - offset) +
    (match file with
    | .stringBuf _ => 0
    | .virtual m => m.n) + 1

section files

variable {base64 : Bool} {file : VfsFile}

/-- A file holds as many bytes as `Stat` says. -/
theorem Backed.length_contentOf (h : Backed dec base64 bytes file) :
    (contentOf dec base64 bytes file).length = fileSize file := by
  cases file with
  | stringBuf strbuf => rfl
  | virtual m =>
      obtain ⟨⟨thrift, hbuilt⟩, rfl, -, hinside⟩ := h
      obtain ⟨rs, hrep⟩ := hbuilt.exists_represents
      have hsize : fileSize (.virtual m) = totalSize rs :=
        Except.ok.inj (m.fileSize_eq_ok.symm.trans hrep.fileSize_eq)
      rw [hrep.regions_eq] at hinside
      rw [contentOf, hrep.regions_eq, hsize]
      exact length_content hinside

/-- **A shared read of a file of the tree returns its content**, within the turns there are for
it. -/
theorem Backed.endsWithin (h : Backed dec base64 bytes file) (hbase : Reads base64 base bytes)
    (hbytes : bytes.length < 2 ^ 63) {size : ℕ} (hsize : size < 2 ^ 64) (offset : ℕ) :
    EndsWithin (fun loop s => file.preadTurn dec base size offset loop s)
      (Answers base bytes (contentOf dec base64 bytes file) size offset)
      (turnBound file size offset) (file.preadStart size offset) := by
  cases file with
  | stringBuf strbuf =>
      intro s
      refine Or.inr ⟨_, s, rfl, by simp, ?_⟩
      rintro d hd
      obtain rfl := Option.some.inj hd
      exact stringBufPread_eq strbuf size offset
  | virtual m =>
      obtain ⟨⟨thrift, hbuilt⟩, rfl, hstart, hinside⟩ := h
      obtain ⟨rs, hrep⟩ := hbuilt.exists_represents
      have hfileSize : fileSize (.virtual m) = totalSize rs :=
        Except.ok.inj (m.fileSize_eq_ok.symm.trans hrep.fileSize_eq)
      rw [hrep.regions_eq] at hinside
      have hends := endsWithin_pread hrep hbase hbytes hstart hinside rfl hsize offset
      rw [contentOf, hrep.regions_eq]
      have hbound : turnBound (.virtual m) size offset =
          min size (totalSize rs - offset) + rs.length + 1 := by
        rw [turnBound, hfileSize, hrep.n_eq]
      rw [hbound]
      exact hends

/-- The files of any tree: strings, and maps that `BuildMap` returned, whatever they map. -/
def Served : VfsFile → Prop
  | .stringBuf _ => True
  | .virtual m => ∃ thrift, Built thrift m

/-- **A shared read of a served file never faults** over any bounded base, and what it returns has
the length that `Stat` says. -/
theorem Served.neverFails (h : Served file) (hbase : Bounded base) {size : ℕ}
    (hsize : size < 2 ^ 64) (offset : ℕ) :
    NeverFails (fun loop s => file.preadTurn dec base size offset loop s)
      (fun x => ∀ d, x = some d → d.length = min size (fileSize file - offset))
      (file.preadStart size offset) := by
  cases file with
  | stringBuf strbuf =>
      refine ⟨fun _ => True, trivial, fun _ s _ => Or.inr ⟨_, s, rfl, ?_⟩⟩
      rintro d hd
      obtain rfl := Option.some.inj hd
      rw [stringBufPread_eq, length_slice]
      rfl
  | virtual m =>
      obtain ⟨thrift, hbuilt⟩ := h
      obtain ⟨rs, hrep⟩ := hbuilt.exists_represents
      have hsize' : fileSize (.virtual m) = totalSize rs :=
        Except.ok.inj (m.fileSize_eq_ok.symm.trans hrep.fileSize_eq)
      rw [hsize']
      exact neverFails_pread hrep hbase hsize offset

/-- **A shared read of a served file ends** if it requests nothing that a raw map has and the
underlying file has not. -/
theorem Served.endsWithin (h : Served file) (hbase : PreadLike base bytes) {size : ℕ}
    (hsize : size < 2 ^ 64) {offset : ℕ}
    (hin : ∀ m, file = .virtual m → RequestInFile m bytes.length size offset) :
    EndsWithin (fun loop s => file.preadTurn dec base size offset loop s) (fun _ => True)
      (turnBound file size offset) (file.preadStart size offset) := by
  cases file with
  | stringBuf strbuf =>
      intro s
      exact Or.inr ⟨_, s, rfl, trivial⟩
  | virtual m =>
      obtain ⟨thrift, hbuilt⟩ := h
      obtain ⟨rs, hrep⟩ := hbuilt.exists_represents
      have hfileSize : fileSize (.virtual m) = totalSize rs :=
        Except.ok.inj (m.fileSize_eq_ok.symm.trans hrep.fileSize_eq)
      rw [turnBound, hfileSize, hrep.n_eq]
      exact endsWithin_of_requestInFile hrep hbase hsize (hin m rfl)

end files

end VirParquet.Verify
