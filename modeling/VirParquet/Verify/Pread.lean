import VirParquet.Model.FileMap

/-!
# What a positional read of a virtual file returns

The loop of `FileMap::Pread` over a map that represents a list of regions. `preadTurn_some` and
`preadTurn_none` are its turn, `returns_of_reads` is its rule: whatever the reads of single regions
keep and whatever they do at a failure, a whole read keeps and does, it accesses the vectors in
bounds, and it ends with all the bytes there are. The measure is the number of bytes to the end of
the file plus the number of regions to the last one: a turn that reads nothing has met an empty
region and goes on to the next.

On top of it the two encodings: `read_region_raw` and `read_region_base64` are the reads of single
regions, and `pread_content` is the content served by a sequence of calls of the builder.
-/

namespace VirParquet.Verify

open VirParquet.Found VirParquet.Found.Base64 VirParquet.Model

variable {σ : Type} {dec : Decoder} {m : FileMap} {base : RandomAccessFile σ} {rs : List Region}

/-- Where region `i` begins in the file. -/
abbrev regionStart (rs : List Region) (i : ℕ) : ℕ := start (rs.map Region.size) i

/-- No region begins behind the end of the file. -/
theorem regionStart_le (rs : List Region) (i : ℕ) : regionStart rs i ≤ totalSize rs :=
  start_le_sum _ _

/-- Regions begin in order. -/
theorem regionStart_mono (rs : List Region) {i j : ℕ} (h : i ≤ j) :
    regionStart rs i ≤ regionStart rs j := start_mono _ h

/-- The last region ends with the file. -/
theorem regionStart_length (rs : List Region) : regionStart rs rs.length = totalSize rs := by
  have := start_length (rs.map Region.size)
  rwa [List.length_map] at this

/-! ## One turn -/

section turn

variable {st : PreadState σ}

/-- Nothing is left to be read. -/
theorem preadTurn_of_size_eq_zero (h : st.size = 0) :
    m.preadTurn dec base st = .ok (.inr (some st.buf, st.base)) := by
  simp [FileMap.preadTurn, h]

/-- The end of the file is reached. -/
theorem preadTurn_of_eof (h : m.Represents rs) (heof : totalSize rs ≤ st.offset) :
    m.preadTurn dec base st = .ok (.inr (some st.buf, st.base)) := by
  have hsize := h.fileSize_eq
  unfold FileMap.fileSize at hsize
  by_cases hzero : st.size = 0
  · exact preadTurn_of_size_eq_zero hzero
  · simp [FileMap.preadTurn, hzero, hsize, bind, Except.bind, not_lt.mpr heof]

/-- The cursor stands at a region that holds the position, or ends there. -/
structure AtRegion (rs : List Region) (st : PreadState σ) : Prop where
  size_ne : st.size ≠ 0
  offset_lt : st.offset < totalSize rs
  i_lt : st.i < rs.length
  start_le : regionStart rs st.i ≤ st.offset
  le_start : st.offset ≤ regionStart rs (st.i + 1)

/-- How much the turn asks of the region. -/
abbrev turnSize (rs : List Region) (st : PreadState σ) : ℕ :=
  min st.size (regionStart rs (st.i + 1) - st.offset)

/-- A turn asks for what is left, or for the rest of the region. -/
theorem turnSize_eq (rs : List Region) (st : PreadState σ) :
    turnSize rs st = min st.size (regionStart rs (st.i + 1) - st.offset) := rfl

/-- The accesses of a turn are in bounds: it comes down to the read of its region. -/
theorem preadTurn_eq_bind (h : m.Represents rs) (hat : AtRegion rs st) :
    m.preadTurn dec base st =
      (m.read dec base st.i (st.offset - regionStart rs st.i) (turnSize rs st) st.base).bind
        fun p => match p.1 with
          | none => .ok (.inr (none, p.2))
          | some d => .ok (.inl
              { offset := u64 (st.offset + d.length)
                size := subU64 st.size d.length
                i := if regionStart rs (st.i + 1) ≤ u64 (st.offset + d.length) then st.i + 1
                  else st.i
                buf := st.buf ++ d
                base := p.2 }) := by
  have hi := hat.i_lt
  have htotal := h.totalSize_lt
  have hend := regionStart_le rs (st.i + 1)
  have hlt := hat.offset_lt
  have hsize := h.fileSize_eq
  unfold FileMap.fileSize at hsize
  have hnext := h.vecAt_offsets (i := st.i + 1) (by omega)
  have hhere := h.vecAt_offsets (i := st.i) (by omega)
  have hcut := subU64_of_le hat.start_le (by omega)
  have hcut' := subU64_of_le hat.le_start (by omega)
  rw [FileMap.preadTurn, if_neg hat.size_ne, Exec.bind_of_eq_ok hsize, if_pos hlt,
    Exec.bind_of_eq_ok hnext, Exec.bind_of_eq_ok hhere, hcut, hcut']
  rfl

/-- A turn whose read fails leaves with the failure. -/
theorem preadTurn_none (h : m.Represents rs) (hat : AtRegion rs st) {s' : σ}
    (hread : m.read dec base st.i (st.offset - regionStart rs st.i) (turnSize rs st) st.base =
      .ok (none, s')) :
    m.preadTurn dec base st = .ok (.inr (none, s')) := by
  rw [preadTurn_eq_bind h hat, hread]
  rfl

/-- A turn whose read succeeds goes on behind the bytes read. -/
theorem preadTurn_some (h : m.Represents rs) (hat : AtRegion rs st) {d : Bytes} {s' : σ}
    (hread : m.read dec base st.i (st.offset - regionStart rs st.i) (turnSize rs st) st.base =
      .ok (some d, s')) (hlen : d.length ≤ turnSize rs st) (hsize : st.size < 2 ^ 64) :
    m.preadTurn dec base st = .ok (.inl
      { offset := st.offset + d.length
        size := st.size - d.length
        i := if regionStart rs (st.i + 1) ≤ st.offset + d.length then st.i + 1 else st.i
        buf := st.buf ++ d
        base := s' }) := by
  have htotal := h.totalSize_lt
  have hend := regionStart_le rs (st.i + 1)
  have hup := hat.le_start
  have hturn := turnSize_eq rs st
  rw [preadTurn_eq_bind h hat, hread]
  dsimp only [Except.bind]
  rw [u64_of_lt (by omega), subU64_of_le (by omega) hsize]

/-- Behind the bytes read the cursor is at its region again: it has moved on exactly when the end
of the region was reached. -/
theorem AtRegion.next (hat : AtRegion rs st) {n : ℕ} (hn : n ≤ turnSize rs st)
    (hne : st.size - n ≠ 0) (hlt : st.offset + n < totalSize rs) (buf : Bytes) (s : σ) :
    AtRegion rs
      { offset := st.offset + n
        size := st.size - n
        i := if regionStart rs (st.i + 1) ≤ st.offset + n then st.i + 1 else st.i
        buf := buf
        base := s } := by
  obtain ⟨-, -, hi, hlow, hup⟩ := hat
  have hturn := turnSize_eq rs st
  by_cases hnext : regionStart rs (st.i + 1) ≤ st.offset + n
  · have hlast : st.i + 1 ≠ rs.length := by
      intro heq
      have := regionStart_length rs
      rw [← heq] at this
      omega
    have hmono := regionStart_mono rs (Nat.le_add_right (st.i + 1) 1)
    simp only [if_pos hnext]
    exact ⟨hne, hlt, by dsimp only; omega, hnext, by dsimp only; omega⟩
  · simp only [if_neg hnext]
    exact ⟨hne, hlt, hi, by dsimp only; omega, by dsimp only; omega⟩

end turn

/-! ## The loop -/

/-- What holds between the turns of a read of `size` bytes from `ori` on: the position and the
rest follow from the bytes written, and before the end of the file the cursor is at its region. -/
structure PreadInvariant (rs : List Region) (size ori : ℕ) (P : ℕ → Bytes → σ → Prop)
    (st : PreadState σ) : Prop where
  offset_eq : st.offset = ori + st.buf.length
  size_eq : st.size + st.buf.length = size
  in_file : st.offset ≤ totalSize rs ∨ st.buf = []
  at_region : st.offset < totalSize rs → st.size ≠ 0 → AtRegion rs st
  holds : P st.offset st.buf st.base

/-- The cursor starts at the region of the position. -/
theorem atRegion_preadStart (h : m.Represents rs) {size ori : ℕ} (hsize : size ≠ 0)
    (hori : ori < totalSize rs) (s : σ) : AtRegion rs (m.preadStart size ori s) := by
  obtain ⟨i, hi, hlow, hup⟩ := exists_block hori
  rw [List.length_map] at hi
  have hcursor : (m.preadStart size ori s).i = i := by
    show upperBound m.offsets ori - 1 = i
    rw [h.offsets_eq, upperBound_starts (by simpa using hi) hlow hup, Nat.add_sub_cancel]
  exact ⟨hsize, hori, by rw [hcursor]; exact hi, by rw [hcursor]; exact hlow,
    by rw [hcursor]; exact hup.le⟩

/-- **The rule of `FileMap::Pread`.** If reads of single regions inside the request do not fault,
return no more than asked for, nothing only if nothing is asked for, and keep `P`, and give `F`
when they fail, then the whole read returns: either it fails with `F`, or it has all the bytes up
to the end of the request or of the file, with `P`. -/
theorem returns_of_reads (h : m.Represents rs) {size ori : ℕ} (hsize : size < 2 ^ 64)
    (P : ℕ → Bytes → σ → Prop) (F : σ → Prop) {s : σ} (hs : P ori [] s)
    (hread : ∀ i pos len buf s, i < rs.length → regionStart rs i ≤ pos →
      pos + len ≤ regionStart rs (i + 1) → ori ≤ pos → pos + len ≤ ori + size →
      pos < totalSize rs → P pos buf s →
      ∃ x s', m.read dec base i (pos - regionStart rs i) len s = .ok (x, s') ∧
        (x = none → F s') ∧ ∀ d, x = some d →
          d.length ≤ len ∧ (0 < len → 0 < d.length) ∧ P (pos + d.length) (buf ++ d) s') :
    ∃ x s', m.Returns dec base size ori s x s' ∧ (x = none → F s') ∧
      ∀ d, x = some d → d.length = min size (totalSize rs - ori) ∧ P (ori + d.length) d s' := by
  have hrule : ∃ r, Ends (m.preadTurn dec base) (m.preadStart size ori s) r ∧ _ := ends_of_variant
    (PreadInvariant rs size ori P)
    (fun st => (totalSize rs - st.offset) + (rs.length - st.i))
    (fun r => (r.1 = none → F r.2) ∧ ∀ d, r.1 = some d →
      d.length = min size (totalSize rs - ori) ∧ P (ori + d.length) d r.2) ?_ ?_
  · obtain ⟨⟨x, s'⟩, hends, hF, hP⟩ := hrule
    exact ⟨x, s', hends, hF, hP⟩
  · intro st hst
    obtain ⟨hoffset, hrest, hfile, hatRegion, hP⟩ := hst
    by_cases hgo : st.size ≠ 0 ∧ st.offset < totalSize rs
    · have hat := hatRegion hgo.2 hgo.1
      have hlow := hat.start_le
      have hup := hat.le_start
      have hturn := turnSize_eq rs st
      have hend := regionStart_le rs (st.i + 1)
      obtain ⟨x, s', hx, hF, hd⟩ := hread st.i st.offset (turnSize rs st) st.buf st.base hat.i_lt
        hlow (by omega) (by omega) (by omega) hgo.2 hP
      cases x with
      | none => exact Or.inr ⟨_, preadTurn_none h hat hx, fun _ => hF rfl, by simp⟩
      | some d =>
          obtain ⟨hlen, hpos, hP'⟩ := hd d rfl
          refine Or.inl ⟨_, preadTurn_some h hat hx hlen (by omega), ?_, ?_⟩
          · refine ⟨?_, ?_, Or.inl ?_, fun hlt hne => ?_, hP'⟩
            · simp only [List.length_append]
              omega
            · simp only [List.length_append]
              omega
            · dsimp only
              omega
            · exact hat.next hlen hne hlt _ _
          · -- Either bytes were read, or the region was empty and the cursor moves.
            have hi := hat.i_lt
            dsimp only
            split <;> omega
    · refine Or.inr ⟨(some st.buf, st.base), ?_, by simp, ?_⟩
      · by_cases hzero : st.size = 0
        · exact preadTurn_of_size_eq_zero hzero
        · exact preadTurn_of_eof h (by omega)
      · rintro d hd
        obtain rfl : st.buf = d := by simpa using hd
        refine ⟨?_, hoffset ▸ hP⟩
        rcases hfile with hle | hnil
        · omega
        · rw [hnil] at hrest hoffset ⊢
          simp only [List.length_nil] at hrest hoffset ⊢
          omega
  · exact ⟨by simp [FileMap.preadStart], by simp [FileMap.preadStart], Or.inr rfl,
      fun hlt hne => atRegion_preadStart h hne hlt s, hs⟩

/-! ## Reads of single regions -/

/-- A place of the file inside region `i` is a place inside that region. -/
theorem region_bounds {i pos len : ℕ} (hi : i < rs.length) (hlow : regionStart rs i ≤ pos)
    (hup : pos + len ≤ regionStart rs (i + 1)) : pos - regionStart rs i + len ≤ rs[i].size := by
  have hi' : i < (rs.map Region.size).length := by simpa using hi
  have hsucc := start_succ hi'
  rw [List.getElem_map] at hsucc
  have : regionStart rs (i + 1) = regionStart rs i + rs[i].size := hsucc
  omega

/-- The content of the file inside a region is the content of the region. -/
theorem slice_content {payload : Bytes} (hinside : ∀ r ∈ rs, r.Inside payload) {i pos len : ℕ}
    (hi : i < rs.length) (hlow : regionStart rs i ≤ pos)
    (hup : pos + len ≤ regionStart rs (i + 1)) :
    slice (content payload rs) pos len =
      slice (rs[i].bytes payload) (pos - regionStart rs i) len := by
  have hbounds := region_bounds hi hlow hup
  have hlength := Region.length_bytes (hinside rs[i] (List.getElem_mem hi))
  have hi' : i < (rs.map (Region.bytes payload)).length := by simpa using hi
  have hget : (rs.map (Region.bytes payload))[i] = rs[i].bytes payload := List.getElem_map _
  have hfits : pos - regionStart rs i + len ≤ (rs.map (Region.bytes payload))[i].length := by
    rw [hget]
    omega
  have hslice := slice_flatten hi' hfits
  rw [map_length_bytes hinside, hget] at hslice
  rw [← hslice, content]
  congr 1
  exact (Nat.add_sub_cancel' hlow).symm

/-- The bytes that mapped regions refer to: the file from the data start on, decoded if it is
base64. -/
def payloadOf (dec : Decoder) (base64 : Bool) (dataStart : ℕ) (file : Bytes) : Bytes :=
  if base64 then decodeStream dec (file.drop dataStart) else file.drop dataStart

/-- What the base of a map has to be: complete reads for a base64 stream, short reads and failures
allowed for raw bytes. -/
def Reads (base64 : Bool) (base : RandomAccessFile σ) (file : Bytes) : Prop :=
  if base64 then CompleteReads base file else ShortReads base file

section region

variable {file : Bytes} {i pos len : ℕ} {s : σ}

/-- A raw read of a region returns a beginning of what stands there. The base is read at most once,
and the read fails exactly when the base's does. -/
theorem read_region_raw (h : m.Represents rs) (hraw : m.pendingBase64Decoding = false)
    (hbase : ShortReads base file) (hfile : file.length < 2 ^ 64) (hstart : m.dataStart < 2 ^ 64)
    (hinside : ∀ r ∈ rs, r.Inside (file.drop m.dataStart)) (hi : i < rs.length)
    (hlow : regionStart rs i ≤ pos) (hup : pos + len ≤ regionStart rs (i + 1)) :
    (∃ d, m.read dec base i (pos - regionStart rs i) len s = .ok (some d, s) ∧
        d = slice (content (file.drop m.dataStart) rs) pos len ∧ d.length = len) ∨
      ∃ place, m.read dec base i (pos - regionStart rs i) len s = .ok (base.pread len place s) ∧
        len ≤ file.length - place ∧ ∀ d, (base.pread len place s).1 = some d →
          d <+: slice (content (file.drop m.dataStart) rs) pos len ∧ (0 < len → 0 < d.length) := by
  have hbounds := region_bounds hi hlow hup
  have hcontent := slice_content hinside hi hlow hup
  have hin := hinside rs[i] (List.getElem_mem hi)
  rcases hr : rs[i] with bytes | ⟨offset, size⟩
  · rw [hr] at hbounds hcontent
    refine Or.inl ⟨_, h.read_direct hi hr hbounds, hcontent.symm, length_slice_of_le hbounds⟩
  · rw [hr] at hbounds hcontent hin
    simp only [Region.size, Region.bytes, Region.Inside] at hbounds hcontent hin
    rw [slice_slice_of_le hbounds, slice_drop, ← Nat.add_assoc] at hcontent
    rw [List.length_drop] at hin
    refine Or.inr ⟨_, h.read_raw hi hr hraw, ?_⟩
    -- The place is inside the file, or nothing is asked for.
    by_cases hlen : len = 0
    · subst hlen
      refine ⟨Nat.zero_le _, fun d hd => ⟨?_, fun hpos => absurd hpos (lt_irrefl 0)⟩⟩
      obtain ⟨hpre, -⟩ := hbase 0 _ _ _ (Nat.zero_le _) hd
      rw [slice_zero, List.prefix_nil] at hpre
      subst hpre
      exact List.nil_prefix
    · rw [u64_of_lt (by omega), hcontent]
      exact ⟨by omega, fun d hd => hbase _ _ _ _ (by omega) hd⟩

/-- A base64 read of a region returns what stands there. -/
theorem read_region_base64 (h : m.Represents rs) (hbase64 : m.pendingBase64Decoding = true)
    (hbase : CompleteReads base file) (hfile : file.length < 2 ^ 63)
    (hinside : ∀ r ∈ rs, r.Inside (decodeStream dec (file.drop m.dataStart)))
    (hi : i < rs.length) (hlow : regionStart rs i ≤ pos)
    (hup : pos + len ≤ regionStart rs (i + 1)) :
    ∃ s', m.read dec base i (pos - regionStart rs i) len s =
      .ok (some (slice (content (decodeStream dec (file.drop m.dataStart)) rs) pos len), s') := by
  have hbounds := region_bounds hi hlow hup
  have hcontent := slice_content hinside hi hlow hup
  have hin := hinside rs[i] (List.getElem_mem hi)
  rcases hr : rs[i] with bytes | ⟨offset, size⟩
  · rw [hr] at hbounds hcontent
    exact ⟨s, by rw [hcontent]; exact h.read_direct hi hr hbounds⟩
  · rw [hr] at hbounds hcontent hin
    simp only [Region.size, Region.bytes, Region.Inside] at hbounds hcontent hin
    rw [slice_slice_of_le hbounds] at hcontent
    have hstream := length_decodeStream_le dec (file.drop m.dataStart)
    rw [List.length_drop] at hstream
    have hfits : offset + (pos - regionStart rs i) + len ≤
        (decodeStream dec (file.drop m.dataStart)).length := by omega
    have hread := Base64Reader.pread_eq_slice (r := ⟨base, m.dataStart, dec⟩) hbase (by omega)
      hfits s
    rw [h.read_base64 hi hr hbase64, u64_of_lt (by omega), hcontent, ← hread]
    exact ⟨_, rfl⟩

end region

/-! ## Reads of the whole file -/

/-- **A read of a virtual file returns its content.** It ends; unless it fails it returns all the
bytes from the position to the end of the request or of the file. In base64 mode it does not fail;
in raw mode `Good` and `Bad` follow the state of the base through the reads that succeed and the
one that fails. -/
theorem returns_content (h : m.Represents rs) {file : Bytes}
    (hbase : Reads m.pendingBase64Decoding base file) (hfile : file.length < 2 ^ 63)
    (hstart : m.dataStart < 2 ^ 64)
    (hinside : ∀ r ∈ rs, r.Inside (payloadOf dec m.pendingBase64Decoding m.dataStart file))
    {size : ℕ} (hsize : size < 2 ^ 64) (ori : ℕ) (Good Bad : σ → Prop)
    (hgood : ∀ len place s, Good s → (base.pread len place s).1 ≠ none →
      Good (base.pread len place s).2)
    (hbad : ∀ len place s, len ≤ file.length - place → Good s →
      (base.pread len place s).1 = none → Bad (base.pread len place s).2) {s : σ} (hs : Good s) :
    ∃ x s', m.Returns dec base size ori s x s' ∧
      (x = none → m.pendingBase64Decoding = false ∧ Bad s') ∧
      ∀ d, x = some d →
        d = slice (content (payloadOf dec m.pendingBase64Decoding m.dataStart file) rs) ori size ∧
          (m.pendingBase64Decoding = false → Good s') := by
  set V := content (payloadOf dec m.pendingBase64Decoding m.dataStart file) rs with hV
  have hlength : V.length = totalSize rs := length_content hinside
  -- The bytes so far are a slice of the content; what comes after them continues it.
  have hcontinue : ∀ pos len (buf d : Bytes), pos = ori + buf.length →
      buf = slice V ori buf.length → d <+: slice V pos len →
      buf ++ d = slice V ori (buf ++ d).length := by
    rintro pos len buf d rfl hbuf hd
    rw [List.length_append, ← slice_append_slice, ← hbuf, ← eq_slice_of_prefix hd]
  have hrule : ∃ x s', m.Returns dec base size ori s x s' ∧ _ := returns_of_reads h hsize
    (fun pos buf s => pos = ori + buf.length ∧ buf = slice V ori buf.length ∧
      (m.pendingBase64Decoding = false → Good s))
    (fun s => m.pendingBase64Decoding = false ∧ Bad s) ⟨by simp, by simp, fun _ => hs⟩ ?_
  · obtain ⟨x, s', hret, hF, hd⟩ := hrule
    refine ⟨x, s', hret, hF, fun d hx => ?_⟩
    obtain ⟨hlen, -, hslice, hG⟩ := hd d hx
    refine ⟨?_, hG⟩
    rw [hslice, hlen, ← hlength, slice_min]
  · rintro i pos len buf s hi hlow hup - - - ⟨hpos, hbuf, hG⟩
    cases hmode : m.pendingBase64Decoding with
    | false =>
        simp only [Reads, payloadOf, hmode, Bool.false_eq_true, if_false] at hbase hinside hV
        rcases read_region_raw (s := s) h hmode hbase (by omega) hstart hinside hi
          hlow hup with ⟨d, hread, hd, hlen⟩ | ⟨place, hread, hplace, hd⟩
        · rw [← hV] at hd
          refine ⟨some d, s, hread, by simp, fun d' hd' => ?_⟩
          obtain rfl := Option.some.inj hd'
          refine ⟨hlen.le, fun hpos => hlen ▸ hpos, by simp [hpos, Nat.add_assoc], ?_,
            fun _ => hG hmode⟩
          exact hcontinue pos len buf d hpos hbuf (hd ▸ List.prefix_rfl)
        · rw [← hV] at hd
          refine ⟨_, _, hread, fun hnone => ⟨rfl, hbad _ _ _ hplace (hG hmode) hnone⟩,
            fun d hx => ?_⟩
          obtain ⟨hpre, hprogress⟩ := hd d hx
          have hle := hpre.length_le
          rw [length_slice] at hle
          refine ⟨by omega, hprogress, by simp [hpos, Nat.add_assoc], ?_, fun _ => ?_⟩
          · exact hcontinue pos len buf d hpos hbuf hpre
          · exact hgood _ _ _ (hG hmode) (by rw [hx]; exact Option.some_ne_none d)
    | true =>
        simp only [Reads, payloadOf, hmode, if_true] at hbase hinside hV
        obtain ⟨s', hread⟩ := read_region_base64 (s := s) h hmode hbase hfile
          hinside hi hlow hup
        rw [← hV] at hread
        refine ⟨_, s', hread, by simp, fun d' hd' => ?_⟩
        obtain rfl := Option.some.inj hd'
        have hend := regionStart_le rs (i + 1)
        have hlen : (slice V pos len).length = len := length_slice_of_le (by omega)
        refine ⟨hlen.le, fun hpos => hlen.symm ▸ hpos, by simp [hpos, Nat.add_assoc], ?_, by simp⟩
        exact hcontinue pos len buf _ hpos hbuf List.prefix_rfl

/-- A base that serves the payload: complete reads for a base64 stream, short ones allowed for raw
bytes, and no failures inside the file. -/
def Delivers (base64 : Bool) (base : RandomAccessFile σ) (file : Bytes) : Prop :=
  if base64 then CompleteReads base file else ShortReads base file ∧ SucceedsInside base file

/-- A base with complete reads serves the payload either way. -/
theorem completeReads_delivers {file : Bytes} (h : CompleteReads base file) (base64 : Bool) :
    Delivers base64 base file := by
  cases base64 with
  | true => exact h
  | false => exact ⟨h.shortReads, h.succeedsInside⟩

/-- The virtual file over a base has the content `V`: that is its size, and what reads return. -/
structure Serves (dec : Decoder) (m : FileMap) (base : RandomAccessFile σ) (V : Bytes) : Prop where
  /-- The size of the file. -/
  fileSize_eq : m.fileSize = .ok V.length
  /-- A read returns all there is between its position and its end. -/
  returns : ∀ size offset s, size < 2 ^ 64 →
    ∃ s', m.Returns dec base size offset s (some (slice V offset size)) s'

/-- A file has one content. -/
theorem Serves.unique {V V' : Bytes} (h : Serves dec m base V) (h' : Serves dec m base V')
    (hV : V.length < 2 ^ 64) (s : σ) : V = V' := by
  have hlen : V.length = V'.length := Except.ok.inj (h.fileSize_eq.symm.trans h'.fileSize_eq)
  obtain ⟨s₁, hret⟩ := h.returns V.length 0 s hV
  obtain ⟨s₂, hret'⟩ := h'.returns V.length 0 s hV
  have := Prod.ext_iff.mp (Ends.unique hret hret')
  have hslice : slice V 0 V.length = slice V' 0 V.length := Option.some.inj this.1
  rwa [slice_full, hlen, slice_full] at hslice

/-- A VTK file: its bytes, whether its array data are base64, and a base that serves it. -/
structure VtkFile (σ : Type) where
  bytes : Bytes
  base64 : Bool
  base : RandomAccessFile σ
  /-- File positions are signed 64-bit numbers. -/
  length_lt : bytes.length < 2 ^ 63
  delivers : Delivers base64 base bytes

/-- The payload of a VTK file from a data start on. -/
def VtkFile.payload (vtk : VtkFile σ) (dec : Decoder) (dataStart : ℕ) : Bytes :=
  payloadOf dec vtk.base64 dataStart vtk.bytes

/-- A payload is no longer than its file. -/
theorem VtkFile.length_payload_lt (vtk : VtkFile σ) (dec : Decoder) (dataStart : ℕ) :
    (vtk.payload dec dataStart).length < 2 ^ 63 := by
  have hfile := vtk.length_lt
  have hstream := length_decodeStream_le dec (vtk.bytes.drop dataStart)
  unfold payload payloadOf
  split
  · rw [List.length_drop] at hstream
    omega
  · rw [List.length_drop]
    omega

/-- The file that the operating system serves. -/
def VtkFile.ofBytes (bytes : Bytes) (base64 : Bool) (h : bytes.length < 2 ^ 63) : VtkFile Unit where
  bytes := bytes
  base64 := base64
  base := osFile bytes
  length_lt := h
  delivers := completeReads_delivers (osFile_completeReads bytes) base64

/-- **A represented map over a base that serves its payload serves the content of its regions.** -/
theorem serves_content (h : m.Represents rs) {file : Bytes}
    (hbase : Delivers m.pendingBase64Decoding base file) (hfile : file.length < 2 ^ 63)
    (hstart : m.dataStart < 2 ^ 64)
    (hinside : ∀ r ∈ rs, r.Inside (payloadOf dec m.pendingBase64Decoding m.dataStart file)) :
    Serves dec m base (content (payloadOf dec m.pendingBase64Decoding m.dataStart file) rs) := by
  refine ⟨by rw [length_content hinside, h.fileSize_eq], fun size offset s hsize => ?_⟩
  have hreads : Reads m.pendingBase64Decoding base file := by
    unfold Delivers at hbase
    unfold Reads
    split at hbase
    · rwa [if_pos ‹_›]
    · rw [if_neg ‹_›]
      exact hbase.1
  have hfails : ∀ len place t, len ≤ file.length - place → True →
      (base.pread len place t).1 = none → m.pendingBase64Decoding = true := by
    intro len place t hplace _ hfail
    by_contra hraw
    rw [Bool.not_eq_true] at hraw
    simp only [Delivers, hraw, Bool.false_eq_true, if_false] at hbase
    exact hbase.2 len place t hplace hfail
  obtain ⟨x, s', hret, hnone, hsome⟩ := returns_content h hreads hfile hstart hinside hsize offset
    (fun _ => True) (fun _ => m.pendingBase64Decoding = true) (fun _ _ _ _ _ => trivial) hfails
    trivial (s := s)
  cases x with
  | none =>
      obtain ⟨hraw, hbase64⟩ := hnone rfl
      simp [hraw] at hbase64
  | some d =>
      obtain ⟨rfl, -⟩ := hsome d rfl
      exact ⟨s', hret⟩

/-- **The content served by a sequence of builder calls.** For every sequence of `AddDirect` and
`AddMappedRegion` calls whose mapped slices lie inside the payload, the finished map serves, at
every position and for every size, exactly the bytes of the concatenated regions, with every vector
access in bounds. In raw mode the base may return any positive part of what it holds and may fail;
the result is then -1 exactly when a base read was.
Source: `fmap.cc`, `FileMap::Pread`, `FileMap::Read`, `MapBuilder` -/
theorem pread_content (dec : Decoder) (base64 : Bool) (dataStart : ℕ) (file : Bytes)
    (calls : List Region) (base : RandomAccessFile σ) (hfile : file.length < 2 ^ 63)
    (hstart : dataStart < 2 ^ 64) (hcalls : ∀ r ∈ calls, r.Addressable)
    (htotal : totalSize calls < 2 ^ 63)
    (hinside : ∀ r ∈ calls, r.Inside (payloadOf dec base64 dataStart file))
    (hbase : Reads base64 base file) :
    ∃ b, (MapBuilder.new base64 dataStart).run calls = .ok b ∧
      ∀ size offset, size < 2 ^ 64 → offset < 2 ^ 64 → ∀ s, ∃ x s' log,
        b.finish.Returns dec (logged base) size offset (s, []) x (s', log) ∧
          (∀ d, x = some d →
            d.length = min size ((content (payloadOf dec base64 dataStart file) calls).length -
              offset) ∧
            d = slice (content (payloadOf dec base64 dataStart file) calls) offset size) ∧
          (base64 = true → x ≠ none) ∧
          (base64 = false → (x = none ↔ ∃ e ∈ log, e.result = none)) := by
  have hdirect := length_directBytes_le calls
  obtain ⟨b, hrun, hrep, rfl, rfl⟩ := (MapBuilder.new_represents base64 dataStart).run hcalls
    (by rw [List.nil_append]; omega) (by rw [List.nil_append]; omega)
  have hmap : b.finish.Represents calls :=
    MapBuilder.Represents.finish hrep (by omega) (by omega) hcalls
  have hlogged : Reads b.pendingBase64Decoding (logged base) file := by
    unfold Reads at hbase ⊢
    split at hbase
    · rw [if_pos ‹_›]
      exact logged_completeReads hbase
    · rw [if_neg ‹_›]
      exact logged_shortReads hbase
  refine ⟨b, hrun, fun size offset hsize hoffset s => ?_⟩
  have hgood : ∀ len place (t : σ × List ReadEvent), (∀ e ∈ t.2, e.result ≠ none) →
      ((logged base).pread len place t).1 ≠ none →
      ∀ e ∈ ((logged base).pread len place t).2.2, e.result ≠ none := by
    intro len place t ht hok e he
    rcases List.mem_append.mp he with he | he
    · exact ht e he
    · obtain rfl := List.mem_singleton.mp he
      exact hok
  obtain ⟨x, ⟨s', log⟩, hret, hnone, hsome⟩ :=
    returns_content (m := b.finish) hmap hlogged hfile hstart hinside hsize offset
      (fun t => ∀ e ∈ t.2, e.result ≠ none) (fun t => ∃ e ∈ t.2, e.result = none) hgood
      (fun len place t _ _ hfail => ⟨_, List.mem_append_right _ List.mem_cons_self, hfail⟩)
      (s := (s, [])) (by simp)
  refine ⟨x, s', log, hret, fun d hd => ?_, fun hbase64 hx => ?_, fun hraw => ⟨?_, ?_⟩⟩
  · obtain ⟨rfl, -⟩ := hsome d hd
    exact ⟨length_slice _ _ _, rfl⟩
  · have hmode : b.pendingBase64Decoding = false := (hnone hx).1
    simp [hmode] at hbase64
  · exact fun hx => (hnone hx).2
  · rintro ⟨e, he, hfail⟩
    cases x with
    | none => rfl
    | some d => exact absurd hfail ((hsome d rfl).2 hraw e he)

/-- The theorem at two bytes of a file of three regions, one of them empty. -/
theorem pread_content_three :
    ∃ b, (MapBuilder.new false 1).run [.direct [7], .mapped 1 0, .mapped 0 2] = .ok b ∧
      ∃ x s' log, b.finish.Returns standardDecoder (logged (osFile [9, 5, 6])) 2 0 ((), []) x
          (s', log) ∧
        ∀ d, x = some d → d = [7, 5] :=
  have ⟨b, hrun, hread⟩ := pread_content standardDecoder false 1 [9, 5, 6]
    [.direct [7], .mapped 1 0, .mapped 0 2] (osFile [9, 5, 6]) (by decide) (by decide)
    (by simp [Region.Addressable]) (by decide) (by simp [Region.Inside, payloadOf])
    (osFile_completeReads [9, 5, 6]).shortReads
  have ⟨x, s', log, hret, hsome, _, _⟩ := hread 2 0 (by decide) (by decide) ()
  ⟨b, hrun, x, s', log, hret, fun d hd => (hsome d hd).2⟩

end VirParquet.Verify
