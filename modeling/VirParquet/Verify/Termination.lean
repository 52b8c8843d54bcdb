import VirParquet.Verify.BuildMap
import VirParquet.Verify.Pread

/-!
# When a positional read of a virtual file ends

Nothing compares the sizes in an array header with the length of the VTK file, so a mapped region
may stand for bytes that the file does not have. The base64 reader turns a read of them into an
error. A raw read returns zero bytes, and the loop of `FileMap::Pread` then asks again.

`pread_returns_iff`: over the bases that read like `pread`, a read of a map that `BuildMap` returned
ends exactly when every byte of the request that stands in a mapped region of a raw map has its
place inside the file (`RequestInFile`). Its halves are `returns_of_requestInFile` for every base
and `diverges_of_beyondFile` for the file that the operating system serves.
-/

namespace VirParquet.Verify

open VirParquet.Found VirParquet.Found.Thrift VirParquet.Found.Base64 VirParquet.Model

/-! ## Requests inside the file -/

/-- Every byte of the request that stands in a mapped region of a raw map has its place inside a
file of `fileLength` bytes. -/
def RequestInFile (m : FileMap) (fileLength size offset : ℕ) : Prop :=
  m.pendingBase64Decoding = false → ∀ i here next u pos,
    vecAt m.offsets i = .ok here → vecAt m.offsets (i + 1) = .ok next →
    vecAt m.underlyingOffsets i = .ok u → 0 < u → here ≤ pos → pos < next →
    offset ≤ pos → pos < offset + size →
    u64 (m.dataStart + ofI64 u - 1 + (pos - here)) < fileLength

section represented

variable {σ : Type} {dec : Decoder} {m : FileMap} {base : RandomAccessFile σ} {rs : List Region}
  {file : Bytes} {size offset : ℕ}

/-- The entry of a mapped region has the places of its bytes. -/
theorem place_eq (dataStart place rest : ℕ) (h : place ≤ 2 ^ 63 - 2) :
    dataStart + ofI64 (1 + (place : ℤ)) - 1 + rest = dataStart + place + rest := by
  have hfits := ofI64_natCast (n := 1 + place) (by omega)
  rw [Nat.cast_add, Nat.cast_one] at hfits
  omega

/-- A request is inside the file exactly if it is for the regions that the map stands for. -/
theorem requestInFile_iff (h : m.Represents rs) (fileLength : ℕ) :
    RequestInFile m fileLength size offset ↔
      (m.pendingBase64Decoding = false → ∀ i (hi : i < rs.length) place len pos,
        rs[i] = .mapped place len → regionStart rs i ≤ pos → pos < regionStart rs (i + 1) →
        offset ≤ pos → pos < offset + size →
        u64 (m.dataStart + place + (pos - regionStart rs i)) < fileLength) := by
  refine ⟨fun hin hraw i hi place len pos hr hlow hup hori hreq => ?_,
    fun hin hraw i here next u pos hhere hnext hu hpos hlow hup hori hreq => ?_⟩
  · obtain ⟨hentry, hplace⟩ := h.vecAt_underlyingOffsets_mapped hi hr
    have := hin hraw i _ _ _ pos (h.vecAt_offsets hi.le) (h.vecAt_offsets hi) hentry (by omega)
      hlow hup hori hreq
    rwa [place_eq _ _ _ hplace] at this
  · have hi : i < rs.length := by
      by_contra hge
      rw [h.underlyingOffsets_eq, vecAt_eq_error (by simpa using hge)] at hu
      cases hu
    obtain rfl := Except.ok.inj ((h.vecAt_offsets hi.le).symm.trans hhere)
    obtain rfl := Except.ok.inj ((h.vecAt_offsets hi).symm.trans hnext)
    rcases hr : rs[i] with bytes | ⟨place, len⟩
    · have hentry := h.vecAt_underlyingOffsets hi
      rw [hr, hu] at hentry
      have : u = -((directBytes (rs.take i)).length : ℤ) := Except.ok.inj hentry
      omega
    · obtain ⟨hentry, hplace⟩ := h.vecAt_underlyingOffsets_mapped hi hr
      obtain rfl := Except.ok.inj (hentry.symm.trans hu)
      rw [place_eq _ _ _ hplace]
      exact hin hraw i hi place len pos hr hlow hup hori hreq

/-! ## Reads that end -/

/-- A read of a region inside such a request does not fault, and it returns a byte if it is asked
for any, or fails. -/
theorem read_region_of_requestInFile (h : m.Represents rs) (hbase : PreadLike base file)
    (hin : RequestInFile m file.length size offset) {i pos len : ℕ} (hi : i < rs.length)
    (hlow : regionStart rs i ≤ pos) (hup : pos + len ≤ regionStart rs (i + 1))
    (hori : offset ≤ pos) (hreq : pos + len ≤ offset + size) (s : σ) :
    ∃ x s', m.read dec base i (pos - regionStart rs i) len s = .ok (x, s') ∧
      ∀ d, x = some d → d.length ≤ len ∧ (0 < len → 0 < d.length) := by
  rw [requestInFile_iff h] at hin
  have hbounds := region_bounds hi hlow hup
  rcases hr : rs[i] with bytes | ⟨place, regionLen⟩
  · rw [hr] at hbounds
    refine ⟨_, s, h.read_direct hi hr hbounds, fun d hd => ?_⟩
    obtain rfl := Option.some.inj hd
    have hlen : (slice bytes (pos - regionStart rs i) len).length = len :=
      length_slice_of_le hbounds
    exact ⟨hlen.le, fun hpos => hlen.symm ▸ hpos⟩
  · cases hmode : m.pendingBase64Decoding with
    | false =>
        refine ⟨_, _, h.read_raw hi hr hmode, fun d hd => ?_⟩
        have hle := hbase.length_le hd
        refine ⟨by omega, fun hpos => hbase.length_pos hd hpos ?_⟩
        exact hin hmode i hi place regionLen pos hr hlow (by omega) hori (by omega)
    | true =>
        refine ⟨_, _, h.read_base64 hi hr hmode, fun d hd => ?_⟩
        have hlen := Base64Reader.length_of_pread_eq_some hd
        exact ⟨hlen.le, fun hpos => hlen.symm ▸ hpos⟩

/-- **A read ends** over every base that reads like `pread`, if its request is inside the file. A
base64 read ends in any case. -/
theorem returns_of_requestInFile (h : m.Represents rs) (hbase : PreadLike base file)
    (hsize : size < 2 ^ 64) (hin : RequestInFile m file.length size offset) (s : σ) :
    ∃ x s', m.Returns dec base size offset s x s' := by
  have hread : ∀ i pos len (buf : Bytes) (s : σ), i < rs.length → regionStart rs i ≤ pos →
      pos + len ≤ regionStart rs (i + 1) → offset ≤ pos → pos + len ≤ offset + size →
      pos < totalSize rs → True →
      ∃ x s', m.read dec base i (pos - regionStart rs i) len s = .ok (x, s') ∧
        (x = none → True) ∧ ∀ d, x = some d →
          d.length ≤ len ∧ (0 < len → 0 < d.length) ∧ True := by
    intro i pos len buf s hi hlow hup hori hreq _ _
    obtain ⟨x, s', hx, hd⟩ := read_region_of_requestInFile h hbase hin hi hlow hup hori hreq s
    exact ⟨x, s', hx, fun _ => trivial, fun d heq => ⟨(hd d heq).1, (hd d heq).2, trivial⟩⟩
  obtain ⟨x, s', hret, -⟩ := returns_of_reads h hsize
    (fun _ _ _ => True) (fun _ => True) trivial hread
  exact ⟨x, s', hret⟩

/-! ## Reads that do not end -/

/-- A byte of the request that stands in a mapped region of a raw map, but not in the file. -/
structure BeyondFile (m : FileMap) (rs : List Region) (fileLength size offset i place pos : ℕ) :
    Prop where
  raw : m.pendingBase64Decoding = false
  i_lt : i < rs.length
  mapped : ∃ len, rs[i]? = some (.mapped place len)
  start_le : regionStart rs i ≤ pos
  lt_start : pos < regionStart rs (i + 1)
  offset_le : offset ≤ pos
  pos_lt : pos < offset + size
  beyond : fileLength ≤ u64 (m.dataStart + place + (pos - regionStart rs i))

/-- What holds between the turns of a read that does not end: the byte is still to be read. -/
structure StuckInvariant (rs : List Region) (pos : ℕ) (st : PreadState Unit) : Prop where
  atRegion : AtRegion rs st
  offset_le : st.offset ≤ pos
  pos_lt : pos < st.offset + st.size
  size_lt : st.size < 2 ^ 64

/-- **A turn before a byte that the file does not have** returns without that byte. -/
theorem BeyondFile.turn {i place pos : ℕ}
    (hbyte : BeyondFile m rs file.length size offset i place pos) (h : m.Represents rs)
    (hfile : file.length < 2 ^ 64) {st : PreadState Unit} (hst : StuckInvariant rs pos st) :
    ∃ st', m.preadTurn dec (osFile file) st = .ok (.inl st') ∧ StuckInvariant rs pos st' := by
  obtain ⟨hat, hoffset, hpos, hsize⟩ := hst
  have hlow := hat.start_le
  have hup := hat.le_start
  have hturn := turnSize_eq rs st
  have hend := regionStart_le rs (i + 1)
  have hlt := hbyte.lt_start
  -- The cursor is not behind the region of the byte.
  have hcursor : st.i ≤ i := by
    by_contra hgt
    have := regionStart_mono rs (show i + 1 ≤ st.i by omega)
    omega
  obtain ⟨d, s', hread, hlen, hle⟩ : ∃ d s', m.read dec (osFile file) st.i
      (st.offset - regionStart rs st.i) (turnSize rs st) st.base = .ok (some d, s') ∧
        d.length ≤ turnSize rs st ∧ st.offset + d.length ≤ pos := by
    have hfits : st.offset + turnSize rs st ≤ regionStart rs (st.i + 1) := by omega
    have hi := hat.i_lt
    have hbounds := region_bounds hi hlow hfits
    obtain ⟨len, hmapped⟩ := hbyte.mapped
    -- Before that region nothing of it is read.
    have hbefore : ∀ n, n ≤ turnSize rs st → st.i ≠ i → st.offset + n ≤ pos := by
      intro n hn hne
      have := regionStart_mono rs (show st.i + 1 ≤ i by omega)
      have := hbyte.start_le
      omega
    rcases hr : rs[st.i] with bytes | ⟨place', len'⟩
    · rw [hr] at hbounds
      have hslice : (slice bytes (st.offset - regionStart rs st.i) (turnSize rs st)).length =
          turnSize rs st := length_slice_of_le hbounds
      refine ⟨_, _, h.read_direct hat.i_lt hr hbounds, hslice.le, hbefore _ hslice.le ?_⟩
      rintro rfl
      rw [List.getElem?_eq_getElem hat.i_lt, hr] at hmapped
      cases hmapped
    · refine ⟨_, _, h.read_raw hat.i_lt hr hbyte.raw, ?_, ?_⟩
      · rw [length_slice]
        omega
      · by_cases hne : st.i = i
        · subst hne
          rw [List.getElem?_eq_getElem hat.i_lt, hr] at hmapped
          cases hmapped
          -- The bytes read stand in the file, and so would the byte among them.
          have hbeyond := hbyte.beyond
          rw [length_slice]
          unfold u64 at hbeyond ⊢
          omega
        · exact hbefore _ (by rw [length_slice]; omega) hne
  refine ⟨_, preadTurn_some h hat hread hlen hsize, hat.next hlen (by omega) (by omega) _ _, ?_, ?_,
    ?_⟩
  · exact hle
  · dsimp only
    omega
  · dsimp only
    omega

/-- **A read of a byte that the file does not have never ends** over the file that the operating
system serves. -/
theorem diverges_of_beyondFile {i place pos : ℕ}
    (hbyte : BeyondFile m rs file.length size offset i place pos) (h : m.Represents rs)
    (hfile : file.length < 2 ^ 64) (hsize : size < 2 ^ 64) :
    Diverges (m.preadTurn dec (osFile file)) (m.preadStart size offset ()) := by
  have hend := regionStart_le rs (i + 1)
  have hlt := hbyte.lt_start
  have hoffset := hbyte.offset_le
  have hpos := hbyte.pos_lt
  exact diverges_of_invariant (StuckInvariant rs pos) (fun st hst => hbyte.turn h hfile hst)
    ⟨atRegion_preadStart h (by omega) (by omega) (), hoffset, hpos, hsize⟩

/-- A read of a represented map ends exactly if all that it asks for is inside the file. -/
theorem returns_iff (h : m.Represents rs) (hfile : file.length < 2 ^ 64) (hsize : size < 2 ^ 64) :
    (∀ (σ : Type) (base : RandomAccessFile σ) (s : σ), PreadLike base file →
        ∃ x s', m.Returns dec base size offset s x s') ↔
      RequestInFile m file.length size offset := by
  refine ⟨fun hret => ?_, fun hin σ base s hbase =>
    returns_of_requestInFile h hbase hsize hin s⟩
  rw [requestInFile_iff h]
  intro hraw i hi place len pos hr hlow hup hori hreq
  by_contra hbeyond
  have hbyte : BeyondFile m rs file.length size offset i place pos :=
    ⟨hraw, hi, ⟨len, by rw [List.getElem?_eq_getElem hi, hr]⟩, hlow, hup, hori, hreq,
      not_lt.mp hbeyond⟩
  obtain ⟨x, s', hends⟩ := hret Unit (osFile file) () (osFile_preadLike file)
  exact (diverges_of_beyondFile hbyte h hfile hsize).not_ends ⟨_, hends⟩

end represented

/-! ## The maps of arrays -/

/-- `BuildMap` returned the map for an array, which has as many block sizes as blocks. -/
def Built (thrift : Protocol) (m : FileMap) : Prop :=
  ∃ name type base64,
    (∃ codec arr, arr.compressedBlkSz.length = arr.numBlks ∧ arr.numBlks < 2 ^ 64 ∧
      buildMapCompressed thrift name type codec base64 arr = .ok m) ∨
    ∃ arr, buildMapUncompressed thrift name type base64 arr = .ok m

/-- A map that `BuildMap` returned stands for regions. -/
theorem Built.exists_represents {thrift : Protocol} {m : FileMap} (h : Built thrift m) :
    ∃ rs, m.Represents rs := by
  obtain ⟨name, type, base64, ⟨codec, arr, hlen, hn, hm⟩ | ⟨arr, hm⟩⟩ := h
  · obtain ⟨_, _, hmap⟩ := exists_layout_of_buildMapCompressed hlen hn hm
    exact ⟨_, hmap.represents⟩
  · obtain ⟨_, _, hmap⟩ := exists_layout_of_buildMapUncompressed hm
    exact ⟨_, hmap.represents⟩

/-- **When a read of a virtual file ends**, over all bases that read a file of any length like
`pread`: if it decodes base64, or if all it maps is inside the file. -/
theorem pread_returns_iff (thrift : Protocol) (dec : Decoder) (m : FileMap) (hm : Built thrift m)
    (file : Bytes) (hfile : file.length < 2 ^ 64) (size offset : ℕ) (hsize : size < 2 ^ 64) :
    (∀ (σ : Type) (base : RandomAccessFile σ) (s : σ), PreadLike base file →
        ∃ x s', m.Returns dec base size offset s x s') ↔
      RequestInFile m file.length size offset := by
  obtain ⟨rs, hrep⟩ := hm.exists_represents
  exact returns_iff hrep hfile hsize

/-- The map of an array of four bytes behind a header of four. -/
theorem exists_map_fourBytes :
    ∃ m physical converted,
      buildMapUncompressed compact (ascii "x") .int32 false ⟨4, 4⟩ = .ok m ∧
        Layout.IsMapOf ⟨compact, 4⟩ ⟨ascii "x", physical, converted, .uncompressed⟩ false 4
          (uncompressedBlks ⟨4, 4⟩) m := by
  have htables : Tables .int32 4 .int32 (some .int32) := ⟨rfl, rfl, rfl⟩
  obtain ⟨m, hm, hmap⟩ := @buildMapUncompressed_of_lt compact (ascii "x") .int32 4 .int32
    (some .int32) false htables ⟨4, 4⟩ (by decide) (by decide)
    ((Layout.length_footerBytes_le (by decide) (fun b hb => fits_of_mem_uncompressedBlks hb)
      (by decide)).trans_lt (by decide))
  exact ⟨m, _, _, hm, hmap⟩

/-- The theorem at that map and a file of eight bytes. -/
theorem pread_returns_iff_fourBytes :
    ∃ m, buildMapUncompressed compact (ascii "x") .int32 false ⟨4, 4⟩ = .ok m ∧
      ((∀ (σ : Type) (base : RandomAccessFile σ) (s : σ),
          PreadLike base [4, 0, 0, 0, 1, 2, 3, 4] →
            ∃ x s', m.Returns standardDecoder base 200 0 s x s') ↔
        RequestInFile m 8 200 0) :=
  have ⟨m, _, _, hm, _⟩ := exists_map_fourBytes
  ⟨m, hm, pread_returns_iff compact standardDecoder m ⟨_, _, _, Or.inr ⟨_, hm⟩⟩
    [4, 0, 0, 0, 1, 2, 3, 4] (by decide) 200 0 (by decide)⟩

/-- Over a file that ends behind the header, a read of that map does not end. -/
theorem not_returns_fourBytes :
    ∃ m, buildMapUncompressed compact (ascii "x") .int32 false ⟨4, 4⟩ = .ok m ∧
      PreadLike (osFile [4, 0, 0, 0]) [4, 0, 0, 0] ∧
      ¬∃ x s', m.Returns standardDecoder (osFile [4, 0, 0, 0]) 200 0 () x s' := by
  obtain ⟨m, physical, converted, hm, hmap⟩ := exists_map_fourBytes
  refine ⟨m, hm, osFile_preadLike _, ?_⟩
  rintro ⟨x, s', hends⟩
  have hheader := Layout.headerSize_le ⟨compact, 4⟩ ⟨4, 4⟩
  set rs := Layout.fileRegions ⟨compact, 4⟩
    ⟨ascii "x", physical, converted, .uncompressed⟩ (uncompressedBlks ⟨4, 4⟩) with hrs
  have hstart : regionStart rs 2 = 4 + Layout.headerSize ⟨compact, 4⟩ ⟨4, 4⟩ := rfl
  have hnext : regionStart rs (2 + 1) =
      4 + (Layout.headerSize ⟨compact, 4⟩ ⟨4, 4⟩ + 4) := rfl
  have hbyte : BeyondFile m rs 4 200 0 2 0 (regionStart rs 2) :=
    { raw := hmap.base64_eq
      i_lt := Nat.le_add_left 3 3
      mapped := ⟨4, rfl⟩
      start_le := le_rfl
      lt_start := by omega
      offset_le := Nat.zero_le _
      pos_lt := by omega
      beyond := by
        rw [hmap.dataStart_eq, Nat.sub_self]
        decide }
  exact (diverges_of_beyondFile hbyte hmap.represents (by decide) (by norm_num)).not_ends
    ⟨_, hends⟩

end VirParquet.Verify
