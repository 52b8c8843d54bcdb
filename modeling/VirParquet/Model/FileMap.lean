import VirParquet.Model.File
import VirParquet.Found.Extent

/-!
# The virtual file map and its builder

`FileMap` and `MapBuilder` as in `fmap.cc`: three vectors that describe a file as a sequence of
regions, each either a slice of the direct buffer (entry zero or negative) or a place in the VTK
file (entry positive, one more than the place). `FileMap.pread` is the loop of `FileMap::Pread`,
turn by turn, with every vector and buffer access checked.

Over them stands `Region`, what the two `Add` calls mean, and `Represents`, the relation between
the vectors and the list of regions they stand for. `MapBuilder.Represents.add` says that the two
`Add` calls keep it, `MapBuilder.Represents.run` that a sequence of them does, and `read_direct`,
`read_raw` and `read_base64` say what a read inside one region does, which is all that the loop
needs.
-/

namespace VirParquet.Model

open VirParquet.Found VirParquet.Found.Base64

/-! ## The file map -/

/-- A map, which only `MapBuilder::Finish` makes.
Source: `fmap.h`, `FileMap` -/
structure FileMap where
  pendingBase64Decoding : Bool
  dataStart : ℕ
  /-- The file offset at which each region begins, and last the file size. -/
  offsets : List ℕ
  /-- Positive: one more than a place relative to `dataStart`. Otherwise: the negative of a place
  in the direct buffer. -/
  underlyingOffsets : List ℤ
  directBuf : Bytes
  /-- The file size is there. -/
  offsets_ne : offsets ≠ []
  deriving DecidableEq

/-- `n_(offsets_.size() - 1)`.
Source: `fmap.cc`, `FileMap::FileMap` -/
def FileMap.n (m : FileMap) : ℕ := m.offsets.length - 1

/-- Source: `fmap.cc`, `FileMap::file_size` -/
def FileMap.fileSize (m : FileMap) : Exec ℕ := vecAt m.offsets m.n

/-- The file size is in bounds. -/
theorem FileMap.fileSize_eq_ok (m : FileMap) :
    m.fileSize = .ok (m.offsets.getLast m.offsets_ne) := by
  refine vecAt_eq_ok ?_
  rw [n, ← List.getLast?_eq_getElem?, List.getLast?_eq_some_getLast m.offsets_ne]

section pread

variable {σ : Type} (dec : Decoder) (m : FileMap) (base : RandomAccessFile σ)

/-- Source: `fmap.cc`, `FileMap::Read` -/
def FileMap.read (regionId regionOffset size : ℕ) (s : σ) : Exec (Option Bytes × σ) := do
  let underlying ← vecAt m.underlyingOffsets regionId
  if 0 < underlying then
    if m.pendingBase64Decoding then
      let reader : Base64Reader σ := ⟨base, m.dataStart, dec⟩
      .ok (reader.file.pread size (u64 (ofI64 (underlying - 1) + regionOffset)) s)
    else
      .ok (base.pread size (u64 (m.dataStart + ofI64 underlying - 1 + regionOffset)) s)
  else
    let place := u64 (ofI64 (-underlying) + regionOffset)
    if place + size ≤ m.directBuf.length then .ok (some (slice m.directBuf place size), s)
    else .error .outOfBounds

section read

variable {dec m base} {regionId regionOffset size : ℕ} {s : σ} {u : ℤ}
  (hu : vecAt m.underlyingOffsets regionId = .ok u)

include hu

/-- A read of a region whose entry is zero or negative. -/
theorem FileMap.read_of_nonpos (h : u ≤ 0) :
    m.read dec base regionId regionOffset size s =
      if u64 (ofI64 (-u) + regionOffset) + size ≤ m.directBuf.length then
        .ok (some (slice m.directBuf (u64 (ofI64 (-u) + regionOffset)) size), s)
      else .error .outOfBounds := by
  simp [read, hu, bind, Except.bind, not_lt.mpr h]

/-- A read of a region whose entry is positive, in raw mode. -/
theorem FileMap.read_of_pos_raw (h : 0 < u) (hraw : m.pendingBase64Decoding = false) :
    m.read dec base regionId regionOffset size s =
      .ok (base.pread size (u64 (m.dataStart + ofI64 u - 1 + regionOffset)) s) := by
  simp [read, hu, bind, Except.bind, h, hraw]

/-- A read of a region whose entry is positive, in base64 mode. -/
theorem FileMap.read_of_pos_base64 (h : 0 < u) (hbase64 : m.pendingBase64Decoding = true) :
    m.read dec base regionId regionOffset size s =
      .ok ((Base64Reader.mk base m.dataStart dec).file.pread size
        (u64 (ofI64 (u - 1) + regionOffset)) s) := by
  simp [read, hu, bind, Except.bind, h, hbase64]

end read

/-- The variables of the loop of `FileMap::Pread`, with the bytes written before `buf`. -/
structure PreadState (σ : Type) where
  offset : ℕ
  size : ℕ
  i : ℕ
  buf : Bytes
  base : σ

/-- One turn of the loop of `FileMap::Pread`. It leaves with the bytes written, whose number is
`offset - ori`, or with -1.
Source: `fmap.cc`, `FileMap::Pread` -/
def FileMap.preadTurn (st : PreadState σ) : Exec (PreadState σ ⊕ (Option Bytes × σ)) :=
  if st.size = 0 then .ok (.inr (some st.buf, st.base))
  else do
    let eof ← vecAt m.offsets m.n
    if st.offset < eof then do
      let next ← vecAt m.offsets (st.i + 1)
      let here ← vecAt m.offsets st.i
      let (nr, s) ← m.read dec base st.i (subU64 st.offset here)
        (min st.size (subU64 next st.offset)) st.base
      match nr with
      | none => .ok (.inr (none, s))
      | some d =>
          let offset := u64 (st.offset + d.length)
          .ok (.inl
            { offset := offset
              size := subU64 st.size d.length
              i := if next ≤ offset then st.i + 1 else st.i
              buf := st.buf ++ d
              base := s })
    else .ok (.inr (some st.buf, st.base))

/-- The variables of `FileMap::Pread` before its loop. The first offset of a map is zero, so the
upper bound is at least one. -/
def FileMap.preadStart (size offset : ℕ) (s : σ) : PreadState σ where
  offset := offset
  size := size
  i := upperBound m.offsets offset - 1
  buf := []
  base := s

/-- `FileMap::Pread`, stopped after `fuel` turns of its loop (`none`).
Source: `fmap.cc`, `FileMap::Pread` -/
def FileMap.pread (fuel size offset : ℕ) (s : σ) : Exec (Option (Option Bytes × σ)) :=
  runLoop (m.preadTurn dec base) fuel (m.preadStart size offset s)

/-- `FileMap::Pread` returns: with enough turns it gives `r` and leaves the base in `s'`. -/
def FileMap.Returns (size offset : ℕ) (s : σ) (r : Option Bytes) (s' : σ) : Prop :=
  Ends (m.preadTurn dec base) (m.preadStart size offset s) (r, s')

end pread

/-! ## The builder -/

/-- Source: `fmap.h`, `MapBuilder` -/
structure MapBuilder where
  pendingBase64Decoding : Bool
  dataStart : ℕ
  bytesWritten : ℕ
  offsets : List ℕ
  underlyingOffsets : List ℤ
  directBuf : Bytes
  deriving DecidableEq, Repr

/-- Source: `fmap.cc`, `MapBuilder::MapBuilder` -/
def MapBuilder.new (pendingBase64Decoding : Bool) (dataStart : ℕ) : MapBuilder where
  pendingBase64Decoding := pendingBase64Decoding
  dataStart := dataStart
  bytesWritten := 0
  offsets := []
  underlyingOffsets := []
  directBuf := []

/-- Source: `fmap.cc`, `MapBuilder::AddDirect` -/
def MapBuilder.addDirect (b : MapBuilder) (buf : Bytes) : MapBuilder :=
  { b with
    offsets := b.offsets ++ [b.bytesWritten]
    underlyingOffsets := b.underlyingOffsets ++ [-toI64 b.directBuf.length]
    directBuf := b.directBuf ++ buf
    bytesWritten := u64 (b.bytesWritten + buf.length) }

/-- Source: `fmap.cc`, `MapBuilder::AddMappedRegion` -/
def MapBuilder.addMappedRegion (b : MapBuilder) (offset size : ℕ) : Exec MapBuilder := do
  let underlying ← addI64 1 (toI64 offset)
  .ok { b with
    offsets := b.offsets ++ [b.bytesWritten]
    underlyingOffsets := b.underlyingOffsets ++ [underlying]
    bytesWritten := u64 (b.bytesWritten + size) }

/-- Source: `fmap.cc`, `MapBuilder::Finish` -/
def MapBuilder.finish (b : MapBuilder) : FileMap where
  pendingBase64Decoding := b.pendingBase64Decoding
  dataStart := b.dataStart
  offsets := b.offsets ++ [b.bytesWritten]
  underlyingOffsets := b.underlyingOffsets
  directBuf := b.directBuf
  offsets_ne := by simp

/-! ## Regions -/

/-- What one call of the builder adds to the file: bytes of its own, or `size` bytes of the payload
from `offset` on. -/
inductive Region
  | direct (bytes : Bytes)
  | mapped (offset size : ℕ)
  deriving DecidableEq, Repr

/-- The length of a region. -/
@[simp] def Region.size : Region → ℕ
  | .direct bytes => bytes.length
  | .mapped _ size => size

/-- What a region of the file holds. -/
@[simp] def Region.bytes (payload : Bytes) : Region → Bytes
  | .direct bytes => bytes
  | .mapped offset size => slice payload offset size

/-- A region's slice lies inside the payload. -/
def Region.Inside (payload : Bytes) : Region → Prop
  | .direct _ => True
  | .mapped offset size => offset + size ≤ payload.length

/-- A region's place in the payload leaves room for the increment. -/
def Region.Addressable : Region → Prop
  | .direct _ => True
  | .mapped offset _ => offset ≤ 2 ^ 63 - 2

/-- What a region adds to the direct buffer. -/
@[simp] def Region.directBytes : Region → Bytes
  | .direct bytes => bytes
  | .mapped _ _ => []

/-- The length of a file made of regions. -/
def totalSize (rs : List Region) : ℕ := (rs.map Region.size).sum

/-- The content of a file made of regions. -/
def content (payload : Bytes) (rs : List Region) : Bytes := (rs.map (Region.bytes payload)).flatten

/-- The direct buffer of a list of regions. -/
def directBytes (rs : List Region) : Bytes := (rs.map Region.directBytes).flatten

/-- A region that lies inside the payload has its length. -/
theorem Region.length_bytes {payload : Bytes} {r : Region} (h : r.Inside payload) :
    (r.bytes payload).length = r.size := by
  cases r with
  | direct bytes => rfl
  | mapped offset size => exact length_slice_of_le h

/-- Regions that lie inside the payload have their lengths. -/
theorem map_length_bytes {payload : Bytes} {rs : List Region} (h : ∀ r ∈ rs, r.Inside payload) :
    (rs.map (Region.bytes payload)).map List.length = rs.map Region.size := by
  rw [List.map_map]
  exact List.map_congr_left fun r hr => Region.length_bytes (h r hr)

/-- A file whose regions lie inside the payload has its length. -/
theorem length_content {payload : Bytes} {rs : List Region} (h : ∀ r ∈ rs, r.Inside payload) :
    (content payload rs).length = totalSize rs := by
  unfold content totalSize
  rw [← sum_map_length, map_length_bytes h]

/-- A direct region is a slice of the direct buffer, from the end of those before it. -/
theorem slice_directBytes {rs : List Region} {i : ℕ} (hi : i < rs.length) {off len : ℕ}
    (h : off + len ≤ (rs[i].directBytes).length) :
    slice (directBytes rs) ((directBytes (rs.take i)).length + off) len =
      slice rs[i].directBytes off len := by
  have hstart : (directBytes (rs.take i)).length =
      start ((rs.map Region.directBytes).map List.length) i := by
    unfold directBytes start
    rw [List.length_flatten, List.map_take, List.map_take]
  have hlt : i < (rs.map Region.directBytes).length := by simpa using hi
  have hget : (rs.map Region.directBytes)[i] = rs[i].directBytes := List.getElem_map _
  rw [hstart, directBytes, slice_flatten hlt (by rwa [hget]), hget]

/-- A direct region ends inside the direct buffer. -/
theorem length_directBytes_take_le {rs : List Region} {i : ℕ} (hi : i < rs.length) :
    (directBytes (rs.take i)).length + rs[i].directBytes.length ≤ (directBytes rs).length := by
  unfold directBytes
  conv_rhs => rw [← List.take_append_drop i rs, List.drop_eq_getElem_cons hi]
  simp only [List.map_append, List.map_cons, List.flatten_append, List.flatten_cons,
    List.length_append]
  omega

/-! ## The vectors of a list of regions -/

/-- The entry of a region when the direct buffer has `place` bytes. -/
def Region.underlying (place : ℕ) : Region → ℤ
  | .direct _ => -place
  | .mapped offset _ => 1 + offset

/-- The entries of a list of regions when the direct buffer has `place` bytes before them. -/
def underlyingOffsetsOf (place : ℕ) : List Region → List ℤ
  | [] => []
  | r :: rs => r.underlying place :: underlyingOffsetsOf (place + r.directBytes.length) rs

/-- There is an entry for each region. -/
@[simp] theorem length_underlyingOffsetsOf (place : ℕ) (rs : List Region) :
    (underlyingOffsetsOf place rs).length = rs.length := by
  induction rs generalizing place with
  | nil => rfl
  | cons r rs ih => simp [underlyingOffsetsOf, ih]

/-- The entry of a region says where its bytes are, in the file or behind the direct bytes of the
regions before it. -/
theorem getElem?_underlyingOffsetsOf {rs : List Region} {i : ℕ} (hi : i < rs.length)
    (place : ℕ) :
    (underlyingOffsetsOf place rs)[i]? =
      some (rs[i].underlying (place + (directBytes (rs.take i)).length)) := by
  induction rs generalizing place i with
  | nil => simp at hi
  | cons r rs ih =>
      cases i with
      | zero => simp [underlyingOffsetsOf, directBytes]
      | succ i =>
          rw [underlyingOffsetsOf, List.getElem?_cons_succ, ih (by simpa using hi)]
          simp [directBytes, Nat.add_assoc]

/-- The entry of a region added at the end. -/
theorem underlyingOffsetsOf_append_singleton (place : ℕ) (rs : List Region) (r : Region) :
    underlyingOffsetsOf place (rs ++ [r]) =
      underlyingOffsetsOf place rs ++ [r.underlying (place + (directBytes rs).length)] := by
  induction rs generalizing place with
  | nil => simp [underlyingOffsetsOf, directBytes]
  | cons x rs ih => simp [underlyingOffsetsOf, ih, directBytes, Nat.add_assoc]

/-! ## Representation -/

/-- The builder's vectors stand for the regions `rs`. -/
structure MapBuilder.Represents (b : MapBuilder) (rs : List Region) : Prop where
  /-- The region starts, and the byte counter as the end. -/
  offsets_eq : b.offsets ++ [b.bytesWritten] = starts (rs.map Region.size)
  /-- The byte counter is the length so far. -/
  bytesWritten_eq : b.bytesWritten = totalSize rs
  /-- One entry for each region. -/
  underlyingOffsets_eq : b.underlyingOffsets = underlyingOffsetsOf 0 rs
  /-- The direct regions one after the other. -/
  directBuf_eq : b.directBuf = directBytes rs

/-- A file map whose vectors stand for the regions `rs`. -/
structure FileMap.Represents (m : FileMap) (rs : List Region) : Prop where
  /-- The region starts, and the file size. -/
  offsets_eq : m.offsets = starts (rs.map Region.size)
  /-- One entry for each region. -/
  underlyingOffsets_eq : m.underlyingOffsets = underlyingOffsetsOf 0 rs
  /-- The direct regions one after the other. -/
  directBuf_eq : m.directBuf = directBytes rs
  /-- The file size is a 64-bit number. -/
  totalSize_lt : totalSize rs < 2 ^ 64
  /-- The direct buffer has a signed size. -/
  length_directBytes_lt : (directBytes rs).length < 2 ^ 63
  /-- Entries of mapped regions are positive. -/
  addressable : ∀ r ∈ rs, r.Addressable

/-- The call of the builder that adds a region. -/
def MapBuilder.add (b : MapBuilder) : Region → Exec MapBuilder
  | .direct bytes => .ok (b.addDirect bytes)
  | .mapped offset size => b.addMappedRegion offset size

/-- A sequence of calls of the builder. -/
def MapBuilder.run (b : MapBuilder) : List Region → Exec MapBuilder
  | [] => .ok b
  | r :: rs => do
      let b ← b.add r
      b.run rs

/-- A new builder stands for no regions. -/
theorem MapBuilder.new_represents (base64 : Bool) (dataStart : ℕ) :
    (MapBuilder.new base64 dataStart).Represents [] where
  offsets_eq := by simp [new, starts]
  bytesWritten_eq := rfl
  underlyingOffsets_eq := rfl
  directBuf_eq := rfl

variable {b : MapBuilder} {rs : List Region}

/-- A region more makes a file longer by its size. -/
theorem totalSize_append_singleton (rs : List Region) (r : Region) :
    totalSize (rs ++ [r]) = totalSize rs + r.size := by
  simp [totalSize]

/-- A region more puts its bytes behind those in the direct buffer. -/
theorem directBytes_append_singleton (rs : List Region) (r : Region) :
    directBytes (rs ++ [r]) = directBytes rs ++ r.directBytes := by
  simp [directBytes]

/-- The direct buffer is no longer than the file. -/
theorem length_directBytes_le (rs : List Region) : (directBytes rs).length ≤ totalSize rs := by
  induction rs with
  | nil => simp [directBytes]
  | cons r rs ih =>
      simp only [directBytes, totalSize, List.map_cons, List.flatten_cons, List.length_append,
        List.sum_cons] at ih ⊢
      cases r with
      | direct bytes => simpa using ih
      | mapped offset size => simpa using ih.trans (Nat.le_add_left _ _)

/-- A mapped region whose place leaves room for the increment is added. -/
theorem MapBuilder.addMappedRegion_of_le (b : MapBuilder) {offset : ℕ}
    (h : offset ≤ 2 ^ 63 - 2) (size : ℕ) :
    b.addMappedRegion offset size =
      .ok { b with
        offsets := b.offsets ++ [b.bytesWritten]
        underlyingOffsets := b.underlyingOffsets ++ [1 + (offset : ℤ)]
        bytesWritten := u64 (b.bytesWritten + size) } := by
  have hadd : addI64 1 (toI64 offset) = .ok (1 + (offset : ℤ)) := by
    rw [toI64_of_lt (by omega)]
    exact addI64_eq_ok (by omega) (by omega)
  rw [addMappedRegion, hadd]
  rfl

/-- **One call of the builder keeps the representation**: it adds the region, does not fail, and
leaves the encoding and the data start alone. -/
theorem MapBuilder.Represents.add (h : b.Represents rs) {r : Region} (hr : r.Addressable)
    (htotal : totalSize rs + r.size < 2 ^ 64) (hdirect : (directBytes rs).length < 2 ^ 63) :
    ∃ b', b.add r = .ok b' ∧ b'.Represents (rs ++ [r]) ∧
      b'.pendingBase64Decoding = b.pendingBase64Decoding ∧ b'.dataStart = b.dataStart := by
  have hoffsets : ∀ size, r.size = size →
      (b.offsets ++ [b.bytesWritten]) ++ [u64 (b.bytesWritten + size)] =
        starts ((rs ++ [r]).map Region.size) := by
    rintro size rfl
    rw [h.offsets_eq, h.bytesWritten_eq, u64_of_lt htotal, List.map_append, List.map_singleton,
      starts_append_singleton]
    rfl
  have hwritten : ∀ size, r.size = size →
      u64 (b.bytesWritten + size) = totalSize (rs ++ [r]) := by
    rintro size rfl
    rw [h.bytesWritten_eq, u64_of_lt htotal, totalSize_append_singleton]
  cases r with
  | direct bytes =>
      refine ⟨b.addDirect bytes, rfl, ⟨hoffsets _ rfl, hwritten _ rfl, ?_, ?_⟩, rfl, rfl⟩
      · rw [underlyingOffsetsOf_append_singleton, Nat.zero_add]
        show b.underlyingOffsets ++ [-toI64 b.directBuf.length] = _
        rw [h.underlyingOffsets_eq, h.directBuf_eq, toI64_of_lt hdirect]
        rfl
      · rw [directBytes_append_singleton, ← h.directBuf_eq]
        rfl
  | mapped offset size =>
      refine ⟨_, addMappedRegion_of_le b hr size, ⟨hoffsets _ rfl, hwritten _ rfl, ?_, ?_⟩,
        rfl, rfl⟩
      · rw [underlyingOffsetsOf_append_singleton, ← h.underlyingOffsets_eq]
        rfl
      · rw [directBytes_append_singleton, ← h.directBuf_eq]
        exact (List.append_nil _).symm

/-- The direct buffer of two lists of regions has the bytes of both. -/
theorem directBytes_append (rs rs' : List Region) :
    directBytes (rs ++ rs') = directBytes rs ++ directBytes rs' := by
  simp [directBytes]

/-- Two lists of regions are as long as both together. -/
theorem totalSize_append (rs rs' : List Region) :
    totalSize (rs ++ rs') = totalSize rs + totalSize rs' := by
  simp [totalSize]

/-- **A sequence of calls of the builder** adds its regions in order. -/
theorem MapBuilder.Represents.run (h : b.Represents rs) {ops : List Region}
    (hops : ∀ r ∈ ops, r.Addressable) (htotal : totalSize (rs ++ ops) < 2 ^ 64)
    (hdirect : (directBytes (rs ++ ops)).length < 2 ^ 63) :
    ∃ b', b.run ops = .ok b' ∧ b'.Represents (rs ++ ops) ∧
      b'.pendingBase64Decoding = b.pendingBase64Decoding ∧ b'.dataStart = b.dataStart := by
  induction ops generalizing b rs with
  | nil => exact ⟨b, rfl, by simpa using h, rfl, rfl⟩
  | cons r ops ih =>
      have hsum : totalSize rs + r.size ≤ totalSize (rs ++ r :: ops) := by
        rw [totalSize_append, totalSize, totalSize, List.map_cons, List.sum_cons]
        omega
      have hbuf : (directBytes rs).length ≤ (directBytes (rs ++ r :: ops)).length := by
        rw [directBytes_append, List.length_append]
        omega
      obtain ⟨b₁, hadd, hrep, hbase64, hstart⟩ :=
        h.add (hops r List.mem_cons_self) (by omega) (by omega)
      obtain ⟨b₂, hrun, hrep₂, hbase64₂, hstart₂⟩ :=
        ih hrep (fun x hx => hops x (List.mem_cons_of_mem _ hx)) (by simpa using htotal)
          (by simpa using hdirect)
      refine ⟨b₂, ?_, by simpa using hrep₂, hbase64₂.trans hbase64, hstart₂.trans hstart⟩
      rw [MapBuilder.run, hadd]
      exact hrun

/-- The map of a builder stands for its regions. -/
theorem MapBuilder.Represents.finish (h : b.Represents rs) (htotal : totalSize rs < 2 ^ 64)
    (hdirect : (directBytes rs).length < 2 ^ 63) (hrs : ∀ r ∈ rs, r.Addressable) :
    b.finish.Represents rs :=
  ⟨h.offsets_eq, h.underlyingOffsets_eq, h.directBuf_eq, htotal, hdirect, hrs⟩

/-! ## Access to a represented map -/

namespace FileMap.Represents

variable {m : FileMap} (h : m.Represents rs)

include h

/-- `n_` is the number of regions. -/
theorem n_eq : m.n = rs.length := by
  rw [n, h.offsets_eq, length_starts, List.length_map, Nat.add_sub_cancel]

/-- The region starts are in bounds. -/
theorem vecAt_offsets {i : ℕ} (hi : i ≤ rs.length) :
    vecAt m.offsets i = .ok (start (rs.map Region.size) i) := by
  rw [h.offsets_eq]
  exact vecAt_eq_ok (getElem?_starts (by simpa using hi))

/-- The file size is the length of all regions. -/
theorem fileSize_eq : m.fileSize = .ok (totalSize rs) := by
  rw [fileSize, h.n_eq, h.vecAt_offsets le_rfl, ← List.length_map (f := Region.size), start_length]
  rfl

/-- The entries are in bounds. -/
theorem vecAt_underlyingOffsets {i : ℕ} (hi : i < rs.length) :
    vecAt m.underlyingOffsets i = .ok (rs[i].underlying (directBytes (rs.take i)).length) := by
  rw [h.underlyingOffsets_eq]
  exact vecAt_eq_ok (by rw [getElem?_underlyingOffsetsOf hi, Nat.zero_add])

/-- The entry of a mapped region is positive and fits. -/
theorem vecAt_underlyingOffsets_mapped {i : ℕ} (hi : i < rs.length) {offset size : ℕ}
    (hr : rs[i] = .mapped offset size) :
    vecAt m.underlyingOffsets i = .ok (1 + (offset : ℤ)) ∧ offset ≤ 2 ^ 63 - 2 := by
  have haddr := h.addressable rs[i] (List.getElem_mem hi)
  have hentry := h.vecAt_underlyingOffsets hi
  rw [hr] at haddr hentry
  exact ⟨hentry, haddr⟩

variable {σ : Type} {dec : Decoder} {base : RandomAccessFile σ} {i off len : ℕ} {s : σ}

/-- **A read of a direct region** copies from the direct buffer, in bounds. -/
theorem read_direct (hi : i < rs.length) {bytes : Bytes} (hr : rs[i] = .direct bytes)
    (hlen : off + len ≤ bytes.length) :
    m.read dec base i off len s = .ok (some (slice bytes off len), s) := by
  have hentry := h.vecAt_underlyingOffsets hi
  have hslice := slice_directBytes hi (by rw [hr]; exact hlen)
  have hend := length_directBytes_take_le hi
  have hdirect := h.length_directBytes_lt
  rw [hr] at hentry hslice hend
  simp only [Region.directBytes, Region.underlying] at hentry hslice hend
  have hplace : u64 (ofI64 (- -((directBytes (rs.take i)).length : ℤ)) + off) =
      (directBytes (rs.take i)).length + off := by
    rw [neg_neg, ofI64_natCast (by omega), u64_of_lt (by omega)]
  rw [read_of_nonpos hentry (by omega), hplace, h.directBuf_eq, if_pos (by omega), hslice]

/-- **A read of a mapped region in raw mode** reads the base from the data start on. -/
theorem read_raw (hi : i < rs.length) {offset size : ℕ} (hr : rs[i] = .mapped offset size)
    (hraw : m.pendingBase64Decoding = false) :
    m.read dec base i off len s =
      .ok (base.pread len (u64 (m.dataStart + offset + off)) s) := by
  obtain ⟨hentry, hoffset⟩ := h.vecAt_underlyingOffsets_mapped hi hr
  have hfits : ofI64 (1 + (offset : ℤ)) = 1 + offset := by
    have := ofI64_natCast (n := 1 + offset) (by omega)
    rwa [Nat.cast_add, Nat.cast_one] at this
  have hplace : m.dataStart + ofI64 (1 + (offset : ℤ)) - 1 + off = m.dataStart + offset + off := by
    omega
  rw [read_of_pos_raw hentry (by omega) hraw, hplace]

/-- **A read of a mapped region in base64 mode** reads the decoded stream. -/
theorem read_base64 (hi : i < rs.length) {offset size : ℕ} (hr : rs[i] = .mapped offset size)
    (hbase64 : m.pendingBase64Decoding = true) :
    m.read dec base i off len s =
      .ok ((Base64Reader.mk base m.dataStart dec).file.pread len (u64 (offset + off)) s) := by
  obtain ⟨hentry, hoffset⟩ := h.vecAt_underlyingOffsets_mapped hi hr
  have hplace : ofI64 (1 + (offset : ℤ) - 1) = offset := by
    rw [add_sub_cancel_left]
    exact ofI64_natCast (by omega)
  rw [read_of_pos_base64 hentry (by omega) hbase64, hplace]

end FileMap.Represents

end VirParquet.Model
