import VirParquet.Verify.BuildMap

/-!
# The builder during a run of `BuildMap`

The representation invariant of a `MapBuilder` at every point of `BuildMap`'s run over a compressed
array. `Reaches` are the states of the builder that occur, each with the calls that led to it:
between any two calls of the builder there is one. `RepInvariant` is what holds of
them, in terms of the vectors.

* `repInvariant_of_represents`: a builder that stands for addressable regions has the
  invariant.
* `AtPage.invariant` is the run of the loop, and `reaches_repInvariant` says it of every state
  reached, and that the run meets no fault on its way: it ends with an exception or with the map of
  a state that is reached.
-/

namespace VirParquet.Verify

open VirParquet.Found VirParquet.Found.Thrift VirParquet.Model

/-! ## The invariant -/

/-- Place and length of the slices of the direct buffer that the direct regions have, in order. -/
def directSlices (underlyingOffsets : List ℤ) (calls : List Region) : List (ℕ × ℕ) :=
  (underlyingOffsets.zip calls).filterMap fun
    | (u, .direct bytes) => some ((-u).toNat, bytes.length)
    | (_, .mapped _ _) => none

/-- **The representation invariant** of a builder after the given calls. -/
structure RepInvariant (b : MapBuilder) (calls : List Region) : Prop where
  length_eq : b.offsets.length = b.underlyingOffsets.length
  /-- A region for each call. -/
  length_calls : b.offsets.length = calls.length
  /-- The offsets begin at zero, -/
  head_eq : ∀ x, b.offsets[0]? = some x → x = 0
  /-- do not go down, -/
  pairwise : (b.offsets ++ [b.bytesWritten]).Pairwise (· ≤ ·)
  /-- and are as far from each other as the regions are long, the byte counter being the last. -/
  difference : ∀ (k : ℕ) (r : Region), calls[k]? = some r →
    ∃ x, (b.offsets ++ [b.bytesWritten])[k]? = some x ∧
      (b.offsets ++ [b.bytesWritten])[k + 1]? = some (x + r.size)
  /-- The entry of a mapped region is one more than its place, positive, and fits. -/
  mapped : ∀ (k offset size : ℕ), calls[k]? = some (Region.mapped offset size) →
    ∃ u, b.underlyingOffsets[k]? = some u ∧ u = 1 + offset ∧ 0 < u ∧ u < 2 ^ 63
  /-- The entry of a direct region is zero or negative. -/
  direct : ∀ (k : ℕ) (bytes : Bytes), calls[k]? = some (Region.direct bytes) →
    ∃ u, b.underlyingOffsets[k]? = some u ∧ u ≤ 0
  /-- The slices of the direct regions are disjoint and in order, -/
  slices_disjoint : (directSlices b.underlyingOffsets calls).Pairwise fun x y => x.1 + x.2 ≤ y.1
  /-- and cover the direct buffer. -/
  slices_cover : ∀ p, (∃ x ∈ directSlices b.underlyingOffsets calls,
    x.1 ≤ p ∧ p < x.1 + x.2) ↔ p < b.directBuf.length

/-- The slices of the direct regions lie end to end. -/
theorem tiles_directSlices (place : ℕ) (rs : List Region) :
    Tiles place (directSlices (underlyingOffsetsOf place rs) rs)
      (place + (directBytes rs).length) := by
  induction rs generalizing place with
  | nil => simp [directSlices, underlyingOffsetsOf, directBytes, Tiles]
  | cons r rs ih =>
      have hrest := ih (place + r.directBytes.length)
      have hlength : place + (directBytes (r :: rs)).length =
          place + r.directBytes.length + (directBytes rs).length := by
        simp [directBytes, Nat.add_assoc]
      rw [hlength]
      cases r with
      | direct bytes =>
          refine ⟨?_, hrest⟩
          show (- -(place : ℤ)).toNat = place
          rw [neg_neg, Int.toNat_natCast]
      | mapped offset size => exact hrest

/-- **A builder that stands for addressable regions** has the invariant. -/
theorem repInvariant_of_represents {b : MapBuilder} {rs : List Region}
    (h : b.Represents rs) (hrs : ∀ r ∈ rs, r.Addressable) : RepInvariant b rs := by
  have hlength : b.offsets.length = rs.length := by
    have := congrArg List.length h.offsets_eq
    simpa using this
  have hstarts : ∀ k ≤ rs.length,
      (b.offsets ++ [b.bytesWritten])[k]? = some (start (rs.map Region.size) k) := by
    intro k hk
    rw [h.offsets_eq]
    exact getElem?_starts (by simpa using hk)
  have hentry : ∀ (k : ℕ) (r : Region), rs[k]? = some r →
      b.underlyingOffsets[k]? = some (r.underlying (directBytes (rs.take k)).length) := by
    intro k r hk
    obtain ⟨hlt, rfl⟩ := List.getElem?_eq_some_iff.mp hk
    rw [h.underlyingOffsets_eq, getElem?_underlyingOffsetsOf hlt, Nat.zero_add]
  have htiles : Tiles 0 (directSlices b.underlyingOffsets rs) b.directBuf.length := by
    have := tiles_directSlices 0 rs
    rwa [Nat.zero_add, ← h.underlyingOffsets_eq, ← h.directBuf_eq] at this
  constructor
  · rw [hlength, h.underlyingOffsets_eq, length_underlyingOffsetsOf]
  · exact hlength
  · intro x hx
    have hzero := hstarts 0 (Nat.zero_le _)
    rw [List.getElem?_append_left (List.getElem?_eq_some_iff.mp hx).1, hx, start_zero,
      Option.some.injEq] at hzero
    exact hzero
  · rw [h.offsets_eq]
    exact pairwise_starts _
  · intro k r hk
    obtain ⟨hlt, rfl⟩ := List.getElem?_eq_some_iff.mp hk
    refine ⟨_, hstarts k hlt.le, ?_⟩
    rw [hstarts (k + 1) hlt, start_succ (by simpa using hlt), List.getElem_map]
  · intro k offset size hk
    have haddr : offset ≤ 2 ^ 63 - 2 := hrs _ (List.mem_of_getElem? hk)
    exact ⟨1 + offset, hentry k _ hk, rfl, by omega, by omega⟩
  · intro k bytes hk
    refine ⟨_, hentry k _ hk, ?_⟩
    show -((directBytes (rs.take k)).length : ℤ) ≤ 0
    omega
  · exact htiles.pairwise
  · intro p
    rw [htiles.mem_iff]
    exact and_iff_right (Nat.zero_le p)

/-- A builder to which byte strings are added, one after the other, represents the regions with
these behind them. -/
theorem represents_foldl_addDirect {b : MapBuilder} {rs : List Region} (h : b.Represents rs)
    {bss : List Bytes} (htotal : totalSize rs + (bss.map List.length).sum < 2 ^ 64)
    (hdirect : (directBytes rs).length + (bss.map List.length).sum < 2 ^ 63) :
    (bss.foldl MapBuilder.addDirect b).Represents (rs ++ bss.map Region.direct) := by
  induction bss generalizing b rs with
  | nil => simpa using h
  | cons bytes bss ih =>
      rw [List.map_cons, List.sum_cons] at htotal hdirect
      obtain ⟨b', hadd, hrep, -⟩ := h.add (r := .direct bytes) trivial
        (by simp only [Region.size]; omega) (by omega)
      obtain rfl := Except.ok.inj hadd
      have hrest := ih hrep
        (by rw [totalSize_append_singleton, Region.size]; omega)
        (by rw [directBytes_append_singleton, List.length_append, Region.directBytes]; omega)
      simpa using hrest

/-! ## The run -/

section run

variable (thrift : Protocol) (name : Bytes) (type : DataType) (codec : CompressionType)
  (base64 : Bool) (arr : CompressedArray) (valueSize : ℕ)

/-- Before page `i` the variables of `BuildMap` can be `st`, and the builder had these calls. The
number of blocks for `i` is the point behind all pages. -/
inductive AtPage : List Region → ℕ → BuildState → Prop
  | start : AtPage [.direct par1] 0 (.start base64 arr.dataStart)
  | turn {calls : List Region} {i size : ℕ} {header : Bytes} {st st' : BuildState}
      (h : AtPage calls i st) (hi : i + 1 < arr.numBlks)
      (hsize : vecAt arr.compressedBlkSz i = .ok size)
      (hheader : serializeToBuffer thrift
        (pageHeader valueSize (u32 size) (u32 arr.blkSz) true).fields = .ok header)
      (hturn : compressedTurn thrift arr valueSize i st = .ok st') :
      AtPage (calls ++ [.direct header, .mapped st.offset (u32 size)]) (i + 1) st'
  | last {calls : List Region} {i size n : ℕ} {header : Bytes} {st st' : BuildState}
      (h : AtPage calls i st) (hi : i + 1 = arr.numBlks)
      (hsize : vecAt arr.compressedBlkSz i = .ok size)
      (hheader : serializeToBuffer thrift
        (pageHeader valueSize (u32 size) (u32 arr.lastBlkSz) true).fields = .ok header)
      (hpage : compressedPage thrift arr valueSize i arr.lastBlkSz st = .ok (n, st')) :
      AtPage (calls ++ [.direct header, .mapped st.offset (u32 size)]) (i + 1) st'

/-- The builder of `BuildMap` can be `b` after the given calls: before its first call, before each
page and behind the last, between the two calls for a page, and after each of the three calls that
end the file. -/
inductive Reaches : List Region → MapBuilder → Prop
  | new : Reaches [] (.new base64 arr.dataStart)
  | page {calls : List Region} {i : ℕ} {st : BuildState}
      (h : AtPage thrift base64 arr valueSize calls i st) : Reaches calls st.builder
  | header {calls : List Region} {i size : ℕ} {header : Bytes} {st : BuildState}
      (h : AtPage thrift base64 arr valueSize calls i st) (hi : i < arr.numBlks)
      (hsize : vecAt arr.compressedBlkSz i = .ok size)
      (hheader : serializeToBuffer thrift
        (pageHeader valueSize (u32 size) (u32 (uncompressedBlkSz arr i)) true).fields =
          .ok header) :
      Reaches (calls ++ [.direct header]) (st.builder.addDirect header)
  | footer {calls : List Region} {footer : Bytes} {st : BuildState}
      (h : AtPage thrift base64 arr valueSize calls arr.numBlks st)
      (hfooter : appendFooter thrift st.builder name type codec st.totalCompressedSize
        st.totalUncompressedSize st.totalCount = .ok (footer.length, st.builder.addDirect footer)) :
      Reaches (calls ++ [.direct footer]) (st.builder.addDirect footer)
  | footSize {calls : List Region} {footer : Bytes} {st : BuildState}
      (h : AtPage thrift base64 arr valueSize calls arr.numBlks st)
      (hfooter : appendFooter thrift st.builder name type codec st.totalCompressedSize
        st.totalUncompressedSize st.totalCount = .ok (footer.length, st.builder.addDirect footer)) :
      Reaches (calls ++ [.direct footer, .direct (leBytes 4 footer.length)])
        ((st.builder.addDirect footer).addDirect (leBytes 4 footer.length))
  | par1 {calls : List Region} {footer : Bytes} {st : BuildState}
      (h : AtPage thrift base64 arr valueSize calls arr.numBlks st)
      (hfooter : appendFooter thrift st.builder name type codec st.totalCompressedSize
        st.totalUncompressedSize st.totalCount = .ok (footer.length, st.builder.addDirect footer)) :
      Reaches (calls ++ [.direct footer, .direct (leBytes 4 footer.length), .direct Model.par1])
        (((st.builder.addDirect footer).addDirect (leBytes 4 footer.length)).addDirect Model.par1)

end run

section invariant

variable {thrift : Protocol} {name : Bytes} {type : DataType} {codec : CompressionType}
  {base64 : Bool} {arr : CompressedArray} {valueSize : ℕ} {calls : List Region} {i : ℕ}
  {st : BuildState}

/-- What holds before page `i`: the calls are the regions of the blocks so far, and unless all
pages stand the loop's invariant holds. -/
structure PageInvariant (L : Layout) (arr : CompressedArray) (base64 : Bool)
    (calls : List Region) (i : ℕ) (st : BuildState) : Prop where
  calls_eq : calls = L.bodyRegions ((compressedBlks arr).take i)
  holds : L.Holds base64 arr.dataStart ((compressedBlks arr).take i) st
  le : i ≤ arr.numBlks
  invariant : i < arr.numBlks → CompressedInvariant L arr base64 i st

/-- The serializer makes a header for block `i`, and the page is two more calls. -/
theorem PageInvariant.calls_append {L : Layout} (h : PageInvariant L arr base64 calls i st)
    (hi : i < arr.compressedBlkSz.length)
    (hlt : i < arr.numBlks) {size : ℕ} {header : Bytes}
    (hsize : vecAt arr.compressedBlkSz i = .ok size)
    (hheader : serializeToBuffer L.thrift
      (pageHeader L.valueSize (u32 size) (u32 (uncompressedBlkSz arr i)) true).fields =
        .ok header) :
    header = L.headerBytes ⟨u32 size, u32 (uncompressedBlkSz arr i)⟩ ∧
      calls ++ [.direct header, .mapped st.offset (u32 size)] =
        L.bodyRegions ((compressedBlks arr).take (i + 1)) := by
  have hget : vecAt arr.compressedBlkSz i = .ok arr.compressedBlkSz[i] :=
    vecAt_eq_ok (List.getElem?_eq_getElem hi)
  obtain rfl := Except.ok.inj (hsize.symm.trans hget)
  have hserial := L.serializeToBuffer_header
    ⟨u32 arr.compressedBlkSz[i], u32 (uncompressedBlkSz arr i)⟩
  rw [Layout.header] at hserial
  obtain rfl := Except.ok.inj (hheader.symm.trans hserial)
  refine ⟨rfl, ?_⟩
  rw [h.calls_eq, (h.invariant hlt).offset_eq, take_succ_compressedBlks hi, Layout.bodyRegions,
    Layout.bodyRegions, Layout.blkRegions_append_singleton, Nat.zero_add, List.cons_append]

variable (hlen : arr.compressedBlkSz.length = arr.numBlks) (hmax : arr.numBlks ≤ 2 ^ 31)

include hlen hmax

/-- **The run of the pages** keeps the invariant. -/
theorem AtPage.invariant (h : AtPage thrift base64 arr valueSize calls i st) :
    PageInvariant ⟨thrift, valueSize⟩ arr base64 calls i st := by
  induction h with
  | start =>
      have hstart := Layout.holds_start (L := ⟨thrift, valueSize⟩) base64 arr.dataStart
      exact ⟨rfl, hstart, Nat.zero_le _, fun _ => ⟨hstart, rfl, rfl⟩⟩
  | @turn calls i size header st st' _ hi hsize hheader hturn ih =>
      have hblk : uncompressedBlkSz arr i = arr.blkSz := if_pos hi
      rw [← hblk] at hheader
      obtain ⟨st'', hst'', hinv⟩ := (ih.invariant (by omega)).turn hlen hi (by omega)
      obtain rfl := Except.ok.inj (hturn.symm.trans hst'')
      exact ⟨(ih.calls_append (by omega) (by omega) hsize hheader).2, hinv.holds, hi.le,
        fun _ => hinv⟩
  | @last calls i size n header st st' _ hi hsize hheader hpage ih =>
      have hblk : uncompressedBlkSz arr i = arr.lastBlkSz := if_neg (by omega)
      rw [← hblk] at hheader hpage
      obtain ⟨st'', hst'', hholds, -⟩ :=
        (ih.invariant (by omega)).page (by omega : i < arr.compressedBlkSz.length) (by omega)
      obtain ⟨-, rfl⟩ := Prod.mk.inj (Except.ok.inj (hpage.symm.trans hst''))
      exact ⟨(ih.calls_append (by omega) (by omega) hsize hheader).2, hholds, hi.le,
        fun hlt => by omega⟩

/-- A page that is not the last can be appended. -/
theorem AtPage.exists_turn (h : AtPage thrift base64 arr valueSize calls i st)
    (hi : i + 1 < arr.numBlks) :
    ∃ calls' st', compressedTurn thrift arr valueSize i st = .ok st' ∧
      AtPage thrift base64 arr valueSize calls' (i + 1) st' := by
  have hlt : i < arr.compressedBlkSz.length := by omega
  have hblk : uncompressedBlkSz arr i = arr.blkSz := if_pos hi
  obtain ⟨st', hst', -⟩ := ((h.invariant hlen hmax).invariant (by omega)).turn hlen hi
    (by omega)
  exact ⟨_, st', hst', .turn h hi (vecAt_eq_ok (List.getElem?_eq_getElem hlt))
    (Layout.serializeToBuffer_header ⟨thrift, valueSize⟩ ⟨_, u32 arr.blkSz⟩) hst'⟩

/-- The last page can be appended. -/
theorem AtPage.exists_last (h : AtPage thrift base64 arr valueSize calls i st)
    (hi : i + 1 = arr.numBlks) :
    ∃ calls' n st', compressedPage thrift arr valueSize i arr.lastBlkSz st = .ok (n, st') ∧
      AtPage thrift base64 arr valueSize calls' (i + 1) st' := by
  have hlt : i < arr.compressedBlkSz.length := by omega
  have hblk : uncompressedBlkSz arr i = arr.lastBlkSz := if_neg (by omega)
  obtain ⟨st', hst', -⟩ := ((h.invariant hlen hmax).invariant (by omega)).page hlt (by omega)
  rw [hblk] at hst'
  exact ⟨_, _, st', hst', .last h hi (vecAt_eq_ok (List.getElem?_eq_getElem hlt))
    (Layout.serializeToBuffer_header ⟨thrift, valueSize⟩ ⟨_, u32 arr.lastBlkSz⟩) hst'⟩

/-- Every page is come to. -/
theorem exists_atPage (thrift : Protocol) (base64 : Bool) (valueSize : ℕ) {i : ℕ}
    (hi : i ≤ arr.numBlks) : ∃ calls st, AtPage thrift base64 arr valueSize calls i st := by
  induction i with
  | zero => exact ⟨_, _, .start⟩
  | succ i ih =>
      obtain ⟨calls, st, h⟩ := ih (by omega)
      rcases Nat.lt_or_eq_of_le hi with hlt | heq
      · obtain ⟨calls', st', -, h'⟩ := h.exists_turn hlen hmax hlt
        exact ⟨calls', st', h'⟩
      · obtain ⟨calls', n, st', -, h'⟩ := h.exists_last hlen hmax heq
        exact ⟨calls', st', h'⟩

/-- **The loop and the block behind it** lead behind all pages, without a fault. -/
theorem compressedPages_atPage (thrift : Protocol) (base64 : Bool) (valueSize : ℕ)
    (hpos : 1 ≤ arr.numBlks) :
    ∃ calls st, compressedPages thrift base64 arr valueSize = .ok st ∧
      AtPage thrift base64 arr valueSize calls arr.numBlks st := by
  have hsub : subU64 arr.numBlks 1 = arr.numBlks - 1 := subU64_of_le hpos (by omega)
  obtain ⟨st, hst, calls, h⟩ : ∃ st, countUp (2 ^ 31) .signedOverflow (arr.numBlks - 1)
      (compressedTurn thrift arr valueSize) 0 (.start base64 arr.dataStart) = .ok st ∧
        ∃ calls, AtPage thrift base64 arr valueSize calls (arr.numBlks - 1) st := by
    refine countUp_total (fun i st => ∃ calls, AtPage thrift base64 arr valueSize calls i st)
      (by omega) (Nat.zero_le _) ⟨_, .start⟩ fun i st hi ⟨calls, h⟩ => ?_
    obtain ⟨calls', st', hturn, h'⟩ := h.exists_turn hlen hmax (by omega)
    exact ⟨st', hturn, calls', h'⟩
  obtain ⟨calls', n, st', hpage, h'⟩ := h.exists_last hlen hmax (by omega)
  rw [Nat.sub_add_cancel hpos] at h'
  refine ⟨calls', st', ?_, h'⟩
  rw [compressedPages, hsub, Exec.bind_of_eq_ok hst, Exec.bind_of_eq_ok hpage]

end invariant

/-! ## The end of the file -/

/-- The footer is appended if it can be serialized, and otherwise an exception is thrown. -/
theorem appendFooter_cases (thrift : Protocol) (b : MapBuilder) (name : Bytes) (type : DataType)
    (codec : CompressionType) (compressed uncompressed count : ℤ) :
    (∃ what, appendFooter thrift b name type codec compressed uncompressed count =
        .error (.thrown what)) ∨
      ∃ footer, footer.length < 2 ^ 32 ∧
        appendFooter thrift b name type codec compressed uncompressed count =
          .ok (footer.length, b.addDirect footer) := by
  by_cases htype : type = .unknown
  · subst htype
    exact Or.inl ⟨_, rfl⟩
  obtain ⟨_, physical, converted, htables⟩ := exists_tables htype
  rw [appendFooter, Exec.bind_of_eq_ok htables.physical_eq, Exec.bind_of_eq_ok htables.converted_eq]
  by_cases hcodec : codec = .unknownCompression
  · subst hcodec
    exact Or.inl ⟨_, rfl⟩
  obtain ⟨c, hc⟩ := exists_codec hcodec
  rw [Exec.bind_of_eq_ok hc, serializeToBuffer]
  split
  · next hshort => exact Or.inr ⟨_, thrift.buffer.capacity_eq ▸ hshort, rfl⟩
  · exact Or.inl ⟨_, rfl⟩

section reached

variable {thrift : Protocol} {name : Bytes} {type : DataType} {codec : CompressionType}
  {base64 : Bool} {arr : CompressedArray} {valueSize : ℕ} {calls : List Region} {i : ℕ}
  {st : BuildState} {b : MapBuilder}

/-- Before each page the file is not too long. -/
theorem PageInvariant.bounds {L : Layout} (h : PageInvariant L arr base64 calls i st)
    (hmax : arr.numBlks ≤ 2 ^ 31) :
    totalSize calls < 2 ^ 64 - 2 ^ 33 ∧ (directBytes calls).length < 2 ^ 62 ∧
      ∀ r ∈ calls, r.Addressable := by
  obtain ⟨rfl, -, hle, -⟩ := h
  have hfits : ∀ b ∈ (compressedBlks arr).take i, b.Fits := fun b hb =>
    fits_of_mem_compressedBlks (List.mem_of_mem_take hb)
  have hlength : ((compressedBlks arr).take i).length ≤ 2 ^ 31 :=
    (List.length_take_le _ _).trans (hle.trans hmax)
  have htotal := L.totalSize_bodyRegions_le hfits
  have hdirect := L.length_directBytes_bodyRegions_le ((compressedBlks arr).take i)
  have hpayload := Layout.payloadSize_le hfits
  refine ⟨by omega, by omega, fun r hr => ?_⟩
  rcases List.mem_cons.mp hr with rfl | hr
  · trivial
  · exact L.addressable_of_mem_blkRegions (by omega) hr

/-- The builder has the invariant after byte strings that are added behind some page. -/
theorem PageInvariant.repInvariant {L : Layout} (h : PageInvariant L arr base64 calls i st)
    (hmax : arr.numBlks ≤ 2 ^ 31) (bss : List Bytes)
    (hbss : (bss.map List.length).sum < 2 ^ 33) :
    RepInvariant (bss.foldl MapBuilder.addDirect st.builder) (calls ++ bss.map Region.direct) := by
  obtain ⟨htotal, hdirect, haddr⟩ := h.bounds hmax
  have hrep : st.builder.Represents calls := by
    rw [h.calls_eq]
    exact h.holds.builder_represents
  refine repInvariant_of_represents (represents_foldl_addDirect hrep (by omega) (by omega))
    fun r hr => ?_
  rcases List.mem_append.mp hr with hr | hr
  · exact haddr r hr
  · obtain ⟨bytes, -, rfl⟩ := List.mem_map.mp hr
    trivial

variable (hlen : arr.compressedBlkSz.length = arr.numBlks) (hmax : arr.numBlks ≤ 2 ^ 31)

include hlen hmax

/-- **Every builder of the run** has the invariant. -/
theorem Reaches.repInvariant (h : Reaches thrift name type codec base64 arr valueSize calls b) :
    RepInvariant b calls := by
  have hfooterLt : ∀ {st : BuildState} {footer : Bytes},
      appendFooter thrift st.builder name type codec st.totalCompressedSize
        st.totalUncompressedSize st.totalCount = .ok (footer.length, st.builder.addDirect footer) →
      footer.length < 2 ^ 32 := by
    intro st footer hfooter
    rcases appendFooter_cases thrift st.builder name type codec st.totalCompressedSize
      st.totalUncompressedSize st.totalCount with ⟨what, herror⟩ | ⟨footer', hlt, hok⟩
    · cases herror.symm.trans hfooter
    · obtain ⟨hlength, -⟩ := Prod.mk.inj (Except.ok.inj (hok.symm.trans hfooter))
      exact hlength ▸ hlt
  cases h with
  | new =>
      exact repInvariant_of_represents (MapBuilder.new_represents base64 arr.dataStart) (by simp)
  | page h =>
      have hpage := (h.invariant hlen hmax).repInvariant hmax [] (by simp)
      simpa using hpage
  | @header calls i size header st h hi hsize hheader =>
      have hinv := h.invariant hlen hmax
      obtain ⟨rfl, -⟩ := hinv.calls_append (by omega) hi hsize hheader
      have hle := Layout.headerSize_le ⟨thrift, valueSize⟩
        ⟨u32 size, u32 (uncompressedBlkSz arr i)⟩
      unfold Layout.headerSize at hle
      exact hinv.repInvariant hmax [_] (by simp; omega)
  | footer h hfooter =>
      have hlt := hfooterLt hfooter
      exact (h.invariant hlen hmax).repInvariant hmax [_] (by simp; omega)
  | footSize h hfooter =>
      have hlt := hfooterLt hfooter
      exact (h.invariant hlen hmax).repInvariant hmax [_, _] (by simp; omega)
  | par1 h hfooter =>
      have hlt := hfooterLt hfooter
      exact (h.invariant hlen hmax).repInvariant hmax [_, _, _]
        (by simp [Model.par1, ascii]; omega)

/-- **The end of the run**: an exception, or the map of a builder that is reached. -/
theorem buildMapCompressed_reaches (thrift : Protocol) (name : Bytes) (type : DataType)
    (codec : CompressionType) (base64 : Bool) (hpos : 1 ≤ arr.numBlks) :
    (∃ what, buildMapCompressed thrift name type codec base64 arr = .error (.thrown what)) ∨
      ∃ valueSize calls b, getValueSize type = .ok valueSize ∧
        Reaches thrift name type codec base64 arr valueSize calls b ∧
        buildMapCompressed thrift name type codec base64 arr = .ok b.finish := by
  by_cases htype : type = .unknown
  · subst htype
    exact Or.inl ⟨_, rfl⟩
  obtain ⟨valueSize, _, _, htables⟩ := exists_tables htype
  obtain ⟨calls, st, hst, hpage⟩ :=
    compressedPages_atPage hlen hmax thrift base64 valueSize hpos
  rw [buildMapCompressed, Exec.bind_of_eq_ok htables.valueSize_eq, Exec.bind_of_eq_ok hst,
    finishMap]
  rcases appendFooter_cases thrift st.builder name type codec st.totalCompressedSize
    st.totalUncompressedSize st.totalCount with ⟨what, herror⟩ | ⟨footer, -, hfooter⟩
  · refine Or.inl ⟨what, ?_⟩
    rw [herror]
    rfl
  · refine Or.inr ⟨valueSize, _, _, htables.valueSize_eq, .par1 hpage hfooter, ?_⟩
    rw [hfooter]
    rfl

end reached

/-- **The representation invariant holds at every point of `BuildMap`'s run** over a compressed
array of one to `2 ^ 31` blocks, whatever the sizes of these; every page is come to, and no point
is a fault: `BuildMap` throws or returns the map of a builder that is reached. -/
theorem reaches_repInvariant (thrift : Protocol) (name : Bytes) (type : DataType)
    (codec : CompressionType) (base64 : Bool) (arr : CompressedArray)
    (hlen : arr.compressedBlkSz.length = arr.numBlks) (hpos : 1 ≤ arr.numBlks)
    (hmax : arr.numBlks ≤ 2 ^ 31) :
    (∀ valueSize calls b, Reaches thrift name type codec base64 arr valueSize calls b →
      RepInvariant b calls) ∧
    (∀ valueSize i, i ≤ arr.numBlks →
      ∃ calls st, AtPage thrift base64 arr valueSize calls i st) ∧
    ((∃ what, buildMapCompressed thrift name type codec base64 arr = .error (.thrown what)) ∨
      ∃ valueSize calls b, getValueSize type = .ok valueSize ∧
        Reaches thrift name type codec base64 arr valueSize calls b ∧
        buildMapCompressed thrift name type codec base64 arr = .ok b.finish) :=
  ⟨fun _ _ _ h => h.repInvariant hlen hmax,
    fun valueSize _ hi => exists_atPage hlen hmax thrift base64 valueSize hi,
    buildMapCompressed_reaches hlen hmax thrift name type codec base64 hpos⟩

/-- The theorem at two blocks of integers, of which one does not fit in 32 bits. -/
theorem reaches_repInvariant_int32 :
    (∀ calls b, Reaches compact (ascii "x") .int32 .zlib false ⟨2, 16, 8, [2 ^ 32 + 7, 3], 100⟩ 4
      calls b → RepInvariant b calls) ∧
    ∃ calls st, AtPage compact false ⟨2, 16, 8, [2 ^ 32 + 7, 3], 100⟩ 4 calls 2 st :=
  have h := reaches_repInvariant compact (ascii "x") .int32 .zlib false
    ⟨2, 16, 8, [2 ^ 32 + 7, 3], 100⟩ rfl (by decide) (by decide)
  ⟨h.1 4, h.2.1 4 2 (by decide)⟩

end VirParquet.Verify
