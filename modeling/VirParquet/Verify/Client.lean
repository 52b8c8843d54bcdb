import VirParquet.Model.Bench
import VirParquet.Model.Parser
import VirParquet.Spec.Pages
import VirParquet.Verify.Path
import VirParquet.Verify.Consistency
import VirParquet.Verify.Termination

/-!
# Clients collect the file

A client that reads a file of the tree from its beginning, with any sequence of buffer sizes,
collects the same bytes as any other, as many as `Getattr` says.

* `clientRuns_iff`: the loop of a client over a file with a content ends, and only with this
  content. A read is short exactly at the end of the file, however short the reads of the base are.
* `clientsAgree_iff`: the law for every readable file of the tree, which holds exactly where the
  size of the file is an `off_t`.
* `exists_map_large`: a readable file whose size is not. `Getattr` then gives a negative size
  (`not_stSize_eq_alikeArray`).
-/

namespace VirParquet.Verify

open VirParquet.Found VirParquet.Found.Thrift VirParquet.Found.Base64 VirParquet.Model
  VirParquet.Spec VirParquet.Spec.Path

/-! ## Files with a content -/

section content

variable {σ : Type} {dec : Decoder} {base : RandomAccessFile σ} {file : VfsFile} {V : Bytes}

/-- A file has the content `V`: reads return what there is between their position and their end. -/
def HasContent (dec : Decoder) (base : RandomAccessFile σ) (file : VfsFile) (V : Bytes) : Prop :=
  ∀ size offset s, size < 2 ^ 64 →
    ∃ s', file.Returns dec base size offset s (some (slice V offset size)) s'

/-- A string-buffer file returns a slice of its string. -/
theorem stringBufPread_eq (strbuf : Bytes) (size offset : ℕ) :
    stringBufPread strbuf size offset = slice strbuf offset size := by
  unfold stringBufPread
  by_cases h : offset < strbuf.length
  · rw [if_pos h, Nat.min_comm]
    exact slice_min strbuf offset size
  · rw [if_neg h]
    exact (slice_of_length_le (not_lt.mp h) size).symm

/-- A string-buffer file has its string as content. -/
theorem hasContent_stringBuf (strbuf : Bytes) :
    HasContent dec base (.stringBuf strbuf) strbuf := by
  intro size offset s _
  exact ⟨s, congrArg some (stringBufPread_eq strbuf size offset).symm, rfl⟩

/-- A virtual file has the content that its map serves. -/
theorem hasContent_virtual {m : FileMap} (h : Serves dec m base V) :
    HasContent dec base (.virtual m) V := by
  intro size offset s hsize
  exact h.returns size offset s hsize

/-- What `Pread` of a file returns is unique. -/
theorem VfsFile.Returns.unique {size offset : ℕ} {s s₁ s₂ : σ} {x₁ x₂ : Option Bytes}
    (h₁ : file.Returns dec base size offset s x₁ s₁)
    (h₂ : file.Returns dec base size offset s x₂ s₂) : x₁ = x₂ ∧ s₁ = s₂ := by
  cases file with
  | stringBuf strbuf => exact ⟨h₁.1.trans h₂.1.symm, h₁.2.trans h₂.2.symm⟩
  | virtual m => exact Prod.mk.inj (Ends.unique h₁ h₂)

end content

/-! ## The loop of a client -/

section client

variable {σ : Type} {dec : Decoder} {base : RandomAccessFile σ} {fh : FilePtr} {V : Bytes}
  {bufsz : ℕ → ℕ}

/-- A count that fits in an `int` is not taken for an error. -/
theorem readResult_of_lt {d : Bytes} (h : d.length < 2 ^ 31) :
    readResult (some d) = d.length := by
  have hlen : toI32 d.length = d.length := toI32_of_lt h
  show (if toI32 d.length = -1 then - eIO else toI32 d.length) = (d.length : ℤ)
  rw [hlen, if_neg (by omega)]

/-- **A read of a file with a content** returns the bytes there, and nothing else. -/
theorem read_of_hasContent (h : HasContent dec base fh.file V) {size : ℕ} (hsize : size < 2 ^ 31)
    (offset : ℕ) (s : σ) :
    ∃ s', ∀ nr x s'', ReadReturns dec base fh size offset s nr x s'' ↔
      nr = ((slice V offset size).length : ℤ) ∧ x = some (slice V offset size) ∧ s'' = s' := by
  obtain ⟨s', hret⟩ := h size offset s (by omega)
  have hlen : (slice V offset size).length < 2 ^ 31 := by
    rw [length_slice]
    omega
  refine ⟨s', fun nr x s'' => ⟨?_, ?_⟩⟩
  · rintro ⟨hx, rfl⟩
    obtain ⟨rfl, rfl⟩ := VfsFile.Returns.unique hx hret
    exact ⟨readResult_of_lt hlen, rfl, rfl⟩
  · rintro ⟨rfl, rfl, rfl⟩
    exact ⟨hret, (readResult_of_lt hlen).symm⟩

/-- **One read of a client**, of which it is known that it returns `d`. -/
theorem clientRuns_step {k off : ℕ} {s s' : σ} {d collected : Bytes} {r : ClientEnd}
    (hread : ∀ nr x s'', ReadReturns dec base fh (bufsz k) off s nr x s'' ↔
      nr = (d.length : ℤ) ∧ x = some d ∧ s'' = s') (hoff : off + d.length < 2 ^ 63) :
    ClientRuns dec base fh bufsz k off collected s r ↔
      (d.length < bufsz k ∧ r = .eof (collected ++ d)) ∨
        (bufsz k ≤ d.length ∧
          ClientRuns dec base fh bufsz (k + 1) (off + d.length) (collected ++ d) s' r) := by
  have hreceived : received (d.length : ℤ) (some d) = d := by
    rw [received, Int.toNat_natCast]
    exact List.take_length
  constructor
  · intro hrun
    cases hrun with
    | error hret hnr =>
        obtain ⟨rfl, -, -⟩ := (hread _ _ _).mp hret
        omega
    | overflow hret _ hoverflow =>
        obtain ⟨rfl, -, -⟩ := (hread _ _ _).mp hret
        rw [Int.toNat_natCast] at hoverflow
        omega
    | eof hret _ _ hlt =>
        obtain ⟨rfl, rfl, -⟩ := (hread _ _ _).mp hret
        rw [Int.toNat_natCast] at hlt
        rw [hreceived]
        exact Or.inl ⟨hlt, rfl⟩
    | more hret _ _ hge hrest =>
        obtain ⟨rfl, rfl, rfl⟩ := (hread _ _ _).mp hret
        rw [Int.toNat_natCast, hreceived] at hrest
        rw [Int.toNat_natCast] at hge
        exact Or.inr ⟨hge, hrest⟩
  · have hret := (hread _ _ _).mpr ⟨rfl, rfl, rfl⟩
    rintro (⟨hlt, rfl⟩ | ⟨hge, hrest⟩)
    · have hrun : ClientRuns dec base fh bufsz k off collected s
          (.eof (collected ++ received (d.length : ℤ) (some d))) :=
        .eof hret (Int.natCast_nonneg _) hoff hlt
      rwa [hreceived] at hrun
    · apply ClientRuns.more hret (Int.natCast_nonneg _) hoff hge
      rwa [hreceived]

/-- **The loop of a client ends, and only with the content of the file.** The induction is on the
bytes that are left: a read that fills its buffer takes at least one. -/
theorem clientRuns_iff (h : HasContent dec base fh.file V) (hV : V.length < 2 ^ 63)
    (hbufsz : ∀ k, 1 ≤ bufsz k ∧ bufsz k ≤ 2 ^ 31 - 1) (k off : ℕ) (hoff : off ≤ V.length) (s : σ)
    (r : ClientEnd) :
    ClientRuns dec base fh bufsz k off (V.take off) s r ↔ r = .eof V := by
  induction hleft : V.length - off using Nat.strong_induction_on generalizing k off s with
  | _ left ih =>
      obtain ⟨hpos, hmax⟩ := hbufsz k
      obtain ⟨s', hread⟩ := read_of_hasContent h (by omega : bufsz k < 2 ^ 31) off s
      set d := slice V off (bufsz k) with hd
      have hlen : d.length = min (bufsz k) (V.length - off) := length_slice V off (bufsz k)
      have hcollected : V.take off ++ d = V.take (off + d.length) := by
        rw [List.take_add, hlen, hd]
        exact congrArg _ (slice_min V off (bufsz k)).symm
      rw [clientRuns_step hread (by omega), hcollected]
      by_cases hshort : d.length < bufsz k
      · have hall : V.take (off + d.length) = V := List.take_of_length_le (by omega)
        rw [hall, or_iff_left fun hmore => absurd hmore.1 (by omega), and_iff_right hshort]
      · rw [or_iff_right fun heof => absurd heof.1 hshort, and_iff_right (not_lt.mp hshort)]
        exact ih (V.length - (off + d.length)) (by omega) (k + 1) (off + d.length) (by omega) s' rfl

end client

/-! ## Files of a tree -/

section tree

variable {σ : Type}

/-- The regular files of a tree over a VTK file: strings, which are no longer than an `off_t` can
say, and the maps that `BuildMap` returned for arrays in the encoding of the VTK file, with all
that they map inside its data. -/
def Readable (dec : Decoder) (vtk : VtkFile σ) : VfsFile → Prop
  | .stringBuf strbuf => strbuf.length < 2 ^ 63
  | .virtual m => (∃ thrift, Built thrift m) ∧ m.pendingBase64Decoding = vtk.base64 ∧
      m.dataStart < 2 ^ 64 ∧ ∀ r ∈ m.regions, r.Inside (vtk.payload dec m.dataStart)

/-- The clients of a file agree: opening the path gives a handle on which each client collects the
same byte string, whatever its buffer sizes, and its loop ends in no other way; and the length of
the string is the size that `Getattr` reports. -/
def ClientsAgree (dec : Decoder) (vtk : VtkFile σ) (tree : VtkTree) (path : Option CString) :
    Prop :=
  ∃ (fh : FilePtr) (collected : Bytes),
    (∀ fh₀, openFile tree path fh₀ = .ok (0, some fh)) ∧
    (∀ statbuf, ∃ statbuf', getattr tree path statbuf = .ok (0, statbuf') ∧
      statbuf'.stSize = collected.length) ∧
    ∀ bufsz : ℕ → ℕ, (∀ k, 1 ≤ bufsz k ∧ bufsz k ≤ 2 ^ 31 - 1) → ∀ s r,
      ClientRuns dec vtk.base fh bufsz 0 0 [] s r ↔ r = .eof collected

variable {dec : Decoder} {vtk : VtkFile σ} {file : VfsFile}

/-- A readable file has a content, as long as `Stat` says, and its size is a 64-bit number. -/
theorem Readable.exists_content (h : Readable dec vtk file) :
    ∃ V, HasContent dec vtk.base file V ∧ V.length = fileSize file ∧ fileSize file < 2 ^ 64 := by
  cases file with
  | stringBuf strbuf =>
      have hlen : strbuf.length < 2 ^ 63 := h
      exact ⟨strbuf, hasContent_stringBuf strbuf, rfl, hlen.trans (by norm_num)⟩
  | virtual m =>
      obtain ⟨⟨thrift, hbuilt⟩, hmode, hstart, hinside⟩ := h
      obtain ⟨rs, hrep⟩ := hbuilt.exists_represents
      rw [hrep.regions_eq] at hinside
      have hdelivers := vtk.delivers
      unfold VtkFile.payload at hinside
      rw [← hmode] at hinside hdelivers
      have hserves := serves_content hrep hdelivers vtk.length_lt hstart hinside
      have hsize : fileSize (.virtual m) = totalSize rs :=
        Except.ok.inj (m.fileSize_eq_ok.symm.trans hrep.fileSize_eq)
      refine ⟨_, hasContent_virtual hserves, ?_, ?_⟩
      · exact Except.ok.inj (hserves.fileSize_eq.symm.trans m.fileSize_eq_ok)
      · rw [hsize]
        exact hrep.totalSize_lt

/-- Where the clients of a file agree, its size is an `off_t`: any other is reported as a negative
one. -/
theorem ClientsAgree.fileSize_lt {subdirs : StringMap SubDir} {statbuf₀ : StatBuf}
    {path : Option CString} {fh : FilePtr}
    (h : ClientsAgree dec vtk (.new subdirs statbuf₀) path)
    (hpath : resolve (.new subdirs statbuf₀) path = .ok (.file fh))
    (hsize : fileSize fh.file < 2 ^ 64) : fileSize fh.file < 2 ^ 63 := by
  obtain ⟨-, collected, -, hstat, -⟩ := h
  obtain ⟨statbuf', hstat, hstSize⟩ := hstat statbuf₀
  have hgetattr := getattr_eq (.new subdirs statbuf₀) path
  rw [hpath] at hgetattr
  dsimp only at hgetattr
  obtain ⟨-, rfl⟩ := Prod.mk.inj (Except.ok.inj (hstat.symm.trans (hgetattr statbuf₀)))
  by_contra hlarge
  have hnegative := toI64_of_ge (not_lt.mp hlarge) hsize
  have hsame : toI64 (fileSize fh.file) = collected.length := hstSize
  omega

/-- **The clients of a file agree if and only if its size is an `off_t`.** For every readable file
of a tree. -/
theorem clientsAgree_iff {σ : Type} (dec : Decoder) (vtk : VtkFile σ)
    (subdirs : StringMap SubDir) (statbuf₀ : StatBuf) (path : Option CString) (fh : FilePtr)
    (hpath : resolve (.new subdirs statbuf₀) path = .ok (.file fh))
    (hreadable : Readable dec vtk fh.file) :
    ClientsAgree dec vtk (.new subdirs statbuf₀) path ↔ fileSize fh.file < 2 ^ 63 := by
  obtain ⟨V, hcontent, hlen, hsize⟩ := hreadable.exists_content
  constructor
  · intro hagree
    exact hagree.fileSize_lt hpath hsize
  · intro hsmall
    have hgetattr := getattr_eq (.new subdirs statbuf₀) path
    have hopen := openFile_eq (.new subdirs statbuf₀) path
    rw [hpath] at hgetattr hopen
    dsimp only at hgetattr hopen
    refine ⟨fh, V, hopen, ?_, ?_⟩
    · intro statbuf
      refine ⟨_, hgetattr statbuf, ?_⟩
      show toI64 (fileSize fh.file) = V.length
      rw [hlen]
      exact toI64_of_lt hsmall
    · intro bufsz hbufsz s r
      exact clientRuns_iff hcontent (by omega) hbufsz 0 0 (Nat.zero_le _) s r

end tree

/-! ## Two trees -/

/-- The map of a file whose blocks are in the payload is readable. -/
theorem readable_of_isMapOf {σ : Type} {dec : Decoder} {vtk : VtkFile σ} {L : Layout}
    {col : Column} {dataStart : ℕ} {blks : List Blk} {m : FileMap} {thrift : Protocol}
    (hbuilt : Built thrift m) (h : L.IsMapOf col vtk.base64 dataStart blks m)
    (hstart : dataStart < 2 ^ 64)
    (hpayload : Layout.payloadSize blks ≤ (vtk.payload dec dataStart).length) :
    Readable dec vtk (.virtual m) := by
  obtain ⟨hrep, hmode, rfl⟩ := h
  refine ⟨⟨thrift, hbuilt⟩, hmode, hstart, ?_⟩
  rw [hrep.regions_eq]
  intro r hr
  exact L.inside_of_mem_fileRegions col _ hpayload hr

/-- The size of the file of a map. -/
theorem Layout.IsMapOf.fileSize_eq {L : Layout} {col : Column} {base64 : Bool} {dataStart : ℕ}
    {blks : List Blk} {m : FileMap} (h : L.IsMapOf col base64 dataStart blks m) :
    fileSize (.virtual m) = totalSize (L.fileRegions col blks) :=
  Except.ok.inj (m.fileSize_eq_ok.symm.trans h.represents.fileSize_eq)

/-- The directories of a tree with one array of points. -/
def pointDataOf (m : FileMap) : StringMap SubDir :=
  StringMap.empty.assign pointdataName
    (.array ⟨StringMap.empty.assign ⟨ascii "x.parquet", by decide⟩ m⟩)

/-- The path of the array. -/
def pointDataPath : CString := ⟨ascii "/pointdata/x.parquet", by decide⟩

/-- The attributes of a VTK file. -/
def plainStat : StatBuf where
  stDev := 0
  stIno := 0
  stMode := 0o100644
  stNlink := 1
  stUid := 0
  stGid := 0
  stRdev := 0
  stSize := 0
  stBlksize := 4096
  stBlocks := 0
  stAtim := ⟨0, 0⟩
  stMtim := ⟨0, 0⟩
  stCtim := ⟨0, 0⟩

/-- The path leads to the array. -/
theorem resolve_pointDataPath (m : FileMap) :
    resolve (.new (pointDataOf m) plainStat) (some pointDataPath) =
      .ok (.file ⟨[ascii "pointdata", ascii "x.parquet"], .virtual m⟩) := by
  have hcomponents : components pointDataPath.bytes = [ascii "pointdata", ascii "x.parquet"] := by
    decide
  rw [resolve, if_pos (by decide), hcomponents]
  rfl

/-- The theorem at an array of four bytes behind a header of four. -/
theorem clientsAgree_iff_fourBytes :
    ∃ m, buildMapUncompressed compact (ascii "x") .int32 false ⟨4, 4⟩ = .ok m ∧
      ClientsAgree standardDecoder (.ofBytes [4, 0, 0, 0, 1, 2, 3, 4] false (by decide))
        (.new (pointDataOf m) plainStat) (some pointDataPath) := by
  obtain ⟨m, physical, converted, hm, hmap⟩ := exists_map_fourBytes
  have hbuilt : Built compact m := ⟨ascii "x", .int32, false, Or.inr ⟨_, hm⟩⟩
  have hreadable : Readable standardDecoder
      (.ofBytes [4, 0, 0, 0, 1, 2, 3, 4] false (by decide)) (.virtual m) :=
    readable_of_isMapOf hbuilt hmap (by decide) (by decide)
  refine ⟨m, hm, (clientsAgree_iff _ _ _ _ _ _ (resolve_pointDataPath m) hreadable).mpr ?_⟩
  have hfits : ∀ b ∈ uncompressedBlks ⟨4, 4⟩, b.Fits := fun b hb => fits_of_mem_uncompressedBlks hb
  have hbody := Layout.totalSize_bodyRegions_le ⟨compact, 4⟩ hfits
  have hfooter : (Layout.footerBytes ⟨compact, 4⟩
      ⟨ascii "x", physical, converted, .uncompressed⟩ (uncompressedBlks ⟨4, 4⟩)).length ≤ 514 :=
    Layout.length_footerBytes_le (by decide : (ascii "x").length < 2 ^ 64) hfits (by decide)
  have hlength : (uncompressedBlks ⟨4, 4⟩).length = 1 := rfl
  show fileSize (.virtual m) < 2 ^ 63
  rw [hmap.fileSize_eq, Layout.totalSize_fileRegions]
  omega

/-- An array of `n` blocks of `c` bytes each, behind its header of 64-bit words. -/
def alikeArray (n c : ℕ) : CompressedArray where
  numBlks := n
  blkSz := 8
  lastBlkSz := 8
  compressedBlkSz := List.replicate n c
  dataStart := 24 + 8 * n

/-- A VTK file with such an array. -/
def alikeFile (n c : ℕ) (h : 24 + 8 * n + n * c < 2 ^ 63) : VtkFile Unit :=
  .ofBytes (List.replicate (24 + 8 * n + n * c) 0) false (by rwa [List.length_replicate])

section alike

variable {n c : ℕ}

/-- The blocks of the array are all alike. -/
theorem compressedBlks_alikeArray (hc : c < 2 ^ 32) :
    compressedBlks (alikeArray n c) = List.replicate n ⟨c, 8⟩ := by
  have hblk : ∀ i, uncompressedBlkSz (alikeArray n c) i = 8 := by
    intro i
    exact ite_self 8
  apply List.ext_getElem
  · simp [alikeArray]
  · intro i hi hi'
    rw [List.getElem_replicate]
    simp only [compressedBlks, List.getElem_mapIdx, hblk, Blk.mk.injEq]
    simp only [alikeArray, List.getElem_replicate]
    exact ⟨u32_of_lt hc, rfl⟩

/-- The payload of the array is as long as its blocks. -/
theorem payloadSize_alikeArray (hc : c < 2 ^ 32) :
    Layout.payloadSize (compressedBlks (alikeArray n c)) = n * c := by
  rw [compressedBlks_alikeArray hc]
  simp [Layout.payloadSize]

/-- The map of the array over the file, which is at least as long as the headers and the data of
its pages. -/
theorem exists_map_alikeArray (hpos : 1 ≤ n) (hmax : n ≤ 2 ^ 31) (hc : c < 2 ^ 32)
    (hfile : 24 + 8 * n + n * c < 2 ^ 63) :
    ∃ m, buildMapCompressed compact (ascii "x") .int32 .zlib false (alikeArray n c) = .ok m ∧
      Readable standardDecoder (alikeFile n c hfile) (.virtual m) ∧
      n * (Layout.headerSize ⟨compact, 4⟩ ⟨c, 8⟩ + c) ≤ fileSize (.virtual m) := by
  have htables : Tables .int32 4 .int32 (some .int32) := ⟨rfl, rfl, rfl⟩
  have hlen : (alikeArray n c).compressedBlkSz.length = (alikeArray n c).numBlks :=
    List.length_replicate
  have hblks : (compressedBlks (alikeArray n c)).length ≤ 2 ^ 31 := by
    rw [length_compressedBlks, hlen]
    exact hmax
  have hname : (ascii "x").length < 2 ^ 64 := by decide
  obtain ⟨m, hm, hmap⟩ := @buildMapCompressed_of_lt compact (ascii "x") .int32 .zlib 4 .int32
    (some .int32) .gzip false htables (alikeArray n c) rfl hlen hpos hmax
    ((Layout.length_footerBytes_le hname (fun b hb => fits_of_mem_compressedBlks hb)
      hblks).trans_lt (by decide : 2 * (ascii "x").length + 512 < 2 ^ 32))
  have hbuilt : Built compact m :=
    ⟨ascii "x", .int32, false, Or.inl ⟨.zlib, alikeArray n c, hlen, by
      show n < 2 ^ 64
      omega, hm⟩⟩
  refine ⟨m, hm, readable_of_isMapOf hbuilt hmap ?_ ?_, ?_⟩
  · show 24 + 8 * n < 2 ^ 64
    omega
  · rw [payloadSize_alikeArray hc]
    show n * c ≤ ((List.replicate (24 + 8 * n + n * c) 0).drop (24 + 8 * n)).length
    rw [List.length_drop, List.length_replicate, Nat.add_sub_cancel_left]
  · rw [hmap.fileSize_eq, Layout.totalSize_fileRegions, Layout.bodyRegions]
    have hbody : totalSize (Layout.blkRegions ⟨compact, 4⟩ 0
        (compressedBlks (alikeArray n c))) =
          n * (Layout.headerSize ⟨compact, 4⟩ ⟨c, 8⟩ + c) := by
      rw [Layout.totalSize_blkRegions, compressedBlks_alikeArray hc]
      simp
    have hcons : ∀ rs, totalSize (.direct par1 :: rs) = 4 + totalSize rs := by
      intro rs
      simp [totalSize, par1, ascii]
    rw [hcons, hbody]
    omega

/-- A header of the compact protocol has three numbers and the seven fields of its second version:
all take two bytes but the flag of compression. -/
theorem le_headerSize_compact (valueSize : ℕ) (b : Blk) :
    18 ≤ Layout.headerSize ⟨compact, valueSize⟩ b := by
  have hvarint := length_varint_pos
  have hheader := length_fieldHeader_pos
  simp [Layout.headerSize, Layout.headerBytes, Layout.header, pageHeader, compact,
    PageHeader.fields, DataPageHeaderV2.fields, Fields.ofList, ifSet, Value.enum, encodeFields,
    encodeValue]
  grind

end alike

/-- There is a readable file of more than `2 ^ 63` bytes, with blocks of almost 4 GiB. -/
theorem exists_map_large :
    ∃ (hfile : 24 + 8 * (2 ^ 31 - 8) + (2 ^ 31 - 8) * (2 ^ 32 - 1) < 2 ^ 63) (m : FileMap),
      buildMapCompressed compact (ascii "x") .int32 .zlib false
        (alikeArray (2 ^ 31 - 8) (2 ^ 32 - 1)) = .ok m ∧
      Readable standardDecoder (alikeFile (2 ^ 31 - 8) (2 ^ 32 - 1) hfile) (.virtual m) ∧
      2 ^ 63 ≤ fileSize (.virtual m) ∧ fileSize (.virtual m) < 2 ^ 64 := by
  have hfile : 24 + 8 * (2 ^ 31 - 8) + (2 ^ 31 - 8) * (2 ^ 32 - 1) < 2 ^ 63 := by norm_num
  obtain ⟨m, hm, hreadable, hle⟩ :=
    exists_map_alikeArray (by norm_num) (by norm_num) (by norm_num) hfile
  have hheader := le_headerSize_compact 4 ⟨2 ^ 32 - 1, 8⟩
  obtain ⟨-, -, -, hsize⟩ := hreadable.exists_content
  refine ⟨hfile, m, hm, hreadable, ?_, hsize⟩
  calc 2 ^ 63 ≤ (2 ^ 31 - 8) * (18 + (2 ^ 32 - 1)) := by norm_num
    _ ≤ (2 ^ 31 - 8) * (Layout.headerSize ⟨compact, 4⟩ ⟨2 ^ 32 - 1, 8⟩ + (2 ^ 32 - 1)) :=
      Nat.mul_le_mul_left _ (Nat.add_le_add_right hheader _)
    _ ≤ fileSize (.virtual m) := hle

/-- The size that `Getattr` gives for this file is not its size: it is negative. -/
theorem not_stSize_eq_alikeArray :
    ∃ m, buildMapCompressed compact (ascii "x") .int32 .zlib false
        (alikeArray (2 ^ 31 - 8) (2 ^ 32 - 1)) = .ok m ∧
      resolve (.new (pointDataOf m) plainStat) (some pointDataPath) =
        .ok (.file ⟨[ascii "pointdata", ascii "x.parquet"], .virtual m⟩) ∧
      ¬∃ statbuf, getattr (.new (pointDataOf m) plainStat) (some pointDataPath) plainStat =
        .ok (0, statbuf) ∧ statbuf.stSize = fileSize (.virtual m) := by
  obtain ⟨-, m, hm, -, hlarge, hlt⟩ := exists_map_large
  have hpath := resolve_pointDataPath m
  refine ⟨m, hm, hpath, ?_⟩
  rintro ⟨statbuf, hstat, hstSize⟩
  have hgetattr := getattr_eq (.new (pointDataOf m) plainStat) (some pointDataPath) plainStat
  rw [hpath] at hgetattr
  obtain ⟨-, rfl⟩ := Prod.mk.inj (Except.ok.inj (hstat.symm.trans hgetattr))
  have hsame : toI64 (fileSize (.virtual m)) = fileSize (.virtual m) := hstSize
  have hnegative := toI64_of_ge hlarge hlt
  omega

/-- The clients of this file do not agree with what `Getattr` says. -/
theorem not_clientsAgree_alikeArray :
    ∃ (hfile : 24 + 8 * (2 ^ 31 - 8) + (2 ^ 31 - 8) * (2 ^ 32 - 1) < 2 ^ 63) (m : FileMap),
      buildMapCompressed compact (ascii "x") .int32 .zlib false
        (alikeArray (2 ^ 31 - 8) (2 ^ 32 - 1)) = .ok m ∧
      resolve (.new (pointDataOf m) plainStat) (some pointDataPath) =
        .ok (.file ⟨[ascii "pointdata", ascii "x.parquet"], .virtual m⟩) ∧
      Readable standardDecoder (alikeFile (2 ^ 31 - 8) (2 ^ 32 - 1) hfile) (.virtual m) ∧
      ¬ClientsAgree standardDecoder (alikeFile (2 ^ 31 - 8) (2 ^ 32 - 1) hfile)
        (.new (pointDataOf m) plainStat) (some pointDataPath) := by
  obtain ⟨hfile, m, hm, hreadable, hlarge, hlt⟩ := exists_map_large
  have hpath := resolve_pointDataPath m
  refine ⟨hfile, m, hm, hpath, hreadable, fun hagree => ?_⟩
  have hsmall : fileSize (.virtual m) < 2 ^ 63 := hagree.fileSize_lt hpath hlt
  omega

end VirParquet.Verify
