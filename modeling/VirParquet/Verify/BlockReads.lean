import VirParquet.Verify.BuildMap

/-!
# The block sizes that `BuildMap` reads

`compressedPages` reads the sizes in the header of a compressed array, one for each page. For the
headers that a parser returned `readsEachBlock_iff` says when it reads each of them once and in
order and makes one page for each: if there is a block, and no more than `2 ^ 31`. An array without
blocks sends the loop to the first size, which is not there (`buildMapCompressed_of_zero`).
-/

namespace VirParquet.Verify

open VirParquet.Found VirParquet.Found.Thrift VirParquet.Model

/-- `BuildMap` comes to its end with the sizes of all blocks read in order, each once, and the pages
of as many blocks in the file. -/
def ReadsEachBlock (thrift : Protocol) (name : Bytes) (type : DataType) (codec : CompressionType)
    (base64 : Bool) (arr : CompressedArray) : Prop :=
  ∃ valueSize st blks,
    getValueSize type = .ok valueSize ∧
      compressedPages thrift base64 arr valueSize = .ok st ∧
      buildMapCompressed thrift name type codec base64 arr =
        finishMap thrift name type codec st ∧
      st.reads = List.range arr.numBlks ∧
      Layout.Holds ⟨thrift, valueSize⟩ base64 arr.dataStart blks st ∧
      blks.length = arr.numBlks

section

variable {thrift : Protocol} {name : Bytes} {type : DataType} {codec : CompressionType}
  {base64 : Bool} {arr : CompressedArray}

/-- `BuildMap` reads the size of each block if and only if there are blocks, and no more than it can
count. -/
theorem readsEachBlock_iff_of_length (htype : type ≠ .unknown)
    (hlen : arr.compressedBlkSz.length = arr.numBlks) (hn : arr.numBlks < 2 ^ 64) :
    ReadsEachBlock thrift name type codec base64 arr ↔ 1 ≤ arr.numBlks ∧ arr.numBlks ≤ 2 ^ 31 := by
  constructor
  · rintro ⟨valueSize, st, blks, -, hpages, -⟩
    exact bounds_of_compressedPages_eq_ok hn hpages
  · rintro ⟨hpos, hmax⟩
    obtain ⟨valueSize, physical, converted, htables⟩ := exists_tables htype
    obtain ⟨st, hst, hholds, hreads⟩ := compressedPages_holds (L := ⟨thrift, valueSize⟩)
      hlen hpos hmax base64
    refine ⟨valueSize, st, compressedBlks arr, htables.valueSize_eq, hst, ?_, hreads, hholds, ?_⟩
    · rw [buildMapCompressed, Exec.bind_of_eq_ok htables.valueSize_eq, Exec.bind_of_eq_ok hst]
    · rw [length_compressedBlks, hlen]

/-- **An array without blocks** makes `BuildMap` read a size that is not there. -/
theorem buildMapCompressed_of_zero (htype : type ≠ .unknown) (hlen : arr.compressedBlkSz = [])
    (hn : arr.numBlks = 0) :
    buildMapCompressed thrift name type codec base64 arr = .error .outOfBounds := by
  obtain ⟨valueSize, physical, converted, htables⟩ := exists_tables htype
  have hread : vecAt arr.compressedBlkSz 0 = .error .outOfBounds := by
    rw [hlen]
    rfl
  have hturn : compressedTurn thrift arr valueSize 0 (.start base64 arr.dataStart) =
      .error .outOfBounds := by
    simp [compressedTurn, compressedPage, hread, bind, Except.bind]
  have hbound : 0 < subU64 arr.numBlks 1 := by
    rw [hn]
    decide
  have hpages : compressedPages thrift base64 arr valueSize = .error .outOfBounds := by
    rw [compressedPages, countUp, if_pos hbound, hturn]
    rfl
  rw [buildMapCompressed, Exec.bind_of_eq_ok htables.valueSize_eq, hpages]
  rfl

end

/-- **Which of the headers that a parser returned make `BuildMap` read each block once.** The type
has to be a known one: for the unknown one it throws before it reads a size. -/
theorem readsEachBlock_iff {σ : Type} (thrift : Protocol) (heap : Heap) (file : RandomAccessFile σ)
    (offset : ℕ) (s s' : σ) (name : Bytes) (type : DataType) (codec : CompressionType)
    (base64 : Bool) (arr : CompressedArray)
    (hparse : parseCompressed32 heap file offset s = .ok (arr, s') ∨
      parseCompressed64 heap file offset s = .ok (arr, s')) :
    ReadsEachBlock thrift name type codec base64 arr ↔
      type ≠ .unknown ∧ 1 ≤ arr.numBlks ∧ arr.numBlks ≤ 2 ^ 31 := by
  have hreads : type ≠ .unknown → (ReadsEachBlock thrift name type codec base64 arr ↔
      1 ≤ arr.numBlks ∧ arr.numBlks ≤ 2 ^ 31) := by
    intro htype
    rcases hparse with hparse | hparse
    · obtain ⟨hlen, hn⟩ := length_compressedBlkSz32 hparse
      exact readsEachBlock_iff_of_length htype hlen (by omega)
    · obtain ⟨hlen, hn⟩ := length_compressedBlkSz64 hparse
      exact readsEachBlock_iff_of_length htype hlen hn
  constructor
  · intro h
    have htype : type ≠ .unknown := by
      obtain ⟨_, _, _, hvalueSize, -⟩ := h
      exact ne_unknown_of_getValueSize hvalueSize
    exact ⟨htype, (hreads htype).mp h⟩
  · rintro ⟨htype, hbounds⟩
    exact (hreads htype).mpr hbounds

/-- The theorem at a header of two blocks. -/
theorem readsEachBlock_iff_two :
    ReadsEachBlock compact (ascii "x") .int32 .zlib false ⟨2, 16, 8, [7, 3], 40⟩ :=
  (readsEachBlock_iff compact zeroHeap
    (osFile ([2, 0, 0, 0, 0, 0, 0, 0, 16, 0, 0, 0, 0, 0, 0, 0, 8, 0, 0, 0, 0, 0, 0, 0] ++
      [7, 0, 0, 0, 0, 0, 0, 0, 3, 0, 0, 0, 0, 0, 0, 0])) 0 () () (ascii "x") .int32 .zlib false
    ⟨2, 16, 8, [7, 3], 40⟩ (Or.inr (by decide))).mpr (by decide)

/-- The header that stands for no blocks is parsed, and `BuildMap` reads out of bounds. -/
theorem not_readsEachBlock_zero :
    parseCompressed64 zeroHeap (osFile (List.replicate 24 0)) 0 () =
        .ok (⟨0, 0, 0, [], 24⟩, ()) ∧
      buildMapCompressed compact (ascii "x") .int32 .zlib false ⟨0, 0, 0, [], 24⟩ =
        .error .outOfBounds ∧
      ¬ReadsEachBlock compact (ascii "x") .int32 .zlib false ⟨0, 0, 0, [], 24⟩ := by
  refine ⟨by decide, buildMapCompressed_of_zero (by decide) rfl rfl, fun h => ?_⟩
  have hbounds := (readsEachBlock_iff_of_length (by decide) rfl (by decide)).mp h
  exact absurd hbounds.1 (by decide)

end VirParquet.Verify
