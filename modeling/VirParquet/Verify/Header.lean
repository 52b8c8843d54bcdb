import VirParquet.Model.Arr

/-!
# Which headers are accepted

`ParseCompressed32` and `ParseCompressed64` on a file of any content. `headerAt` is the header that
stands at a place of the file, and `Accepts` is what the parsers are for: they return this header
if the file holds all of it, and throw otherwise.

* `readExactly_eq`: a header read succeeds exactly if the file holds the bytes.
* `parseCompressed64_accepts`: the parser of 64-bit words does what it is for.
* `parseCompressed_accepts_iff`: the parser of 32-bit words does not, exactly when the product
  `4 * n` passes `2 ^ 32` and nothing else stops it. The file then need not hold the block sizes.
-/

namespace VirParquet.Verify

open VirParquet.Found VirParquet.Model

/-! ## The header in the file -/

/-- Word `i` of the header at `offset`. -/
def fileWord (w : ℕ) (file : Bytes) (offset i : ℕ) : ℕ := leNat (slice file (offset + w * i) w)

/-- The compressed array whose header stands at `offset`: the number of blocks `n`, the two block
sizes, `n` more words, and the place behind them. -/
def headerAt (w : ℕ) (file : Bytes) (offset : ℕ) : CompressedArray where
  numBlks := fileWord w file offset 0
  blkSz := fileWord w file offset 1
  lastBlkSz := fileWord w file offset 2
  compressedBlkSz := leWords w (fileWord w file offset 0)
    (slice file (offset + w * 3) (w * fileWord w file offset 0))
  dataStart := offset + w * (3 + fileWord w file offset 0)

/-- The file holds the whole header at `offset`. -/
def HoldsHeader (w : ℕ) (file : Bytes) (offset : ℕ) : Prop :=
  offset + w * (3 + fileWord w file offset 0) ≤ file.length

/-- Memory for the block sizes of the header at `offset` is granted, in words of the header's width
and in words of eight bytes. -/
def HasMemory (heap : Heap) (w : ℕ) (file : Bytes) (offset : ℕ) : Prop :=
  (heap.alloc (w * fileWord w file offset 0)).isSome ∧
    (heap.alloc (8 * fileWord w file offset 0)).isSome

/-- What a header parser is for: the header is returned if the file holds it, with a data start that
is a 64-bit number. If the file does not hold it, or if there is no memory for it, an exception is
thrown. -/
def Accepts {σ : Type} (heap : Heap) (w : ℕ) (file : Bytes) (offset : ℕ)
    (run : Exec (CompressedArray × σ)) : Prop :=
  (HoldsHeader w file offset ∧ (headerAt w file offset).dataStart < 2 ^ 64 ∧
      ∃ s', run = .ok (headerAt w file offset, s')) ∨
    ¬(HoldsHeader w file offset ∧ HasMemory heap w file offset) ∧
      ∃ what, run = .error (.thrown what)

/-- `ParseCompressed32` comes to its loop: the file holds the three words and goes on behind them as
far as what 32 bits hold of the product `4 * n`, and there is memory for `n` sizes. -/
def ReachesLoop (heap : Heap) (file : Bytes) (offset : ℕ) : Prop :=
  offset + 12 ≤ file.length ∧ offset + 12 + u32 (4 * fileWord 4 file offset 0) ≤ file.length ∧
    HasMemory heap 4 file offset

/-- `ParseCompressed32` comes to its loop with a product `4 * n` that has passed `2 ^ 32`. -/
def ProductWraps (heap : Heap) (file : Bytes) (offset : ℕ) : Prop :=
  2 ^ 30 ≤ fileWord 4 file offset 0 ∧ ReachesLoop heap file offset

section parsers

variable {σ : Type} {heap : Heap} {base : RandomAccessFile σ} {file : Bytes} {offset : ℕ} {s : σ}

/-! ## Reads and words -/

section reads

variable (hpread : PreadLike base file) (hcomplete : CompleteReads base file)

include hpread hcomplete

/-- **A header read succeeds exactly if the file holds the bytes.** -/
theorem readExactly_eq (what : String) (size offset : ℕ) (s : σ) :
    readExactly base what size offset s =
      if size ≤ file.length - offset then
        .ok (slice file offset size, (base.pread size offset s).2)
      else .error (.thrown what) := by
  split
  next hin =>
    apply readExactly_eq_ok what (hcomplete size offset s hin)
    rw [length_slice]
    omega
  next hout =>
    rw [readExactly]
    rcases hp : base.pread size offset s with ⟨_ | d, s'⟩
    · rfl
    · have hle := hpread.length_le (s := s) (show (base.pread size offset s).1 = some d by rw [hp])
      exact if_neg (by omega)

/-- A header read that succeeds. -/
theorem readExactly_of_le (what : String) {size offset : ℕ} (h : size ≤ file.length - offset)
    (s : σ) : readExactly base what size offset s =
      .ok (slice file offset size, (base.pread size offset s).2) :=
  (readExactly_eq hpread hcomplete what size offset s).trans (if_pos h)

/-- A header read that throws. -/
theorem readExactly_of_lt (what : String) {size offset : ℕ} (h : file.length - offset < size)
    (s : σ) : readExactly base what size offset s = .error (.thrown what) :=
  (readExactly_eq hpread hcomplete what size offset s).trans (if_neg (by omega))

end reads

/-- The three words of a header are found in what was read of it. -/
theorem wordAt_slice {w i : ℕ} (h : i < 3) (file : Bytes) (offset : ℕ) :
    wordAt w i (slice file offset (w * 3)) = fileWord w file offset i := by
  have hin : w * i + w ≤ w * 3 := by
    calc w * i + w = w * (i + 1) := (Nat.mul_succ w i).symm
      _ ≤ w * 3 := Nat.mul_le_mul_left w (by omega)
  rw [wordAt, slice_slice_of_le hin, fileWord]

/-- A product that wraps is smaller than the number it stands for. -/
theorem u32_lt_self {n : ℕ} (h : 2 ^ 30 ≤ n) : u32 (4 * n) < 4 * n :=
  (u32_lt (4 * n)).trans_le (by omega)

/-- Memory is granted or an exception is thrown. -/
theorem newArray_cases (heap : Heap) (w n : ℕ) :
    (∃ b, heap.newArray w n = .ok b ∧ b.length = w * n ∧ (heap.alloc (w * n)).isSome) ∨
      heap.newArray w n = .error (.thrown "std::bad_alloc") ∧ ¬(heap.alloc (w * n)).isSome := by
  unfold Heap.newArray
  rcases hb : heap.alloc (w * n) with _ | b
  · exact Or.inr ⟨rfl, by simp⟩
  · exact Or.inl ⟨b, rfl, heap.length_alloc _ _ hb, rfl⟩

/-! ## Words of 64 bits -/

section parse

variable (hpread : PreadLike base file) (hcomplete : CompleteReads base file)
  (hfile : file.length < 2 ^ 64)

include hpread hcomplete hfile

/-- **`ParseCompressed64` accepts what is a header.** A number of blocks whose product with eight
wraps is refused by the allocator. -/
theorem parseCompressed64_accepts (heap : Heap) (offset : ℕ) (s : σ) :
    Accepts heap 8 file offset (parseCompressed64 heap base offset s) := by
  have h0 : wordAt 8 0 (slice file offset 24) = fileWord 8 file offset 0 :=
    wordAt_slice (by decide) file offset
  have h1 : wordAt 8 1 (slice file offset 24) = fileWord 8 file offset 1 :=
    wordAt_slice (by decide) file offset
  have h2 : wordAt 8 2 (slice file offset 24) = fileWord 8 file offset 2 :=
    wordAt_slice (by decide) file offset
  set n := fileWord 8 file offset 0 with hn
  by_cases hthree : 24 ≤ file.length - offset
  · have hinfo := readExactly_of_le hpread hcomplete "Fail to read data array header" hthree s
    rw [parseCompressed64, Exec.bind_of_eq_ok hinfo]
    dsimp only
    rw [h0]
    rcases newArray_cases heap 8 n with ⟨cells, hcells, hlen, -⟩ | ⟨hfail, hnone⟩
    · have hsmall := Heap.lt_of_newArray_eq_ok hcells
      rw [Exec.bind_of_eq_ok hcells, u64_of_lt (by omega : 8 * n < 2 ^ 64),
        u64_of_lt (by omega : offset + 24 < 2 ^ 64)]
      by_cases hsizes : 8 * n ≤ file.length - (offset + 24)
      · have hread := readExactly_of_le hpread hcomplete "Fail to read array block sizes" hsizes
          (base.pread 24 offset s).2
        have hfull : fill cells (slice file (offset + 24) (8 * n)) =
            slice file (offset + 24) (8 * n) :=
          fill_of_length_eq (by rw [length_slice_of_le (by omega), hlen])
        have hstart : u64 (offset + 24 + 8 * n) = offset + 8 * (3 + n) := by
          rw [u64_of_lt (by omega)]
          omega
        refine Or.inl ⟨?_, ?_, (base.pread (8 * n) (offset + 24) (base.pread 24 offset s).2).2, ?_⟩
        · show offset + 8 * (3 + n) ≤ file.length
          omega
        · show offset + 8 * (3 + n) < 2 ^ 64
          omega
        · rw [Exec.bind_of_eq_ok hread]
          dsimp only
          rw [hfull, hstart, h1, h2]
          rfl
      · have hread := readExactly_of_lt hpread hcomplete "Fail to read array block sizes"
          (by omega : file.length - (offset + 24) < 8 * n) (base.pread 24 offset s).2
        rw [hread]
        refine Or.inr ⟨fun hholds => ?_, _, rfl⟩
        have hend : offset + 8 * (3 + n) ≤ file.length := hholds.1
        omega
    · rw [hfail]
      exact Or.inr ⟨fun hholds => hnone hholds.2.1, _, rfl⟩
  · have hinfo := readExactly_of_lt hpread hcomplete "Fail to read data array header"
      (by omega : file.length - offset < 24) s
    rw [parseCompressed64, hinfo]
    refine Or.inr ⟨fun hholds => ?_, _, rfl⟩
    have hend : offset + 8 * (3 + n) ≤ file.length := hholds.1
    omega

/-! ## Words of 32 bits -/

/-- What `ParseCompressed32` returns from its loop: the number of blocks that the header has, the
sizes that were read, and the place behind what was read. -/
def cutHeader (file : Bytes) (offset : ℕ) (cells : Bytes) : CompressedArray where
  numBlks := fileWord 4 file offset 0
  blkSz := fileWord 4 file offset 1
  lastBlkSz := fileWord 4 file offset 2
  compressedBlkSz := leWords 4 (fileWord 4 file offset 0)
    (fill cells (slice file (offset + 12) (u32 (4 * fileWord 4 file offset 0))))
  dataStart := offset + 12 + u32 (4 * fileWord 4 file offset 0)

/-- **What `ParseCompressed32` does**: it throws before its loop, or copies the sizes, or its `int`
counter overflows. -/
theorem parseCompressed32_cases (heap : Heap) (offset : ℕ) (s : σ) :
    (¬ReachesLoop heap file offset ∧
        ∃ what, parseCompressed32 heap base offset s = .error (.thrown what)) ∨
      ReachesLoop heap file offset ∧
        ((fileWord 4 file offset 0 < 2 ^ 31 ∧ ∃ cells s',
            cells.length = 4 * fileWord 4 file offset 0 ∧
              parseCompressed32 heap base offset s = .ok (cutHeader file offset cells, s')) ∨
          2 ^ 31 ≤ fileWord 4 file offset 0 ∧
            parseCompressed32 heap base offset s = .error .signedOverflow) := by
  have h0 : wordAt 4 0 (slice file offset 12) = fileWord 4 file offset 0 :=
    wordAt_slice (by decide) file offset
  have h1 : wordAt 4 1 (slice file offset 12) = fileWord 4 file offset 1 :=
    wordAt_slice (by decide) file offset
  have h2 : wordAt 4 2 (slice file offset 12) = fileWord 4 file offset 2 :=
    wordAt_slice (by decide) file offset
  unfold ReachesLoop HasMemory cutHeader
  set n := fileWord 4 file offset 0 with hn
  by_cases hthree : 12 ≤ file.length - offset
  · have hinfo := readExactly_of_le hpread hcomplete "Fail to read data array header" hthree s
    rw [parseCompressed32, Exec.bind_of_eq_ok hinfo]
    dsimp only
    rw [h0]
    rcases newArray_cases heap 4 n with ⟨cells, hcells, hlen, halloc⟩ | ⟨hfail, hnone⟩
    · rw [Exec.bind_of_eq_ok hcells, u64_of_lt (by omega : offset + 12 < 2 ^ 64)]
      by_cases hsizes : u32 (4 * n) ≤ file.length - (offset + 12)
      · have hread := readExactly_of_le hpread hcomplete "Fail to read array block sizes" hsizes
          (base.pread 12 offset s).2
        rw [Exec.bind_of_eq_ok hread]
        dsimp only
        rcases newArray_cases heap 8 n with ⟨cells64, hcells64, -, halloc64⟩ | ⟨hfail, hnone⟩
        · rw [Exec.bind_of_eq_ok hcells64, h1, h2,
            u64_of_lt (by omega : offset + 12 + u32 (4 * n) < 2 ^ 64)]
          refine Or.inr ⟨⟨by omega, by omega, halloc, halloc64⟩, ?_⟩
          set sizes := leWords 4 n (fill cells (slice file (offset + 12) (u32 (4 * n)))) with hdef
          have hlength : sizes.length = n := length_leWords _ _ _
          have hlength64 : (leWords 8 n cells64).length = sizes.length := by
            rw [hlength, length_leWords]
          rcases Nat.lt_or_ge n (2 ^ 31) with hlt | hge
          · have hcopy := countUp_copyCell (hlength ▸ hlt) hlength64
            rw [hlength] at hcopy
            exact Or.inl ⟨hlt, cells, _, hlen, Exec.bind_of_eq_ok hcopy _⟩
          · have hcopy := countUp_copyCell_overflow (hlength.symm ▸ hge) hlength64
            rw [hlength] at hcopy
            refine Or.inr ⟨hge, ?_⟩
            rw [hcopy]
            rfl
        · refine Or.inl ⟨fun h => hnone h.2.2.2, "std::bad_alloc", ?_⟩
          rw [hfail]
          rfl
      · have hread := readExactly_of_lt hpread hcomplete "Fail to read array block sizes"
          (by omega : file.length - (offset + 12) < u32 (4 * n)) (base.pread 12 offset s).2
        refine Or.inl ⟨fun h => ?_, "Fail to read array block sizes", ?_⟩
        · obtain ⟨-, hfit, -⟩ := h
          omega
        · rw [hread]
          rfl
    · refine Or.inl ⟨fun h => hnone h.2.2.1, "std::bad_alloc", ?_⟩
      rw [hfail]
      rfl
  · have hinfo := readExactly_of_lt hpread hcomplete "Fail to read data array header"
      (by omega : file.length - offset < 12) s
    refine Or.inl ⟨fun h => ?_, "Fail to read data array header", ?_⟩
    · obtain ⟨hfit, -⟩ := h
      omega
    · rw [parseCompressed32, hinfo]
      rfl

/-- **`ParseCompressed32` with a product that wraps does not do what it is for**: it returns with a
data start inside the block sizes, or its counter overflows. -/
theorem not_accepts_of_productWraps (heap : Heap) (offset : ℕ) (s : σ)
    (h : ProductWraps heap file offset) :
    ¬Accepts heap 4 file offset (parseCompressed32 heap base offset s) := by
  obtain ⟨hbig, hreach⟩ := h
  have hcut := u32_lt_self hbig
  rintro (⟨-, -, s', hok⟩ | ⟨-, what, hthrown⟩)
  · rcases parseCompressed32_cases hpread hcomplete hfile heap offset s with
      ⟨hno, -⟩ | ⟨-, ⟨-, cells, t, -, hrun⟩ | ⟨-, hrun⟩⟩
    · exact hno hreach
    · have heq := congrArg (fun r => r.1.dataStart) (Except.ok.inj (hrun.symm.trans hok))
      have hstart : offset + 12 + u32 (4 * fileWord 4 file offset 0) =
          offset + 4 * (3 + fileWord 4 file offset 0) := heq
      omega
    · rw [hok] at hrun
      cases hrun
  · rcases parseCompressed32_cases hpread hcomplete hfile heap offset s with
      ⟨hno, -⟩ | ⟨-, ⟨-, cells, t, -, hrun⟩ | ⟨-, hrun⟩⟩
    · exact hno hreach
    · rw [hthrown] at hrun
      cases hrun
    · rw [hthrown] at hrun
      cases hrun

/-- **`ParseCompressed32` otherwise accepts what is a header.** -/
theorem accepts_of_not_productWraps (heap : Heap) (offset : ℕ) (s : σ)
    (h : ¬ProductWraps heap file offset) :
    Accepts heap 4 file offset (parseCompressed32 heap base offset s) := by
  rcases parseCompressed32_cases hpread hcomplete hfile heap offset s with
    ⟨hno, what, hthrown⟩ | ⟨hreach, hrun⟩
  · refine Or.inr ⟨fun ⟨hheld, hmemory⟩ => hno ⟨?_, ?_, hmemory⟩, what, hthrown⟩
    · have hend : offset + 4 * (3 + fileWord 4 file offset 0) ≤ file.length := hheld
      omega
    · have hend : offset + 4 * (3 + fileWord 4 file offset 0) ≤ file.length := hheld
      have hcut : u32 (4 * fileWord 4 file offset 0) ≤ 4 * fileWord 4 file offset 0 :=
        Nat.mod_le _ _
      omega
  · have hsmall : fileWord 4 file offset 0 < 2 ^ 30 := by
      by_contra hbig
      exact h ⟨not_lt.mp hbig, hreach⟩
    obtain ⟨-, hfit, -⟩ := hreach
    rcases hrun with ⟨-, cells, s', hlen, hok⟩ | ⟨hge, -⟩
    · have hcut : u32 (4 * fileWord 4 file offset 0) = 4 * fileWord 4 file offset 0 :=
        u32_of_lt (by omega)
      rw [hcut] at hfit
      have hfull : fill cells (slice file (offset + 12) (4 * fileWord 4 file offset 0)) =
          slice file (offset + 12) (4 * fileWord 4 file offset 0) :=
        fill_of_length_eq (by rw [length_slice_of_le hfit, hlen])
      have hheader : cutHeader file offset cells = headerAt 4 file offset := by
        rw [cutHeader, headerAt, hcut, hfull,
          show offset + 12 + 4 * fileWord 4 file offset 0 =
            offset + 4 * (3 + fileWord 4 file offset 0) by omega]
      refine Or.inl ⟨?_, ?_, s', hheader ▸ hok⟩
      · show offset + 4 * (3 + fileWord 4 file offset 0) ≤ file.length
        omega
      · show offset + 4 * (3 + fileWord 4 file offset 0) < 2 ^ 64
        omega
    · omega

end parse

end parsers

/-- **Headers are accepted as they should be, but for products that wrap.** Over a base that reads
like `pread`, and completely where it can, the parser of 64-bit words returns a header exactly if
the file holds all of it and throws otherwise. The parser of 32-bit words does so if and only if it
does not come to its loop with a product `4 * n` that has passed `2 ^ 32`. -/
theorem parseCompressed_accepts_iff {σ : Type} (heap : Heap) (base : RandomAccessFile σ)
    (file : Bytes) (hpread : PreadLike base file) (hcomplete : CompleteReads base file)
    (hfile : file.length < 2 ^ 64) (offset : ℕ) (s : σ) :
    Accepts heap 8 file offset (parseCompressed64 heap base offset s) ∧
      (Accepts heap 4 file offset (parseCompressed32 heap base offset s) ↔
        ¬ProductWraps heap file offset) :=
  ⟨parseCompressed64_accepts hpread hcomplete hfile heap offset s,
    fun h hwraps => not_accepts_of_productWraps hpread hcomplete hfile heap offset s hwraps h,
    accepts_of_not_productWraps hpread hcomplete hfile heap offset s⟩

/-- The theorem at a header of one block in words of 32 bits. -/
theorem parseCompressed_accepts_iff_one :
    Accepts zeroHeap 8 [1, 0, 0, 0, 9, 0, 0, 0, 9, 0, 0, 0, 5, 0, 0, 0] 0
        (parseCompressed64 zeroHeap (osFile [1, 0, 0, 0, 9, 0, 0, 0, 9, 0, 0, 0, 5, 0, 0, 0]) 0
          ()) ∧
      (Accepts zeroHeap 4 [1, 0, 0, 0, 9, 0, 0, 0, 9, 0, 0, 0, 5, 0, 0, 0] 0
          (parseCompressed32 zeroHeap (osFile [1, 0, 0, 0, 9, 0, 0, 0, 9, 0, 0, 0, 5, 0, 0, 0]) 0
            ()) ↔
        ¬ProductWraps zeroHeap [1, 0, 0, 0, 9, 0, 0, 0, 9, 0, 0, 0, 5, 0, 0, 0] 0) :=
  parseCompressed_accepts_iff zeroHeap _ _ (osFile_preadLike _) (osFile_completeReads _)
    (by decide) 0 ()

/-- A file of twelve bytes that claims `2 ^ 30` blocks does not hold their sizes, and yet the parser
of 32-bit words does not throw. -/
theorem not_accepts_twelveBytes :
    ¬HoldsHeader 4 [0, 0, 0, 64, 1, 0, 0, 0, 1, 0, 0, 0] 0 ∧
      ¬Accepts zeroHeap 4 [0, 0, 0, 64, 1, 0, 0, 0, 1, 0, 0, 0] 0
        (parseCompressed32 zeroHeap (osFile [0, 0, 0, 64, 1, 0, 0, 0, 1, 0, 0, 0]) 0 ()) := by
  have hword : fileWord 4 [0, 0, 0, 64, 1, 0, 0, 0, 1, 0, 0, 0] 0 0 = 2 ^ 30 := by decide
  have hgrants : zeroHeap.Grants (2 ^ 33) := zeroHeap_grants (by norm_num)
  refine ⟨?_, not_accepts_of_productWraps (osFile_preadLike _) (osFile_completeReads _) (by decide)
    zeroHeap 0 () ⟨?_, by decide, ?_, ?_, ?_⟩⟩
  · rw [HoldsHeader, hword]
    decide
  · rw [hword]
  · rw [hword]
    decide
  · rw [hword]
    obtain ⟨b, hb⟩ := hgrants (4 * 2 ^ 30) (by norm_num)
    rw [hb]
    rfl
  · rw [hword]
    obtain ⟨b, hb⟩ := hgrants (8 * 2 ^ 30) (by norm_num)
    rw [hb]
    rfl

end VirParquet.Verify
