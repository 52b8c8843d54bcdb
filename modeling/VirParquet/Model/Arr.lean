import VirParquet.Model.File

/-!
# VTK array headers

`arr.h` and `arr.cc`: the data types, the two kinds of array headers and their four parsers. A
header is a sequence of words of four or eight bytes: the number of bytes of an uncompressed array,
or, of a compressed one, the number of blocks, the sizes of a full and of the last block before
compression, and the size of each block after it.

Memory from `new T[n]` is a parameter, `Heap`: it either throws or yields cells with arbitrary
content, which is what a parser that reads too little would go on to use. The products `4 * n`
and `8 * n` are cut to the width they have in the source, 32 and 64 bits.

`parseCompressed32_eq_ok` and its three siblings say what a parser returns for a file that holds a
complete header, `length_compressedBlkSz64` and `length_compressedBlkSz32` that a parsed header has
as many sizes as it says.
-/

namespace VirParquet.Model

open VirParquet.Found

/-! ## Types -/

/-- Source: `arr.h`, `EncodingType` -/
inductive EncodingType
  | raw
  | base64
  deriving DecidableEq, Repr

/-- Source: `arr.h`, `DataType` -/
inductive DataType
  | int8
  | uint8
  | int32
  | uint32
  | int64
  | uint64
  | float32
  | float64
  | unknown
  deriving DecidableEq, Repr

/-- Source: `arr.h`, `CompressionType` -/
inductive CompressionType
  | none
  | zlib
  | lz4
  | unknownCompression
  deriving DecidableEq, Repr

/-- Source: `arr.cc`, `GetValueSize` -/
def getValueSize : DataType → Exec ℕ
  | .int8 | .uint8 => .ok 1
  | .int32 | .uint32 | .float32 => .ok 4
  | .int64 | .uint64 | .float64 => .ok 8
  | .unknown => .error (.thrown "Unknown data type")

/-- Source: `arr.h`, `CompressedArray` -/
structure CompressedArray where
  numBlks : ℕ
  blkSz : ℕ
  lastBlkSz : ℕ
  compressedBlkSz : List ℕ
  dataStart : ℕ
  deriving DecidableEq, Repr

/-- Source: `arr.h`, `UncompressedArray` -/
structure UncompressedArray where
  totalBytes : ℕ
  dataStart : ℕ
  deriving DecidableEq, Repr

/-! ## Memory -/

/-- The memory allocator: `new` of so many bytes throws (`none`) or yields that many bytes of
unspecified content. It cannot yield more than the largest object size. -/
structure Heap where
  /-- The content of a new block of memory. -/
  alloc : ℕ → Option Bytes
  /-- A new block has the size asked for. -/
  length_alloc : ∀ n b, alloc n = some b → b.length = n
  /-- A block beyond the largest object size is refused. -/
  alloc_large : ∀ n, 2 ^ 63 ≤ n → alloc n = none

/-- `new T[n]` with `sizeof(T)` equal to `w`. -/
def Heap.newArray (heap : Heap) (w n : ℕ) : Exec Bytes :=
  match heap.alloc (w * n) with
  | some b => .ok b
  | none => .error (.thrown "std::bad_alloc")

/-- The allocator grants arrays of up to `bound` bytes. -/
def Heap.Grants (heap : Heap) (bound : ℕ) : Prop := ∀ n ≤ bound, ∃ b, heap.alloc n = some b

/-- Two allocators grant arrays of the same sizes. What the new arrays hold may be different. -/
def Heap.SameGrants (heap heap' : Heap) : Prop :=
  ∀ n, (heap.alloc n).isSome = (heap'.alloc n).isSome

/-- The allocator that grants whatever it may, with memory full of this byte. -/
def filledHeap (c : UInt8) : Heap where
  alloc n := if n < 2 ^ 63 then some (List.replicate n c) else none
  length_alloc n b h := by
    split at h
    · cases h
      exact List.length_replicate
    · cases h
  alloc_large n h := if_neg (not_lt.mpr h)

/-- The allocator that grants whatever it may, with cleared memory. -/
def zeroHeap : Heap := filledHeap 0

/-- That allocator grants everything below the largest object size. -/
theorem zeroHeap_grants {bound : ℕ} (h : bound < 2 ^ 63) : zeroHeap.Grants bound :=
  fun _ hn => ⟨_, if_pos (hn.trans_lt h)⟩

/-- An array within the bound is granted. -/
theorem Heap.Grants.newArray {heap : Heap} {bound : ℕ} (h : heap.Grants bound) {w n : ℕ}
    (hn : w * n ≤ bound) : ∃ b, heap.newArray w n = .ok b ∧ b.length = w * n := by
  obtain ⟨b, hb⟩ := h (w * n) hn
  exact ⟨b, by simp [Heap.newArray, hb], heap.length_alloc _ _ hb⟩

/-! ## Parsers -/

section parsers

variable {σ : Type} (heap : Heap) (file : RandomAccessFile σ)

/-- `if (nr != size) throw`: the pattern of all header reads. A failed read has `nr` equal to
`2 ^ 64 - 1`, which no size is. -/
def readExactly (what : String) (size offset : ℕ) (s : σ) : Exec (Bytes × σ) :=
  match file.pread size offset s with
  | (some d, s) => if d.length = size then .ok (d, s) else .error (.thrown what)
  | (none, _) => .error (.thrown what)

/-- The bytes of a new array of `b` after `d` was read into it. -/
def fill (b d : Bytes) : Bytes := d ++ b.drop d.length

/-- Word `i` of width `w` of a byte string. -/
def wordAt (w i : ℕ) (bs : Bytes) : ℕ := leNat (slice bs (w * i) w)

/-- Source: `arr.cc`, `ParseCompressed64` -/
def parseCompressed64 (offset : ℕ) (s : σ) : Exec (CompressedArray × σ) := do
  let (info, s) ← readExactly file "Fail to read data array header" 24 offset s
  let n := wordAt 8 0 info
  let cells ← heap.newArray 8 n
  let (sizes, s) ← readExactly file "Fail to read array block sizes" (u64 (8 * n))
    (u64 (offset + 24)) s
  .ok ({ numBlks := n
         blkSz := wordAt 8 1 info
         lastBlkSz := wordAt 8 2 info
         compressedBlkSz := leWords 8 n (fill cells sizes)
         dataStart := u64 (offset + 24 + 8 * n) }, s)

/-- `compressed_block_size64[i] = compressed_block_size[i]`. -/
def copyCell (cells : List ℕ) (i : ℕ) (cells64 : List ℕ) : Exec (List ℕ) := do
  let x ← vecAt cells i
  let _ ← vecAt cells64 i
  .ok (cells64.set i x)

/-- Source: `arr.cc`, `ParseCompressed32` -/
def parseCompressed32 (offset : ℕ) (s : σ) : Exec (CompressedArray × σ) := do
  let (info, s) ← readExactly file "Fail to read data array header" 12 offset s
  let n := wordAt 4 0 info
  let cells ← heap.newArray 4 n
  let (sizes, s) ← readExactly file "Fail to read array block sizes" (u32 (4 * n))
    (u64 (offset + 12)) s
  let cells64 ← heap.newArray 8 n
  let sizes64 ← countUp (2 ^ 31) .signedOverflow n (copyCell (leWords 4 n (fill cells sizes))) 0
    (leWords 8 n cells64)
  .ok ({ numBlks := n
         blkSz := wordAt 4 1 info
         lastBlkSz := wordAt 4 2 info
         compressedBlkSz := sizes64
         dataStart := u64 (offset + 12 + u32 (4 * n)) }, s)

/-- Source: `arr.cc`, `ParseUncompressed64` -/
def parseUncompressed64 (offset : ℕ) (s : σ) : Exec (UncompressedArray × σ) := do
  let (bytes, s) ← readExactly file "Fail to read data array header" 8 offset s
  .ok ({ totalBytes := wordAt 8 0 bytes, dataStart := u64 (offset + 8) }, s)

/-- Source: `arr.cc`, `ParseUncompressed32` -/
def parseUncompressed32 (offset : ℕ) (s : σ) : Exec (UncompressedArray × σ) := do
  let (bytes, s) ← readExactly file "Fail to read data array header" 4 offset s
  .ok ({ totalBytes := wordAt 4 0 bytes, dataStart := u64 (offset + 4) }, s)

end parsers

/-! ## What the parsers return -/

section results

variable {σ : Type} {heap : Heap} {file : RandomAccessFile σ} {offset : ℕ} {s : σ}

/-- A read that returns all that was asked for. -/
theorem readExactly_eq_ok (what : String) {size : ℕ} {d : Bytes}
    (h : (file.pread size offset s).1 = some d) (hlen : d.length = size) :
    readExactly file what size offset s = .ok (d, (file.pread size offset s).2) := by
  unfold readExactly
  rcases hp : file.pread size offset s with ⟨_ | d', s'⟩
  · simp [hp] at h
  · rw [hp] at h
    cases h
    simp [hlen]

/-- A full array keeps nothing of the memory it was made from. -/
theorem fill_of_length_eq {b d : Bytes} (h : d.length = b.length) : fill b d = d := by
  simp [fill, h]

/-- Word `i` of a byte string that starts with a sequence of words is the one of this index. -/
theorem wordAt_flatMap {w : ℕ} {words : List ℕ} (h : ∀ x ∈ words, x < 256 ^ w) {i x : ℕ}
    (hi : words[i]? = some x) (rest : Bytes) :
    wordAt w i (words.flatMap (leBytes w) ++ rest) = x := by
  obtain ⟨hlt, rfl⟩ := List.getElem?_eq_some_iff.mp hi
  have hwords : words = words.take i ++ words[i] :: words.drop (i + 1) := by
    rw [← List.drop_eq_getElem_cons hlt, List.take_append_drop]
  have hsplit : words.flatMap (leBytes w) ++ rest =
      (words.take i).flatMap (leBytes w) ++
        (leBytes w words[i] ++ ((words.drop (i + 1)).flatMap (leBytes w) ++ rest)) :=
    calc words.flatMap (leBytes w) ++ rest
        = (words.take i ++ words[i] :: words.drop (i + 1)).flatMap (leBytes w) ++ rest :=
          congrArg (fun xs : List ℕ => xs.flatMap (leBytes w) ++ rest) hwords
      _ = _ := by
          rw [List.flatMap_append, List.flatMap_cons, List.append_assoc, List.append_assoc]
  have hlength : ((words.take i).flatMap (leBytes w)).length = w * i := by
    rw [length_flatMap_leBytes, List.length_take, Nat.min_eq_left hlt.le]
  have hword := slice_middle ((words.take i).flatMap (leBytes w)) (leBytes w words[i])
    ((words.drop (i + 1)).flatMap (leBytes w) ++ rest)
  rw [hlength, length_leBytes] at hword
  rw [wordAt, hsplit, hword, leNat_leBytes_of_lt (h _ (List.getElem_mem hlt))]

/-- One copy of the loop of `ParseCompressed32`: after `i` copies the first `i` cells agree. -/
theorem copyCell_eq_ok {cells cells64 : List ℕ} (hlen : cells64.length = cells.length) {i : ℕ}
    (hi : i < cells.length) :
    copyCell cells i (cells.take i ++ cells64.drop i) =
      .ok (cells.take (i + 1) ++ cells64.drop (i + 1)) := by
  have hlen64 : i < (cells.take i ++ cells64.drop i).length := by
    rw [List.length_append, List.length_take, List.length_drop]
    omega
  have hset : (cells.take i ++ cells64.drop i).set i cells[i] =
      cells.take (i + 1) ++ cells64.drop (i + 1) := by
    rw [List.set_append_right _ _ (List.length_take_le _ _), List.length_take,
      Nat.min_eq_left hi.le, Nat.sub_self, List.drop_eq_getElem_cons (by omega),
      List.set_cons_zero, List.take_succ_eq_append_getElem hi, List.append_assoc]
    rfl
  rw [copyCell, vecAt_eq_ok (List.getElem?_eq_getElem hi),
    vecAt_eq_ok (List.getElem?_eq_getElem hlen64), ← hset]
  rfl

/-- Copying cells copies all of them, if the counter can hold their number. -/
theorem countUp_copyCell {cells cells64 : List ℕ} (h : cells.length < 2 ^ 31)
    (hlen : cells64.length = cells.length) :
    countUp (2 ^ 31) Fault.signedOverflow cells.length (copyCell cells) 0 cells64 = .ok cells := by
  have hturn : ∀ i out, i < cells.length → out = cells.take i ++ cells64.drop i →
      ∃ out', copyCell cells i out = .ok out' ∧
        out' = cells.take (i + 1) ++ cells64.drop (i + 1) := by
    rintro i _ hi rfl
    exact ⟨_, copyCell_eq_ok hlen hi, rfl⟩
  obtain ⟨out, hout, hall⟩ := countUp_total (fun i out => out = cells.take i ++ cells64.drop i) h
    (Nat.zero_le _) (show cells64 = cells.take 0 ++ cells64.drop 0 by simp) hturn
  rw [hout, hall, List.take_length, ← hlen, List.drop_length, List.append_nil]

/-- The words of a compressed array's header. -/
def CompressedArray.words (arr : CompressedArray) : List ℕ :=
  [arr.numBlks, arr.blkSz, arr.lastBlkSz] ++ arr.compressedBlkSz

/-- With more cells than the counter of the loop can count, it copies until the counter cannot be
increased. -/
theorem countUp_copyCell_overflow {cells cells64 : List ℕ} (h : 2 ^ 31 ≤ cells.length)
    (hlen : cells64.length = cells.length) :
    countUp (2 ^ 31) Fault.signedOverflow cells.length (copyCell cells) 0 cells64 =
      .error .signedOverflow := by
  apply countUp_overflow (fun i out => out = cells.take i ++ cells64.drop i) h (by norm_num)
  · simp
  · rintro i _ hi rfl
    exact ⟨_, copyCell_eq_ok hlen (by omega), rfl⟩

/-- The three words before the block sizes are read back from their bytes. -/
theorem wordAt_three {w a b c : ℕ} (h : ∀ x ∈ [a, b, c], x < 256 ^ w) :
    wordAt w 0 ([a, b, c].flatMap (leBytes w)) = a ∧
      wordAt w 1 ([a, b, c].flatMap (leBytes w)) = b ∧
      wordAt w 2 ([a, b, c].flatMap (leBytes w)) = c := by
  have hword : ∀ i x, [a, b, c][i]? = some x →
      wordAt w i ([a, b, c].flatMap (leBytes w)) = x := by
    intro i x hx
    have := wordAt_flatMap h hx []
    rwa [List.append_nil] at this
  exact ⟨hword 0 a rfl, hword 1 b rfl, hword 2 c rfl⟩

section compressed

variable {arr : CompressedArray} (hlen : arr.compressedBlkSz.length = arr.numBlks)

include hlen

/-- **A 64-bit header is parsed to its words**, with the data behind it. -/
theorem parseCompressed64_eq_ok (hwords : ∀ x ∈ arr.words, x < 2 ^ 64)
    (hheap : heap.Grants (8 * arr.numBlks))
    (hinfo : ∀ s, (file.pread 24 offset s).1 =
      some ([arr.numBlks, arr.blkSz, arr.lastBlkSz].flatMap (leBytes 8)))
    (hsizes : ∀ s, (file.pread (8 * arr.numBlks) (offset + 24) s).1 =
      some (arr.compressedBlkSz.flatMap (leBytes 8)))
    (hstart : arr.dataStart = offset + 24 + 8 * arr.numBlks) (hend : arr.dataStart < 2 ^ 64) :
    ∃ s', parseCompressed64 heap file offset s = .ok (arr, s') := by
  have hwords8 : ∀ x ∈ arr.words, x < 256 ^ 8 := by simpa using hwords
  obtain ⟨cells, hcells, hcellsLen⟩ := hheap.newArray (w := 8) le_rfl
  obtain ⟨h0, h1, h2⟩ := wordAt_three (w := 8) fun x hx =>
    hwords8 x (List.mem_append_left _ hx)
  have hread := leWords_flatMap_leBytes (w := 8)
    (fun x hx => hwords8 x (List.mem_append_right _ hx)) []
  rw [List.append_nil, hlen] at hread
  have hlenBytes : (arr.compressedBlkSz.flatMap (leBytes 8)).length = 8 * arr.numBlks := by
    rw [length_flatMap_leBytes, hlen]
  have hfirst := readExactly_eq_ok "Fail to read data array header" (hinfo s)
    (length_flatMap_leBytes 8 _)
  have hsecond := readExactly_eq_ok "Fail to read array block sizes"
    (hsizes (file.pread 24 offset s).2) hlenBytes
  rw [parseCompressed64]
  simp only [bind, Except.bind, hfirst, h0, h1, h2, hcells, u64_of_lt (n := 8 * arr.numBlks)
    (by omega), u64_of_lt (n := offset + 24) (by omega), hsecond, ← hstart,
    u64_of_lt hend, fill_of_length_eq (hlenBytes.trans hcellsLen.symm), hread]
  exact ⟨_, rfl⟩

/-- **A 32-bit header is parsed to its words**, with the data behind it, if the copying loop's
counter and the products of 32 bits can hold the number of blocks. -/
theorem parseCompressed32_eq_ok (hwords : ∀ x ∈ arr.words, x < 2 ^ 32)
    (hblks : arr.numBlks < 2 ^ 30) (hheap : heap.Grants (8 * arr.numBlks))
    (hinfo : ∀ s, (file.pread 12 offset s).1 =
      some ([arr.numBlks, arr.blkSz, arr.lastBlkSz].flatMap (leBytes 4)))
    (hsizes : ∀ s, (file.pread (4 * arr.numBlks) (offset + 12) s).1 =
      some (arr.compressedBlkSz.flatMap (leBytes 4)))
    (hstart : arr.dataStart = offset + 12 + 4 * arr.numBlks) (hend : arr.dataStart < 2 ^ 64) :
    ∃ s', parseCompressed32 heap file offset s = .ok (arr, s') := by
  have hwords4 : ∀ x ∈ arr.words, x < 256 ^ 4 := by simpa using hwords
  obtain ⟨cells, hcells, hcellsLen⟩ := hheap.newArray (w := 4) (n := arr.numBlks) (by omega)
  obtain ⟨cells64, hcells64, hcells64Len⟩ := hheap.newArray (w := 8) le_rfl
  obtain ⟨h0, h1, h2⟩ := wordAt_three (w := 4) fun x hx =>
    hwords4 x (List.mem_append_left _ hx)
  have hread := leWords_flatMap_leBytes (w := 4)
    (fun x hx => hwords4 x (List.mem_append_right _ hx)) []
  rw [List.append_nil, hlen] at hread
  have hlenBytes : (arr.compressedBlkSz.flatMap (leBytes 4)).length = 4 * arr.numBlks := by
    rw [length_flatMap_leBytes, hlen]
  have hfirst := readExactly_eq_ok "Fail to read data array header" (hinfo s)
    (length_flatMap_leBytes 4 _)
  have hsecond := readExactly_eq_ok "Fail to read array block sizes"
    (hsizes (file.pread 12 offset s).2) hlenBytes
  have hcopy : countUp (2 ^ 31) Fault.signedOverflow arr.numBlks (copyCell arr.compressedBlkSz) 0
      (leWords 8 arr.numBlks cells64) = .ok arr.compressedBlkSz := by
    rw [← hlen]
    exact countUp_copyCell (by omega) (length_leWords _ _ _)
  rw [parseCompressed32]
  simp only [bind, Except.bind, hfirst, h0, h1, h2, hcells, hcells64,
    u32_of_lt (n := 4 * arr.numBlks) (by omega), u64_of_lt (n := offset + 12) (by omega), hsecond,
    ← hstart, u64_of_lt hend, fill_of_length_eq (hlenBytes.trans hcellsLen.symm), hread, hcopy]
  exact ⟨_, rfl⟩

end compressed

/-- The word of an uncompressed array's header is read back from its bytes. -/
theorem wordAt_one {w n : ℕ} (h : n < 256 ^ w) : wordAt w 0 (leBytes w n) = n := by
  have hword : wordAt w 0 ([n].flatMap (leBytes w) ++ []) = n :=
    wordAt_flatMap (by simpa using h) rfl []
  simpa using hword

/-- **A 64-bit header of an uncompressed array is parsed to its word.** -/
theorem parseUncompressed64_eq_ok {total : ℕ} (htotal : total < 2 ^ 64)
    (hread : ∀ s, (file.pread 8 offset s).1 = some (leBytes 8 total)) (hend : offset + 8 < 2 ^ 64) :
    ∃ s', parseUncompressed64 file offset s = .ok (⟨total, offset + 8⟩, s') := by
  have hfirst := readExactly_eq_ok "Fail to read data array header" (hread s)
    (length_leBytes 8 total)
  rw [parseUncompressed64]
  simp only [bind, Except.bind, hfirst, wordAt_one (w := 8) (n := total) (by simpa using htotal),
    u64_of_lt hend]
  exact ⟨_, rfl⟩

/-- **A 32-bit header of an uncompressed array is parsed to its word.** -/
theorem parseUncompressed32_eq_ok {total : ℕ} (htotal : total < 2 ^ 32)
    (hread : ∀ s, (file.pread 4 offset s).1 = some (leBytes 4 total)) (hend : offset + 4 < 2 ^ 64) :
    ∃ s', parseUncompressed32 file offset s = .ok (⟨total, offset + 4⟩, s') := by
  have hfirst := readExactly_eq_ok "Fail to read data array header" (hread s)
    (length_leBytes 4 total)
  rw [parseUncompressed32]
  simp only [bind, Except.bind, hfirst, wordAt_one (w := 4) (n := total) (by simpa using htotal),
    u64_of_lt hend]
  exact ⟨_, rfl⟩

/-- An array that was allocated has few cells. -/
theorem Heap.lt_of_newArray_eq_ok {w n : ℕ} {b : Bytes} (h : heap.newArray w n = .ok b) :
    w * n < 2 ^ 63 := by
  by_contra hge
  rw [Heap.newArray, heap.alloc_large _ (not_lt.mp hge)] at h
  cases h

/-- **A parsed 64-bit header has as many sizes as blocks.** -/
theorem length_compressedBlkSz64 {arr : CompressedArray} {s' : σ}
    (h : parseCompressed64 heap file offset s = .ok (arr, s')) :
    arr.compressedBlkSz.length = arr.numBlks ∧ arr.numBlks < 2 ^ 64 := by
  obtain ⟨⟨info, s₁⟩, -, h⟩ := Exec.of_bind_eq_ok h
  obtain ⟨cells, hcells, h⟩ := Exec.of_bind_eq_ok h
  obtain ⟨⟨sizes, s₂⟩, -, h⟩ := Exec.of_bind_eq_ok h
  have hlt := Heap.lt_of_newArray_eq_ok hcells
  cases h
  exact ⟨length_leWords _ _ _, by dsimp only; omega⟩

/-- A copy does not change the number of cells. -/
theorem length_of_copyCell_eq_ok {cells cells64 out : List ℕ} {i : ℕ}
    (h : copyCell cells i cells64 = .ok out) : out.length = cells64.length := by
  obtain ⟨x, -, h⟩ := Exec.of_bind_eq_ok h
  obtain ⟨y, -, h⟩ := Exec.of_bind_eq_ok h
  cases h
  exact List.length_set

/-- **A parsed 32-bit header has as many sizes as blocks**, and the counter of the copying loop
held their number. -/
theorem length_compressedBlkSz32 {arr : CompressedArray} {s' : σ}
    (h : parseCompressed32 heap file offset s = .ok (arr, s')) :
    arr.compressedBlkSz.length = arr.numBlks ∧ arr.numBlks < 2 ^ 31 := by
  obtain ⟨⟨info, s₁⟩, -, h⟩ := Exec.of_bind_eq_ok h
  obtain ⟨cells, -, h⟩ := Exec.of_bind_eq_ok h
  obtain ⟨⟨sizes, s₂⟩, -, h⟩ := Exec.of_bind_eq_ok h
  obtain ⟨cells64, -, h⟩ := Exec.of_bind_eq_ok h
  obtain ⟨sizes64, hloop, h⟩ := Exec.of_bind_eq_ok h
  cases h
  refine ⟨?_, ?_⟩
  · refine countUp_invariant (fun _ out => out.length = wordAt 4 0 info) (Nat.zero_le _)
      (length_leWords _ _ _) ?_ hloop
    intro _ out out' _ hout hcopy
    exact (length_of_copyCell_eq_ok hcopy).trans hout
  · rcases Nat.eq_zero_or_pos (wordAt 4 0 info) with hzero | hpos
    · dsimp only
      omega
    · exact bound_lt_of_countUp_eq_ok hpos hloop

end results

end VirParquet.Model
