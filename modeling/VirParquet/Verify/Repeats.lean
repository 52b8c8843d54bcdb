import VirParquet.Found.Outcome
import VirParquet.Model.Parser
import VirParquet.Verify.Header

/-!
# Parsing from any state

What the parser makes of an array does not depend on the state that the file is read in. A file
`Repeats` if a read that returns all it was asked for returns the same from every state, which a
file with complete reads does. The two header readers keep this, and so every parser above them has
the `SameValue` from any two states. Short reads may differ, but all that the code does with them is
to throw.

What new memory holds may differ as well, between two allocators that grant the same. The parsers of
compressed headers write over all of it, unless the number of bytes of the block sizes wraps
(`sameHeaders_of_sameGrants`).

* `parseAppendedArray_sameValue`: the map of an array, or the exception.
* `parseArrays_accepts_iff`: a list of arrays is accepted exactly if each array is.
-/

namespace VirParquet.Verify

open VirParquet.Found VirParquet.Found.Thrift VirParquet.Found.Base64 VirParquet.Model

/-! ## Reads -/

section reads

variable {σ : Type} {file : RandomAccessFile σ}

/-- A read, if it returns all that was asked for. -/
def fullRead (file : RandomAccessFile σ) (size offset : ℕ) (s : σ) : Option Bytes :=
  (file.pread size offset s).1.filter fun d => d.length = size

/-- A read that returns all that was asked for returns the same from every state. -/
def Repeats (file : RandomAccessFile σ) : Prop :=
  ∀ size offset s s', fullRead file size offset s = fullRead file size offset s'

/-- Complete reads repeat. -/
theorem repeats_of_completeReads {bytes : Bytes} (hpread : PreadLike file bytes)
    (hcomplete : CompleteReads file bytes) : Repeats file := by
  have hread : ∀ size offset s, fullRead file size offset s =
      if size ≤ bytes.length - offset then some (slice bytes offset size) else none := by
    intro size offset s
    rw [fullRead]
    split
    next hin =>
      have hlength : (slice bytes offset size).length = size := by
        rw [length_slice]
        omega
      rw [hcomplete size offset s hin, Option.filter_some]
      simp [hlength]
    next hout =>
      rcases hd : (file.pread size offset s).1 with _ | d
      · rfl
      · have hle := hpread.length_le hd
        apply Option.filter_eq_none_iff.mpr
        rintro d' ⟨⟩
        simp only [decide_eq_true_eq]
        omega
  intro size offset s s'
  rw [hread, hread]

/-- A header read is a full read, or it throws. -/
theorem readExactly_map_fst (what : String) (size offset : ℕ) (s : σ) :
    (readExactly file what size offset s).map Prod.fst =
      match fullRead file size offset s with
      | some d => .ok d
      | none => .error (.thrown what) := by
  unfold readExactly fullRead
  rcases file.pread size offset s with ⟨_ | d, s'⟩
  · rfl
  · by_cases hlength : d.length = size
    · simp [hlength, Option.filter_some, Except.map]
    · simp [hlength, Option.filter_some, Except.map]

/-- A header read that returned was a full read. -/
theorem fullRead_of_readExactly {what : String} {size offset : ℕ} {s s' : σ} {d : Bytes}
    (h : readExactly file what size offset s = .ok (d, s')) :
    fullRead file size offset s = some d := by
  rw [readExactly] at h
  split at h
  next d' s'' hread =>
    split at h
    next hlen =>
      obtain ⟨rfl, -⟩ := Prod.mk.inj (Except.ok.inj h)
      rw [fullRead, hread, Option.filter_some]
      simp [hlen]
    next => cases h
  next => cases h

/-- A full read returns as many bytes as it was asked for. -/
theorem length_of_fullRead {size offset : ℕ} {s : σ} {d : Bytes}
    (h : fullRead file size offset s = some d) : d.length = size := by
  obtain ⟨-, hlength⟩ := Option.filter_eq_some_iff.mp h
  simpa using hlength

/-- **A header read** of a file that repeats returns the same from every state. -/
theorem readExactly_sameValue (h : Repeats file) (what : String) (size offset : ℕ) (s s' : σ) :
    SameValue (readExactly file what size offset s) (readExactly file what size offset s') := by
  rw [SameValue, readExactly_map_fst, readExactly_map_fst, h size offset s s']

/-- A file with shifted positions repeats. -/
theorem repeats_offsettedFile (h : Repeats file) (baseOffset : ℕ) :
    Repeats (offsettedFile file baseOffset) :=
  fun size offset => h size (u64 (baseOffset + offset))

/-- A quantum is decoded from a full read of four characters. -/
theorem decode4_fst (r : Base64Reader σ) (offset : ℕ) (s : σ) :
    (r.decode4 offset s).1 = (fullRead r.base 4 (u64 (r.start + offset)) s).map r.dec.quad := by
  unfold Base64Reader.decode4 fullRead
  rcases r.base.pread 4 (u64 (r.start + offset)) s with ⟨_ | cs, s'⟩
  · rfl
  · by_cases hlength : cs.length = 4
    · simp [hlength, Option.filter_some]
    · simp [hlength, Option.filter_some]

/-- The loop of the base64 reader returns the same from every state if the file repeats. -/
theorem preadLoop_fst {r : Base64Reader σ} (h : Repeats r.base) (needed offset skip : ℕ)
    (buf : Bytes) (s s' : σ) :
    (r.preadLoop needed offset skip buf s).1 = (r.preadLoop needed offset skip buf s').1 := by
  induction needed using Nat.strong_induction_on generalizing offset skip buf s s' with
  | _ needed ih =>
      rw [Base64Reader.preadLoop, Base64Reader.preadLoop]
      by_cases hneeded : needed = 0
      · rw [dif_pos hneeded, dif_pos hneeded]
      · rw [dif_neg hneeded, dif_neg hneeded]
        have hquantum : (r.decode4 offset s).1 = (r.decode4 offset s').1 := by
          rw [decode4_fst, decode4_fst, h 4 _ s s']
        rcases hd : r.decode4 offset s with ⟨_ | c, t⟩
        · rcases hd' : r.decode4 offset s' with ⟨_ | c', t'⟩
          · rfl
          · rw [hd, hd'] at hquantum
            cases hquantum
        · rcases hd' : r.decode4 offset s' with ⟨_ | c', t'⟩
          · rw [hd, hd'] at hquantum
            cases hquantum
          · rw [hd, hd'] at hquantum
            obtain rfl := Option.some.inj hquantum
            dsimp only
            by_cases havail : c.length ≤ skip
            · rw [dif_pos havail, dif_pos havail]
            · rw [dif_neg havail, dif_neg havail]
              exact ih _ (by omega) _ _ _ _ _

/-- The base64 reader of a file that repeats does so as well. -/
theorem repeats_base64Reader (r : Base64Reader σ) (h : Repeats r.base) : Repeats r.file := by
  intro size offset s s'
  rw [fullRead, fullRead]
  exact congrArg _ (preadLoop_fst h _ _ _ _ s s')

/-- **The header reader of an array** repeats if the file does. -/
theorem repeats_newArrayHeaderReader (h : Repeats file) (dec : Decoder) (offset : ℕ)
    (isBase64Encoded : Bool) :
    Repeats (newArrayHeaderReader dec file offset isBase64Encoded) := by
  cases isBase64Encoded with
  | true => exact repeats_base64Reader _ h
  | false => exact repeats_offsettedFile h offset

end reads

/-! ## Headers -/

section headers

variable {σ : Type} {view : RandomAccessFile σ} {heap heap' : Heap} {headerType : DataType}

/-- The header of an uncompressed array is the same from every state. -/
theorem parseUncompressed_sameValue (h : Repeats view) (headerType : DataType) (s s' : σ) :
    SameValue (parseUncompressed view headerType s) (parseUncompressed view headerType s') := by
  unfold parseUncompressed
  split_ifs
  · exact (readExactly_sameValue h _ _ _ s s').bind fun _ t t' _ => SameValue.ok _ t t'
  · exact (readExactly_sameValue h _ _ _ s s').bind fun _ t t' _ => SameValue.ok _ t t'

/-- The header of a compressed array is the same to two allocators, from any two states. -/
def SameHeaders (heap heap' : Heap) (headerType : DataType) (view : RandomAccessFile σ) : Prop :=
  ∀ s s', SameValue (parseCompressed heap view headerType s)
    (parseCompressed heap' view headerType s')

/-- It is the same to one allocator. -/
theorem sameHeaders_self (h : Repeats view) (heap : Heap) (headerType : DataType) :
    SameHeaders heap heap headerType view := by
  intro s s'
  unfold parseCompressed
  split_ifs
  · apply (readExactly_sameValue h _ _ _ s s').bind
    rintro info t t' -
    apply SameValue.bind_left
    intro cells
    apply (readExactly_sameValue h _ _ _ t t').bind
    rintro sizes u u' -
    apply SameValue.bind_left
    intro cells64
    apply SameValue.bind_left
    intro sizes64
    exact SameValue.ok _ u u'
  · apply (readExactly_sameValue h _ _ _ s s').bind
    rintro info t t' -
    apply SameValue.bind_left
    intro cells
    apply (readExactly_sameValue h _ _ _ t t').bind
    rintro sizes u u' -
    exact SameValue.ok _ u u'

/-- The block sizes of a header of 32-bit words, if it can be read, take fewer than `2 ^ 32`
bytes. -/
def SizesFitWord (headerType : DataType) (view : RandomAccessFile σ) : Prop :=
  headerType = .uint32 → ∀ s d, fullRead view 12 0 s = some d → wordAt 4 0 d < 2 ^ 30

/-- What is made of a new array is the same with two allocators if it is the same for all that they
may return. -/
theorem newArray_sameValue {α : Type} (hheap : heap.SameGrants heap') (w n : ℕ)
    {f g : Bytes → Exec (α × σ)}
    (hfg : ∀ b b', b.length = w * n → b'.length = w * n → w * n < 2 ^ 63 →
      SameValue (f b) (g b')) :
    SameValue (heap.newArray w n >>= f) (heap'.newArray w n >>= g) := by
  have hgrants := hheap (w * n)
  rcases hb : heap.alloc (w * n) with _ | b
  · rw [hb] at hgrants
    rcases hb' : heap'.alloc (w * n) with _ | b'
    · rw [Heap.newArray, Heap.newArray, hb, hb']
      rfl
    · rw [hb'] at hgrants
      cases hgrants
  · rw [hb] at hgrants
    rcases hb' : heap'.alloc (w * n) with _ | b'
    · rw [hb'] at hgrants
      cases hgrants
    · have hlt : w * n < 2 ^ 63 := by
        by_contra hge
        rw [heap.alloc_large _ (not_lt.mp hge)] at hb
        cases hb
      rw [Heap.newArray, Heap.newArray, hb, hb']
      exact hfg b b' (heap.length_alloc _ _ hb) (heap'.length_alloc _ _ hb') hlt

/-- **The header of a compressed array** is the same to two allocators that grant the same, if all
that they allocate is written to: the block sizes of 32-bit words are cut off where their number of
bytes wraps, and what is behind them is what the memory held. -/
theorem sameHeaders_of_sameGrants (h : Repeats view) (hheap : heap.SameGrants heap')
    (hfit : SizesFitWord headerType view) : SameHeaders heap heap' headerType view := by
  intro s s'
  unfold parseCompressed
  split_ifs with h32
  · apply (readExactly_sameValue h _ _ _ s s').bind
    intro info t t' hinfo
    have hn : wordAt 4 0 info < 2 ^ 30 := hfit h32 s info (fullRead_of_readExactly hinfo)
    apply newArray_sameValue hheap
    intro cells cells' hcells hcells' _
    apply (readExactly_sameValue h _ _ _ t t').bind
    intro sizes u u' hsizes
    have hlength : sizes.length = 4 * wordAt 4 0 info :=
      (length_of_fullRead (fullRead_of_readExactly hsizes)).trans (u32_of_lt (by omega))
    dsimp only
    rw [fill_of_length_eq (hlength.trans hcells.symm),
      fill_of_length_eq (hlength.trans hcells'.symm)]
    apply newArray_sameValue hheap
    intro cells64 cells64' _ _ _
    have hwords : (leWords 4 (wordAt 4 0 info) sizes).length = wordAt 4 0 info :=
      length_leWords _ _ _
    have hcopy : ∀ cells64, countUp (2 ^ 31) Fault.signedOverflow (wordAt 4 0 info)
        (copyCell (leWords 4 (wordAt 4 0 info) sizes)) 0 (leWords 8 (wordAt 4 0 info) cells64) =
          .ok (leWords 4 (wordAt 4 0 info) sizes) := by
      intro cells64
      have hcopied := countUp_copyCell (hwords.trans_lt (by omega))
        ((length_leWords 8 (wordAt 4 0 info) cells64).trans hwords.symm)
      rwa [hwords] at hcopied
    rw [hcopy, hcopy]
    exact SameValue.ok _ u u'
  · apply (readExactly_sameValue h _ _ _ s s').bind
    intro info t t' _
    apply newArray_sameValue hheap
    intro cells cells' hcells hcells' hlt
    apply (readExactly_sameValue h _ _ _ t t').bind
    intro sizes u u' hsizes
    have hlength : sizes.length = 8 * wordAt 8 0 info :=
      (length_of_fullRead (fullRead_of_readExactly hsizes)).trans (u64_of_lt (by omega))
    dsimp only
    rw [fill_of_length_eq (hlength.trans hcells.symm),
      fill_of_length_eq (hlength.trans hcells'.symm)]
    exact SameValue.ok _ u u'

end headers

/-! ## Arrays -/

section arrays

variable {σ : Type} {file : RandomAccessFile σ} (thrift : Protocol) {heap heap' : Heap}
  (dec : Decoder)

/-- **The map of an array**, or why there is none, is the same from every state, and with two
allocators to which its header is the same. -/
theorem parseAppendedArray_sameValue (h : Repeats file) (name : Bytes) (type : DataType)
    {codec : CompressionType} {enc : EncodingType} {headerType : DataType} {offset : ℕ}
    (hheaders : codec ≠ .none → SameHeaders heap heap' headerType
      (newArrayHeaderReader dec file offset (enc == .base64))) (s s' : σ) :
    SameValue (parseAppendedArray thrift heap dec file name type codec enc headerType offset s)
      (parseAppendedArray thrift heap' dec file name type codec enc headerType offset s') := by
  have hview := repeats_newArrayHeaderReader h dec offset (enc == .base64)
  unfold parseAppendedArray
  dsimp only
  split_ifs with hcodec
  · apply (parseUncompressed_sameValue hview headerType s s').bind
    rintro arr t t' -
    apply SameValue.bind_left
    intro map
    exact SameValue.ok _ t t'
  · apply (hheaders hcodec s s').bind
    rintro arr t t' -
    apply SameValue.bind_left
    intro map
    exact SameValue.ok _ t t'

/-- The header of an array with these attributes, if they say where it is, is the same to two
allocators. -/
def SameHeadersOf (heap heap' : Heap) (dec : Decoder) (file : RandomAccessFile σ)
    (codec : CompressionType) (enc : EncodingType) (headerType : DataType) (map : Attrs)
    (appendedDataPos : ℕ) : Prop :=
  ∀ text offset, map.find (ascii "offset") = some text → atoll (cStr text) = .ok offset →
    codec ≠ .none → SameHeaders heap heap' headerType
      (newArrayHeaderReader dec file (u64 (ofI64 offset + appendedDataPos)) (enc == .base64))

variable {dec} in
/-- It is the same to one allocator. -/
theorem sameHeadersOf_self (h : Repeats file) (heap : Heap) (codec : CompressionType)
    (enc : EncodingType) (headerType : DataType) (map : Attrs) (appendedDataPos : ℕ) :
    SameHeadersOf heap heap dec file codec enc headerType map appendedDataPos :=
  fun _ _ _ _ _ => sameHeaders_self (repeats_newArrayHeaderReader h dec _ _) heap headerType

/-- The map of an array with these attributes is the same from every state, and with two allocators
to which the header there is the same. -/
theorem parseVtkDataArray_sameValue (h : Repeats file) {codec : CompressionType}
    {enc : EncodingType} {headerType : DataType} (name : Bytes) {map : Attrs}
    {appendedDataPos : ℕ}
    (hheaders : SameHeadersOf heap heap' dec file codec enc headerType map appendedDataPos)
    (s s' : σ) :
    SameValue
      (parseVtkDataArray thrift heap dec file codec enc headerType name map appendedDataPos s)
      (parseVtkDataArray thrift heap' dec file codec enc headerType name map appendedDataPos
        s') := by
  unfold parseVtkDataArray
  apply SameValue.bind_left
  intro t
  apply SameValue.bind_left
  intro type
  apply SameValue.bind_left
  intro format
  split_ifs
  · rcases htext : map.atKey (ascii "offset") with f | text
    · exact SameValue.refl _
    · change SameValue (atoll (cStr text) >>= _) (atoll (cStr text) >>= _)
      rcases hoffset : atoll (cStr text) with f | offset
      · exact SameValue.refl _
      · exact parseAppendedArray_sameValue thrift dec h name type
          (hheaders text offset (StringMap.find_of_atKey htext) hoffset) s s'
  · exact SameValue.refl _

variable {thrift dec} in
/-- **A list of arrays** is accepted exactly if each array is, from whatever state. -/
theorem parseArrays_accepts_iff (h : Repeats file) {codec : CompressionType} {enc : EncodingType}
    {headerType : DataType} {appendedDataPos : ℕ} {arrs : List (CString × Attrs)}
    {maps : StringMap FileMap} {s : σ} :
    (∃ p, parseArrays thrift heap dec file codec enc headerType appendedDataPos arrs maps s =
        .ok p) ↔
      ∀ arr ∈ arrs, ∃ m s₁ s₂, parseVtkDataArray thrift heap dec file codec enc headerType
        arr.1.bytes arr.2 appendedDataPos s₁ = .ok (m, s₂) := by
  induction arrs generalizing maps s with
  | nil =>
      simp only [List.not_mem_nil, false_imp_iff, implies_true, iff_true]
      exact ⟨_, rfl⟩
  | cons arr arrs ih =>
      rw [List.forall_mem_cons]
      unfold parseArrays
      rw [exists_bind_eq_ok]
      constructor
      · rintro ⟨⟨m, s₁⟩, hm, hrest⟩
        exact ⟨⟨m, s, s₁, hm⟩, ih.mp hrest⟩
      · rintro ⟨⟨m, s₁, s₂, hm⟩, hrest⟩
        have hsame := parseVtkDataArray_sameValue thrift dec h arr.1.bytes
          (sameHeadersOf_self h heap codec enc headerType arr.2 appendedDataPos) s₁ s
        obtain ⟨s₃, hm⟩ := hsame.exists_eq_ok hm
        exact ⟨(m, s₃), hm, ih.mpr hrest⟩

end arrays

end VirParquet.Verify
