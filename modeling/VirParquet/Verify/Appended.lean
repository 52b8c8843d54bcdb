import VirParquet.Verify.Consistency
import VirParquet.Model.Appended

/-!
# The four forms of an appended array

An array stands in a VTK file raw or in base64, and its header has words of four or eight bytes.
`appendedForm` are these four forms: the header and the payload, each encoded on its own.
`pread_newArrayHeaderReader` says that the header reader sees the header, `adjustDataStart_eq` that
the data start is where the payload begins, and `prefix_payloadOf` that the payload is found there.

`parseAppendedArray_forms` puts them together: wherever a form stands in a file and whatever follows
it, `ParseAppendedArray` makes a map of one and the same virtual file.
-/

namespace VirParquet.Verify

open VirParquet.Found VirParquet.Found.Thrift VirParquet.Found.Base64 VirParquet.Model
  VirParquet.Spec

/-! ## Forms -/

/-- A byte string as it is or as a padded unit of base64. -/
def encodeUnit : EncodingType → Bytes → Bytes
  | .raw, bytes => bytes
  | .base64, bytes => encode bytes

/-- The bytes of a header word. -/
def wordSize (headerType : DataType) : ℕ := if headerType = .uint32 then 4 else 8

/-- The bytes of a header. -/
def headerOf (headerType : DataType) (words : List ℕ) : Bytes :=
  words.flatMap (leBytes (wordSize headerType))

/-- An array in the appended data: its header and its payload, each a unit of its own. -/
def appendedForm (enc : EncodingType) (headerType : DataType) (words : List ℕ) (payload : Bytes) :
    Bytes :=
  encodeUnit enc (headerOf headerType words) ++ encodeUnit enc payload

/-! ## Reading a form -/

section unit

variable {σ : Type} {dec : Decoder} {base : RandomAccessFile σ} {enc : EncodingType}
  {header : Bytes}

/-- A byte string has the slices of one that it continues. -/
theorem slice_of_prefix {p q : Bytes} (h : p <+: q) {pos len : ℕ} (hlen : pos + len ≤ p.length) :
    slice q pos len = slice p pos len := by
  obtain ⟨rest, rfl⟩ := h
  exact slice_append_left hlen rest

/-- **The header reader sees the header.** -/
theorem pread_newArrayHeaderReader (hdec : dec.IsStandard) {before after : Bytes}
    (hbase : CompleteReads base (before ++ (encodeUnit enc header ++ after)))
    (hfile : (before ++ (encodeUnit enc header ++ after)).length < 2 ^ 63) {pos len : ℕ}
    (hlen : pos + len ≤ header.length) (s : σ) :
    ((newArrayHeaderReader dec base before.length (enc == .base64)).pread len pos s).1 =
      some (slice header pos len) := by
  set file := before ++ (encodeUnit enc header ++ after) with hfileEq
  have hdrop : file.drop before.length = encodeUnit enc header ++ after := List.drop_left
  cases enc with
  | raw =>
      have hlength : file.length = before.length + (header.length + after.length) := by
        rw [hfileEq, List.length_append, List.length_append]
        rfl
      show (base.pread len (u64 (before.length + pos)) s).1 = _
      rw [u64_of_lt (by omega), hbase _ _ _ (by omega), ← slice_drop, hdrop]
      exact congrArg some (slice_append_left hlen after)
  | base64 =>
      have hstream := prefix_decodeStream_encode hdec header after
      have hfits : pos + len ≤ (decodeStream dec (file.drop before.length)).length := by
        rw [hdrop]
        exact hlen.trans hstream.length_le
      have hread := Base64Reader.pread_eq_slice (r := ⟨base, before.length, dec⟩) hbase (by omega)
        hfits s
      refine hread.trans (congrArg some ?_)
      show slice (decodeStream dec (file.drop before.length)) pos len = _
      rw [hdrop]
      exact slice_of_prefix hstream hlen

/-- **The data start is where the header's unit ends.** -/
theorem adjustDataStart_eq {offset : ℕ}
    (h : offset + (encodeUnit enc header).length < 2 ^ 64) (hheader : header.length + 2 < 2 ^ 64) :
    adjustDataStart offset (enc == .base64) header.length =
      offset + (encodeUnit enc header).length := by
  cases enc with
  | raw => exact u64_of_lt h
  | base64 =>
      have hlength := length_encode header
      show u64 (offset + 4 * (u64 (header.length + 2) / 3)) = offset + (encode header).length
      have h' : offset + (encode header).length < 2 ^ 64 := h
      rw [u64_of_lt hheader, u64_of_lt (by omega), hlength]

/-- **The payload is found at the data start**, with what follows it in the file behind it. -/
theorem prefix_payloadOf (enc : EncodingType) (hdec : dec.IsStandard)
    (before payload after : Bytes) :
    payload <+: payloadOf dec (enc == .base64) before.length
      (before ++ (encodeUnit enc payload ++ after)) := by
  have hdrop : (before ++ (encodeUnit enc payload ++ after)).drop before.length =
      encodeUnit enc payload ++ after := List.drop_left
  cases enc with
  | raw =>
      show payload <+: List.drop _ _
      rw [hdrop]
      exact List.prefix_append _ _
  | base64 =>
      show payload <+: decodeStream dec (List.drop _ _)
      rw [hdrop]
      exact prefix_decodeStream_encode hdec payload after

end unit

/-! ## The content of a file -/

/-- Regions that lie inside a payload have the same content in a longer one. -/
theorem content_of_prefix {p q : Bytes} (h : p <+: q) {rs : List Region}
    (hinside : ∀ r ∈ rs, r.Inside p) : content q rs = content p rs := by
  refine congrArg List.flatten (List.map_congr_left fun r hr => ?_)
  have hin := hinside r hr
  cases r with
  | direct bytes => rfl
  | mapped offset size => exact slice_of_prefix h hin

/-! ## Parsing a form -/

/-- A form of an array stands in the file, which the base serves completely. -/
structure FormAt {σ : Type} (enc : EncodingType) (headerType : DataType) (words : List ℕ)
    (payload before after : Bytes) (base : RandomAccessFile σ) : Prop where
  headerType_eq : headerType = .uint32 ∨ headerType = .uint64
  length_lt : (before ++ (appendedForm enc headerType words payload ++ after)).length < 2 ^ 63
  completeReads :
    CompleteReads base (before ++ (appendedForm enc headerType words payload ++ after))

section parse

variable {σ : Type} {thrift : Protocol} {heap : Heap} {dec : Decoder} {base : RandomAccessFile σ}
  {enc : EncodingType} {headerType : DataType} {words : List ℕ} {payload before after : Bytes}

/-- The file in which a form stands can be cut behind the header. -/
theorem file_eq_header (before payload after : Bytes) (words : List ℕ) :
    before ++ (appendedForm enc headerType words payload ++ after) =
      before ++ (encodeUnit enc (headerOf headerType words) ++
        (encodeUnit enc payload ++ after)) := by
  rw [appendedForm, List.append_assoc]

/-- The file in which a form stands can be cut before the payload. -/
theorem file_eq_payload (before payload after : Bytes) (words : List ℕ) :
    before ++ (appendedForm enc headerType words payload ++ after) =
      (before ++ encodeUnit enc (headerOf headerType words)) ++
        (encodeUnit enc payload ++ after) := by
  rw [appendedForm, List.append_assoc, List.append_assoc]

/-- A header is as long as its words. -/
theorem length_headerOf (headerType : DataType) (words : List ℕ) :
    (headerOf headerType words).length = wordSize headerType * words.length :=
  length_flatMap_leBytes _ _

/-- The payload of a form begins behind its encoded header. -/
theorem FormAt.adjustDataStart_eq
    (h : FormAt enc headerType words payload before after base) :
    adjustDataStart before.length (enc == .base64) (headerOf headerType words).length =
      before.length + (encodeUnit enc (headerOf headerType words)).length := by
  have hlt := h.length_lt
  rw [file_eq_header, List.length_append, List.length_append] at hlt
  have hheader : (headerOf headerType words).length ≤
      (encodeUnit enc (headerOf headerType words)).length := by
    cases enc with
    | raw => exact le_rfl
    | base64 =>
        show _ ≤ (encode _).length
        rw [length_encode]
        omega
  exact Verify.adjustDataStart_eq (by omega) (by omega)

/-- The header reader of a form returns the header. -/
theorem FormAt.pread_header (h : FormAt enc headerType words payload before after base)
    (hdec : dec.IsStandard) {pos len : ℕ}
    (hlen : pos + len ≤ (headerOf headerType words).length) (s : σ) :
    ((newArrayHeaderReader dec base before.length (enc == .base64)).pread len pos s).1 =
      some (slice (headerOf headerType words) pos len) := by
  have hbase := h.completeReads
  have hlt := h.length_lt
  rw [file_eq_header] at hbase hlt
  exact pread_newArrayHeaderReader hdec hbase hlt hlen s

/-- **The header of an uncompressed array is parsed**, whatever its form, if its word holds the
size. -/
theorem FormAt.parseUncompressed_of_fits {total : ℕ}
    (h : FormAt enc headerType [total] payload before after base) (hdec : dec.IsStandard)
    (htotal : total < 256 ^ wordSize headerType) (s : σ) :
    ∃ s', parseUncompressed (newArrayHeaderReader dec base before.length (enc == .base64))
        headerType s = .ok (⟨total, (headerOf headerType [total]).length⟩, s') := by
  have hlength := length_headerOf headerType [total]
  have hread := h.pread_header hdec (Nat.zero_add (headerOf headerType [total]).length).le
  rw [slice_full] at hread
  rcases h.headerType_eq with rfl | rfl
  · exact parseUncompressed32_eq_ok htotal hread (by norm_num)
  · exact parseUncompressed64_eq_ok htotal hread (by norm_num)

/-- A size below `2 ^ 32` fits in words of both widths. -/
theorem FormAt.parseUncompressed {total : ℕ}
    (h : FormAt enc headerType [total] payload before after base) (hdec : dec.IsStandard)
    (htotal : total < 2 ^ 32) (s : σ) :
    ∃ s', parseUncompressed (newArrayHeaderReader dec base before.length (enc == .base64))
        headerType s = .ok (⟨total, (headerOf headerType [total]).length⟩, s') := by
  refine h.parseUncompressed_of_fits hdec (htotal.trans_le ?_) s
  rcases h.headerType_eq with rfl | rfl <;> decide

/-- **The header of a compressed array is parsed**, whatever its form. -/
theorem FormAt.parseCompressed {arr : CompressedArray}
    (h : FormAt enc headerType arr.words payload before after base) (hdec : dec.IsStandard)
    (hlen : arr.compressedBlkSz.length = arr.numBlks) (hblks : arr.numBlks < 2 ^ 30)
    (hwords : ∀ x ∈ arr.words, x < 2 ^ 31) (hheap : heap.Grants (8 * arr.numBlks)) (s : σ) :
    ∃ s', parseCompressed heap (newArrayHeaderReader dec base before.length (enc == .base64))
        headerType s =
          .ok ({ arr with dataStart := (headerOf headerType arr.words).length }, s') := by
  have hlength := length_headerOf headerType arr.words
  have hcount : arr.words.length = 3 + arr.numBlks := by
    rw [CompressedArray.words, List.length_append, hlen]
    rfl
  have hsplit : headerOf headerType arr.words =
      [arr.numBlks, arr.blkSz, arr.lastBlkSz].flatMap (leBytes (wordSize headerType)) ++
        arr.compressedBlkSz.flatMap (leBytes (wordSize headerType)) := by
    rw [headerOf, CompressedArray.words, List.flatMap_append]
  have hthree := length_flatMap_leBytes (wordSize headerType)
    [arr.numBlks, arr.blkSz, arr.lastBlkSz]
  have hrest := length_flatMap_leBytes (wordSize headerType) arr.compressedBlkSz
  rw [hlen] at hrest
  have hinfo : slice (headerOf headerType arr.words) 0 (wordSize headerType * 3) =
      [arr.numBlks, arr.blkSz, arr.lastBlkSz].flatMap (leBytes (wordSize headerType)) := by
    have hmiddle := slice_middle []
      ([arr.numBlks, arr.blkSz, arr.lastBlkSz].flatMap (leBytes (wordSize headerType)))
      (arr.compressedBlkSz.flatMap (leBytes (wordSize headerType)))
    rwa [hthree, List.nil_append, ← hsplit] at hmiddle
  have hsizes : slice (headerOf headerType arr.words) (wordSize headerType * 3)
      (wordSize headerType * arr.numBlks) =
        arr.compressedBlkSz.flatMap (leBytes (wordSize headerType)) := by
    have hmiddle := slice_middle
      ([arr.numBlks, arr.blkSz, arr.lastBlkSz].flatMap (leBytes (wordSize headerType)))
      (arr.compressedBlkSz.flatMap (leBytes (wordSize headerType))) []
    rwa [hthree, hrest, List.append_nil, ← hsplit] at hmiddle
  rw [hcount] at hlength
  have hfits : wordSize headerType * 3 + wordSize headerType * arr.numBlks ≤
      (headerOf headerType arr.words).length := by rw [hlength, Nat.mul_add]
  have hfirst : 0 + wordSize headerType * 3 ≤ (headerOf headerType arr.words).length := by omega
  have hread₁ := fun s => h.pread_header hdec hfirst s
  have hread₂ := fun s => h.pread_header hdec hfits s
  simp only [hinfo, hsizes] at hread₁ hread₂
  rcases h.headerType_eq with rfl | rfl
  · refine parseCompressed32_eq_ok hlen
      (fun x hx => (hwords x hx).trans (by norm_num)) hblks hheap hread₁ hread₂
      (by rw [hlength]; show 4 * (3 + _) = _; dsimp only; omega)
      (by rw [hlength]; show 4 * (3 + _) < _; omega)
  · refine parseCompressed64_eq_ok hlen
      (fun x hx => (hwords x hx).trans (by norm_num)) hheap hread₁ hread₂
      (by rw [hlength]; show 8 * (3 + _) = _; dsimp only; omega)
      (by rw [hlength]; show 8 * (3 + _) < _; omega)

/-- The start of the payload is a place in the file. -/
theorem FormAt.dataStart_lt (h : FormAt enc headerType words payload before after base) :
    before.length + (encodeUnit enc (headerOf headerType words)).length < 2 ^ 63 := by
  have hlt := h.length_lt
  rw [file_eq_header, List.length_append, List.length_append] at hlt
  omega

/-- **A map whose data start is that of a form serves the content over its payload.** -/
theorem FormAt.serves (h : FormAt enc headerType words payload before after base)
    (hdec : dec.IsStandard) {L : Layout} {col : Column} {blks : List Blk} {m : FileMap}
    (hmap : L.IsMapOf col (enc == .base64)
      (before.length + (encodeUnit enc (headerOf headerType words)).length) blks m)
    (hpayload : Layout.payloadSize blks ≤ payload.length) :
    Serves dec m base (content payload (L.fileRegions col blks)) := by
  have hstart := h.dataStart_lt
  have hfound := prefix_payloadOf enc hdec
    (before ++ encodeUnit enc (headerOf headerType words)) payload after
  rw [← file_eq_payload, List.length_append] at hfound
  rw [← content_of_prefix hfound fun r hr => L.inside_of_mem_fileRegions col _ hpayload hr]
  exact hmap.serves (completeReads_delivers h.completeReads _) h.length_lt (by omega)
    (hpayload.trans hfound.length_le)

end parse

/-! ## The four forms -/

/-- `ParseAppendedArray` makes maps of one virtual file of all forms of an array, with the data
start where the payload begins; or the name is so long that the footer of none can be serialized. -/
def FormsAgree (thrift : Protocol) (heap : Heap) (dec : Decoder) (name : Bytes) (type : DataType)
    (codec : CompressionType) (words : List ℕ) (payload : Bytes) : Prop :=
  (2 ^ 32 ≤ 2 * name.length + 512 ∧
    ∃ footer, ∀ (σ : Type) (base : RandomAccessFile σ) (enc : EncodingType) (headerType : DataType)
      (before after : Bytes), FormAt enc headerType words payload before after base →
      ∀ s, parseAppendedArray thrift heap dec base name type codec enc headerType before.length s =
        .error (serializeError thrift footer)) ∨
  ∃ V, ∀ (σ : Type) (base : RandomAccessFile σ) (enc : EncodingType) (headerType : DataType)
    (before after : Bytes), FormAt enc headerType words payload before after base →
    ∀ s, ∃ m s', parseAppendedArray thrift heap dec base name type codec enc headerType
        before.length s = .ok (m, s') ∧
      m.dataStart = before.length + (encodeUnit enc (headerOf headerType words)).length ∧
      Serves dec m base V

section forms

variable {thrift : Protocol} {heap : Heap} {dec : Decoder} {name : Bytes} {type : DataType}
  {valueSize : ℕ} {physical : PhysicalType} {converted : Option ConvertedType}

/-- Forms agree if `ParseAppendedArray` comes down to building the map of the same blocks. -/
theorem formsAgree_of_build (hdec : dec.IsStandard) (hname : name.length < 2 ^ 64)
    {codec : CompressionType} {words : List ℕ} {payload : Bytes} (L : Layout)
    (hthrift : L.thrift = thrift) (col : Column) (hcol : col.name = name) (blks : List Blk)
    (hblks : ∀ b ∈ blks, b.Fits) (hlength : blks.length ≤ 2 ^ 31)
    (hpayload : Layout.payloadSize blks ≤ payload.length)
    (build : Bool → ℕ → Exec FileMap)
    (hparse : ∀ (σ : Type) (base : RandomAccessFile σ) (enc : EncodingType)
      (headerType : DataType) (before after : Bytes),
      FormAt enc headerType words payload before after base → ∀ s, ∃ s',
        parseAppendedArray thrift heap dec base name type codec enc headerType before.length s =
          (build (enc == .base64)
            (before.length + (encodeUnit enc (headerOf headerType words)).length)).bind
              fun m => .ok (m, s'))
    (hshort : (L.footerBytes col blks).length < 2 ^ 32 → ∀ base64 dataStart,
      ∃ m, build base64 dataStart = .ok m ∧ L.IsMapOf col base64 dataStart blks m)
    (hlong : 2 ^ 32 ≤ (L.footerBytes col blks).length → ∀ base64 dataStart,
      build base64 dataStart = .error (L.footerError col blks)) :
    FormsAgree thrift heap dec name type codec words payload := by
  subst hcol hthrift
  rcases Nat.lt_or_ge (L.footerBytes col blks).length (2 ^ 32) with hlt | hge
  · refine Or.inr ⟨content payload (L.fileRegions col blks), ?_⟩
    intro σ base enc headerType before after h s
    obtain ⟨s', hs'⟩ := hparse σ base enc headerType before after h s
    obtain ⟨m, hm, hmap⟩ := hshort hlt (enc == .base64)
      (before.length + (encodeUnit enc (headerOf headerType words)).length)
    exact ⟨m, s', by rw [hs', hm]; rfl, hmap.dataStart_eq, h.serves hdec hmap hpayload⟩
  · refine Or.inl ⟨hge.trans (Layout.length_footerBytes_le hname hblks hlength),
      (L.metaData col blks).fields, ?_⟩
    intro σ base enc headerType before after h s
    obtain ⟨s', hs'⟩ := hparse σ base enc headerType before after h s
    rw [hs', hlong hge]
    rfl

/-- The forms of an uncompressed array agree. -/
theorem formsAgree_uncompressed (hdec : dec.IsStandard) (hname : name.length < 2 ^ 64)
    (htables : Tables type valueSize physical converted) {total : ℕ} {payload : Bytes}
    (hpos : 1 ≤ total) (htotal : total < 2 ^ 32) (hpayload : total ≤ payload.length) :
    FormsAgree thrift heap dec name type .none [total] payload := by
  -- The blocks do not depend on the data start.
  have hnum : ∀ dataStart, UncompressedArray.numBlks ⟨total, dataStart⟩ = (total + 32767) / 32768 :=
    fun _ => numBlks_eq (by dsimp only; omega)
  have hbounds : ∀ dataStart, 1 ≤ UncompressedArray.numBlks ⟨total, dataStart⟩ ∧
      UncompressedArray.numBlks ⟨total, dataStart⟩ ≤ 2 ^ 31 := by
    intro dataStart
    rw [hnum]
    omega
  refine formsAgree_of_build hdec hname ⟨thrift, valueSize⟩ rfl
    ⟨name, physical, converted, .uncompressed⟩ rfl (uncompressedBlks ⟨total, 0⟩)
    (fun b hb => fits_of_mem_uncompressedBlks hb) ?_ ?_
    (fun base64 dataStart => buildMapUncompressed thrift name type base64 ⟨total, dataStart⟩)
    ?_ ?_ ?_
  · rw [length_uncompressedBlks (hbounds 0).1]
    exact (hbounds 0).2
  · rw [payloadSize_uncompressedBlks hpos (by dsimp only; omega)]
    exact hpayload
  · intro σ base enc headerType before after h s
    obtain ⟨s', hs'⟩ := h.parseUncompressed hdec htotal s
    refine ⟨s', ?_⟩
    rw [parseAppendedArray, if_pos rfl, Exec.bind_of_eq_ok hs']
    dsimp only
    rw [h.adjustDataStart_eq]
    rfl
  · exact fun hlt base64 dataStart =>
      buildMapUncompressed_of_lt htables (hbounds dataStart).1 (hbounds dataStart).2 hlt
  · exact fun hge base64 dataStart =>
      buildMapUncompressed_of_le htables (hbounds dataStart).1 (hbounds dataStart).2 hge

/-- The forms of a compressed array agree. -/
theorem formsAgree_compressed (hdec : dec.IsStandard) (hname : name.length < 2 ^ 64)
    (htables : Tables type valueSize physical converted) {codec : CompressionType}
    {c : CompressionCodec} (hcodec : toParquetCodec codec = .ok c) (hnone : codec ≠ .none)
    {arr : CompressedArray} {payload : Bytes} (hlen : arr.compressedBlkSz.length = arr.numBlks)
    (hpos : 1 ≤ arr.numBlks) (hblks : arr.numBlks < 2 ^ 30) (hwords : ∀ x ∈ arr.words, x < 2 ^ 31)
    (hheap : heap.Grants (8 * arr.numBlks))
    (hpayload : arr.compressedBlkSz.sum ≤ payload.length) :
    FormsAgree thrift heap dec name type codec arr.words payload := by
  have hmax : arr.numBlks ≤ 2 ^ 31 := by omega
  refine formsAgree_of_build hdec hname ⟨thrift, valueSize⟩ rfl
    ⟨name, physical, converted, c⟩ rfl (compressedBlks arr)
    (fun b hb => fits_of_mem_compressedBlks hb) ?_ ?_
    (fun base64 dataStart =>
      buildMapCompressed thrift name type codec base64 { arr with dataStart := dataStart })
    ?_ ?_ ?_
  · rw [length_compressedBlks, hlen]
    exact hmax
  · rw [payloadSize_compressedBlks fun size hsize =>
      (hwords size (List.mem_append_right _ hsize)).trans (by norm_num)]
    exact hpayload
  · intro σ base enc headerType before after h s
    obtain ⟨s', hs'⟩ := h.parseCompressed hdec hlen hblks hwords hheap s
    refine ⟨s', ?_⟩
    rw [parseAppendedArray, if_neg hnone, Exec.bind_of_eq_ok hs']
    dsimp only
    rw [h.adjustDataStart_eq]
    rfl
  · exact fun hlt base64 dataStart => buildMapCompressed_of_lt htables hcodec hlen hpos hmax hlt
  · exact fun hge base64 dataStart => buildMapCompressed_of_le htables hcodec hlen hpos hmax hge

end forms

/-- **The four forms of an array are the same virtual file.** Wherever an uncompressed or a
compressed array stands in a VTK file, raw or in base64 and with header words of 32 or 64 bits, and
whatever follows it, the map has the same file size and every read returns the same bytes. -/
theorem parseAppendedArray_forms (thrift : Protocol) (heap : Heap) (dec : Decoder)
    (hdec : dec.IsStandard) (name : Bytes) (hname : name.length < 2 ^ 64) (type : DataType)
    (htype : type ≠ .unknown) :
    (∀ (total : ℕ) (payload : Bytes), 1 ≤ total → total < 2 ^ 32 → total ≤ payload.length →
      FormsAgree thrift heap dec name type .none [total] payload) ∧
    ∀ (codec : CompressionType) (arr : CompressedArray) (payload : Bytes),
      codec ≠ .none → codec ≠ .unknownCompression →
      arr.compressedBlkSz.length = arr.numBlks → 1 ≤ arr.numBlks → arr.numBlks < 2 ^ 30 →
      (∀ x ∈ arr.words, x < 2 ^ 31) → heap.Grants (8 * arr.numBlks) →
      arr.compressedBlkSz.sum ≤ payload.length →
      FormsAgree thrift heap dec name type codec arr.words payload := by
  obtain ⟨valueSize, physical, converted, htables⟩ := exists_tables htype
  refine ⟨fun total payload hpos htotal hpayload =>
    formsAgree_uncompressed hdec hname htables hpos htotal hpayload,
    fun codec arr payload hnone hcodec hlen hpos hblks hwords hheap hpayload => ?_⟩
  obtain ⟨c, hc⟩ := exists_codec hcodec
  exact formsAgree_compressed hdec hname htables hc hnone hlen hpos hblks hwords hheap hpayload

/-- The theorem at five bytes, and at a block of three bytes. -/
theorem parseAppendedArray_forms_small :
    FormsAgree compact zeroHeap standardDecoder (ascii "x") .uint8 .none [5] [1, 2, 3, 4, 5] ∧
      FormsAgree compact zeroHeap standardDecoder (ascii "x") .uint8 .zlib [1, 4, 2, 3]
        [7, 8, 9] :=
  have hforms := parseAppendedArray_forms compact zeroHeap standardDecoder
    standardDecoder_isStandard (ascii "x") (by decide) .uint8 (by decide)
  ⟨hforms.1 5 [1, 2, 3, 4, 5] (by decide) (by decide) (by decide),
    hforms.2 .zlib ⟨1, 4, 2, [3], 0⟩ [7, 8, 9] (by decide) (by decide) rfl (by decide) (by decide)
      (by decide) (zeroHeap_grants (by norm_num)) (by decide)⟩

end VirParquet.Verify
