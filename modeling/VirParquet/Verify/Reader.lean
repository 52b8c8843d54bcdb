import VirParquet.Model.File

/-!
# The base64 reader on any content

`Base64Reader::PreadTyped` over a base file that may hold anything. `quantumAt` is what the four
characters of a quantum decode to, and `byteAt` the byte of a decoded position: the reader takes
position `p` for byte `p % 3` of quantum `p / 3`.

* `decode4_eq_quantumAt` and `preadLoop_step`: one turn of the loop.
* `pread_eq_readAt`: if nothing can be decoded behind a padded quantum, a read returns the bytes of
  its positions, and -1 if one of them has none.
* `readsByPosition_iff`: reads do not depend on how they are cut if and only if nothing can be
  decoded behind a padded quantum. The loop runs on into the next quantum, so that the positions
  behind it shift.
* `pread_encode`: over the encoding of a byte string, reads inside it return its bytes, and reads
  past its end that begin before or in the quantum behind it return -1.
-/

namespace VirParquet.Verify

open VirParquet.Found VirParquet.Found.Base64 VirParquet.Model

/-! ## Quanta and positions -/

/-- What quantum `k` of a stream that begins at `start` decodes to, or nothing if the file does not
hold its four characters. Places are 64-bit numbers. -/
def quantumAt (dec : Decoder) (file : Bytes) (start k : ℕ) : Option Bytes :=
  if u64 (start + u64 (k * 4)) + 4 ≤ file.length then
    some (dec.quad (slice file (u64 (start + u64 (k * 4))) 4))
  else none

/-- The byte at a decoded position, for a reader that takes all quanta before it to be full. -/
def byteAt (dec : Decoder) (file : Bytes) (start pos : ℕ) : Option UInt8 :=
  (quantumAt dec file start (pos / 3)).bind fun bytes => bytes[pos % 3]?

/-- Nothing can be decoded behind a padded quantum. -/
def PadsAtEnd (dec : Decoder) (file : Bytes) (start : ℕ) : Prop :=
  ∀ k c c', quantumAt dec file start k = some c → 0 < c.length → c.length < 3 →
    quantumAt dec file start (k + 1) = some c' → c' = []

/-- The place of a quantum is a 64-bit number. -/
theorem u64_quantum_add (k : ℕ) : u64 (u64 (k * 4) + 4) = u64 ((k + 1) * 4) := by
  unfold u64
  omega

/-- So the quanta repeat. -/
theorem quantumAt_mod (dec : Decoder) (file : Bytes) (start k j : ℕ) :
    quantumAt dec file start (k % 2 ^ 62 + j) = quantumAt dec file start (k + j) := by
  have hplace : u64 ((k % 2 ^ 62 + j) * 4) = u64 ((k + j) * 4) := by
    unfold u64
    omega
  rw [quantumAt, quantumAt, hplace]

/-- A quantum that the file holds is what its characters decode to. -/
theorem quantumAt_eq_some {dec : Decoder} {file c : Bytes} {start k : ℕ}
    (h : quantumAt dec file start k = some c) : u64 (start + u64 (k * 4)) + 4 ≤ file.length ∧
      dec.quad (slice file (u64 (start + u64 (k * 4))) 4) = c := by
  unfold quantumAt at h
  split at h
  · next hin => exact ⟨hin, Option.some.inj h⟩
  · cases h

/-- A quantum has no more than three bytes. -/
theorem length_le_of_quantumAt {dec : Decoder} {file c : Bytes} {start k : ℕ}
    (h : quantumAt dec file start k = some c) : c.length ≤ 3 := by
  obtain ⟨-, rfl⟩ := quantumAt_eq_some h
  exact dec.length_quad_le _

/-- The byte of a position in a known quantum is one of the quantum's. -/
theorem byteAt_of_quantumAt {dec : Decoder} {file bytes : Bytes} {start k : ℕ}
    (h : quantumAt dec file start k = some bytes) {j : ℕ} (hj : j < 3) :
    byteAt dec file start (3 * k + j) = bytes[j]? := by
  have hdiv : (3 * k + j) / 3 = k := by omega
  have hmod : (3 * k + j) % 3 = j := by omega
  rw [byteAt, hdiv, hmod, h]
  rfl

section reader

variable {σ : Type} {r : Base64Reader σ} {file : Bytes}

/-! ## One turn -/

section turn

variable (hpread : PreadLike r.base file) (hcomplete : CompleteReads r.base file)

include hpread hcomplete

/-- **What `Decode4` returns** is the quantum. -/
theorem decode4_eq_quantumAt (k : ℕ) (s : σ) :
    (r.decode4 (u64 (k * 4)) s).1 = quantumAt r.dec file r.start k := by
  rw [quantumAt]
  set place := u64 (r.start + u64 (k * 4)) with hplace
  rw [Base64Reader.decode4]
  split_ifs with hin
  · have hread := hcomplete 4 place s (by omega)
    have hfour : (slice file place 4).length = 4 := length_slice_of_le hin
    rcases hp : r.base.pread 4 place s with ⟨_ | cs, s'⟩
    · simp [hp] at hread
    · rw [hp] at hread
      obtain rfl : cs = slice file place 4 := Option.some.inj hread
      simp [hfour]
  · rcases hp : r.base.pread 4 place s with ⟨_ | cs, s'⟩
    · rfl
    · have hle := hpread.length_le (s := s) (show (r.base.pread 4 place s).1 = some cs by rw [hp])
      have hne : cs.length ≠ 4 := by omega
      simp [hne]

/-- The loop fails where there is no quantum, or no byte of it is left. -/
theorem preadLoop_eq_none {k skip needed : ℕ} (hneeded : 0 < needed)
    (h : ∀ c, quantumAt r.dec file r.start k = some c → c.length ≤ skip) (buf : Bytes) (s : σ) :
    (r.preadLoop needed (u64 (k * 4)) skip buf s).1 = none := by
  have hdecode := decode4_eq_quantumAt hpread hcomplete k s
  rw [Base64Reader.preadLoop, dif_neg hneeded.ne']
  rcases hp : r.decode4 (u64 (k * 4)) s with ⟨_ | c, s'⟩
  · rfl
  · rw [hp] at hdecode
    dsimp only
    rw [dif_pos (h c hdecode.symm)]

/-- **A turn of the loop** takes what is left of the quantum, as far as it is needed, and goes on
with the next quantum. -/
theorem preadLoop_step {k skip needed : ℕ} (hneeded : 0 < needed) {c : Bytes}
    (hc : quantumAt r.dec file r.start k = some c) (hskip : skip < c.length) (buf : Bytes)
    (s : σ) : ∃ s', (r.preadLoop needed (u64 (k * 4)) skip buf s).1 =
      (r.preadLoop (needed - min (c.length - skip) needed) (u64 ((k + 1) * 4)) 0
        (buf ++ slice c skip (min (c.length - skip) needed)) s').1 := by
  have hdecode := decode4_eq_quantumAt hpread hcomplete k s
  rw [hc] at hdecode
  rw [Base64Reader.preadLoop, dif_neg hneeded.ne']
  rcases hp : r.decode4 (u64 (k * 4)) s with ⟨_ | c', s'⟩
  · rw [hp] at hdecode
    cases hdecode
  · rw [hp] at hdecode
    obtain rfl : c' = c := Option.some.inj hdecode
    refine ⟨s', ?_⟩
    dsimp only
    rw [dif_neg (by omega), u64_quantum_add]

/-! ## Reads by position -/

/-- **The loop reads by position** if nothing can be decoded behind a padded quantum. -/
theorem preadLoop_eq_readAt (hpads : PadsAtEnd r.dec file r.start) (needed k skip : ℕ)
    (hskip : skip < 3) (buf : Bytes) (s : σ) :
    (r.preadLoop needed (u64 (k * 4)) skip buf s).1 =
      (readAt (byteAt r.dec file r.start) (3 * k + skip) needed).map (buf ++ ·) := by
  induction needed using Nat.strong_induction_on generalizing k skip buf s with
  | _ needed ih =>
      rcases Nat.eq_zero_or_pos needed with rfl | hneeded
      · rw [Base64Reader.preadLoop]
        simp [readAt]
      by_cases hleft : ∃ c, quantumAt r.dec file r.start k = some c ∧ skip < c.length
      · obtain ⟨c, hc, hlt⟩ := hleft
        obtain ⟨s', hstep⟩ := preadLoop_step hpread hcomplete hneeded hc hlt buf s
        have hle := length_le_of_quantumAt hc
        set n := min (c.length - skip) needed with hn
        -- The bytes taken are those of the positions in this quantum.
        have htaken : readAt (byteAt r.dec file r.start) (3 * k + skip) n =
            some (slice c skip n) := by
          refine readAt_eq_slice (fun i hi => ?_) (by omega)
          rw [Nat.add_assoc]
          exact byteAt_of_quantumAt hc (by omega)
        have hsplit := readAt_add (byteAt r.dec file r.start) (3 * k + skip) n (needed - n)
        rw [Nat.add_sub_cancel' (by omega), htaken] at hsplit
        rw [hstep, hsplit, ih (needed - n) (by omega) (k + 1) 0 (by norm_num)]
        rcases Nat.eq_zero_or_pos (needed - n) with hzero | hmore
        · rw [hzero]
          simp [readAt]
        · rcases Nat.lt_or_ge c.length 3 with hshort | hfull
          · -- A padded quantum: there is nothing behind it, and no byte at its missing positions.
            have hnext : byteAt r.dec file r.start (3 * (k + 1) + 0) = none := by
              rcases hc' : quantumAt r.dec file r.start (k + 1) with _ | c'
              · rw [byteAt, show (3 * (k + 1) + 0) / 3 = k + 1 by omega, hc']
                rfl
              · obtain rfl := hpads k c c' hc (by omega) hshort hc'
                exact byteAt_of_quantumAt hc' (by norm_num)
            have hmissing : byteAt r.dec file r.start (3 * k + skip + n) = none := by
              rw [show 3 * k + skip + n = 3 * k + c.length by omega,
                byteAt_of_quantumAt hc hshort]
              exact List.getElem?_eq_none le_rfl
            rw [readAt_eq_none hnext hmore, readAt_eq_none hmissing hmore]
            rfl
          · rw [show 3 * (k + 1) + 0 = 3 * k + skip + n by omega]
            cases readAt (byteAt r.dec file r.start) (3 * k + skip + n) (needed - n) <;> simp
      · have hnone : ∀ c, quantumAt r.dec file r.start k = some c → c.length ≤ skip :=
          fun c hc => not_lt.mp fun hlt => hleft ⟨c, hc, hlt⟩
        have hbyte : byteAt r.dec file r.start (3 * k + skip) = none := by
          rcases hc : quantumAt r.dec file r.start k with _ | c
          · rw [byteAt, show (3 * k + skip) / 3 = k by omega, hc]
            rfl
          · rw [byteAt_of_quantumAt hc hskip]
            exact List.getElem?_eq_none (hnone c hc)
        rw [preadLoop_eq_none hpread hcomplete hneeded hnone, readAt_eq_none hbyte hneeded]
        rfl

/-- **A read returns the bytes of its positions**, if nothing can be decoded behind a padded
quantum. -/
theorem pread_eq_readAt (hpads : PadsAtEnd r.dec file r.start) (size offset : ℕ) (s : σ) :
    (r.file.pread size offset s).1 = readAt (byteAt r.dec file r.start) offset size := by
  have hloop := preadLoop_eq_readAt hpread hcomplete hpads size (offset / 3) (offset % 3)
    (Nat.mod_lt _ (by norm_num)) [] s
  rw [Nat.div_add_mod] at hloop
  exact hloop.trans (by simp)

/-- A read that needs more than a padded quantum supplies would run on into the next one, where
something can be decoded. -/
theorem pread_of_pad {k : ℕ} {c c' : Bytes} (hc : quantumAt r.dec file r.start k = some c)
    (hpos : 0 < c.length) (hc' : quantumAt r.dec file r.start (k + 1) = some c')
    (hpos' : 0 < c'.length) (s : σ) :
    (r.file.pread (c.length + 1) (3 * k) s).1 = some (c ++ c'.take 1) := by
  obtain ⟨s₁, hfirst⟩ := preadLoop_step hpread hcomplete (Nat.succ_pos c.length) hc hpos [] s
  obtain ⟨s₂, hsecond⟩ := preadLoop_step hpread hcomplete one_pos hc' hpos' c s₁
  have hslice : slice c 0 c.length = c := slice_full c
  have hslice' : slice c' 0 1 = c'.take 1 := rfl
  have hmin : min c'.length 1 = 1 := by omega
  rw [Nat.sub_zero, Nat.min_eq_left (Nat.le_succ _), Nat.succ_sub (le_refl c.length), Nat.sub_self,
    List.nil_append, hslice] at hfirst
  rw [Nat.sub_zero, hmin, Nat.sub_self, hslice'] at hsecond
  have hdiv : 3 * k / 3 = k := by omega
  have hmod : 3 * k % 3 = 0 := by omega
  show (r.preadLoop (c.length + 1) (u64 (3 * k / 3 * 4)) (3 * k % 3) [] s).1 = _
  rw [hdiv, hmod]
  refine hfirst.trans (hsecond.trans ?_)
  rw [Base64Reader.preadLoop]
  rfl

/-- A read that begins behind the last byte of a quantum fails. -/
theorem pread_eq_none_of_missing {k j size : ℕ} {c : Bytes}
    (hc : quantumAt r.dec file r.start k = some c) (hj : j < 3) (hmissing : c.length ≤ j)
    (hsize : 0 < size) (s : σ) : (r.file.pread size (3 * k + j) s).1 = none := by
  have hdiv : (3 * k + j) / 3 = k := by omega
  have hmod : (3 * k + j) % 3 = j := by omega
  show (r.preadLoop size (u64 ((3 * k + j) / 3 * 4)) ((3 * k + j) % 3) [] s).1 = none
  rw [hdiv, hmod]
  refine preadLoop_eq_none hpread hcomplete hsize (fun c' hc' => ?_) [] s
  obtain rfl : c = c' := Option.some.inj (hc.symm.trans hc')
  exact hmissing

end turn

/-- **Reads go by position.** A read that succeeds can be cut into two, which return its first and
its last bytes; and a read that needs more than a quantum of fewer than three bytes supplies
returns -1. -/
structure ReadsByPosition (r : Base64Reader σ) (file : Bytes) : Prop where
  cut : ∀ (o a b : ℕ) (s t u : σ) (X : Bytes), a + b < 2 ^ 64 → o + a < 2 ^ 64 →
    (r.file.pread (a + b) o s).1 = some X →
      (r.file.pread a o t).1 = some (X.take a) ∧ (r.file.pread b (o + a) u).1 = some (X.drop a)
  pad : ∀ (k o n : ℕ) (c : Bytes) (s : σ), o < 2 ^ 64 → n < 2 ^ 64 →
    quantumAt r.dec file r.start k = some c → c.length < 3 → o / 3 ≤ k → 0 < n →
      3 * k + c.length < o + n → (r.file.pread n o s).1 = none

section position

variable (hpread : PreadLike r.base file) (hcomplete : CompleteReads r.base file)

include hpread hcomplete

/-- If nothing can be decoded behind a padded quantum, reads go by position. -/
theorem readsByPosition_of_padsAtEnd (hpads : PadsAtEnd r.dec file r.start) :
    ReadsByPosition r file := by
  have hread := pread_eq_readAt hpread hcomplete hpads
  constructor
  · intro o a b s t u X _ _ hX
    rw [hread, readAt_add] at hX
    obtain ⟨xs, hxs, hX⟩ := Option.bind_eq_some_iff.mp hX
    obtain ⟨ys, hys, rfl⟩ := Option.map_eq_some_iff.mp hX
    have hlength := length_of_readAt_eq_some hxs
    rw [hread, hread, hxs, hys, ← hlength, List.take_left, List.drop_left]
    exact ⟨rfl, rfl⟩
  · intro k o n c s _ _ hc hshort hle hn hmore
    by_cases hbefore : o ≤ 3 * k + c.length
    · -- The read comes to the first missing byte.
      have hmissing : byteAt r.dec file r.start (o + (3 * k + c.length - o)) = none := by
        rw [Nat.add_sub_cancel' hbefore, byteAt_of_quantumAt hc hshort]
        exact List.getElem?_eq_none le_rfl
      rw [hread, readAt_eq_none_of_lt hmissing (by omega)]
    · obtain ⟨j, rfl⟩ : ∃ j, o = 3 * k + j := ⟨o - 3 * k, by omega⟩
      exact pread_eq_none_of_missing hpread hcomplete hc (by omega) (by omega) hn s

/-- If reads go by position, nothing can be decoded behind a padded quantum: a read over both would
succeed, and the read of its last byte would not. -/
theorem padsAtEnd_of_readsByPosition (h : ReadsByPosition r file) (s : σ) :
    PadsAtEnd r.dec file r.start := by
  intro k c c' hc hpos hshort hc'
  by_contra hne
  have hpos' : 0 < c'.length := List.length_pos_iff.mpr hne
  -- The quanta repeat, so that there are such ones at 64-bit positions.
  have hmod := Nat.mod_lt k (by norm_num : 0 < 2 ^ 62)
  rw [← Nat.add_zero k, ← quantumAt_mod] at hc
  rw [← quantumAt_mod] at hc'
  rw [Nat.add_zero] at hc
  set k' := k % 2 ^ 62 with hk'
  have hboth := pread_of_pad hpread hcomplete hc hpos hc' hpos' s
  have hlast := pread_eq_none_of_missing hpread hcomplete hc hshort le_rfl one_pos s
  obtain ⟨-, hcut⟩ := h.cut (3 * k') c.length 1 s s s _ (by omega) (by omega) hboth
  rw [hlast] at hcut
  cases hcut

/-- **Reads go by position if and only if nothing can be decoded behind a padded quantum.** -/
theorem readsByPosition_iff (s : σ) :
    ReadsByPosition r file ↔ PadsAtEnd r.dec file r.start :=
  ⟨fun h => padsAtEnd_of_readsByPosition hpread hcomplete h s,
    readsByPosition_of_padsAtEnd hpread hcomplete⟩

end position

end reader

/-- A reader of a file from its beginning. -/
def readerOf (file : Bytes) : Base64Reader Unit := ⟨osFile file, 0, standardDecoder⟩

/-- Of a full quantum and a padded one the padded one is the last. -/
theorem padsAtEnd_twoQuanta : PadsAtEnd standardDecoder (ascii "YmNkYQ==") 0 := by
  intro k c c' hc hpos hshort hc'
  obtain ⟨hin, hquad⟩ := quantumAt_eq_some hc
  obtain ⟨hin', -⟩ := quantumAt_eq_some hc'
  have hlength : (ascii "YmNkYQ==").length = 8 := rfl
  rw [hlength] at hin hin'
  have hplace : u64 (0 + u64 (k * 4)) = 0 ∨ u64 (0 + u64 (k * 4)) = 4 := by
    unfold u64 at hin ⊢
    omega
  rcases hplace with hfirst | hsecond
  · -- The first quantum is full.
    have hfull : (standardDecoder.quad (slice (ascii "YmNkYQ==") 0 4)).length = 3 := by decide
    rw [hfirst] at hquad
    rw [hquad] at hfull
    omega
  · -- There is nothing behind the second.
    unfold u64 at hin' hsecond
    omega

/-- The theorem at these two quanta. -/
theorem readsByPosition_iff_twoQuanta :
    ReadsByPosition (readerOf (ascii "YmNkYQ==")) (ascii "YmNkYQ==") :=
  (readsByPosition_iff (r := readerOf (ascii "YmNkYQ==")) (osFile_preadLike _)
    (osFile_completeReads _) ()).mpr padsAtEnd_twoQuanta

/-- A padded quantum with another one behind it: two bytes are read over both, and the second of
them cannot be read. -/
theorem not_readsByPosition_twoQuanta :
    ((readerOf (ascii "YQ==YmNk")).file.pread 2 0 ()).1 = some (ascii "ab") ∧
      ((readerOf (ascii "YQ==YmNk")).file.pread 1 1 ()).1 = none ∧
      ¬ReadsByPosition (readerOf (ascii "YQ==YmNk")) (ascii "YQ==YmNk") := by
  have hpread := osFile_preadLike (ascii "YQ==YmNk")
  have hcomplete := osFile_completeReads (ascii "YQ==YmNk")
  have hc : quantumAt standardDecoder (ascii "YQ==YmNk") 0 0 = some (ascii "a") := by decide
  have hc' : quantumAt standardDecoder (ascii "YQ==YmNk") 0 1 = some (ascii "bcd") := by decide
  refine ⟨pread_of_pad (r := readerOf _) hpread hcomplete hc (by decide) hc' (by decide) (),
    pread_eq_none_of_missing (r := readerOf _) hpread hcomplete hc (j := 1) (by decide) (by decide)
      one_pos (), fun h => ?_⟩
  have hpads := padsAtEnd_of_readsByPosition (r := readerOf _) hpread hcomplete h ()
  exact absurd (hpads 0 _ _ hc (by decide) (by decide) hc') (by decide)

/-! ## Reads of an encoding -/

section encoded

variable {σ : Type} {base : RandomAccessFile σ} {dec : Decoder} {before D after : Bytes}
  (hdec : dec.IsStandard) (hafter : Terminates after)
  (hfile : (before ++ (encode D ++ after)).length < 2 ^ 64)

include hdec hafter hfile

/-- A quantum of an encoding holds three bytes of the string, or what is left of it. -/
theorem quantumAt_encode {k : ℕ} (hk : 3 * k < D.length) :
    quantumAt dec (before ++ (encode D ++ after)) before.length k = some (slice D (3 * k) 3) := by
  have hstream := decodeStream_encode hdec D hafter
  have hdrop : (before ++ (encode D ++ after)).drop before.length = encode D ++ after :=
    List.drop_left
  rw [← hstream] at hk
  obtain ⟨hlen, hquad⟩ := quantum_of_decodeStream hk
  rw [hstream, ← hdrop, slice_drop] at hquad
  rw [List.length_append] at hfile
  have hplace : u64 (before.length + u64 (k * 4)) = before.length + 4 * k := by
    rw [u64_of_lt (by omega : k * 4 < 2 ^ 64), u64_of_lt (by omega), Nat.mul_comm]
  rw [quantumAt, hplace, hquad, if_pos]
  rw [List.length_append]
  omega

/-- Nothing can be decoded of the quantum behind an encoding. -/
theorem quantumAt_of_end {c : Bytes}
    (hc : quantumAt dec (before ++ (encode D ++ after)) before.length ((D.length + 2) / 3) =
      some c) : c = [] := by
  have hlength := length_encode D
  rw [List.length_append, List.length_append] at hfile
  have hplace : u64 (before.length + u64 ((D.length + 2) / 3 * 4)) =
      (before ++ encode D).length := by
    rw [u64_of_lt (by omega : (D.length + 2) / 3 * 4 < 2 ^ 64), u64_of_lt (by omega),
      List.length_append]
    omega
  have hdrop := slice_append_right (before ++ encode D) after 0 4
  rw [Nat.add_zero, List.append_assoc] at hdrop
  rw [quantumAt, hplace, hdrop] at hc
  split at hc
  · rw [← Option.some.inj hc]
    exact quad_of_terminates hdec hafter 4
  · cases hc

variable (hpread : PreadLike base (before ++ (encode D ++ after)))
  (hcomplete : CompleteReads base (before ++ (encode D ++ after)))

include hpread hcomplete

/-- **The loop does not get past the end of an encoding**: it comes to the quantum behind it, or to
a byte that the last quantum does not have. -/
theorem preadLoop_encode_eq_none (needed k skip : ℕ) (hneeded : 0 < needed)
    (hk : k ≤ (D.length + 2) / 3) (hmore : D.length < 3 * k + skip + needed) (buf : Bytes) (s : σ) :
    (Base64Reader.preadLoop ⟨base, before.length, dec⟩ needed (u64 (k * 4)) skip buf s).1 =
      none := by
  induction needed using Nat.strong_induction_on generalizing k skip buf s with
  | _ needed ih =>
      rcases Nat.lt_or_ge (3 * k) D.length with hin | hend
      · have hc := quantumAt_encode hdec hafter hfile hin
        have hlen : (slice D (3 * k) 3).length = min 3 (D.length - 3 * k) := length_slice _ _ _
        rcases Nat.lt_or_ge skip (slice D (3 * k) 3).length with hlt | hge
        · obtain ⟨s', hstep⟩ := preadLoop_step (r := ⟨base, before.length, dec⟩) hpread hcomplete
            hneeded hc hlt buf s
          rw [hstep]
          exact ih _ (by omega) (k + 1) 0 (by omega) (by omega) (by omega) _ s'
        · refine preadLoop_eq_none (r := ⟨base, before.length, dec⟩) hpread hcomplete hneeded
            (fun c hc' => ?_) buf s
          obtain rfl := Option.some.inj (hc.symm.trans hc')
          exact hge
      · obtain rfl : k = (D.length + 2) / 3 := by omega
        refine preadLoop_eq_none (r := ⟨base, before.length, dec⟩) hpread hcomplete hneeded
          (fun c hc => ?_) buf s
        rw [quantumAt_of_end hdec hafter hfile hc]
        exact Nat.zero_le _

end encoded

/-- **Reads of an encoding.** Whatever follows it, a read inside the encoded bytes returns them. If
nothing of what follows can be decoded, a read past the end of the bytes returns -1 where it begins
at the latest in the quantum behind the encoding, or where the file ends there and its place is a
64-bit number. -/
theorem pread_encode {σ : Type} (base : RandomAccessFile σ) (dec : Decoder)
    (hdec : dec.IsStandard) (before D after : Bytes)
    (hpread : PreadLike base (before ++ (encode D ++ after)))
    (hcomplete : CompleteReads base (before ++ (encode D ++ after)))
    (hfile : (before ++ (encode D ++ after)).length < 2 ^ 64) (size offset : ℕ) (s : σ) :
    (offset + size ≤ D.length →
      ((Base64Reader.file ⟨base, before.length, dec⟩).pread size offset s).1 =
        some (slice D offset size)) ∧
      (0 < size → D.length < offset + size → Terminates after →
        offset / 3 ≤ (D.length + 2) / 3 ∨
          after = [] ∧ before.length + offset / 3 * 4 < 2 ^ 64 →
        ((Base64Reader.file ⟨base, before.length, dec⟩).pread size offset s).1 = none) := by
  have hdrop : (before ++ (encode D ++ after)).drop before.length = encode D ++ after :=
    List.drop_left
  constructor
  · intro hin
    have hstream := prefix_decodeStream_encode hdec D after
    have hfits : offset + size ≤
        (decodeStream dec ((before ++ (encode D ++ after)).drop before.length)).length := by
      rw [hdrop]
      exact hin.trans hstream.length_le
    have hread := Base64Reader.pread_eq_slice (r := ⟨base, before.length, dec⟩) hcomplete hfile
      hfits s
    rw [hread, hdrop]
    obtain ⟨tail, htail⟩ := hstream
    rw [← htail, slice_append_left hin]
  · rintro hsize hmore hafter (hstart | ⟨rfl, hplace⟩)
    · have hmod := Nat.div_add_mod offset 3
      exact preadLoop_encode_eq_none hdec hafter hfile hpread hcomplete size (offset / 3)
        (offset % 3) hsize hstart (by omega) [] s
    · -- The file ends behind the encoding.
      rcases Nat.lt_or_ge ((D.length + 2) / 3) (offset / 3) with hlate | hstart
      · refine preadLoop_eq_none (r := ⟨base, before.length, dec⟩) hpread hcomplete hsize
          (fun c hc => ?_) [] s
        have hlength := length_encode D
        rw [quantumAt, u64_of_lt (by omega : offset / 3 * 4 < 2 ^ 64), u64_of_lt hplace,
          if_neg] at hc
        · cases hc
        · simp only [List.length_append, List.length_nil]
          omega
      · have hmod := Nat.div_add_mod offset 3
        exact preadLoop_encode_eq_none hdec hafter hfile hpread hcomplete size (offset / 3)
          (offset % 3) hsize hstart (by omega) [] s

/-- The theorem at four bytes behind one other character, with a character outside the alphabet
behind their encoding. -/
theorem pread_encode_four :
    ((Base64Reader.file ⟨osFile (ascii "#" ++ (encode (ascii "abcd") ++ ascii "#")), 1,
        standardDecoder⟩).pread 2 1 ()).1 = some (ascii "bc") ∧
      ((Base64Reader.file ⟨osFile (ascii "#" ++ (encode (ascii "abcd") ++ ascii "#")), 1,
        standardDecoder⟩).pread 2 3 ()).1 = none :=
  ⟨(pread_encode _ standardDecoder standardDecoder_isStandard (ascii "#") (ascii "abcd")
      (ascii "#") (osFile_preadLike _) (osFile_completeReads _) (by decide) 2 1 ()).1 (by decide),
    (pread_encode _ standardDecoder standardDecoder_isStandard (ascii "#") (ascii "abcd")
      (ascii "#") (osFile_preadLike _) (osFile_completeReads _) (by decide) 2 3 ()).2 (by decide)
      (by decide) (by rintro c hc; cases hc; decide) (Or.inl (by decide))⟩

/-- Behind the encoding of no bytes stands a character outside the alphabet. A read that begins in
the quantum behind that character returns a byte. -/
theorem pread_ne_none_behind_end :
    Terminates (ascii "#AAAAAAA") ∧ (ascii "").length < 3 + 1 ∧
      ((readerOf (encode (ascii "") ++ ascii "#AAAAAAA")).file.pread 1 3 ()).1 ≠ none := by
  refine ⟨?_, by decide, ?_⟩
  · rintro c hc
    cases hc
    decide
  · have hc : quantumAt standardDecoder (encode (ascii "") ++ ascii "#AAAAAAA") 0 1 =
        some [0, 0, 0] := by decide
    obtain ⟨s', hstep⟩ := preadLoop_step
      (r := readerOf (encode (ascii "") ++ ascii "#AAAAAAA")) (osFile_preadLike _)
      (osFile_completeReads _) one_pos hc (by decide : 0 < 3) [] ()
    have hread : ((readerOf (encode (ascii "") ++ ascii "#AAAAAAA")).file.pread 1 3 ()).1 =
        some [0] := by
      refine hstep.trans ?_
      rw [Base64Reader.preadLoop]
      rfl
    rw [hread]
    exact Option.some_ne_none _

end VirParquet.Verify
