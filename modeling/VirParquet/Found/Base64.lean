import VirParquet.Found.Word
import Mathlib.Tactic.IntervalCases

/-!
# Standard base64, one quantum at a time

`encode` writes a byte string as quanta of four characters, the last one padded with `=`.
A `Decoder` turns one quantum into at most three bytes; `Decoder.IsStandard` says that it undoes
`encode` on a full and on both kinds of padded quanta and yields nothing on a character outside
the alphabet, and `standardDecoder` is such a decoder. `decodeStream` is what a byte string holds
when it is decoded quantum by quantum until one falls short of three bytes.

* `length_encode`: the encoding of `n` bytes has `4 * ((n + 2) / 3)` characters.
* `prefix_decodeStream_encode`: whatever follows an encoding, decoding yields the bytes first.
* `quantum_of_decodeStream`: the bytes of the stream from `3 * k` on are what quantum `k`, which
  lies inside the string, decodes to. This is what a reader that jumps to a quantum relies on.
-/

namespace VirParquet.Found.Base64

open VirParquet.Found

/-! ## The alphabet -/

/-- The padding character `=`. -/
def pad : UInt8 := 61

/-- The character of a six-bit value. -/
def symbol (v : ℕ) : UInt8 :=
  if v < 26 then UInt8.ofNat (65 + v)
  else if v < 52 then UInt8.ofNat (71 + v)
  else if v < 62 then UInt8.ofNat (v - 4)
  else if v = 62 then 43 else 47

/-- The six-bit value of a character; the padding character counts as zero. -/
def value? (c : UInt8) : Option ℕ :=
  if 65 ≤ c ∧ c ≤ 90 then some (c.toNat - 65)
  else if 97 ≤ c ∧ c ≤ 122 then some (c.toNat - 71)
  else if 48 ≤ c ∧ c ≤ 57 then some (c.toNat + 4)
  else if c = 43 then some 62
  else if c = 47 then some 63
  else if c = pad then some 0
  else none

/-- A character's value is the one it was made from. -/
theorem value?_symbol : ∀ v < 64, value? (symbol v) = some v := by decide

/-- No value is written as padding. -/
theorem symbol_ne_pad : ∀ v < 64, symbol v ≠ pad := by decide

/-! ## Encoding -/

/-- The quantum of three bytes. -/
def quantum3 (a b c : UInt8) : Bytes :=
  [symbol (a.toNat / 4), symbol (a.toNat % 4 * 16 + b.toNat / 16),
    symbol (b.toNat % 16 * 4 + c.toNat / 64), symbol (c.toNat % 64)]

/-- The padded quantum of two bytes. -/
def quantum2 (a b : UInt8) : Bytes :=
  [symbol (a.toNat / 4), symbol (a.toNat % 4 * 16 + b.toNat / 16), symbol (b.toNat % 16 * 4), pad]

/-- The padded quantum of one byte. -/
def quantum1 (a : UInt8) : Bytes :=
  [symbol (a.toNat / 4), symbol (a.toNat % 4 * 16), pad, pad]

/-- The padded base64 form of a byte string. -/
def encode : Bytes → Bytes
  | a :: b :: c :: rest => quantum3 a b c ++ encode rest
  | [a, b] => quantum2 a b
  | [a] => quantum1 a
  | [] => []

/-- **An encoding takes four characters** for every three bytes that it starts on. -/
theorem length_encode (bs : Bytes) : (encode bs).length = 4 * ((bs.length + 2) / 3) := by
  induction bs using encode.induct with
  | case1 a b c rest ih =>
      simp only [encode, quantum3, List.length_append, List.length_cons, List.length_nil, ih]
      omega
  | case2 a b => simp [encode, quantum2]
  | case3 a => simp [encode, quantum1]
  | case4 => simp [encode]

/-! ## Decoding -/

/-- What decodes one quantum of four characters into at most three bytes. -/
structure Decoder where
  /-- The bytes of a quantum. -/
  decode : UInt8 → UInt8 → UInt8 → UInt8 → Bytes
  /-- A quantum has no more than three. -/
  length_le : ∀ i₀ i₁ i₂ i₃, (decode i₀ i₁ i₂ i₃).length ≤ 3

/-- The decoder on a list of characters, of which it takes the first four. -/
def Decoder.quad (dec : Decoder) : Bytes → Bytes
  | i₀ :: i₁ :: i₂ :: i₃ :: _ => dec.decode i₀ i₁ i₂ i₃
  | _ => []

/-- A decoder of standard base64. -/
structure Decoder.IsStandard (dec : Decoder) : Prop where
  /-- A full quantum gives its three bytes. -/
  quad_quantum3 : ∀ a b c, dec.quad (quantum3 a b c) = [a, b, c]
  /-- A quantum with one `=` gives its two bytes. -/
  quad_quantum2 : ∀ a b, dec.quad (quantum2 a b) = [a, b]
  /-- A quantum with two `=` gives its byte. -/
  quad_quantum1 : ∀ a, dec.quad (quantum1 a) = [a]
  /-- A character outside the alphabet gives nothing. -/
  decode_invalid : ∀ i₀ i₁ i₂ i₃, none ∈ [value? i₀, value? i₁, value? i₂, value? i₃] →
    dec.decode i₀ i₁ i₂ i₃ = []

/-- A quantum never gives more than three bytes. -/
theorem Decoder.length_quad_le (dec : Decoder) (cs : Bytes) : (dec.quad cs).length ≤ 3 := by
  unfold Decoder.quad
  split
  · exact dec.length_le _ _ _ _
  · simp

/-- The three bytes of four six-bit values, cut to the number that the padding leaves. -/
def decodeTriplet (i₀ i₁ i₂ i₃ : UInt8) : Bytes :=
  match value? i₀, value? i₁, value? i₂, value? i₃ with
  | some d₀, some d₁, some d₂, some d₃ =>
      [UInt8.ofNat (d₀ * 4 + d₁ / 16), UInt8.ofNat (d₁ % 16 * 16 + d₂ / 4),
        UInt8.ofNat (d₂ % 4 * 64 + d₃)].take (if i₂ = pad then 1 else if i₃ = pad then 2 else 3)
  | _, _, _, _ => []

/-- The decoder that checks the alphabet, computes the bytes and drops those of the padding. -/
def standardDecoder : Decoder where
  decode := decodeTriplet
  length_le i₀ i₁ i₂ i₃ := by
    unfold decodeTriplet
    split
    · exact (List.length_take_le' _ _).trans (by simp)
    · simp

/-- `decodeTriplet` decodes characters whose values are known to the three bytes of these. -/
theorem decodeTriplet_of_values {i₀ i₁ i₂ i₃ : UInt8} {d₀ d₁ d₂ d₃ : ℕ}
    (h₀ : value? i₀ = some d₀) (h₁ : value? i₁ = some d₁) (h₂ : value? i₂ = some d₂)
    (h₃ : value? i₃ = some d₃) :
    decodeTriplet i₀ i₁ i₂ i₃ =
      [UInt8.ofNat (d₀ * 4 + d₁ / 16), UInt8.ofNat (d₁ % 16 * 16 + d₂ / 4),
        UInt8.ofNat (d₂ % 4 * 64 + d₃)].take
          (if i₂ = pad then 1 else if i₃ = pad then 2 else 3) := by
  simp [decodeTriplet, h₀, h₁, h₂, h₃]

/-- A number that is the value of a byte makes this byte. -/
theorem ofNat_eq_of_toNat {a : UInt8} {n : ℕ} (h : n = a.toNat) : UInt8.ofNat n = a := by
  subst h
  exact UInt8.ofNat_toNat

/-- **`standardDecoder` decodes standard base64.** -/
theorem standardDecoder_isStandard : standardDecoder.IsStandard where
  quad_quantum3 a b c := by
    have ha := a.toNat_lt
    have hb := b.toNat_lt
    have hc := c.toNat_lt
    have hpad₂ := symbol_ne_pad (b.toNat % 16 * 4 + c.toNat / 64) (by omega)
    have hpad₃ := symbol_ne_pad (c.toNat % 64) (by omega)
    show decodeTriplet _ _ _ _ = _
    rw [decodeTriplet_of_values (value?_symbol _ (by omega)) (value?_symbol _ (by omega))
      (value?_symbol _ (by omega)) (value?_symbol _ (by omega)), if_neg hpad₂, if_neg hpad₃,
      ofNat_eq_of_toNat (a := a) (by omega), ofNat_eq_of_toNat (a := b) (by omega),
      ofNat_eq_of_toNat (a := c) (by omega)]
    rfl
  quad_quantum2 a b := by
    have ha := a.toNat_lt
    have hb := b.toNat_lt
    have hpad₂ := symbol_ne_pad (b.toNat % 16 * 4) (by omega)
    show decodeTriplet _ _ _ _ = _
    rw [decodeTriplet_of_values (value?_symbol _ (by omega)) (value?_symbol _ (by omega))
      (value?_symbol _ (by omega)) (show value? pad = some 0 by decide), if_neg hpad₂, if_pos rfl,
      ofNat_eq_of_toNat (a := a) (by omega), ofNat_eq_of_toNat (a := b) (by omega)]
    rfl
  quad_quantum1 a := by
    have ha := a.toNat_lt
    show decodeTriplet _ _ _ _ = _
    rw [decodeTriplet_of_values (value?_symbol _ (by omega)) (value?_symbol _ (by omega))
      (show value? pad = some 0 by decide) (show value? pad = some 0 by decide), if_pos rfl,
      ofNat_eq_of_toNat (a := a) (by omega)]
    rfl
  decode_invalid i₀ i₁ i₂ i₃ h := by
    show decodeTriplet i₀ i₁ i₂ i₃ = []
    unfold decodeTriplet
    split
    next h₀ h₁ h₂ h₃ => simp [h₀, h₁, h₂, h₃] at h
    next => rfl

/-! ## The stream of a byte string -/

/-- The bytes that a string of quanta holds: quantum by quantum, up to and with the first one
that does not give three bytes. -/
def decodeStream (dec : Decoder) : Bytes → Bytes
  | i₀ :: i₁ :: i₂ :: i₃ :: rest =>
      if (dec.decode i₀ i₁ i₂ i₃).length = 3 then
        dec.decode i₀ i₁ i₂ i₃ ++ decodeStream dec rest
      else dec.decode i₀ i₁ i₂ i₃
  | _ => []

variable {dec : Decoder}

/-- The stream is no longer than the string. -/
theorem length_decodeStream_le (dec : Decoder) (cs : Bytes) :
    (decodeStream dec cs).length ≤ cs.length := by
  induction cs using decodeStream.induct dec with
  | case1 i₀ i₁ i₂ i₃ rest hfull ih =>
      rw [decodeStream, if_pos hfull, List.length_append, hfull]
      simp only [List.length_cons]
      omega
  | case2 i₀ i₁ i₂ i₃ rest hshort =>
      have hle := dec.length_le i₀ i₁ i₂ i₃
      rw [decodeStream, if_neg hshort]
      simp only [List.length_cons]
      omega
  | case3 cs hcs =>
      rw [decodeStream]
      · simp
      · exact hcs

/-- **Decoding undoes encoding**: whatever follows an encoding, the stream begins with the
encoded bytes. -/
theorem prefix_decodeStream_encode (h : dec.IsStandard) (bs rest : Bytes) :
    bs <+: decodeStream dec (encode bs ++ rest) := by
  induction bs using encode.induct with
  | case1 a b c tail ih =>
      have hq : dec.decode _ _ _ _ = [a, b, c] := h.quad_quantum3 a b c
      simp only [encode, quantum3, List.cons_append, List.nil_append, decodeStream] at hq ⊢
      rw [hq, if_pos (by simp)]
      simpa using ih
  | case2 a b =>
      have hq : dec.decode _ _ _ _ = [a, b] := h.quad_quantum2 a b
      have hstream : decodeStream dec (encode [a, b] ++ rest) = [a, b] := by
        simp only [encode, quantum2, List.cons_append, List.nil_append, decodeStream] at hq ⊢
        rw [hq, if_neg (by simp)]
      exact ⟨[], (List.append_nil _).trans hstream.symm⟩
  | case3 a =>
      have hq : dec.decode _ _ _ _ = [a] := h.quad_quantum1 a
      have hstream : decodeStream dec (encode [a] ++ rest) = [a] := by
        simp only [encode, quantum1, List.cons_append, List.nil_append, decodeStream] at hq ⊢
        rw [hq, if_neg (by simp)]
      exact ⟨[], (List.append_nil _).trans hstream.symm⟩
  | case4 => exact List.nil_prefix

/-- A string that is empty or begins with a character outside the alphabet: nothing of it can be
decoded. -/
def Terminates (rest : Bytes) : Prop := ∀ c, rest.head? = some c → value? c = none

/-- A quantum at the beginning of such a string gives nothing. -/
theorem quad_of_terminates (h : dec.IsStandard) {rest : Bytes} (hrest : Terminates rest) (n : ℕ) :
    dec.quad (rest.take n) = [] := by
  rcases hq : rest.take n with _ | ⟨i₀, _ | ⟨i₁, _ | ⟨i₂, _ | ⟨i₃, tail⟩⟩⟩⟩
  · rfl
  · rfl
  · rfl
  · rfl
  · have hhead : rest.head? = some i₀ := by
      rcases rest with _ | ⟨c, rest⟩
      · simp at hq
      · rcases n with _ | n
        · simp at hq
        · rw [List.take_succ_cons] at hq
          rw [List.head?_cons, (List.cons.inj hq).1]
    apply h.decode_invalid
    rw [hrest i₀ hhead]
    exact List.mem_cons_self

/-- Nothing is decoded of such a string. -/
theorem decodeStream_of_terminates (h : dec.IsStandard) {rest : Bytes} (hrest : Terminates rest) :
    decodeStream dec rest = [] := by
  have hquad := quad_of_terminates h hrest rest.length
  rw [List.take_length] at hquad
  rcases rest with _ | ⟨i₀, _ | ⟨i₁, _ | ⟨i₂, _ | ⟨i₃, tail⟩⟩⟩⟩
  · rfl
  · rfl
  · rfl
  · rfl
  · have hdecode : dec.decode i₀ i₁ i₂ i₃ = [] := hquad
    rw [decodeStream, hdecode]
    exact if_neg (by simp)

/-- **Decoding undoes encoding exactly** if nothing of what follows can be decoded. -/
theorem decodeStream_encode (h : dec.IsStandard) (bs : Bytes) {rest : Bytes}
    (hrest : Terminates rest) : decodeStream dec (encode bs ++ rest) = bs := by
  induction bs using encode.induct with
  | case1 a b c tail ih =>
      have hq : dec.decode _ _ _ _ = [a, b, c] := h.quad_quantum3 a b c
      simp only [encode, quantum3, List.cons_append, List.nil_append, decodeStream] at hq ⊢
      rw [hq, if_pos (by simp), ih]
      rfl
  | case2 a b =>
      have hq : dec.decode _ _ _ _ = [a, b] := h.quad_quantum2 a b
      simp only [encode, quantum2, List.cons_append, List.nil_append, decodeStream] at hq ⊢
      rw [hq, if_neg (by simp)]
  | case3 a =>
      have hq : dec.decode _ _ _ _ = [a] := h.quad_quantum1 a
      simp only [encode, quantum1, List.cons_append, List.nil_append, decodeStream] at hq ⊢
      rw [hq, if_neg (by simp)]
  | case4 => exact decodeStream_of_terminates h hrest

/-- **The quantum of a stream position**: where the stream reaches beyond `3 * k`, quantum `k` is
complete and decodes to the bytes of the stream from there on. -/
theorem quantum_of_decodeStream {cs : Bytes} {k : ℕ} (h : 3 * k < (decodeStream dec cs).length) :
    4 * k + 4 ≤ cs.length ∧
      dec.quad (slice cs (4 * k) 4) = slice (decodeStream dec cs) (3 * k) 3 := by
  induction cs using decodeStream.induct dec generalizing k with
  | case1 i₀ i₁ i₂ i₃ rest hfull ih =>
      rw [decodeStream, if_pos hfull] at h ⊢
      cases k with
      | zero =>
          refine ⟨by simp, ?_⟩
          rw [slice_append_left (by omega), ← hfull]
          simp [slice, Decoder.quad]
      | succ k =>
          have hk : 3 * k < (decodeStream dec rest).length := by
            rw [List.length_append] at h
            omega
          obtain ⟨hlen, hquad⟩ := ih hk
          refine ⟨by simp only [List.length_cons]; omega, ?_⟩
          have hcs : slice (i₀ :: i₁ :: i₂ :: i₃ :: rest) (4 * (k + 1)) 4 =
              slice rest (4 * k) 4 := by
            rw [Nat.mul_succ, Nat.add_comm]
            exact slice_append_right [i₀, i₁, i₂, i₃] rest (4 * k) 4
          have hst := slice_append_right (dec.decode i₀ i₁ i₂ i₃) (decodeStream dec rest) (3 * k) 3
          rw [hcs, hquad, ← hst, hfull]
          congr 1
          omega
  | case2 i₀ i₁ i₂ i₃ rest hshort =>
      rw [decodeStream, if_neg hshort] at h ⊢
      have hle := dec.length_le i₀ i₁ i₂ i₃
      obtain rfl : k = 0 := by omega
      refine ⟨by simp, ?_⟩
      simp only [slice, Decoder.quad, Nat.mul_zero, List.drop_zero, List.take_succ_cons]
      exact (List.take_of_length_le hle).symm
  | case3 cs hcs =>
      rw [decodeStream] at h
      · simp at h
      · exact hcs

end VirParquet.Found.Base64
