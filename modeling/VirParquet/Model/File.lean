import VirParquet.Found.Loop
import VirParquet.Found.Base64

/-!
# Execution outcomes and random-access files

What every module of the model shares: `Exec`, a computation that returns or stops at a `Fault`
(undefined behaviour, or a C++ exception), and `RandomAccessFile`, the interface of `fmap.h` that
base files, decoders and virtual files implement.

A base file is not a function of its arguments. It may return fewer bytes than it holds, and may
do so differently each time. So `RandomAccessFile σ` carries a state of its own type `σ`, about
which nothing is assumed, and the behaviour of a base over a file content is one of the contracts
`PreadLike` and `ShortReads` (short reads and failures allowed, everywhere or inside the file),
`SucceedsInside` and `CompleteReads`. `logged`
keeps the list of the reads issued, for statements about them.

* `Base64Reader` is the reader of `base64.cc`, with VTK's `DecodeTriplet` as a parameter. Its
  results are `length_of_pread_eq_some` (it never returns less than was asked for) and
  `pread_eq_slice` (inside the decoded stream it returns the bytes of the stream).
-/

namespace VirParquet.Model

open VirParquet.Found VirParquet.Found.Base64

/-! ## Outcomes -/

/-- Why an execution stops without returning: undefined behaviour of three kinds, or an exception
with its message. -/
inductive Fault
  | outOfBounds
  | signedOverflow
  | nullDeref
  | thrown (what : String)
  deriving DecidableEq, Repr

/-- An execution that returns a value or stops at a fault. -/
abbrev Exec := Except Fault

/-- Both parts of a composed execution that returned have returned. -/
theorem Exec.of_bind_eq_ok {α β : Type} {x : Exec α} {f : α → Exec β} {b : β}
    (h : x >>= f = .ok b) : ∃ a, x = .ok a ∧ f a = .ok b := by
  cases x with
  | error e => cases h
  | ok a => exact ⟨a, rfl, h⟩

/-- A composed execution goes on with the value returned. -/
theorem Exec.bind_of_eq_ok {α β : Type} {x : Exec α} {a : α} (h : x = .ok a) (f : α → Exec β) :
    x >>= f = f a := by
  rw [h]
  rfl

/-- Access to an element of a vector, an array or a string. -/
def vecAt {α : Type} (xs : List α) (i : ℕ) : Exec α :=
  match xs[i]? with
  | some x => .ok x
  | none => .error .outOfBounds

/-- An access inside the bounds returns the element. -/
theorem vecAt_eq_ok {α : Type} {xs : List α} {i : ℕ} {x : α} (h : xs[i]? = some x) :
    vecAt xs i = .ok x := by
  simp [vecAt, h]

/-- An access outside the bounds is a fault. -/
theorem vecAt_eq_error {α : Type} {xs : List α} {i : ℕ} (h : xs.length ≤ i) :
    vecAt xs i = .error .outOfBounds := by
  simp [vecAt, List.getElem?_eq_none h]

/-- Addition of signed 64-bit integers. -/
def addI64 (a b : ℤ) : Exec ℤ :=
  if -2 ^ 63 ≤ a + b ∧ a + b < 2 ^ 63 then .ok (a + b) else .error .signedOverflow

/-- A sum that fits is returned. -/
theorem addI64_eq_ok {a b : ℤ} (hlow : -2 ^ 63 ≤ a + b) (hup : a + b < 2 ^ 63) :
    addI64 a b = .ok (a + b) := if_pos ⟨hlow, hup⟩

/-! ## The interface -/

/-- A file that is read at positions. A read returns the bytes it wrote to the buffer, their
number being the count returned, or `none` for -1.
Source: `fmap.h`, `RandomAccessFile` -/
structure RandomAccessFile (σ : Type) where
  /-- `Pread(buf, size, offset)`. -/
  pread : (size offset : ℕ) → σ → Option Bytes × σ

variable {σ : Type}

/-- The base behaves like `pread` on a file with the content `file`: a read that does not fail
returns bytes that stand there, at least one if there is one to return, none at or past the end. -/
def PreadLike (base : RandomAccessFile σ) (file : Bytes) : Prop :=
  ∀ size offset s d, (base.pread size offset s).1 = some d →
    d <+: slice file offset size ∧ (slice file offset size ≠ [] → d ≠ [])

/-- A read of the base inside the file that does not fail returns bytes that stand there, at least
one if any is asked for. -/
def ShortReads (base : RandomAccessFile σ) (file : Bytes) : Prop :=
  ∀ size offset s d, size ≤ file.length - offset → (base.pread size offset s).1 = some d →
    d <+: slice file offset size ∧ (0 < size → 0 < d.length)

/-- No read of the base inside the file fails. -/
def SucceedsInside (base : RandomAccessFile σ) (file : Bytes) : Prop :=
  ∀ size offset s, size ≤ file.length - offset → (base.pread size offset s).1 ≠ none

/-- Every read of the base inside the file returns all the bytes asked for. -/
def CompleteReads (base : RandomAccessFile σ) (file : Bytes) : Prop :=
  ∀ size offset s, size ≤ file.length - offset →
    (base.pread size offset s).1 = some (slice file offset size)

/-- A read like `pread` returns no more than asked for and no more than there is. -/
theorem PreadLike.length_le {base : RandomAccessFile σ} {file d : Bytes} {size offset : ℕ} {s : σ}
    (h : PreadLike base file) (hd : (base.pread size offset s).1 = some d) :
    d.length ≤ min size (file.length - offset) := by
  have := (h size offset s d hd).1.length_le
  rwa [length_slice] at this

/-- A read like `pread` of available bytes makes progress. -/
theorem PreadLike.length_pos {base : RandomAccessFile σ} {file d : Bytes} {size offset : ℕ} {s : σ}
    (h : PreadLike base file) (hd : (base.pread size offset s).1 = some d) (hsize : 0 < size)
    (hoffset : offset < file.length) : 0 < d.length := by
  refine List.length_pos_iff.mpr ((h size offset s d hd).2 fun hnil => ?_)
  rw [slice_eq_nil_iff] at hnil
  omega

/-- Complete reads are short reads. -/
theorem CompleteReads.shortReads {base : RandomAccessFile σ} {file : Bytes}
    (h : CompleteReads base file) : ShortReads base file := by
  intro size offset s d hsize hd
  obtain rfl : slice file offset size = d := Option.some.inj ((h size offset s hsize).symm.trans hd)
  refine ⟨List.prefix_rfl, fun hpos => ?_⟩
  rw [length_slice]
  omega

/-- Complete reads do not fail. -/
theorem CompleteReads.succeedsInside {base : RandomAccessFile σ} {file : Bytes}
    (h : CompleteReads base file) : SucceedsInside base file := fun size offset s hsize => by
  rw [h size offset s hsize]
  exact Option.some_ne_none _

/-- The file that the operating system serves completely.
Source: `fmap.cc`, `ReadonlyOSFile::Pread` -/
def osFile (file : Bytes) : RandomAccessFile Unit where
  pread size offset s := (some (slice file offset size), s)

/-- An operating-system file reads completely. -/
theorem osFile_completeReads (file : Bytes) : CompleteReads (osFile file) file :=
  fun _ _ _ _ => rfl

/-- An operating-system file reads like `pread`. -/
theorem osFile_preadLike (file : Bytes) : PreadLike (osFile file) file := by
  rintro size offset s d hd
  obtain rfl := Option.some.inj hd
  exact ⟨List.prefix_rfl, id⟩

/-! ## The reads issued -/

/-- One read of a base and what it returned. -/
structure ReadEvent where
  size : ℕ
  offset : ℕ
  result : Option Bytes

/-- The same base, which also lists the reads it served. -/
def logged (base : RandomAccessFile σ) : RandomAccessFile (σ × List ReadEvent) where
  pread size offset s :=
    ((base.pread size offset s.1).1,
      ((base.pread size offset s.1).2, s.2 ++ [⟨size, offset, (base.pread size offset s.1).1⟩]))

/-- Logging does not change what is read. -/
theorem logged_shortReads {base : RandomAccessFile σ} {file : Bytes} (h : ShortReads base file) :
    ShortReads (logged base) file := fun size offset s d hsize hd => h size offset s.1 d hsize hd

/-- Logging does not change what is read. -/
theorem logged_completeReads {base : RandomAccessFile σ} {file : Bytes}
    (h : CompleteReads base file) : CompleteReads (logged base) file :=
  fun size offset s => h size offset s.1

/-! ## The base64 reader -/

/-- A base64 stream in a base file. `dec` is `vtkBase64Utilities::DecodeTriplet`.
Source: `base64.h`, `Base64Reader` -/
structure Base64Reader (σ : Type) where
  base : RandomAccessFile σ
  start : ℕ
  dec : Decoder

/-- Read and decode one quantum: its bytes, at most three, or `none` for -1.
Source: `base64.cc`, `Base64Reader::Decode4` -/
def Base64Reader.decode4 (r : Base64Reader σ) (offset : ℕ) (s : σ) : Option Bytes × σ :=
  match r.base.pread 4 (u64 (r.start + offset)) s with
  | (some cs, s) => if cs.length = 4 then (some (r.dec.quad cs), s) else (none, s)
  | (none, s) => (none, s)

/-- The loop of `PreadTyped`: `needed` is `end - p`, `buf` holds the bytes before `p`.
Source: `base64.cc`, `Base64Reader::PreadTyped` -/
def Base64Reader.preadLoop (r : Base64Reader σ) (needed base64Offset skip : ℕ) (buf : Bytes)
    (s : σ) : Option Bytes × σ :=
  if _hneeded : needed = 0 then (some buf, s)
  else
    match r.decode4 base64Offset s with
    | (none, s) => (none, s)
    | (some c, s) =>
        -- Fewer bytes are available than requested.
        if _havail : c.length ≤ skip then (none, s)
        else
          r.preadLoop (needed - min (c.length - skip) needed) (u64 (base64Offset + 4)) 0
            (buf ++ slice c skip (min (c.length - skip) needed)) s
termination_by needed
decreasing_by omega

/-- Source: `base64.cc`, `Base64Reader::PreadTyped` -/
def Base64Reader.preadTyped (r : Base64Reader σ) (size offset : ℕ) (s : σ) : Option Bytes × σ :=
  r.preadLoop size (u64 (offset / 3 * 4)) (offset % 3) [] s

/-- The reader as a file of its own.
Source: `base64.cc`, `Base64Reader::Pread` -/
def Base64Reader.file (r : Base64Reader σ) : RandomAccessFile σ where
  pread := r.preadTyped

section base64Reader

variable {r : Base64Reader σ} {file : Bytes}

/-- A read that succeeds adds to the buffer exactly the bytes that were needed. -/
theorem Base64Reader.length_of_preadLoop_eq_some (r : Base64Reader σ) (needed offset skip : ℕ)
    (buf : Bytes) (s : σ) {d : Bytes} (h : (r.preadLoop needed offset skip buf s).1 = some d) :
    d.length = buf.length + needed := by
  induction needed using Nat.strong_induction_on generalizing offset skip buf s with
  | _ needed ih =>
      rw [preadLoop] at h
      split at h
      next hzero =>
        cases h
        omega
      next hneeded =>
        rcases hdec : r.decode4 offset s with ⟨_ | c, s'⟩
        · simp [hdec] at h
        · simp only [hdec] at h
          split at h
          next => cases h
          next havail =>
            have := ih _ (by omega) _ _ _ _ h
            simp only [List.length_append, length_slice] at this
            omega

/-- **The base64 reader never returns less than was asked for.** -/
theorem Base64Reader.length_of_pread_eq_some {size offset : ℕ} {s : σ} {d : Bytes}
    (h : (r.file.pread size offset s).1 = some d) : d.length = size := by
  have := r.length_of_preadLoop_eq_some size _ _ [] s h
  simpa using this

/-- A quantum that lies inside the stream is decoded. -/
theorem Base64Reader.decode4_of_lt (hbase : CompleteReads r.base file)
    (hfile : file.length < 2 ^ 64) {k : ℕ}
    (hk : 3 * k < (decodeStream r.dec (file.drop r.start)).length) (s : σ) :
    (r.decode4 (4 * k) s).1 = some (slice (decodeStream r.dec (file.drop r.start)) (3 * k) 3) := by
  obtain ⟨hlen, hquad⟩ := quantum_of_decodeStream hk
  rw [List.length_drop] at hlen
  have hread := hbase 4 (u64 (r.start + 4 * k)) s (by rw [u64_of_lt (by omega)]; omega)
  rw [u64_of_lt (by omega), ← slice_drop] at hread
  have hfour : (slice (file.drop r.start) (4 * k) 4).length = 4 :=
    length_slice_of_le (by rw [List.length_drop]; omega)
  unfold decode4
  rw [u64_of_lt (by omega)]
  rcases hp : r.base.pread 4 (r.start + 4 * k) s with ⟨_ | cs, s'⟩
  · simp [hp] at hread
  · rw [hp] at hread
    cases hread
    simp [hfour, hquad]

/-- The loop of `PreadTyped` inside the stream: with `pos` the decoded position reached, the
encoded position is that of its quantum and `skip` its place in it, unless nothing is needed. -/
theorem Base64Reader.preadLoop_eq_slice (hbase : CompleteReads r.base file)
    (hfile : file.length < 2 ^ 64) (needed pos : ℕ) (buf : Bytes) (s : σ)
    (hpos : pos + needed ≤ (decodeStream r.dec (file.drop r.start)).length)
    {offset skip : ℕ} (hoffset : needed = 0 ∨ offset = 4 * (pos / 3) ∧ skip = pos % 3) :
    (r.preadLoop needed offset skip buf s).1 =
      some (buf ++ slice (decodeStream r.dec (file.drop r.start)) pos needed) := by
  induction needed using Nat.strong_induction_on generalizing pos buf s offset skip with
  | _ needed ih =>
      rw [preadLoop]
      split
      next hzero => simp [hzero]
      next hneeded =>
        obtain ⟨rfl, rfl⟩ := hoffset.resolve_left hneeded
        have hk : 3 * (pos / 3) < (decodeStream r.dec (file.drop r.start)).length := by omega
        have hquantum := (quantum_of_decodeStream hk).1
        rw [List.length_drop] at hquantum
        have hdec := decode4_of_lt hbase hfile hk s
        set D := decodeStream r.dec (file.drop r.start) with hD
        rcases hp : r.decode4 (4 * (pos / 3)) s with ⟨_ | c, s'⟩
        · simp [hp] at hdec
        · rw [hp] at hdec
          obtain rfl : c = slice D (3 * (pos / 3)) 3 := by simpa using hdec
          have hlen : (slice D (3 * (pos / 3)) 3).length = min 3 (D.length - 3 * (pos / 3)) :=
            length_slice _ _ _
          dsimp only
          rw [dif_neg (by omega), u64_of_lt (by omega)]
          -- The bytes taken from this quantum end at the request or at the quantum's end.
          set n := min ((slice D (3 * (pos / 3)) 3).length - pos % 3) needed with hn
          have htaken : slice (slice D (3 * (pos / 3)) 3) (pos % 3) n = slice D pos n := by
            rw [slice_slice_of_le (by omega)]
            congr 1
            omega
          rw [ih (needed - n) (by omega) (pos + n) _ s' (by omega) (by omega), htaken,
            List.append_assoc, slice_append_slice, Nat.add_sub_cancel' (by omega)]

/-- **The base64 reader inside the stream**: a read that stays in the decoded stream returns its
bytes, wherever it starts and stops in a quantum.
Source: `base64.cc`, `Base64Reader::PreadTyped` -/
theorem Base64Reader.pread_eq_slice (hbase : CompleteReads r.base file)
    (hfile : file.length < 2 ^ 64) {size offset : ℕ}
    (h : offset + size ≤ (decodeStream r.dec (file.drop r.start)).length) (s : σ) :
    (r.file.pread size offset s).1 =
      some (slice (decodeStream r.dec (file.drop r.start)) offset size) := by
  show (r.preadLoop size _ _ [] s).1 = _
  by_cases hsize : size = 0
  · rw [preadLoop_eq_slice hbase hfile size offset [] s h (Or.inl hsize), List.nil_append]
  · have hk : 3 * (offset / 3) < (decodeStream r.dec (file.drop r.start)).length := by omega
    have hquantum := (quantum_of_decodeStream hk).1
    rw [List.length_drop] at hquantum
    have hwrap : u64 (offset / 3 * 4) = 4 * (offset / 3) := by
      rw [u64_of_lt (by omega), Nat.mul_comm]
    rw [preadLoop_eq_slice hbase hfile size offset [] s h (Or.inr ⟨hwrap, rfl⟩), List.nil_append]

end base64Reader

end VirParquet.Model
