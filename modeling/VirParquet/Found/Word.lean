import VirParquet.Found.Slice

/-!
# Machine words and their little-endian bytes

Machine integers are naturals (unsigned) and integers (signed) with the wrap written out:
`u32`, `u64` cut to the word, `subU64` is unsigned subtraction, `toI32`, `toI64` reinterpret an
unsigned word as two's complement. `leBytes w n` are the `w` low bytes of `n`, least significant
first, `leNat` reads them back, and `leWords w` cuts a byte string into words of `w` bytes.

The facts used later: a value that fits is left alone (`u32_of_lt`, `toI32_of_lt` and so on), and
the two round trips `leNat_leBytes` and `leWords_flatMap_leBytes`.
-/

namespace VirParquet.Found

/-- A byte string. -/
abbrev Bytes := List UInt8

/-! ## Words -/

/-- Cut to 32 bits. -/
def u32 (n : ℕ) : ℕ := n % 2 ^ 32

/-- Cut to 64 bits. -/
def u64 (n : ℕ) : ℕ := n % 2 ^ 64

/-- Unsigned 64-bit subtraction. -/
def subU64 (a b : ℕ) : ℕ := (a + (2 ^ 64 - b)) % 2 ^ 64

/-- The signed 32-bit integer with the low 32 bits of `n`. -/
def toI32 (n : ℕ) : ℤ := if n % 2 ^ 32 < 2 ^ 31 then (n % 2 ^ 32 : ℕ) else (n % 2 ^ 32 : ℕ) - 2 ^ 32

/-- The signed 64-bit integer with the low 64 bits of `n`. -/
def toI64 (n : ℕ) : ℤ := if n % 2 ^ 64 < 2 ^ 63 then (n % 2 ^ 64 : ℕ) else (n % 2 ^ 64 : ℕ) - 2 ^ 64

/-- The unsigned 64-bit integer with the bits of `z`. -/
def ofI64 (z : ℤ) : ℕ := (z % 2 ^ 64).toNat

/-- The integer is a signed 32-bit number. -/
def IsI32 (z : ℤ) : Prop := -2 ^ 31 ≤ z ∧ z < 2 ^ 31

instance (z : ℤ) : Decidable (IsI32 z) := inferInstanceAs (Decidable (_ ∧ _))

/-- The integer is a signed 64-bit number. -/
def IsI64 (z : ℤ) : Prop := -2 ^ 63 ≤ z ∧ z < 2 ^ 63

/-- The bytes of a text in ASCII. -/
def ascii (text : String) : Bytes := text.toList.map fun c => UInt8.ofNat c.toNat

/-- Below `2 ^ 32` nothing is cut. -/
theorem u32_of_lt {n : ℕ} (h : n < 2 ^ 32) : u32 n = n := Nat.mod_eq_of_lt h

/-- Below `2 ^ 64` nothing is cut. -/
theorem u64_of_lt {n : ℕ} (h : n < 2 ^ 64) : u64 n = n := Nat.mod_eq_of_lt h

/-- A cut value fits in 32 bits. -/
theorem u32_lt (n : ℕ) : u32 n < 2 ^ 32 := Nat.mod_lt _ (by norm_num)

/-- Unsigned subtraction without a borrow is subtraction. -/
theorem subU64_of_le {a b : ℕ} (h : b ≤ a) (ha : a < 2 ^ 64) : subU64 a b = a - b := by
  unfold subU64
  omega

/-- A value below `2 ^ 31` keeps its value as a signed integer. -/
theorem toI32_of_lt {n : ℕ} (h : n < 2 ^ 31) : toI32 n = n := by
  unfold toI32
  have : n % 2 ^ 32 = n := Nat.mod_eq_of_lt (by omega)
  rw [if_pos (by omega), this]

/-- A value below `2 ^ 63` keeps its value as a signed integer. -/
theorem toI64_of_lt {n : ℕ} (h : n < 2 ^ 63) : toI64 n = n := by
  unfold toI64
  have : n % 2 ^ 64 = n := Nat.mod_eq_of_lt (by omega)
  rw [if_pos (by omega), this]

/-- A value of 64 bits from `2 ^ 63` on is negative as a signed integer. -/
theorem toI64_of_ge {n : ℕ} (h : 2 ^ 63 ≤ n) (hlt : n < 2 ^ 64) : toI64 n = n - 2 ^ 64 := by
  unfold toI64
  have : n % 2 ^ 64 = n := Nat.mod_eq_of_lt hlt
  rw [this, if_neg (not_lt.mpr h)]

/-- A signed reading of 32 bits is a signed 32-bit number. -/
theorem isI32_toI32 (n : ℕ) : IsI32 (toI32 n) := by
  unfold IsI32 toI32
  split_ifs <;> omega

/-- A natural below `2 ^ 64` survives the conversion from a signed integer. -/
theorem ofI64_natCast {n : ℕ} (h : n < 2 ^ 64) : ofI64 n = n := by
  unfold ofI64
  omega

/-! ## Little-endian bytes -/

/-- The `w` low bytes of `n`, least significant first. -/
def leBytes : ℕ → ℕ → Bytes
  | 0, _ => []
  | w + 1, n => UInt8.ofNat (n % 256) :: leBytes w (n / 256)

/-- The number with the given little-endian bytes. -/
def leNat : Bytes → ℕ
  | [] => 0
  | b :: bs => b.toNat + 256 * leNat bs

/-- A word of `w` bytes has `w` bytes. -/
@[simp] theorem length_leBytes (w n : ℕ) : (leBytes w n).length = w := by
  induction w generalizing n with
  | zero => rfl
  | succ w ih => simp [leBytes, ih]

/-- Reading back what was written gives the number cut to the word. -/
theorem leNat_leBytes (w n : ℕ) : leNat (leBytes w n) = n % 256 ^ w := by
  induction w generalizing n with
  | zero => simp [leBytes, leNat, Nat.mod_one]
  | succ w ih =>
      have hb : (UInt8.ofNat (n % 256)).toNat = n % 256 := by
        rw [UInt8.toNat_ofNat']
        omega
      rw [leBytes, leNat, ih, hb, pow_succ', Nat.mod_mul]

/-- A number that fits in the word is read back unchanged. -/
theorem leNat_leBytes_of_lt {w n : ℕ} (h : n < 256 ^ w) : leNat (leBytes w n) = n := by
  rw [leNat_leBytes, Nat.mod_eq_of_lt h]

/-- The words of `w` bytes of a byte string, an incomplete one at its end left out. -/
def leWords (w : ℕ) : ℕ → Bytes → List ℕ
  | 0, _ => []
  | n + 1, bs => leNat (bs.take w) :: leWords w n (bs.drop w)

/-- There are as many words as asked for. -/
@[simp] theorem length_leWords (w n : ℕ) (bs : Bytes) : (leWords w n bs).length = n := by
  induction n generalizing bs with
  | zero => rfl
  | succ n ih => simp [leWords, ih]

/-- Words written one after the other are read back one after the other, whatever follows. -/
theorem leWords_flatMap_leBytes {w : ℕ} {xs : List ℕ} (h : ∀ x ∈ xs, x < 256 ^ w)
    (rest : Bytes) : leWords w xs.length (xs.flatMap (leBytes w) ++ rest) = xs := by
  induction xs with
  | nil => rfl
  | cons x xs ih =>
      have htake : (leBytes w x ++ (xs.flatMap (leBytes w) ++ rest)).take w = leBytes w x :=
        List.take_left' (length_leBytes w x)
      have hdrop : (leBytes w x ++ (xs.flatMap (leBytes w) ++ rest)).drop w =
          xs.flatMap (leBytes w) ++ rest := List.drop_left' (length_leBytes w x)
      rw [List.flatMap_cons, List.append_assoc, List.length_cons, leWords, htake, hdrop,
        leNat_leBytes_of_lt (h x List.mem_cons_self),
        ih fun y hy => h y (List.mem_cons_of_mem _ hy)]

/-- The words of two byte strings, of which the first is cut without rest, are those of both. -/
theorem leWords_append {w n : ℕ} (m : ℕ) {A : Bytes} (h : A.length = w * n) (B : Bytes) :
    leWords w (n + m) (A ++ B) = leWords w n A ++ leWords w m B := by
  induction n generalizing A with
  | zero =>
      obtain rfl : A = [] := List.length_eq_zero_iff.mp h
      rw [Nat.zero_add]
      rfl
  | succ n ih =>
      rw [Nat.mul_succ] at h
      have hle : w ≤ A.length := by omega
      have hdrop : (A.drop w).length = w * n := by
        rw [List.length_drop]
        omega
      rw [Nat.succ_add, leWords, leWords, List.take_append_of_le_length hle,
        List.drop_append_of_le_length hle, ih hdrop]
      rfl

/-- The bytes of a list of words are `w` for each. -/
@[simp] theorem length_flatMap_leBytes (w : ℕ) (xs : List ℕ) :
    (xs.flatMap (leBytes w)).length = w * xs.length := by
  induction xs with
  | nil => simp
  | cons x xs ih => rw [List.flatMap_cons, List.length_append, ih, length_leBytes,
      List.length_cons, Nat.mul_succ, Nat.add_comm]

end VirParquet.Found
