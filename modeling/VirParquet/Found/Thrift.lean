import VirParquet.Found.Word
import Mathlib.Tactic.Linarith

/-!
# Thrift structs and the compact protocol

A Thrift struct as the sequence of its fields, each an id and a value (`Fields`, `Value`), and
what a protocol has to do with it: `Protocol` bundles a writer and a reader with the three laws
that users of a protocol rely on: a struct whose length is a 32-bit number is read back whole and
the reader stops at its end, whatever follows; a struct takes at most `Fields.sizeBound` bytes; it
never takes none. The writer writes to a `MemoryBuffer`, which takes what its 32-bit sizes can say.

`compact` is the compact protocol: field headers with the difference to the last field id in the
high half of the type byte, zigzag varints for integers, booleans in the field header, a zero byte
at the end of a struct. Its round trip (`decodeFields_encodeFields`) is by induction on the struct,
with the reader's depth bounded by the number of bytes.
-/

namespace VirParquet.Found.Thrift

open VirParquet.Found

/-! ## Values and structs -/

/-- The type of a list's items. -/
inductive Kind
  | bool
  | i32
  | i64
  | binary
  | list
  | struct
  deriving DecidableEq, Repr

mutual

/-- A Thrift value. -/
inductive Value
  | bool (b : Bool)
  | i32 (n : ℤ)
  | i64 (n : ℤ)
  | binary (bs : Bytes)
  | list (kind : Kind) (items : Values)
  | struct (fields : Fields)

/-- The items of a list. -/
inductive Values
  | nil
  | cons (item : Value) (items : Values)

/-- A Thrift struct: field ids with their values, in the order written. -/
inductive Fields
  | nil
  | cons (id : ℕ) (value : Value) (rest : Fields)

end

/-- The type of a value. -/
def Value.kind : Value → Kind
  | .bool _ => .bool
  | .i32 _ => .i32
  | .i64 _ => .i64
  | .binary _ => .binary
  | .list _ _ => .list
  | .struct _ => .struct

/-- The number of items. -/
def Values.length : Values → ℕ
  | .nil => 0
  | .cons _ items => items.length + 1

mutual

/-- Values that a protocol can write: integers of their width, strings whose length is a 64-bit and
lists whose length is a 32-bit number, lists of one type other than the boolean one. -/
def Value.WellFormed : Value → Prop
  | .bool _ => True
  | .i32 n => IsI32 n
  | .i64 n => IsI64 n
  | .binary bs => bs.length < 2 ^ 64
  | .list kind items => kind ≠ .bool ∧ items.length < 2 ^ 32 ∧ items.WellFormed kind
  | .struct fields => fields.WellFormed

/-- Items of one type. -/
def Values.WellFormed (kind : Kind) : Values → Prop
  | .nil => True
  | .cons item items => item.kind = kind ∧ item.WellFormed ∧ items.WellFormed kind

/-- Fields whose ids are positive 16-bit integers. -/
def Fields.WellFormed : Fields → Prop
  | .nil => True
  | .cons id value rest => 0 < id ∧ id < 2 ^ 15 ∧ value.WellFormed ∧ rest.WellFormed

end

mutual

/-- A bound on the bytes of a value. -/
def Value.sizeBound : Value → ℕ
  | .bool _ => 0
  | .i32 _ => 5
  | .i64 _ => 10
  | .binary bs => 10 + bs.length
  | .list _ items => 6 + items.sizeBound
  | .struct fields => fields.sizeBound

/-- A bound on the bytes of the items. -/
def Values.sizeBound : Values → ℕ
  | .nil => 0
  | .cons item items => item.sizeBound + items.sizeBound

/-- A bound on the bytes of a struct: at most four for each field header, one for the end. -/
def Fields.sizeBound : Fields → ℕ
  | .nil => 1
  | .cons _ value rest => 4 + value.sizeBound + rest.sizeBound

end

/-! ## Building structs and looking fields up -/

/-- The items of a list. -/
def Values.ofList : List Value → Values
  | [] => .nil
  | v :: vs => .cons v (.ofList vs)

/-- A list of the items. -/
def Values.toList : Values → List Value
  | .nil => []
  | .cons v vs => v :: vs.toList

/-- A struct of the given fields. -/
def Fields.ofList : List (ℕ × Value) → Fields
  | [] => .nil
  | (id, v) :: fields => .cons id v (.ofList fields)

/-- A field that is written only if it is set. -/
def ifSet (id : ℕ) : Option Value → List (ℕ × Value)
  | some v => [(id, v)]
  | none => []

/-- The value of the last field of the given id and type. A field with the id and another type is
passed over. -/
def Fields.last? (id : ℕ) (kind : Kind) : Fields → Option Value
  | .nil => none
  | .cons i v rest => (rest.last? id kind).or (if i = id ∧ v.kind = kind then some v else none)

/-- A field of type `bool`. -/
def Fields.bool? (fields : Fields) (id : ℕ) : Option Bool :=
  match fields.last? id .bool with
  | some (.bool b) => some b
  | _ => none

/-- A field of type `i32`. -/
def Fields.i32? (fields : Fields) (id : ℕ) : Option ℤ :=
  match fields.last? id .i32 with
  | some (.i32 n) => some n
  | _ => none

/-- A field of type `i64`. -/
def Fields.i64? (fields : Fields) (id : ℕ) : Option ℤ :=
  match fields.last? id .i64 with
  | some (.i64 n) => some n
  | _ => none

/-- A field of type `binary`. -/
def Fields.binary? (fields : Fields) (id : ℕ) : Option Bytes :=
  match fields.last? id .binary with
  | some (.binary bs) => some bs
  | _ => none

/-- A field of type `list`. -/
def Fields.list? (fields : Fields) (id : ℕ) : Option (List Value) :=
  match fields.last? id .list with
  | some (.list _ items) => some items.toList
  | _ => none

/-- A field of type `struct`. -/
def Fields.struct? (fields : Fields) (id : ℕ) : Option Fields :=
  match fields.last? id .struct with
  | some (.struct fs) => some fs
  | _ => none

/-- A string. -/
def Value.binary? : Value → Option Bytes
  | .binary bs => some bs
  | _ => none

/-- A struct. -/
def Value.struct? : Value → Option Fields
  | .struct fields => some fields
  | _ => none

/-- An integer of 32 bits. -/
def Value.i32? : Value → Option ℤ
  | .i32 n => some n
  | _ => none

/-- An optional field: absent, or present and readable. -/
def readOptional {α β : Type} (read : β → Option α) : Option β → Option (Option α)
  | none => some none
  | some x => (read x).map some

/-- What was written item by item is read item by item. -/
theorem mapM_map_eq_some {α : Type} {write : α → Value} {read : Value → Option α}
    (h : ∀ a, read (write a) = some a) (items : List α) :
    (items.map write).mapM read = some items := by
  induction items with
  | nil => rfl
  | cons a items ih => simp [h, ih]

/-- A list of items built from a list has its elements. -/
@[simp] theorem Values.toList_ofList (vs : List Value) : (Values.ofList vs).toList = vs := by
  induction vs with
  | nil => rfl
  | cons v vs ih => rw [ofList, toList, ih]

/-! ## Enumerations -/

/-- An enumeration: written as the code of its member, of 32 bits. -/
class Enumeration (α : Type) where
  /-- The code of a member. -/
  code : α → ℤ
  /-- All members. -/
  members : List α
  /-- A member is found by its code. -/
  find?_code : ∀ a, members.find? (fun b => code b = code a) = some a
  /-- Codes are signed 32-bit numbers. -/
  isI32_code : ∀ a, IsI32 (code a)

/-- A member of an enumeration as a value. -/
def Value.enum {α : Type} [Enumeration α] (a : α) : Value := .i32 (Enumeration.code a)

/-- The member of an enumeration with the given code. -/
def Enumeration.ofCode? (α : Type) [Enumeration α] (n : ℤ) : Option α :=
  (members : List α).find? fun a => code a = n

/-- A field of an enumeration. -/
def Fields.enum? (α : Type) [Enumeration α] (fields : Fields) (id : ℕ) : Option α :=
  (fields.i32? id).bind (Enumeration.ofCode? α)

/-- A member is read back from its code. -/
@[simp] theorem Enumeration.ofCode?_code {α : Type} [Enumeration α] (a : α) :
    ofCode? α (code a) = some a := find?_code a

/-- Members of an enumeration are well formed. -/
theorem Value.wellFormed_enum {α : Type} [Enumeration α] (a : α) : (Value.enum a).WellFormed :=
  Enumeration.isI32_code a

/-! ## What a protocol owes its users -/

/-- The memory buffer that a protocol writes to. -/
structure MemoryBuffer where
  /-- It takes fewer bytes than this. -/
  capacity : ℕ
  /-- Its sizes are of 32 bits. -/
  capacity_eq : capacity = 2 ^ 32
  /-- What the exception says if it cannot take a struct. -/
  what : Fields → String

/-- A protocol: how structs are written and read. -/
structure Protocol where
  /-- Where structs are written to. -/
  buffer : MemoryBuffer
  /-- The bytes of a struct. -/
  write : Fields → Bytes
  /-- The struct at the beginning of a byte string, and what follows it. -/
  read : Bytes → Option (Fields × Bytes)
  /-- A struct is read back, and reading stops where it ends. -/
  read_write : ∀ s rest, s.WellFormed → (write s).length < 2 ^ 32 →
    read (write s ++ rest) = some (s, rest)
  /-- A struct is no longer than its bound. -/
  length_write_le : ∀ s, s.WellFormed → (write s).length ≤ s.sizeBound
  /-- A struct takes at least one byte. -/
  write_ne_nil : ∀ s, write s ≠ []

/-! ## Varints -/

/-- Seven bits a byte, lowest first, the high bit set on all bytes but the last. -/
def varint (n : ℕ) : Bytes :=
  if n < 128 then [UInt8.ofNat n] else UInt8.ofNat (n % 128 + 128) :: varint (n / 128)
termination_by n
decreasing_by omega

/-- The number at the beginning of a byte string. -/
def readVarint : Bytes → Option (ℕ × Bytes)
  | [] => none
  | b :: bs =>
      if b.toNat < 128 then some (b.toNat, bs)
      else (readVarint bs).map fun p => (b.toNat - 128 + 128 * p.1, p.2)

/-- A byte keeps its number. -/
theorem toNat_ofNat_of_lt {n : ℕ} (h : n < 256) : (UInt8.ofNat n).toNat = n := by
  rw [UInt8.toNat_ofNat']
  exact Nat.mod_eq_of_lt h

/-- A varint is read back. -/
theorem readVarint_varint (n : ℕ) (rest : Bytes) :
    readVarint (varint n ++ rest) = some (n, rest) := by
  induction n using Nat.strong_induction_on with
  | _ n ih =>
      rw [varint]
      by_cases h : n < 128
      · rw [if_pos h, List.singleton_append, readVarint, toNat_ofNat_of_lt (by omega), if_pos h]
      · have hb : (UInt8.ofNat (n % 128 + 128)).toNat = n % 128 + 128 :=
          toNat_ofNat_of_lt (by omega)
        rw [if_neg h, List.cons_append, readVarint, hb, if_neg (by omega), ih _ (by omega)]
        simp only [Option.map_some, Option.some.injEq, Prod.mk.injEq, and_true]
        omega

/-- A varint takes a byte for every seven bits of its number. -/
theorem length_varint_le {k n : ℕ} (h : n < 128 ^ (k + 1)) : (varint n).length ≤ k + 1 := by
  induction k generalizing n with
  | zero =>
      rw [varint, if_pos (by simpa using h)]
      simp
  | succ k ih =>
      rw [varint]
      split
      · simp
      · have hk : n / 128 < 128 ^ (k + 1) := by
          rw [Nat.div_lt_iff_lt_mul (by norm_num)]
          rwa [pow_succ] at h
        simpa using ih hk

/-- A varint takes at least one byte. -/
theorem length_varint_pos (n : ℕ) : 0 < (varint n).length := by
  rw [varint]
  split <;> simp

/-- Signed numbers as naturals: even for the non-negative ones. -/
def zigzag (n : ℤ) : ℕ := if 0 ≤ n then (2 * n).toNat else (-2 * n - 1).toNat

/-- The signed number of a zigzag natural. -/
def unzigzag (n : ℕ) : ℤ := if n % 2 = 0 then (n / 2 : ℕ) else -((n / 2 : ℕ) : ℤ) - 1

/-- Zigzag is undone. -/
theorem unzigzag_zigzag (n : ℤ) : unzigzag (zigzag n) = n := by
  unfold unzigzag zigzag
  split_ifs <;> omega

/-! ## The compact protocol: writing -/

/-- The type code of a list's items. -/
def Kind.code : Kind → ℕ
  | .bool => 1
  | .i32 => 5
  | .i64 => 6
  | .binary => 8
  | .list => 9
  | .struct => 12

/-- The type code of a field, which for a boolean holds its value. -/
def Value.code : Value → ℕ
  | .bool false => 2
  | v => v.kind.code

/-- The header of a field after the field `last`. -/
def fieldHeader (last id code : ℕ) : Bytes :=
  if last < id ∧ id - last ≤ 15 then [UInt8.ofNat ((id - last) * 16 + code)]
  else UInt8.ofNat code :: varint (zigzag id)

/-- The header of a list. -/
def listHeader (kind : Kind) (n : ℕ) : Bytes :=
  if n < 15 then [UInt8.ofNat (n * 16 + kind.code)]
  else UInt8.ofNat (240 + kind.code) :: varint n

mutual

/-- The bytes of a value after its header. -/
def encodeValue : Value → Bytes
  | .bool _ => []
  | .i32 n => varint (zigzag n)
  | .i64 n => varint (zigzag n)
  | .binary bs => varint bs.length ++ bs
  | .list kind items => listHeader kind items.length ++ encodeValues items
  | .struct fields => encodeFields 0 fields

/-- The bytes of the items of a list. -/
def encodeValues : Values → Bytes
  | .nil => []
  | .cons item items => encodeValue item ++ encodeValues items

/-- The bytes of the fields after the field `last`. -/
def encodeFields : ℕ → Fields → Bytes
  | _, .nil => [0]
  | last, .cons id value rest =>
      fieldHeader last id value.code ++ (encodeValue value ++ encodeFields id rest)

end

/-! ## The compact protocol: reading -/

/-- The type of a code. -/
def kindOfCode? (code : ℕ) : Option Kind :=
  if code = 1 then some .bool else if code = 5 then some .i32 else if code = 6 then some .i64
  else if code = 8 then some .binary else if code = 9 then some .list
  else if code = 12 then some .struct else none

/-- The header of a list: type and number of its items. -/
def readListHeader : Bytes → Option (Kind × ℕ × Bytes)
  | [] => none
  | b :: bs => do
      let kind ← kindOfCode? (b.toNat % 16)
      if b.toNat / 16 < 15 then some (kind, b.toNat / 16, bs)
      else
        let (n, rest) ← readVarint bs
        some (kind, n, rest)

/-- The header of a field: its id and type code, `none` within for the end of the struct. -/
def readFieldHeader (last : ℕ) : Bytes → Option (Option (ℕ × ℕ) × Bytes)
  | [] => none
  | b :: bs =>
      if b.toNat = 0 then some (none, bs)
      else if 0 < b.toNat / 16 then some (some (last + b.toNat / 16, b.toNat % 16), bs)
      else do
        let (n, rest) ← readVarint bs
        some (some ((unzigzag n).toNat, b.toNat % 16), rest)

mutual

/-- The value of a type code at the beginning of a byte string, nested at most `fuel` deep. -/
def decodeValue : ℕ → ℕ → Bytes → Option (Value × Bytes)
  | 0, _, _ => none
  | fuel + 1, code, bs =>
      if code = 2 then some (.bool false, bs)
      else do
        match ← kindOfCode? code with
        | .bool => some (.bool true, bs)
        | .i32 =>
            let (n, rest) ← readVarint bs
            some (.i32 (unzigzag n), rest)
        | .i64 =>
            let (n, rest) ← readVarint bs
            some (.i64 (unzigzag n), rest)
        | .binary =>
            let (n, rest) ← readVarint bs
            if rest.length < n then none else some (.binary (rest.take n), rest.drop n)
        | .list =>
            let (kind, n, rest) ← readListHeader bs
            let (items, rest) ← decodeValues fuel kind n rest
            some (.list kind items, rest)
        | .struct =>
            let (fields, rest) ← decodeFields fuel 0 bs
            some (.struct fields, rest)

/-- So many items of a list. -/
def decodeValues : ℕ → Kind → ℕ → Bytes → Option (Values × Bytes)
  | 0, _, _, _ => none
  | _ + 1, _, 0, bs => some (.nil, bs)
  | fuel + 1, kind, n + 1, bs => do
      let (item, rest) ← decodeValue fuel kind.code bs
      let (items, rest) ← decodeValues fuel kind n rest
      some (.cons item items, rest)

/-- The fields after the field `last`, up to the end of the struct. -/
def decodeFields : ℕ → ℕ → Bytes → Option (Fields × Bytes)
  | 0, _, _ => none
  | fuel + 1, last, bs => do
      match ← readFieldHeader last bs with
      | (none, rest) => some (.nil, rest)
      | (some (id, code), rest) =>
          let (value, rest) ← decodeValue fuel code rest
          let (fields, rest) ← decodeFields fuel id rest
          some (.cons id value fields, rest)

end

/-! ## Round trip -/

/-- The code of a type stands for this type. -/
@[simp] theorem kindOfCode?_code (kind : Kind) : kindOfCode? kind.code = some kind := by
  cases kind <;> rfl

/-- Type codes are positive and below sixteen. -/
theorem Kind.code_bounds (kind : Kind) : 0 < kind.code ∧ kind.code < 16 := by
  cases kind <;> decide

/-- Type codes of fields are positive and below sixteen. -/
theorem Value.code_bounds (v : Value) : 0 < v.code ∧ v.code < 16 := by
  unfold Value.code
  split
  · decide
  · exact v.kind.code_bounds

/-- Outside booleans the type code of a field is that of its type. -/
theorem Value.code_eq {v : Value} (h : v.kind ≠ .bool) : v.code = v.kind.code := by
  unfold Value.code
  split
  · exact absurd rfl h
  · rfl

/-- A field header is read back. -/
theorem readFieldHeader_fieldHeader {last id code : ℕ} (hcode : 0 < code ∧ code < 16)
    (rest : Bytes) :
    readFieldHeader last (fieldHeader last id code ++ rest) = some (some (id, code), rest) := by
  unfold fieldHeader
  split
  next h =>
    have hb : (UInt8.ofNat ((id - last) * 16 + code)).toNat = (id - last) * 16 + code :=
      toNat_ofNat_of_lt (by omega)
    rw [List.singleton_append, readFieldHeader, hb, if_neg (by omega), if_pos (by omega)]
    congr 4 <;> omega
  next h =>
    have hb : (UInt8.ofNat code).toNat = code := toNat_ofNat_of_lt (by omega)
    rw [List.cons_append, readFieldHeader, hb, if_neg (by omega), if_neg (by omega),
      readVarint_varint]
    simp [unzigzag_zigzag, Nat.mod_eq_of_lt hcode.2]

/-- A list header is read back. -/
theorem readListHeader_listHeader (kind : Kind) (n : ℕ) (rest : Bytes) :
    readListHeader (listHeader kind n ++ rest) = some (kind, n, rest) := by
  have hcode := kind.code_bounds
  unfold listHeader
  split
  next h =>
    have hb : (UInt8.ofNat (n * 16 + kind.code)).toNat = n * 16 + kind.code :=
      toNat_ofNat_of_lt (by omega)
    have hmod : (n * 16 + kind.code) % 16 = kind.code := by omega
    have hdiv : (n * 16 + kind.code) / 16 = n := by omega
    simp only [List.singleton_append, readListHeader, hb, hmod, hdiv, kindOfCode?_code]
    simp [h]
  next h =>
    have hb : (UInt8.ofNat (240 + kind.code)).toNat = 240 + kind.code :=
      toNat_ofNat_of_lt (by omega)
    have hmod : (240 + kind.code) % 16 = kind.code := by omega
    have hdiv : ¬ (240 + kind.code) / 16 < 15 := by omega
    simp only [List.cons_append, readListHeader, hb, hmod, kindOfCode?_code, readVarint_varint]
    simp [hdiv]

/-- A field header takes at least one byte. -/
theorem length_fieldHeader_pos (last id code : ℕ) : 0 < (fieldHeader last id code).length := by
  unfold fieldHeader
  split <;> simp

/-- A list header takes at least one byte. -/
theorem length_listHeader_pos (kind : Kind) (n : ℕ) : 0 < (listHeader kind n).length := by
  unfold listHeader
  split <;> simp

/-- The end of a struct takes a byte. -/
theorem length_encodeFields_pos (last : ℕ) (fields : Fields) :
    0 < (encodeFields last fields).length := by
  have hheader := length_fieldHeader_pos
  cases fields with
  | nil => simp [encodeFields]
  | cons id value rest =>
      have := hheader last id value.code
      simp only [encodeFields, List.length_append]
      omega

/-- Outside booleans a value takes at least one byte. -/
theorem length_encodeValue_pos {v : Value} (h : v.kind ≠ .bool) : 0 < (encodeValue v).length := by
  cases v with
  | bool b => exact absurd rfl h
  | i32 n => exact length_varint_pos _
  | i64 n => exact length_varint_pos _
  | binary bs =>
      have := length_varint_pos bs.length
      simp only [encodeValue, List.length_append]
      omega
  | list kind items =>
      have := length_listHeader_pos kind items.length
      simp only [encodeValue, List.length_append]
      omega
  | struct fields => exact length_encodeFields_pos 0 fields

mutual

/-- A value is read back by a reader that may nest twice as deep as there are bytes. -/
theorem decodeValue_encodeValue (v : Value) (hv : v.WellFormed) (fuel : ℕ)
    (hfuel : 2 * (encodeValue v).length + 1 ≤ fuel) (rest : Bytes) :
    decodeValue fuel v.code (encodeValue v ++ rest) = some (v, rest) := by
  obtain ⟨fuel, rfl⟩ : ∃ k, fuel = k + 1 := ⟨fuel - 1, by omega⟩
  cases v with
  | bool b => cases b <;> simp [decodeValue, encodeValue, Value.code, Value.kind, Kind.code,
      kindOfCode?]
  | i32 n =>
      simp [decodeValue, encodeValue, Value.code, Value.kind, Kind.code, kindOfCode?,
        readVarint_varint, unzigzag_zigzag]
  | i64 n =>
      simp [decodeValue, encodeValue, Value.code, Value.kind, Kind.code, kindOfCode?,
        readVarint_varint, unzigzag_zigzag]
  | binary bs =>
      simp [decodeValue, encodeValue, Value.code, Value.kind, Kind.code, kindOfCode?,
        readVarint_varint, List.append_assoc]
  | list kind items =>
      obtain ⟨hkind, -, hitems⟩ := hv
      have hheader := length_listHeader_pos kind items.length
      simp only [encodeValue, List.length_append] at hfuel
      have hrec := decodeValues_encodeValues items kind hkind hitems fuel (by omega) rest
      simp [decodeValue, encodeValue, Value.code, Value.kind, Kind.code, kindOfCode?,
        readListHeader_listHeader, List.append_assoc, hrec]
  | struct fields =>
      simp only [encodeValue] at hfuel
      have hrec := decodeFields_encodeFields fields hv 0 fuel (by omega) rest
      simp [decodeValue, encodeValue, Value.code, Value.kind, Kind.code, kindOfCode?, hrec]

/-- The items of a list are read back. -/
theorem decodeValues_encodeValues (items : Values) (kind : Kind) (hkind : kind ≠ .bool)
    (hitems : items.WellFormed kind) (fuel : ℕ)
    (hfuel : 2 * (encodeValues items).length + 2 ≤ fuel) (rest : Bytes) :
    decodeValues fuel kind items.length (encodeValues items ++ rest) = some (items, rest) := by
  obtain ⟨fuel, rfl⟩ : ∃ k, fuel = k + 1 := ⟨fuel - 1, by omega⟩
  cases items with
  | nil => rfl
  | cons item items =>
      obtain ⟨rfl, hitem, hitems⟩ := hitems
      have hpos := length_encodeValue_pos hkind
      simp only [encodeValues, List.length_append] at hfuel
      have hhead := decodeValue_encodeValue item hitem fuel (by omega)
        (encodeValues items ++ rest)
      have htail := decodeValues_encodeValues items item.kind hkind hitems fuel (by omega) rest
      rw [Value.code_eq hkind] at hhead
      simp [decodeValues, encodeValues, Values.length, List.append_assoc, hhead, htail]

/-- The fields of a struct are read back. -/
theorem decodeFields_encodeFields (fields : Fields) (hfields : fields.WellFormed) (last fuel : ℕ)
    (hfuel : 2 * (encodeFields last fields).length ≤ fuel) (rest : Bytes) :
    decodeFields fuel last (encodeFields last fields ++ rest) = some (fields, rest) := by
  have hend := length_encodeFields_pos last fields
  obtain ⟨fuel, rfl⟩ : ∃ k, fuel = k + 1 := ⟨fuel - 1, by omega⟩
  cases fields with
  | nil => simp [decodeFields, encodeFields, readFieldHeader]
  | cons id value fields =>
      obtain ⟨-, -, hvalue, hfields⟩ := hfields
      have hheader := length_fieldHeader_pos last id value.code
      simp only [encodeFields, List.length_append] at hfuel
      have hhead := decodeValue_encodeValue value hvalue fuel (by omega)
        (encodeFields id fields ++ rest)
      have htail := decodeFields_encodeFields fields hfields id fuel (by omega) rest
      simp [decodeFields, encodeFields, List.append_assoc,
        readFieldHeader_fieldHeader value.code_bounds, hhead, htail]

end

/-! ## Size -/

/-- A field header takes at most four bytes. -/
theorem length_fieldHeader_le {id : ℕ} (h : id < 2 ^ 15) (last code : ℕ) :
    (fieldHeader last id code).length ≤ 4 := by
  unfold fieldHeader
  split
  · simp
  · have hz : zigzag id < 128 ^ (2 + 1) := by
      unfold zigzag
      split_ifs <;> omega
    have := length_varint_le hz
    simp only [List.length_cons]
    omega

/-- A list header takes at most six bytes. -/
theorem length_listHeader_le {n : ℕ} (h : n < 2 ^ 32) (kind : Kind) :
    (listHeader kind n).length ≤ 6 := by
  unfold listHeader
  split
  · simp
  · have := length_varint_le (k := 4) (n := n) (by omega)
    simp only [List.length_cons]
    omega

mutual

/-- A value takes no more bytes than its bound. -/
theorem length_encodeValue_le (v : Value) (hv : v.WellFormed) :
    (encodeValue v).length ≤ v.sizeBound := by
  cases v with
  | bool b => simp [encodeValue, Value.sizeBound]
  | i32 n =>
      obtain ⟨hlow, hup⟩ := hv
      refine length_varint_le (k := 4) ?_
      unfold zigzag
      split_ifs <;> omega
  | i64 n =>
      obtain ⟨hlow, hup⟩ := hv
      refine length_varint_le (k := 9) ?_
      unfold zigzag
      split_ifs <;> omega
  | binary bs =>
      have hbs : bs.length < 2 ^ 64 := hv
      have := length_varint_le (k := 9) (n := bs.length) (by omega)
      simp only [encodeValue, Value.sizeBound, List.length_append]
      omega
  | list kind items =>
      obtain ⟨-, hlen, hitems⟩ := hv
      have hheader := length_listHeader_le hlen kind
      have := length_encodeValues_le items kind hitems
      simp only [encodeValue, Value.sizeBound, List.length_append]
      omega
  | struct fields => exact length_encodeFields_le fields hv 0

/-- The items of a list take no more bytes than their bound. -/
theorem length_encodeValues_le (items : Values) (kind : Kind) (hitems : items.WellFormed kind) :
    (encodeValues items).length ≤ items.sizeBound := by
  cases items with
  | nil => simp [encodeValues, Values.sizeBound]
  | cons item items =>
      obtain ⟨-, hitem, hitems⟩ := hitems
      have hhead := length_encodeValue_le item hitem
      have htail := length_encodeValues_le items kind hitems
      simp only [encodeValues, Values.sizeBound, List.length_append]
      omega

/-- The fields of a struct take no more bytes than their bound. -/
theorem length_encodeFields_le (fields : Fields) (hfields : fields.WellFormed) (last : ℕ) :
    (encodeFields last fields).length ≤ fields.sizeBound := by
  cases fields with
  | nil => simp [encodeFields, Fields.sizeBound]
  | cons id value fields =>
      obtain ⟨-, hid, hvalue, hfields⟩ := hfields
      have hheader := length_fieldHeader_le hid last value.code
      have hhead := length_encodeValue_le value hvalue
      have htail := length_encodeFields_le fields hfields id
      simp only [encodeFields, Fields.sizeBound, List.length_append]
      omega

end

/-- **The compact protocol.** -/
def compact : Protocol where
  buffer := ⟨2 ^ 32, rfl, fun _ => "Internal buffer size overflow"⟩
  write := encodeFields 0
  read bs := decodeFields (2 * bs.length) 0 bs
  read_write s rest h _ := by
    refine decodeFields_encodeFields s h 0 _ ?_ rest
    rw [List.length_append]
    omega
  length_write_le s h := length_encodeFields_le s h 0
  write_ne_nil s h := by
    have := length_encodeFields_pos 0 s
    rw [h] at this
    simp at this

end VirParquet.Found.Thrift
