import Mathlib.Data.Nat.Digits.Lemmas
import WebAnalyticsDb.Core.Engine
import WebAnalyticsDb.Core.RowCanonical
import WebAnalyticsDb.Server.Auth
import WebAnalyticsDb.Server.Response

/-!
# Values as JSON

The cells of a result are written as JSON values, and those of a batch are read from them:
`server/json.c`. Integers of 64 bits travel as decimal texts, since a JSON number is exact for a client
only up to `2^53 - 1`; byte strings of fixed width travel as hexadecimal texts.

* **The library** keeps integers apart by how they were written: a value has been read as unsigned unless
  it is negative, whichever function it was written with (`JsonValue.reread`). Otherwise writing and
  reading gives a value back; texts have to be UTF-8 for that, and every storable text is.
* **A value is one member of a union** (`Value.active`); the others say nothing.
* **Decimal texts** (`decimalU64_eq_some_iff`): what is accepted is exactly the texts of one to twenty
  digits with a value in 64 bits, leading zeros included.
-/

namespace WebAnalyticsDb

open Bytes List

/-! ### Values of the library -/

/-- `yyjson_val`. No function here looks into arrays and objects. -/
inductive JsonValue
  | null
  | bool (b : Bool)
  | uint (n : ℕ)
  | sint (x : ℤ)
  /-- A number with a fraction or an exponent: the bits of the binary64 number. -/
  | real (bits : ℕ)
  | str (s : Bytes)
  | other
deriving DecidableEq, Repr

/-- What is read of what was written. -/
def JsonValue.reread : JsonValue → JsonValue
  | .sint x => if x < 0 then .sint x else .uint x.toNat
  | v => v

/-- The values that survive a text: numbers of the library's types, finite reals, strings of UTF-8. -/
def JsonValue.WellFormed : JsonValue → Prop
  | .uint n => n ≤ uint64Max
  | .sint x => -2 ^ 63 ≤ x ∧ x < 2 ^ 63
  | .real bits => bits < 2 ^ 64 ∧ f64Finite bits = true
  | .str s => utf8 s = true
  | .other => False
  | _ => True

/-- **The assumption on the library**: a well-formed value that is written and read again is the same
number, string or constant. -/
def Faithful (transport : JsonValue → Option JsonValue) : Prop :=
  ∀ j, j.WellFormed → transport j = some j.reread

/-- `bad`. -/
def badJson {α : Type} (message : String) : Except Error α := .error ⟨.invalid, message⟩

/-- The largest integer that JavaScript keeps exact with its neighbours. -/
def maxSafeInteger : ℕ := 9007199254740991

/-- `wadb_json_u64`. -/
def jsonU64 (v : JsonValue) : Except Error ℕ :=
  match
    match v with
    | .uint n => if n ≤ maxSafeInteger then some n else none
    | .str s => decimalU64 s
    | _ => none with
  | some n => .ok n
  | none =>
    badJson "expected a nonnegative integer; use decimal strings beyond JavaScript's exact range"

/-- The text of `wadb_json_i64`: a decimal number with or without a sign. -/
def decimalI64 (s : Bytes) : Option ℤ :=
  let negative := s.head? = some 45
  match decimalU64 (if negative then s.tail else s) with
  | none => none
  | some value =>
    if value ≤ int64Max + (if negative then 1 else 0) then some (if negative then -value else value)
    else none

/-- `wadb_json_i64`. -/
def jsonI64 (v : JsonValue) : Except Error ℤ :=
  match
    match v with
    | .uint n => if n ≤ maxSafeInteger then some (n : ℤ) else none
    | .sint x => if -(maxSafeInteger : ℤ) ≤ x ∧ x ≤ maxSafeInteger then some x else none
    | .str s => decimalI64 s
    | _ => none with
  | some x => .ok x
  | none => badJson "expected a signed integer; use decimal strings beyond JavaScript's exact range"

/-- `hex`. -/
def hexValue (b : UInt8) : Option ℕ :=
  if 48 ≤ b ∧ b ≤ 57 then some (b.toNat - 48)
  else if 97 ≤ b ∧ b ≤ 102 then some (b.toNat - 97 + 10)
  else if 65 ≤ b ∧ b ≤ 70 then some (b.toNat - 65 + 10)
  else none

/-- The loop over the digits of a byte string. -/
def hexDecode : Bytes → Option Bytes
  | [] => some []
  | [_] => none
  | h :: l :: s =>
    match hexValue h, hexValue l with
    | some hi, some lo => (hexDecode s).map (UInt8.ofNat (hi * 16 + lo) :: ·)
    | _, _ => none

/-- `yyjson_get_num`; `toReal` is the conversion of an integer to binary64. -/
def JsonValue.num? (toReal : ℤ → ℕ) : JsonValue → Option ℕ
  | .uint n => some (toReal n)
  | .sint x => some (toReal x)
  | .real bits => some bits
  | _ => none

/-- `wadb_json_value`. A member that is missing is `none`; `refused` says how the allocation of a byte
string has failed, if it has. -/
def jsonValue (toReal : ℤ → ℕ) (refused : Option Status) (f : Field) (v : Option JsonValue) :
    Except Error Value :=
  match v with
  | none | some .null =>
    if f.nullable then .ok .null else badJson "missing or null value for a required field"
  | some v =>
    match f.type with
    | .i8 | .i16 | .i32 | .i64 | .timestampUs => (jsonI64 v).map Value.ofInt
    | .u8 | .u16 | .u32 | .u64 => (jsonU64 v).map Value.ofNat
    | .bool =>
      match v with
      | .bool b => .ok (.ofNat b.toNat)
      | _ => badJson "boolean field requires true or false"
    | .f32 | .f64 =>
      match (v.num? toReal).filter f64Finite with
      | some bits => .ok (.ofNat bits)
      | none => badJson "floating field requires a finite number"
    | .text | .symbol32 =>
      match v with
      | .str s => .ok (.ofBytes s)
      | _ => badJson "text field requires a string"
    | .uuid | .bytes =>
      match v with
      | .str s =>
        if s.length ≠ f.width * 2 then
          badJson "fixed bytes require a hex string of exactly twice the byte width"
        else
          match refused with
          | some code => .error ⟨code, "binary field allocation"⟩
          | none =>
            match hexDecode s with
            | some bytes => .ok (.ofBytes bytes)
            | none => badJson "invalid hex byte string"
      | _ => badJson "fixed bytes require a hex string of exactly twice the byte width"
    | .unknown => badJson "unsupported field type"

/-- `%PRIu64`. -/
def printU64 (n : ℕ) : Bytes :=
  if n = 0 then [48] else ((Nat.digits 10 n).reverse).map fun d ↦ UInt8.ofNat (48 + d)

/-- `%PRId64`. -/
def printI64 (x : ℤ) : Bytes := if x < 0 then 45 :: printU64 x.natAbs else printU64 x.toNat

/-- `wadb_json_encode_value`, with the memory it needs. -/
def jsonEncodeValue (t : FieldType) (v : Value) : Option JsonValue :=
  if v.isNull then some .null
  else
    match t with
    | .i64 | .timestampUs => some (.str (printI64 v.i64))
    | .u64 => some (.str (printU64 v.u64))
    | .i8 | .i16 | .i32 => some (.sint v.i64)
    | .u8 | .u16 | .u32 => some (.uint v.u64)
    | .bool => some (.bool (v.u64 ≠ 0))
    | .f32 | .f64 => some (.real v.u64)
    | .text | .symbol32 => some (.str v.bytes)
    | .uuid | .bytes => some (.str (randomHex v.bytes))
    | .unknown => none

/-! ### Decimal texts -/

/-- The number a text of digits denotes. -/
def decimalValue (s : Bytes) : ℕ := Nat.ofDigits 10 (s.reverse.map fun c ↦ c.toNat - 48)

/-- Decimal digits only. -/
def IsDecimal (s : Bytes) : Prop := ∀ c ∈ s, 48 ≤ c ∧ c ≤ 57

theorem decimalValue_cons (c : UInt8) (s : Bytes) :
    decimalValue (c :: s) = (c.toNat - 48) * 10 ^ s.length + decimalValue s := by
  simp only [decimalValue, reverse_cons, map_append, Nat.ofDigits_append, map_cons,
    map_nil, Nat.ofDigits_singleton, length_map, length_reverse]
  ring

/-- The check against overflow refuses exactly the numbers that are too large. -/
theorem overflow_iff {digit value : ℕ} (h : digit ≤ 9) :
    (uint64Max - digit) / 10 < value ↔ uint64Max < value * 10 + digit := by
  unfold uint64Max
  omega

variable {n : ℕ} {s : Bytes} {x : ℤ}

/-- The loop from any value on: the digits that follow extend it, as long as there is room. -/
theorem decimalLoop_eq_some_iff {value : ℕ} (hvalue : value ≤ uint64Max) : decimalLoop value s = some n ↔
      IsDecimal s ∧ value * 10 ^ s.length + decimalValue s = n ∧ n ≤ uint64Max := by
  induction s generalizing value with
  | nil =>
    simp only [decimalLoop, IsDecimal, decimalValue, Option.some.injEq, not_mem_nil,
      length_nil, pow_zero, mul_one, reverse_nil, map_nil, Nat.ofDigits_nil, add_zero,
      false_imp_iff, implies_true, true_and]
    exact ⟨fun h ↦ ⟨h, h ▸ hvalue⟩, And.left⟩
  | cons c s ih =>
    have hcons : IsDecimal (c :: s) ↔ (48 ≤ c ∧ c ≤ 57) ∧ IsDecimal s := forall_mem_cons
    rw [decimalLoop, hcons, decimalValue_cons, length_cons]
    by_cases hc : c < 48 ∨ 57 < c
    · rw [if_pos hc]
      refine iff_of_false nofun fun h ↦ ?_
      rcases hc with hc | hc
      · exact absurd h.1.1.1 (UInt8.not_le.2 hc)
      · exact absurd h.1.1.2 (UInt8.not_le.2 hc)
    · rw [if_neg hc]
      obtain ⟨hlo, hhi⟩ : 48 ≤ c ∧ c ≤ 57 := by
        rwa [not_or, UInt8.not_lt, UInt8.not_lt] at hc
      have hdigit : c.toNat - 48 ≤ 9 := by
        have := UInt8.le_iff_toNat_le.1 hhi
        simp only [UInt8.reduceToNat] at this
        omega
      have hsum : value * 10 ^ (s.length + 1) + ((c.toNat - 48) * 10 ^ s.length + decimalValue s) =
          (value * 10 + (c.toNat - 48)) * 10 ^ s.length + decimalValue s := by ring
      rw [hsum]
      dsimp only
      by_cases hroom : (uint64Max - (c.toNat - 48)) / 10 < value
      · -- more digits only make the number larger
        rw [if_pos hroom]
        refine iff_of_false nofun fun ⟨_, hn, hle⟩ ↦ ?_
        have hbig := (overflow_iff hdigit).1 hroom
        have hgrow := Nat.le_mul_of_pos_right (value * 10 + (c.toNat - 48))
          (show 0 < 10 ^ s.length by positivity)
        omega
      · rw [if_neg hroom, ih (not_lt.1 fun h ↦ hroom ((overflow_iff hdigit).2 h))]
        simp only [hlo, hhi, and_self, true_and]

/-- **The decimal texts that are read**: one to twenty digits whose number has 64 bits. -/
theorem decimalU64_eq_some_iff : decimalU64 s = some n ↔
      s ≠ [] ∧ s.length ≤ 20 ∧ IsDecimal s ∧ decimalValue s = n ∧ n ≤ uint64Max := by
  unfold decimalU64
  by_cases h : s = [] ∨ 20 < s.length
  · rw [if_pos h]
    refine iff_of_false nofun fun ⟨hne, hlen, _⟩ ↦ ?_
    exact h.elim hne (not_lt.2 hlen)
  · rw [if_neg h, decimalLoop_eq_some_iff zero_le, zero_mul, zero_add]
    simp only [not_or, not_lt] at h
    simp only [ne_eq, h.1, h.2, not_false_eq_true, true_and]

/-! ### Texts that are written -/

theorem utf8Loop_of_ascii (h : ∀ c ∈ s, c < 128) : utf8Loop s.length s = true := by
  induction s with
  | nil => rfl
  | cons c s ih =>
    rw [forall_mem_cons] at h
    rw [length_cons, utf8Loop, if_pos h.1, ih h.2]

theorem utf8_of_isDecimal (h : IsDecimal s) : utf8 s = true :=
  utf8Loop_of_ascii fun c hc ↦ lt_of_le_of_lt (UInt8.le_iff_toNat_le.1 (h c hc).2) (by decide)

/-- A digit as a character. -/
theorem toNat_digit {d : ℕ} (h : d < 10) : (UInt8.ofNat (48 + d)).toNat = 48 + d := by
  rw [UInt8.toNat_ofNat']
  omega

theorem isDecimal_printU64 (n : ℕ) : IsDecimal (printU64 n) := by
  unfold printU64
  split
  · simp [IsDecimal]
  · intro c hc
    obtain ⟨d, hd, rfl⟩ := mem_map.1 hc
    have hlt : d < 10 := Nat.digits_lt_base (by decide) (mem_reverse.1 hd)
    rw [UInt8.le_iff_toNat_le, UInt8.le_iff_toNat_le, toNat_digit hlt]
    simp only [UInt8.reduceToNat]
    omega

theorem decimalValue_printU64 (n : ℕ) : decimalValue (printU64 n) = n := by
  unfold decimalValue printU64
  split
  next h => simp [h]
  next h =>
    have hdigits : (Nat.digits 10 n).map (fun d ↦ (UInt8.ofNat (48 + d)).toNat - 48) =
        Nat.digits 10 n := by
      refine (map_congr_left fun d hd ↦ ?_).trans (map_id _)
      rw [toNat_digit (Nat.digits_lt_base (by decide) hd), Nat.add_sub_cancel_left, id]
    rw [← map_reverse, reverse_reverse, map_map]
    exact (congrArg _ hdigits).trans (Nat.ofDigits_digits 10 n)

/-- A 64-bit number is printed as a text that is read back. -/
theorem decimalU64_printU64 (h : n ≤ uint64Max) : decimalU64 (printU64 n) = some n := by
  refine decimalU64_eq_some_iff.2 ⟨?_, ?_, isDecimal_printU64 n, decimalValue_printU64 n, h⟩
  · unfold printU64
    split
    · nofun
    next hn => simpa using Nat.digits_ne_nil_iff_ne_zero.2 hn
  · unfold printU64
    split
    · decide
    · rw [length_map, length_reverse, Nat.digits_length_le_iff (by decide)]
      unfold uint64Max at h
      omega

/-- A text of digits has no sign. -/
theorem head_printU64 (n : ℕ) : (printU64 n).head? ≠ some 45 := by
  intro h
  have := (isDecimal_printU64 n 45 (mem_of_mem_head? h)).1
  exact absurd this (by decide)

theorem decimalI64_printI64 (hlo : -2 ^ 63 ≤ x) (hhi : x < 2 ^ 63) :
    decimalI64 (printI64 x) = some x := by
  unfold printI64 decimalI64
  by_cases hx : x < 0
  · -- the least number has no positive counterpart, and the bound allows for it
    have hle : x.natAbs ≤ uint64Max := by unfold uint64Max; omega
    have hfits : x.natAbs ≤ int64Max + 1 := by unfold int64Max; omega
    simp only [if_pos hx, head?_cons, tail_cons, if_true, decimalU64_printU64 hle,
      if_pos hfits, Option.some.injEq]
    omega
  · have hle : x.toNat ≤ uint64Max := by unfold uint64Max; omega
    have hfits : x.toNat ≤ int64Max := by unfold int64Max; omega
    simp only [if_neg hx, head_printU64, if_false, decimalU64_printU64 hle, add_zero, if_pos hfits,
      Option.some.injEq]
    omega

theorem utf8_printI64 (x : ℤ) : utf8 (printI64 x) = true := by
  have hdigits (n : ℕ) : ∀ c ∈ printU64 n, c < 128 := fun c hc ↦
    lt_of_le_of_lt (UInt8.le_iff_toNat_le.1 (isDecimal_printU64 n c hc).2) (by decide)
  refine utf8Loop_of_ascii ?_
  unfold printI64
  split
  · exact forall_mem_cons.2 ⟨by decide, hdigits _⟩
  · exact hdigits _

/-- Every digit reads back as its value. -/
theorem hexValue_hexDigits : ∀ d < 16, hexValue (hexDigits.getD d 0) = some d := by decide

theorem hexDigits_ascii : ∀ d < 16, hexDigits.getD d 0 < 128 := by decide

/-- A byte is its two halves. -/
theorem byte_halves (b : UInt8) :
    b.toNat >>> 4 < 16 ∧ b.toNat &&& 15 < 16 ∧ (b.toNat >>> 4) * 16 + (b.toNat &&& 15) = b.toNat := by
  have hb := b.toNat_lt
  have hlow : b.toNat &&& 15 = b.toNat % 16 := Nat.and_two_pow_sub_one_eq_mod b.toNat 4
  rw [hlow, Nat.shiftRight_eq_div_pow]
  omega

theorem hexDecode_randomHex (bytes : Bytes) : hexDecode (randomHex bytes) = some bytes := by
  induction bytes with
  | nil => rfl
  | cons b bytes ih =>
    obtain ⟨hhigh, hlow, hb⟩ := byte_halves b
    have hcons : randomHex (b :: bytes) =
        hexDigits.getD (b.toNat >>> 4) 0 :: hexDigits.getD (b.toNat &&& 15) 0 :: randomHex bytes := rfl
    simp only [hcons, hexDecode, hexValue_hexDigits _ hhigh, hexValue_hexDigits _ hlow, ih, hb,
      Option.map_some, UInt8.ofNat_toNat]

theorem length_hexText (bytes : Bytes) : (randomHex bytes).length = bytes.length * 2 := by
  simp [randomHex, length_flatMap]

theorem utf8_randomHex (bytes : Bytes) : utf8 (randomHex bytes) = true := by
  refine utf8Loop_of_ascii fun c hc ↦ ?_
  obtain ⟨b, -, hc⟩ := mem_flatMap.1 hc
  obtain ⟨hhigh, hlow, -⟩ := byte_halves b
  rcases mem_pair.1 hc with rfl | rfl
  · exact hexDigits_ascii _ hhigh
  · exact hexDigits_ascii _ hlow

/-! ### Values -/

/-- What a value says as one of the field's type: the union has one member, the others are not there. -/
def Field.active (f : Field) (v : Value) : Value :=
  if v.isNull then .null
  else match f.type with
    | .uuid | .bytes | .text | .symbol32 => .ofBytes v.bytes
    | _ => ⟨false, v.word, []⟩

/-- **A value that the field can store.** -/
def Field.Storable (f : Field) (v : Value) : Prop :=
  if v.isNull then f.nullable = true
  else ∃ index resolve b, encodeField f v index resolve = .ok b

theorem Value.ofNat_u64 (v : Value) : Value.ofNat v.u64 = ⟨false, v.word, []⟩ := by
  rw [Value.ofNat, Value.u64, UInt64.ofNat_toNat]

theorem Value.ofInt_i64 (v : Value) : Value.ofInt v.i64 = ⟨false, v.word, []⟩ := by
  rw [Value.ofInt, Value.i64, i64Bits_i64OfBits v.word.toNat_lt]
  exact v.ofNat_u64

theorem Value.u64_le (v : Value) : v.u64 ≤ uint64Max := Nat.le_pred_of_lt v.word.toNat_lt

theorem Value.i64_bounds (v : Value) : -2 ^ 63 ≤ v.i64 ∧ v.i64 < 2 ^ 63 :=
  i64OfBits_bounds v.word.toNat_lt

theorem jsonU64_uint (h : n ≤ maxSafeInteger) : jsonU64 (.uint n) = .ok n := by
  simp only [jsonU64, if_pos h]

theorem jsonU64_text (h : n ≤ uint64Max) : jsonU64 (.str (printU64 n)) = .ok n := by
  simp only [jsonU64, decimalU64_printU64 h]

/-- A number that is not negative comes back as an unsigned one, and is the same number. -/
theorem jsonI64_sint (hlo : -(maxSafeInteger : ℤ) ≤ x) (hhi : x ≤ maxSafeInteger) :
    jsonI64 (JsonValue.sint x).reread = .ok x := by
  rw [JsonValue.reread]
  by_cases hx : x < 0
  · simp only [if_pos hx, jsonI64, if_pos (And.intro hlo hhi)]
  · have hle : x.toNat ≤ maxSafeInteger := by omega
    simp only [if_neg hx, jsonI64, if_pos hle, Int.toNat_of_nonneg (not_lt.1 hx)]

theorem jsonI64_text (hlo : -2 ^ 63 ≤ x) (hhi : x < 2 ^ 63) : jsonI64 (.str (printI64 x)) = .ok x := by
  simp only [jsonI64, decimalI64_printI64 hlo hhi]

/-- The slots of a compiled schema are as wide as their types. -/
theorem Placed.width_eq {offset bit stop bits : ℕ} {fs : List Field}
    (h : Placed offset bit fs stop bits) : ∀ f ∈ fs, f.width = typeWidth f.type f.size := by
  induction h with
  | nil => nofun
  | cons _ hwidth _ _ _ ih => exact forall_mem_cons.2 ⟨hwidth, ih⟩

theorem Schema.Layout.width_eq {s : Schema} (hs : s.Layout) :
    ∀ f ∈ s.fields, f.width = typeWidth f.type f.size := by
  obtain ⟨stop, hplaced, -⟩ := hs.placed
  rw [hs.time]
  exact forall_mem_cons.2 ⟨rfl, hplaced.width_eq⟩

/-- **One value**: a storable value is written as a well-formed one, from which it is read. -/
theorem jsonValue_jsonEncodeValue {f : Field} {v : Value} (toReal : ℤ → ℕ)
    (hwidth : f.width = typeWidth f.type f.size) (hv : f.Storable v) :
    ∃ j, jsonEncodeValue f.type v = some j ∧ j.WellFormed ∧
      jsonValue toReal none f (some j.reread) = .ok (f.active v) := by
  unfold Field.Storable at hv
  unfold jsonEncodeValue Field.active
  by_cases hnull : v.isNull = true
  · rw [if_pos hnull] at hv ⊢
    rw [if_pos hnull]
    exact ⟨.null, rfl, trivial, if_pos hv⟩
  · rw [if_neg hnull] at hv ⊢
    rw [if_neg hnull]
    obtain ⟨index, resolve, b, hb⟩ := hv
    unfold encodeField at hb
    unfold jsonValue
    obtain ⟨hlo, hhi⟩ := v.i64_bounds
    cases htype : f.type <;> simp only [htype, typeWidth] at hb hwidth ⊢
    case unknown => cases hb
    case i64 | timestampUs =>
      refine ⟨_, rfl, utf8_printI64 _, ?_⟩
      simp only [JsonValue.reread, jsonI64_text hlo hhi, Except.map, v.ofInt_i64]
    case u64 =>
      refine ⟨_, rfl, utf8_of_isDecimal (isDecimal_printU64 _), ?_⟩
      simp only [JsonValue.reread, jsonU64_text v.u64_le, Except.map, v.ofNat_u64]
    case i8 | i16 | i32 =>
      -- narrow fields stay far below the limit of exact numbers
      have hsafe : -(maxSafeInteger : ℤ) ≤ v.i64 ∧ v.i64 ≤ maxSafeInteger := by
        split at hb
        · cases hb
        next hfits =>
          rw [hwidth] at hfits
          unfold maxSafeInteger
          omega
      refine ⟨_, rfl, ⟨hlo, hhi⟩, ?_⟩
      have hread := jsonI64_sint hsafe.1 hsafe.2
      -- whichever kind of number it comes back as, it is not a null
      generalize (JsonValue.sint v.i64).reread = j at hread ⊢
      cases j with
      | null => cases hread
      | _ => simp only [hread, Except.map, v.ofInt_i64]
    case u8 | u16 | u32 =>
      have hsafe : v.u64 ≤ maxSafeInteger := by
        split at hb
        · cases hb
        next hfits =>
          rw [hwidth] at hfits
          unfold maxSafeInteger
          omega
      refine ⟨_, rfl, v.u64_le, ?_⟩
      simp only [JsonValue.reread, jsonU64_uint hsafe, Except.map, v.ofNat_u64]
    case bool =>
      split at hb
      · cases hb
      next hfits =>
      refine ⟨_, rfl, trivial, ?_⟩
      have hbit : (decide (v.u64 ≠ 0)).toNat = v.u64 := by
        have hle : ¬ v.u64 > 1 := fun h ↦ hfits (.inr ⟨trivial, h⟩)
        obtain h | h : v.u64 = 0 ∨ v.u64 = 1 := by omega
        · rw [h]; rfl
        · rw [h]; rfl
      simp only [JsonValue.reread, hbit, v.ofNat_u64]
    case f32 | f64 =>
      have hfinite : f64Finite v.u64 = true := by
        split at hb
        · cases hb
        next hfits => simp_all
      refine ⟨_, rfl, ⟨v.word.toNat_lt, hfinite⟩, ?_⟩
      simp only [JsonValue.reread, JsonValue.num?, Option.filter, hfinite, if_true, v.ofNat_u64]
    case text | symbol32 =>
      have hutf8 : utf8 v.bytes = true := by
        split at hb
        · cases hb
        next hfits => simp_all
      exact ⟨_, rfl, hutf8, rfl⟩
    case uuid | bytes =>
      split at hb
      · cases hb
      next hlen =>
      refine ⟨_, rfl, utf8_randomHex _, ?_⟩
      have hdigits : (randomHex v.bytes).length = f.width * 2 := by
        rw [length_hexText, not_not.1 hlen]
      simp only [JsonValue.reread, hdigits, hexDecode_randomHex, ne_eq, not_true_eq_false, if_false]

/-- **Values survive the wire.** With a library that keeps well-formed values, whatever a field of a
schema can store is read back as it was written; and a decimal text is accepted exactly if it has one to
twenty digits and its number has 64 bits. -/
theorem wire_round_trip {transport : JsonValue → Option JsonValue} (htransport : Faithful transport) :
    (∀ defs s, schemaBuild defs = .ok s → ∀ f ∈ s.fields, ∀ v, f.Storable v → ∀ toReal,
      ∃ j, jsonEncodeValue f.type v = some j ∧
        jsonValue toReal none f (transport j) = .ok (f.active v)) ∧
    ∀ s n, decimalU64 s = some n ↔
      s ≠ [] ∧ s.length ≤ 20 ∧ IsDecimal s ∧ decimalValue s = n ∧ n ≤ uint64Max := by
  refine ⟨fun defs s hs f hf v hv toReal ↦ ?_, fun s n ↦ decimalU64_eq_some_iff⟩
  obtain ⟨j, hwrite, hform, hread⟩ :=
    jsonValue_jsonEncodeValue toReal ((schemaBuild_layout hs).width_eq f hf) hv
  exact ⟨j, hwrite, by rw [htransport j hform, hread]⟩

/-- The least signed number, in the time field. -/
theorem wire_round_trip_least :
    ∃ j, jsonEncodeValue .timestampUs (.ofInt (-2 ^ 63)) = some j ∧
      jsonValue (fun _ ↦ 0) none timeField (some j.reread) = .ok (.ofInt (-2 ^ 63)) := by
  have htime : timeField ∈ hits.schema.fields := by
    rw [hits.layout.time]
    exact List.mem_cons_self
  have hfaithful : Faithful fun j ↦ some j.reread := fun _ _ ↦ rfl
  exact (wire_round_trip hfaithful).1 _ _ hits.built timeField htime (.ofInt (-2 ^ 63))
    ⟨0, none, _, rfl⟩ _

end WebAnalyticsDb
