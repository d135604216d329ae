import WebAnalyticsDb.Core.Schema

/-!
# The row codec

Values, the encoder that writes a row slot by slot into a zeroed buffer, the decoder of one field and
the validator of a whole row.

The encoder resolves a symbol through a function from strings to identifiers and the decoder through
one from identifiers to strings. `RowImage` is the row seen as parts, for given values and a given
resolver; `encodeRow_image` says the encoder produces it and `RowImage.decodeValue_eq`,
`RowImage.validateRow_ok` what the readers make of it, for every pair of resolvers that invert one
another. A `float` slot holds the nearest binary32 number, so a value comes back as `Field.stored` of
what the client supplied.
-/

namespace WebAnalyticsDb

open Bytes List

/-! ### Values -/

/-- `wadb_value`. The union's numeric members share one 64-bit word, whose reading the field's type
decides. -/
structure Value where
  isNull : Bool
  /-- The signed, unsigned or binary64 member. -/
  word : UInt64
  /-- The byte-string member. -/
  bytes : Bytes
deriving DecidableEq, Repr

namespace Value

def null : Value := ⟨true, 0, []⟩
def ofNat (n : ℕ) : Value := ⟨false, UInt64.ofNat n, []⟩
def ofInt (x : ℤ) : Value := ofNat (i64Bits x)
def ofBytes (b : Bytes) : Value := ⟨false, 0, b⟩

/-- The signed member. -/
def i64 (v : Value) : ℤ := i64OfBits v.word.toNat

/-- The unsigned member. -/
def u64 (v : Value) : ℕ := v.word.toNat

end Value

/-! ### Binary floating point -/

/-- `isfinite` on the bits of a binary64 number. -/
def f64Finite (u : ℕ) : Bool := u / 2 ^ 52 % 2 ^ 11 != 2047

/-- `isfinite` on the bits of a binary32 number. -/
def f32Finite (u : ℕ) : Bool := u / 2 ^ 23 % 2 ^ 8 != 255

/-- The bits of `FLT_MAX` as a binary64 number. The bits of nonnegative numbers are ordered as the
numbers are, so comparing the bits without the sign is `fabs(x) > FLT_MAX`. -/
def fltMaxBits : ℕ := 0x47efffffe0000000

/-- Drop `k` bits, rounding to nearest and ties to even. -/
def roundShift (x k : ℕ) : ℕ :=
  if 2 * (x % 2 ^ k) > 2 ^ k ∨ (2 * (x % 2 ^ k) = 2 ^ k ∧ x / 2 ^ k % 2 = 1) then x / 2 ^ k + 1
  else x / 2 ^ k

/-- The conversion of a binary64 number to binary32. -/
def narrow (u : ℕ) : ℕ :=
  let sign := u / 2 ^ 63 % 2
  let e := u / 2 ^ 52 % 2 ^ 11
  let m := u % 2 ^ 52
  let magnitude :=
    if 897 ≤ e then roundShift ((e - 896) * 2 ^ 52 + m) 29
    else if e = 0 then roundShift m 925
    else roundShift (2 ^ 52 + m) (926 - e)
  sign * 2 ^ 31 + magnitude

/-- The exact conversion of a binary32 number to binary64. -/
def widen (u : ℕ) : ℕ :=
  let sign := u / 2 ^ 31 % 2
  let e := u / 2 ^ 23 % 2 ^ 8
  let m := u % 2 ^ 23
  let magnitude :=
    if e = 255 then 2047 * 2 ^ 52 + m * 2 ^ 29
    else if e ≠ 0 then (e + 896) * 2 ^ 52 + m * 2 ^ 29
    else if m = 0 then 0
    else (m.log2 + 874) * 2 ^ 52 + (m - 2 ^ m.log2) * 2 ^ (52 - m.log2)
  sign * 2 ^ 63 + magnitude

/-! ### Encoding -/

/-- A function from a symbol field and a string to an identifier (`wadb_symbol_encode_fn`). -/
abbrev SymbolEncode : Type := ℕ → Bytes → Except Error ℕ

/-- A function from a symbol field and an identifier to a string (`wadb_symbol_decode_fn`). -/
abbrev SymbolDecode : Type := ℕ → ℕ → Except Error Bytes

/-- The error of a value that does not fit its field. -/
def rangeError (f : Field) : Error :=
  ⟨.invalid, "value is invalid or outside the capacity of " ++ showName f.name⟩

/-- `wadb_encode_field`: the bytes written at the start of the slot. -/
def encodeField (f : Field) (v : Value) (index : ℕ) (resolve : Option SymbolEncode) :
    Except Error Bytes :=
  match f.type with
  | .i8 | .i16 | .i32 | .i64 | .timestampUs =>
    if f.width * 8 < 64 ∧ (v.i64 < -2 ^ (f.width * 8 - 1) ∨ v.i64 ≥ 2 ^ (f.width * 8 - 1)) then
      .error (rangeError f)
    else .ok (ofNatLE f.width v.word.toNat)
  | .u8 | .u16 | .u32 | .u64 | .bool =>
    if (f.width < 8 ∧ v.u64 ≥ 2 ^ (f.width * 8)) ∨ (f.type = .bool ∧ v.u64 > 1) then
      .error (rangeError f)
    else .ok (ofNatLE f.width v.word.toNat)
  | .f32 =>
    if f64Finite v.u64 = false ∨ v.u64 % 2 ^ 63 > fltMaxBits then .error (rangeError f)
    else .ok (ofNatLE f.width (narrow v.u64))
  | .f64 =>
    if f64Finite v.u64 = false then .error (rangeError f) else .ok (ofNatLE f.width v.u64)
  | .uuid | .bytes =>
    if v.bytes.length ≠ f.width then .error (rangeError f) else .ok v.bytes
  | .text =>
    if v.bytes.length > f.size ∨ utf8 v.bytes = false then .error (rangeError f)
    else .ok (ofNatLE 4 v.bytes.length ++ v.bytes)
  | .symbol32 =>
    if v.bytes.length > maxStringBytes ∨ utf8 v.bytes = false then .error (rangeError f)
    else
      match resolve with
      | none => .error ⟨.invalid, "symbol resolver required"⟩
      | some r =>
        match r index v.bytes with
        | .error e => .error e
        | .ok id =>
          if id = 0 then .error ⟨.invalid, "symbol ID zero is reserved"⟩ else .ok (ofNatLE 4 id)
  | .unknown => .error ⟨.invalid, "unknown type"⟩

/-- Set a bit of the null bitmap. -/
def setNullBit (row : Bytes) (bit : ℕ) : Bytes :=
  row.set (8 + bit / 8) (UInt8.ofNat ((row.getD (8 + bit / 8) 0).toNat ||| 2 ^ (bit % 8)))

/-- Test a bit of the null bitmap. -/
def nullBitSet (row : Bytes) (bit : ℕ) : Bool :=
  (row.getD (8 + bit / 8) 0).toNat.testBit (bit % 8)

/-- The field loop of `wadb_encode_row`, from field number `index` on. -/
def encodeFields (resolve : Option SymbolEncode) :
    ℕ → List Field → List Value → Bytes → Except Error Bytes
  | index, f :: fs, v :: vs, row =>
    if v.isNull then
      if f.nullable then encodeFields resolve (index + 1) fs vs (setNullBit row f.nullBit)
      else .error ⟨.invalid, "field " ++ showName f.name ++ " cannot be null"⟩
    else
      match encodeField f v index resolve with
      | .error e => .error e
      | .ok b => encodeFields resolve (index + 1) fs vs (blit row f.offset b)
  | _, _, _, row => .ok row

/-- `wadb_encode_row`. -/
def encodeRow (s : Schema) (values : List Value) (time : ℤ) (resolve : Option SymbolEncode) :
    Except Error Bytes :=
  encodeFields resolve 1 s.userFields values
    (blit (zeros s.rowWidth) 0 (ofNatLE 8 (i64Bits time)))

/-! ### Decoding -/

/-- The error of a slot no value encodes to. -/
def fieldError (f : Field) : Error :=
  ⟨.corrupt, "invalid encoded field " ++ showName f.name⟩

/-- The slot of a field that is not null, read as a value. -/
def decodeSlot (f : Field) (index : ℕ) (row : Bytes) (resolve : Option SymbolDecode) :
    Except Error Value :=
  let u := if f.width ≤ 8 then getLE f.width row f.offset else 0
  match f.type with
  | .i8 | .i16 | .i32 =>
    .ok (.ofInt (if u.testBit (f.width * 8 - 1) then -1 - ((2 ^ (f.width * 8) - 1) - u : ℤ) else u))
  | .i64 | .timestampUs => .ok (.ofInt (getI64 row f.offset))
  | .u8 | .u16 | .u32 | .u64 => .ok (.ofNat u)
  | .bool => if u > 1 then .error (fieldError f) else .ok (.ofNat u)
  | .f32 => if f32Finite u = false then .error (fieldError f) else .ok (.ofNat (widen u))
  | .f64 => if f64Finite u = false then .error (fieldError f) else .ok (.ofNat u)
  | .uuid | .bytes => .ok (.ofBytes (slice row f.offset f.width))
  | .text =>
    let n := getLE 4 row f.offset
    if n > f.size ∨ utf8 (slice row (f.offset + 4) n) = false then .error (fieldError f)
    else .ok (.ofBytes (slice row (f.offset + 4) n))
  | .symbol32 =>
    match resolve with
    | none => .error (fieldError f)
    | some r => if u = 0 then .error (fieldError f) else (r index u).map .ofBytes
  | .unknown => .error (fieldError f)

/-- `wadb_decode_value`. -/
def decodeValue (s : Schema) (index : ℕ) (row : Bytes) (resolve : Option SymbolDecode) :
    Except Error Value :=
  match s.fields[index]? with
  | none => .error ⟨.invalid, "invalid field or row"⟩
  | some f =>
    if f.nullable && nullBitSet row f.nullBit then .ok .null else decodeSlot f index row resolve

/-- The field loop of `wadb_validate_row`, from field number `index` on. -/
def validateFields (s : Schema) (row : Bytes) (resolve : Option SymbolDecode) :
    ℕ → List Field → Except Error Unit
  | _, [] => .ok ()
  | index, f :: fs =>
    match decodeValue s index row resolve with
    | .error e => .error e
    | .ok v =>
      let start := if v.isNull then 0 else if f.type = .text then 4 + v.bytes.length else f.width
      if isZero (slice row (f.offset + start) (f.width - start)) then
        validateFields s row resolve (index + 1) fs
      else .error ⟨.corrupt, "nonzero null/text padding"⟩

/-- Where the last slot ends. -/
def Schema.slotsEnd (s : Schema) : ℕ :=
  match s.fields.getLast? with
  | none => 0
  | some f => f.offset + f.width

/-- `wadb_validate_row`. -/
def validateRow (s : Schema) (row : Bytes) (resolve : Option SymbolDecode) : Except Error Unit :=
  match validateFields s row resolve 0 s.fields with
  | .error e => .error e
  | .ok () =>
    let nullable := s.fields.countP (·.nullable)
    if nullable % 8 ≠ 0 ∧
        (row.getD (8 + s.nullBytes - 1) 0).toNat &&& ((0xff <<< (nullable % 8)) % 256) ≠ 0 then
      .error ⟨.corrupt, "nonzero unused null bits"⟩
    else if isZero (slice row s.slotsEnd (s.rowWidth - s.slotsEnd)) then .ok ()
    else .error ⟨.corrupt, "nonzero row padding"⟩

/-! ### What one slot holds -/

/-- The value a reader gets back: numbers keep their word, byte strings their bytes, and a binary32
field holds the nearest binary32 number. -/
def Field.stored (f : Field) (v : Value) : Value :=
  if v.isNull then .null
  else match f.type with
    | .f32 => .ofNat (widen (narrow v.u64))
    | .uuid | .bytes | .text | .symbol32 => .ofBytes v.bytes
    | _ => ⟨false, v.word, []⟩

theorem roundShift_le (x k : ℕ) : roundShift x k ≤ x / 2 ^ k + 1 := by
  unfold roundShift
  split <;> omega

variable {k n bit offset stop : ℕ} {bm t x : Bytes} {fs : List Field} {vs values : List Value}
variable {bits : ℕ → Bool} {slots : List Bytes} {s : Schema} {enc' : SymbolEncode}

/-- A subnormal result, of which at least thirty bits are dropped, is small. -/
theorem roundShift_lt {x : ℕ} (hx : x < 2 ^ 53) (hk : 30 ≤ k) : roundShift x k < 255 * 2 ^ 23 := by
  have hdiv : x / 2 ^ k ≤ x / 2 ^ 30 :=
    Nat.div_le_div_left (Nat.pow_le_pow_right (by decide) hk) (by decide)
  have := roundShift_le x k
  omega

/-- A binary64 number within the binary32 range is rounded to a finite binary32 number. -/
theorem narrow_bounds {u : ℕ} (hmax : u % 2 ^ 63 ≤ fltMaxBits) :
    narrow u < 2 ^ 32 ∧ f32Finite (narrow u) = true := by
  have key : ∃ sign magnitude, narrow u = sign * 2 ^ 31 + magnitude ∧ sign < 2 ∧
      magnitude < 255 * 2 ^ 23 := by
    refine ⟨_, _, rfl, Nat.mod_lt _ (by decide), ?_⟩
    have hm : u % 2 ^ 52 < 2 ^ 52 := Nat.mod_lt _ (by decide)
    split
    next he =>
      -- a normal result: the exponent is at most that of `FLT_MAX`
      unfold fltMaxBits at hmax
      by_cases hlt : u / 2 ^ 52 % 2 ^ 11 < 1150
      · refine (roundShift_le _ _).trans_lt ?_
        omega
      · unfold roundShift
        split <;> omega
    next he =>
      split
      · exact roundShift_lt (by omega) (by decide)
      · exact roundShift_lt (by omega) (by omega)
  obtain ⟨sign, magnitude, hn, hsign, hmag⟩ := key
  rw [hn]
  refine ⟨by omega, ?_⟩
  rw [f32Finite, bne_iff_ne]
  omega

/-- Sign extension undoes truncation for numbers that fit. -/
theorem i64Bits_signExtend {w : ℕ} (hw : w = 1 ∨ w = 2 ∨ w = 4) (hn : n < 2 ^ 64)
    (hlo : ¬ i64OfBits n < -2 ^ (w * 8 - 1)) (hhi : ¬ i64OfBits n ≥ 2 ^ (w * 8 - 1)) :
    i64Bits (if (n % 256 ^ w).testBit (w * 8 - 1) then
      -1 - ((2 ^ (w * 8) - 1) - ((n % 256 ^ w : ℕ) : ℤ)) else ((n % 256 ^ w : ℕ) : ℤ)) = n := by
  rw [Nat.testBit_eq_decide_div_mod_eq]
  unfold i64OfBits int64Max at hlo hhi
  unfold i64Bits
  rcases hw with rfl | rfl | rfl <;> norm_num at hlo hhi ⊢ <;> split at hlo <;> split <;> omega

variable {f : Field} {v : Value} {index : ℕ} {enc : SymbolEncode} {dec : SymbolDecode} {c row : Bytes}

/-- **Inversion of the encoder**: what it wrote and what it checked, type by type. -/
theorem encodeField_inv (h : encodeField f v index (some enc) = .ok c) :
    match f.type with
    | .i8 | .i16 | .i32 | .i64 | .timestampUs => c = ofNatLE f.width v.word.toNat ∧
        (f.width * 8 < 64 → ¬ v.i64 < -2 ^ (f.width * 8 - 1) ∧ ¬ v.i64 ≥ 2 ^ (f.width * 8 - 1))
    | .u8 | .u16 | .u32 | .u64 => c = ofNatLE f.width v.word.toNat ∧
        (f.width < 8 → v.u64 < 2 ^ (f.width * 8))
    | .bool => c = ofNatLE f.width v.word.toNat ∧ v.u64 ≤ 1
    | .f32 => c = ofNatLE f.width (narrow v.u64) ∧ v.u64 % 2 ^ 63 ≤ fltMaxBits
    | .f64 => c = ofNatLE f.width v.u64 ∧ f64Finite v.u64 = true
    | .uuid | .bytes => c = v.bytes ∧ v.bytes.length = f.width
    | .text => c = ofNatLE 4 v.bytes.length ++ v.bytes ∧ v.bytes.length ≤ f.size ∧
        utf8 v.bytes = true
    | .symbol32 => ∃ id, enc index v.bytes = .ok id ∧ id ≠ 0 ∧ c = ofNatLE 4 id ∧
        v.bytes.length ≤ maxStringBytes ∧ utf8 v.bytes = true
    | .unknown => False := by
  unfold encodeField at h
  cases htype : f.type <;> simp only [htype] at h ⊢
  case symbol32 =>
    split at h
    · cases h
    next hfit =>
      split at h
      · cases h
      next id hid =>
        split at h
        · cases h
        next hzero =>
          cases h
          simp only [not_or, gt_iff_lt, not_lt, Bool.not_eq_false] at hfit
          exact ⟨id, hid, hzero, rfl, hfit⟩
  case unknown => cases h
  all_goals
    split at h
    · cases h
    next hfit =>
      cases h
      simp_all

/-- What is written fits the slot, and fills it unless the field is text. -/
theorem encodeField_length (hwidth : f.width = typeWidth f.type f.size)
    (h : encodeField f v index (some enc) = .ok c) :
    c.length ≤ f.width ∧ (f.type ≠ .text → c.length = f.width) ∧
      (f.type = .text → c.length = 4 + v.bytes.length) := by
  have hinv := encodeField_inv h
  cases htype : f.type <;> simp only [htype, typeWidth] at hinv hwidth
  case text =>
    obtain ⟨rfl, hsize, -⟩ := hinv
    simp
    omega
  case symbol32 =>
    obtain ⟨id, -, -, rfl, -⟩ := hinv
    simp [hwidth]
  all_goals
    obtain ⟨rfl, hlen⟩ := hinv
    simp_all

/-- A window inside a slot, read off what the slot holds. -/
theorem slice_of_slot {p : Bytes} {off width o : ℕ} {b : Bytes} (h : slice p off width = b)
    (hle : o + n ≤ width) : slice p (off + o) n = slice b o n := by
  rw [← h, slice_slice hle]

/-- **Reading back a slot**: the decoder returns the stored value, provided the identifier of a symbol
decodes to the string it was given for. -/
theorem decodeSlot_encodeField (hwidth : f.width = typeWidth f.type f.size)
    (hnull : v.isNull = false) (hsize : f.size ≤ maxRowBytes)
    (henc : encodeField f v index (some enc) = .ok c)
    (hslot : slice row f.offset f.width = c ++ zeros (f.width - c.length))
    (hinv : ∀ id, f.type = .symbol32 → enc index v.bytes = .ok id →
      id < 2 ^ 32 ∧ dec index id = .ok v.bytes) :
    decodeSlot f index row (some dec) = .ok (f.stored v) := by
  obtain ⟨hle, hfull, -⟩ := encodeField_length hwidth henc
  have hc := encodeField_inv henc
  have hword : v.word.toNat < 2 ^ 64 := v.word.toNat_lt
  -- a slot that is filled holds exactly what was written
  have hget : f.type ≠ .text → slice row f.offset f.width = c := by
    intro ht
    rw [hslot, hfull ht, Nat.sub_self]
    simp [zeros]
  unfold decodeSlot Field.stored
  rw [hnull]
  cases htype : f.type <;> simp only [htype, typeWidth] at hc hwidth hget hinv ⊢
  case text =>
    obtain ⟨rfl, hlen, hutf⟩ := hc
    have hmax : maxRowBytes = 16384 := rfl
    have hn : getLE 4 row f.offset = v.bytes.length := by
      rw [getLE, ← Nat.add_zero f.offset, slice_of_slot hslot (by omega), append_assoc,
        slice_append_head (length_ofNatLE 4 _).symm, toNatLE_ofNatLE_of_lt (by omega)]
    have hdata : slice row (f.offset + 4) v.bytes.length = v.bytes := by
      rw [slice_of_slot hslot (by omega), append_assoc, slice_append_mid (by simp) rfl]
    rw [hn, hdata, if_neg]
    · rfl
    · simp [hutf, hlen]
  case symbol32 =>
    obtain ⟨id, hid, hzero, rfl, -⟩ := hc
    obtain ⟨hlt, hdec⟩ := hinv id trivial hid
    have hu : (if f.width ≤ 8 then getLE f.width row f.offset else 0) = id := by
      rw [if_pos (by omega), getLE, hget (by decide), toNatLE_ofNatLE_of_lt (by omega)]
    rw [hu, if_neg hzero, hdec]
    rfl
  case uuid =>
    rw [hget (by decide), hc.1]
    rfl
  case bytes =>
    rw [hget (by decide), hc.1]
    rfl
  case f32 =>
    obtain ⟨rfl, hmax⟩ := hc
    obtain ⟨hlt, hfin⟩ := narrow_bounds hmax
    have hu : (if f.width ≤ 8 then getLE f.width row f.offset else 0) = narrow v.u64 := by
      rw [if_pos (by omega), getLE, hget (by decide), hwidth, toNatLE_ofNatLE_of_lt (by omega)]
    rw [hu, hfin]
    rfl
  case f64 =>
    obtain ⟨rfl, hfin⟩ := hc
    have hu : (if f.width ≤ 8 then getLE f.width row f.offset else 0) = v.u64 := by
      rw [if_pos (by omega), getLE, hget (by decide), hwidth, toNatLE_ofNatLE_of_lt (by simpa [Value.u64] using hword)]
    rw [hu, hfin]
    simp [Value.ofNat, Value.u64]
  case bool =>
    obtain ⟨rfl, hle1⟩ := hc
    have hu : (if f.width ≤ 8 then getLE f.width row f.offset else 0) = v.word.toNat := by
      unfold Value.u64 at hle1
      rw [if_pos (by omega), getLE, hget (by decide), hwidth, toNatLE_ofNatLE_of_lt (by omega)]
    rw [hu, if_neg (by unfold Value.u64 at hle1; omega)]
    simp [Value.ofNat]
  case i64 | timestampUs =>
    obtain ⟨rfl, -⟩ := hc
    have hu : getI64 row f.offset = v.i64 := by
      rw [getI64, getLE, ← hwidth, hget (by decide), hwidth, toNatLE_ofNatLE_of_lt hword]
      rfl
    rw [hu]
    have := i64Bits_i64OfBits hword
    simp [Value.ofInt, Value.ofNat, Value.i64, this]
  case u64 =>
    obtain ⟨rfl, -⟩ := hc
    have hu : (if f.width ≤ 8 then getLE f.width row f.offset else 0) = v.word.toNat := by
      rw [if_pos (by omega), getLE, hget (by decide), hwidth, toNatLE_ofNatLE_of_lt hword]
    rw [hu]
    simp [Value.ofNat]
  case u8 | u16 | u32 =>
    obtain ⟨rfl, hlt⟩ := hc
    have hlt' := hlt (by omega)
    unfold Value.u64 at hlt'
    have hu : (if f.width ≤ 8 then getLE f.width row f.offset else 0) = v.word.toNat := by
      rw [if_pos (by omega), getLE, hget (by decide), hwidth]
      rw [hwidth] at hlt'
      rw [toNatLE_ofNatLE_of_lt (by omega)]
    rw [hu]
    simp [Value.ofNat]
  case i8 | i16 | i32 =>
    obtain ⟨rfl, hrange⟩ := hc
    obtain ⟨hlo, hhi⟩ := hrange (by omega)
    have hu : (if f.width ≤ 8 then getLE f.width row f.offset else 0) = v.word.toNat % 256 ^ f.width := by
      rw [if_pos (by omega), getLE, hget (by decide), toNatLE_ofNatLE]
    rw [hu]
    have := i64Bits_signExtend (by omega) hword hlo hhi
    simp only [Value.ofInt, Value.ofNat]
    rw [this]
    simp

/-! ### The null bitmap -/

/-- Bit `j` of a bitmap. -/
def bitmapBit (bm : Bytes) (j : ℕ) : Bool :=
  (bm.getD (j / 8) 0).toNat.testBit (j % 8)

/-- Set bit `j` of a bitmap. -/
def setBitmapBit (bm : Bytes) (j : ℕ) : Bytes :=
  bm.set (j / 8) (UInt8.ofNat ((bm.getD (j / 8) 0).toNat ||| 2 ^ (j % 8)))

@[simp] theorem length_setBitmapBit (bm : Bytes) (j : ℕ) :
    (setBitmapBit bm j).length = bm.length := by
  simp [setBitmapBit]

theorem bitmapBit_zeros (n j : ℕ) : bitmapBit (zeros n) j = false := by
  have hzero : (zeros n).getD (j / 8) 0 = 0 := by
    rw [getD_eq_getElem?_getD, zeros, getElem?_replicate]
    split <;> rfl
  rw [bitmapBit, hzero]
  exact Nat.zero_testBit _

/-- Setting a bit changes that bit only. -/
theorem bitmapBit_set (hk : k < 8 * bm.length) (j : ℕ) :
    bitmapBit (setBitmapBit bm k) j = (decide (j = k) || bitmapBit bm j) := by
  have hlt : k / 8 < bm.length := by omega
  have hbyte : ((bm.getD (k / 8) 0).toNat ||| 2 ^ (k % 8)) < 2 ^ 8 :=
    Nat.or_lt_two_pow (UInt8.toNat_lt _) (Nat.pow_lt_pow_right (by decide) (Nat.mod_lt _ (by decide)))
  unfold bitmapBit setBitmapBit
  simp only [getD_eq_getElem?_getD, getElem?_set] at hbyte ⊢
  by_cases hj : k / 8 = j / 8
  · rw [if_pos hj, if_pos hlt, Option.getD_some, UInt8.toNat_ofNat', Nat.mod_eq_of_lt hbyte,
      Nat.testBit_or, Nat.testBit_two_pow, hj, Bool.or_comm]
    congr 1
    rw [decide_eq_decide]
    omega
  · rw [if_neg hj]
    have hne : j ≠ k := fun h ↦ hj (by rw [h])
    simp [hne]

theorem getD_append_mid {i : ℕ} (ht : t.length = 8) (hi : i < bm.length) :
    (t ++ (bm ++ x)).getD (8 + i) 0 = bm.getD i 0 := by
  rw [getD_eq_getElem?_getD, getElem?_append_right (by omega), ht, Nat.add_sub_cancel_left,
    getElem?_append_left hi, ← getD_eq_getElem?_getD]

/-- The bitmap follows the eight bytes of the timestamp. -/
theorem setNullBit_append (ht : t.length = 8) (hk : k < 8 * bm.length) :
    setNullBit (t ++ (bm ++ x)) k = t ++ (setBitmapBit bm k ++ x) := by
  unfold setNullBit setBitmapBit
  rw [getD_append_mid ht (by omega), set_append_right _ _ (by omega), ht,
    Nat.add_sub_cancel_left, set_append_left _ _ (by omega)]

theorem nullBitSet_append (ht : t.length = 8) (hk : k < 8 * bm.length) :
    nullBitSet (t ++ (bm ++ x)) k = bitmapBit bm k := by
  unfold nullBitSet bitmapBit
  rw [getD_append_mid ht (by omega)]

/-- The check of the unused bits passes when every bit from `n` on is clear. -/
theorem unused_bits_clear (hlen : bm.length = (n + 7) / 8) (hn : n % 8 ≠ 0)
    (hclear : ∀ j ≥ n, bitmapBit bm j = false) :
    (bm.getD (bm.length - 1) 0).toNat &&& ((0xff <<< (n % 8)) % 256) = 0 := by
  have hlast : bm.length - 1 = n / 8 := by omega
  refine Nat.eq_of_testBit_eq fun i ↦ ?_
  rw [Nat.zero_testBit, Nat.testBit_and, hlast]
  by_cases hi : i < n % 8
  · -- the mask is clear below `n % 8`
    rw [show 256 = 2 ^ 8 from rfl, Nat.testBit_mod_two_pow, Nat.testBit_shiftLeft]
    simp [Nat.not_le.2 hi]
  · by_cases h8 : i < 8
    · have hbit := hclear (8 * (n / 8) + i) (by omega)
      unfold bitmapBit at hbit
      rw [show (8 * (n / 8) + i) / 8 = n / 8 by omega, show (8 * (n / 8) + i) % 8 = i by omega] at hbit
      rw [hbit, Bool.false_and]
    · have hpow : (bm.getD (n / 8) 0).toNat < 2 ^ i :=
        (UInt8.toNat_lt _).trans_le (Nat.pow_le_pow_right (by decide) (by omega))
      rw [Nat.testBit_lt_two_pow hpow, Bool.false_and]

/-! ### Rows as parts -/

/-- The slots of the fields from number `index` on, for the given values and resolver; `bits` is the
null bitmap. -/
inductive Slots (enc : SymbolEncode) (bits : ℕ → Bool) :
    ℕ → List Field → List Value → List Bytes → Prop
  | nil (index : ℕ) : Slots enc bits index [] [] []
  | null {index : ℕ} {f : Field} {v : Value} {fs : List Field} {vs : List Value}
      {slots : List Bytes} (hv : v.isNull = true) (hf : f.nullable = true)
      (hbit : bits f.nullBit = true) (rest : Slots enc bits (index + 1) fs vs slots) :
      Slots enc bits index (f :: fs) (v :: vs) (zeros f.width :: slots)
  | value {index : ℕ} {f : Field} {v : Value} {fs : List Field} {vs : List Value}
      {slots : List Bytes} {b : Bytes} (hv : v.isNull = false)
      (hb : encodeField f v index (some enc) = .ok b)
      (hbit : f.nullable = true → bits f.nullBit = false)
      (rest : Slots enc bits (index + 1) fs vs slots) :
      Slots enc bits index (f :: fs) (v :: vs) ((b ++ zeros (f.width - b.length)) :: slots)

/-- A row made of timestamp, bitmap, slots and padding. -/
structure RowParts (s : Schema) (enc : SymbolEncode) (values : List Value) (time : ℕ) (row : Bytes)
    (bm : Bytes) (slots : List Bytes) (pad : ℕ) : Prop where
  row_eq : row = ofNatLE 8 time ++ (bm ++ (slots.flatten ++ zeros pad))
  length_bitmap : bm.length = s.nullBytes
  slots_ok : Slots enc (bitmapBit bm) 1 s.userFields values slots
  unused : ∀ j ≥ s.userFields.countP (·.nullable), bitmapBit bm j = false
  length_row : row.length = s.rowWidth

/-- **A row image**: the row of the given values, timestamp and symbol identifiers. -/
def RowImage (s : Schema) (enc : SymbolEncode) (values : List Value) (time : ℕ) (row : Bytes) :
    Prop :=
  ∃ bm slots pad, RowParts s enc values time row bm slots pad

theorem blit_append_zeros {a b : Bytes} {off : ℕ} (hoff : off = a.length) :
    blit (a ++ zeros n) off b = a ++ (b ++ zeros (n - b.length)) := by
  subst hoff
  unfold blit
  rw [take_left, drop_append, drop_eq_nil_of_le (by omega), nil_append,
    Nat.add_sub_cancel_left, zeros, drop_replicate]
  rfl

theorem zeros_add (m n : ℕ) : zeros (m + n) = zeros m ++ zeros n :=
  replicate_add ..

/-- **The encoder's loop**, from a row whose remaining slots are zero. The bits below `bit` are those
of the fields already encoded; none is set from there on. -/
theorem encodeFields_slots {enc : SymbolEncode} (ht : t.length = 8)
    {bits : ℕ} (hp : Placed offset bit fs stop bits)
    {index pad : ℕ} {done row : Bytes} (hlen : vs.length = fs.length)
    (hoff : 8 + bm.length + done.length = offset) (hbits : bits ≤ 8 * bm.length)
    (hclear : ∀ j ≥ bit, bitmapBit bm j = false)
    (h : encodeFields (some enc) index fs vs
      (t ++ (bm ++ (done ++ zeros (stop - offset + pad)))) = .ok row) :
    ∃ bm' slots, row = t ++ (bm' ++ (done ++ (slots.flatten ++ zeros pad))) ∧
      bm'.length = bm.length ∧ Slots enc (bitmapBit bm') index fs vs slots ∧
      (∀ j < bit, bitmapBit bm' j = bitmapBit bm j) ∧ ∀ j ≥ bits, bitmapBit bm' j = false := by
  induction hp generalizing vs index bm done with
  | nil offset bit =>
    rw [length_nil, length_eq_zero_iff] at hlen
    subst hlen
    rw [encodeFields] at h
    · cases h
      exact ⟨bm, [], by simp, rfl, .nil _, fun _ _ ↦ rfl, hclear⟩
    · simp
  | @cons offset bit stop bits f fs hoffset hwidth hpos hbit hrest ih =>
    obtain ⟨v, vs, rfl⟩ := exists_cons_of_length_eq_add_one hlen
    obtain ⟨hle, hbitle⟩ := hrest.le_stop
    have hsplit : stop - offset + pad = f.width + (stop - (offset + f.width) + pad) := by omega
    rw [encodeFields] at h
    split at h
    next hv =>
      split at h
      next hf =>
        rw [hf, if_pos rfl] at hbitle
        rw [hbit hf, setNullBit_append ht (by omega), hsplit, zeros_add,
          ← append_assoc done] at h
        simp only [hf, if_true] at ih
        have hset (j : ℕ) : bitmapBit (setBitmapBit bm bit) j =
            (decide (j = bit) || bitmapBit bm j) := bitmapBit_set (by omega) j
        obtain ⟨bm', slots, hrow, hbm, hslots, hkeep, hrest'⟩ := ih (by simpa using hlen)
          (by rw [length_setBitmapBit, length_append, length_zeros]; omega)
          (by rw [length_setBitmapBit]; omega)
          (fun j hj ↦ by rw [hset, hclear j (by omega)]; simp; omega) h
        refine ⟨bm', zeros f.width :: slots, by simp [hrow], by simpa using hbm,
          .null hv hf ?_ hslots, fun j hj ↦ ?_, hrest'⟩
        · rw [hbit hf, hkeep bit (by omega), hset]
          simp
        · rw [hkeep j (by omega), hset]
          simp
          omega
      next hf => cases h
    next hv =>
      split at h
      · cases h
      next b hb =>
        have hblen := (encodeField_length hwidth hb).1
        rw [← append_assoc bm, ← append_assoc t, blit_append_zeros
          (by simp only [length_append]; omega),
          show stop - offset + pad - b.length =
            (f.width - b.length) + (stop - (offset + f.width) + pad) by omega, zeros_add] at h
        have hrow' : t ++ (bm ++ done) ++ (b ++ (zeros (f.width - b.length) ++
            zeros (stop - (offset + f.width) + pad))) = t ++ (bm ++ ((done ++ (b ++
              zeros (f.width - b.length))) ++ zeros (stop - (offset + f.width) + pad))) := by
          simp only [append_assoc]
        rw [hrow'] at h
        have hmono : bit ≤ if f.nullable = true then bit + 1 else bit := by split <;> omega
        obtain ⟨bm', slots, hrow, hbm, hslots, hkeep, hrest'⟩ := ih (by simpa using hlen)
          (by simp only [length_append, length_zeros]; omega) hbits
          (fun j hj ↦ hclear j (by omega)) h
        refine ⟨bm', (b ++ zeros (f.width - b.length)) :: slots, by simp [hrow], hbm,
          .value (by simpa using hv) hb (fun hf ↦ ?_) hslots, fun j hj ↦ hkeep j (by omega), hrest'⟩
        rw [hbit hf, hkeep bit (by rw [if_pos hf]; omega), hclear bit le_rfl]

/-- The slots fill the space the layout gives them. -/
theorem Slots.length_flatten {enc : SymbolEncode} {index : ℕ} (hs : Slots enc bits index fs vs slots)
    (hp : Placed offset bit fs stop n) : offset + slots.flatten.length = stop := by
  induction hs generalizing offset bit with
  | nil => cases hp; simp
  | null _ _ _ _ ih =>
    obtain _ | ⟨-, -, -, -, hrest⟩ := hp
    have := ih hrest
    simp only [flatten_cons, length_append, length_zeros]
    omega
  | value _ hb _ _ ih =>
    obtain _ | ⟨-, hwidth, -, -, hrest⟩ := hp
    have := ih hrest
    have := (encodeField_length hwidth hb).1
    simp only [flatten_cons, length_append, length_zeros]
    omega

/-- **The encoder produces a row image.** -/
theorem encodeRow_image (hs : s.Layout) {time : ℤ} {row : Bytes}
    (hlen : values.length = s.userFields.length)
    (h : encodeRow s values time (some enc) = .ok row) :
    RowImage s enc values (i64Bits time) row := by
  obtain ⟨stop, hplaced, hwidth⟩ := hs.placed
  have hstop := hplaced.le_stop.1
  have hbitmap := hs.bitmap
  have hstart : blit (zeros s.rowWidth) 0 (ofNatLE 8 (i64Bits time)) =
      ofNatLE 8 (i64Bits time) ++ (zeros s.nullBytes ++
        ([] ++ zeros (stop - (8 + s.nullBytes) + (s.rowWidth - stop)))) := by
    have hblit : blit ([] ++ zeros s.rowWidth) 0 (ofNatLE 8 (i64Bits time)) = _ :=
      blit_append_zeros rfl
    rw [nil_append, nil_append, length_ofNatLE] at hblit
    rw [hblit, nil_append, ← zeros_add]
    congr 2
    omega
  rw [encodeRow, hstart] at h
  obtain ⟨bm, slots, hrow, hbm, hslots, -, hunused⟩ := encodeFields_slots (length_ofNatLE 8 _) hplaced
    hlen (by simp) (by rw [length_zeros]; omega) (fun j _ ↦ bitmapBit_zeros _ j) h
  rw [length_zeros] at hbm
  refine ⟨bm, slots, s.rowWidth - stop, by simpa using hrow, hbm, hslots, hunused, ?_⟩
  have hslotsLen := hslots.length_flatten hplaced
  rw [hrow]
  simp only [length_append, length_ofNatLE, length_zeros, length_nil]
  omega

/-- What the slot of one field holds. -/
def SlotHolds (enc : SymbolEncode) (bits : ℕ → Bool) (index : ℕ) (f : Field) (v : Value)
    (slot : Bytes) : Prop :=
  (v.isNull = true ∧ f.nullable = true ∧ bits f.nullBit = true ∧ slot = zeros f.width) ∨
    (v.isNull = false ∧ (f.nullable = true → bits f.nullBit = false) ∧
      ∃ b, encodeField f v index (some enc) = .ok b ∧ slot = b ++ zeros (f.width - b.length))

/-- The window of field `i` of a row holds the slot of value `i`. -/
theorem Slots.slice_eq {enc : SymbolEncode} {index : ℕ} (hs : Slots enc bits index fs vs slots)
    (hp : Placed offset bit fs stop n) {pre rest : Bytes} (hpre : pre.length = offset) {i : ℕ}
    {f : Field} (hf : fs[i]? = some f) :
    ∃ v, vs[i]? = some v ∧ f.width = typeWidth f.type f.size ∧
      (f.nullable = true → bit ≤ f.nullBit ∧ f.nullBit < n) ∧
      SlotHolds enc bits (index + i) f v
        (slice (pre ++ (slots.flatten ++ rest)) f.offset f.width) := by
  induction hs generalizing offset bit pre i with
  | nil => simp at hf
  | @null index g v fs vs slots hv hg hbit _ ih =>
    obtain _ | ⟨hoffset, hwidth, -, hgbit, hrest⟩ := hp
    cases i with
    | zero =>
      cases hf
      refine ⟨v, rfl, hwidth, fun _ ↦ ?_, .inl ⟨hv, hg, hbit, ?_⟩⟩
      · have := hrest.le_stop.2
        rw [if_pos hg] at this
        rw [hgbit hg]
        omega
      · rw [flatten_cons, append_assoc]
        exact slice_append_mid (by omega) (by simp)
    | succ i =>
      have hpre' : (pre ++ zeros g.width).length = offset + g.width := by simp [hpre]
      have := ih hrest hpre' hf
      rw [append_assoc, Nat.add_assoc, Nat.add_comm 1 i] at this
      obtain ⟨v', hv', hw, hb, hslot⟩ := this
      refine ⟨v', hv', hw, fun hn ↦ ⟨?_, (hb hn).2⟩, by simpa [append_assoc] using hslot⟩
      have := (hb hn).1
      split at this <;> omega
  | @value index g v fs vs slots b hv hb hbit _ ih =>
    obtain _ | ⟨hoffset, hwidth, -, hgbit, hrest⟩ := hp
    have hblen := (encodeField_length hwidth hb).1
    cases i with
    | zero =>
      cases hf
      refine ⟨v, rfl, hwidth, fun hn ↦ ?_, .inr ⟨hv, hbit, b, hb, ?_⟩⟩
      · have := hrest.le_stop.2
        rw [if_pos hn] at this
        rw [hgbit hn]
        omega
      · rw [flatten_cons, append_assoc]
        exact slice_append_mid (by omega) (by simp; omega)
    | succ i =>
      have hpre' : (pre ++ (b ++ zeros (g.width - b.length))).length = offset + g.width := by
        simp [hpre]
        omega
      have := ih hrest hpre' hf
      rw [append_assoc, Nat.add_assoc, Nat.add_comm 1 i] at this
      obtain ⟨v', hv', hw, hb', hslot⟩ := this
      refine ⟨v', hv', hw, fun hn ↦ ⟨?_, (hb' hn).2⟩, by simpa [append_assoc] using hslot⟩
      have := (hb' hn).1
      split at this <;> omega

/-! ### Rewriting the timestamp and the identifiers -/

/-- Only a symbol's encoding depends on the resolver. -/
theorem encodeField_congr (h : f.type ≠ .symbol32) :
    encodeField f v index (some enc') = encodeField f v index (some enc) := by
  unfold encodeField
  cases htype : f.type <;> first | rfl | exact absurd htype h

theorem encodeField_symbol {id : ℕ} (htype : f.type = .symbol32)
    (h : encodeField f v index (some enc) = .ok c) (hid : enc' index v.bytes = .ok id)
    (hzero : id ≠ 0) : encodeField f v index (some enc') = .ok (ofNatLE 4 id) := by
  have hinv := encodeField_inv h
  simp only [htype] at hinv
  obtain ⟨_, -, -, -, hlen, hutf⟩ := hinv
  unfold encodeField
  simp only [htype, hid]
  rw [if_neg (by simp [hutf, hlen]), if_neg hzero]

/-- The row with every symbol slot overwritten by the identifier `enc` gives. -/
def putSymbols (enc : SymbolEncode) : ℕ → List Field → List Value → Bytes → Bytes
  | index, f :: fs, v :: vs, row =>
    putSymbols enc (index + 1) fs vs
      (if f.type = .symbol32 ∧ v.isNull = false then
        match enc index v.bytes with
        | .ok id => blit row f.offset (ofNatLE 4 id)
        | .error _ => row
      else row)
  | _, _, _, row => row

/-- `enc` knows every symbol among the values, from field number `index` on. -/
def Knows (enc : SymbolEncode) (index : ℕ) (fs : List Field) (vs : List Value) : Prop :=
  ∀ (i : ℕ) (f : Field) (v : Value), fs[i]? = some f → vs[i]? = some v → f.type = .symbol32 →
    v.isNull = false → ∃ id, enc (index + i) v.bytes = .ok id ∧ id ≠ 0

theorem Knows.tail {index : ℕ}
    (h : Knows enc index (f :: fs) (v :: vs)) : Knows enc (index + 1) fs vs := by
  intro i g w hg hw
  rw [Nat.add_assoc, Nat.add_comm 1]
  exact h (i + 1) g w hg hw

theorem Slots.putSymbols_eq {index : ℕ} (hs : Slots enc bits index fs vs slots)
    (hp : Placed offset bit fs stop n) (hknow : Knows enc' index fs vs) {pre : Bytes}
    (hpre : pre.length = offset) (rest : Bytes) :
    ∃ slots', putSymbols enc' index fs vs (pre ++ (slots.flatten ++ rest)) =
      pre ++ (slots'.flatten ++ rest) ∧ Slots enc' bits index fs vs slots' := by
  induction hs generalizing offset bit pre with
  | nil => exact ⟨[], by simp [putSymbols], .nil _⟩
  | @null index g v fs vs slots hv hg hbit _ ih =>
    obtain _ | ⟨hoffset, -, -, -, hrest⟩ := hp
    have hpre' : (pre ++ zeros g.width).length = offset + g.width := by simp [hpre]
    obtain ⟨slots', hput, hslots⟩ := ih hrest hknow.tail hpre'
    refine ⟨zeros g.width :: slots', ?_, .null hv hg hbit hslots⟩
    rw [putSymbols, if_neg (by simp [hv])]
    simpa [append_assoc] using hput
  | @value index g v fs vs slots b hv hb hbit _ ih =>
    obtain _ | ⟨hoffset, hwidth, -, -, hrest⟩ := hp
    obtain ⟨hle, hfull, -⟩ := encodeField_length hwidth hb
    by_cases htype : g.type = .symbol32
    · obtain ⟨id, hid, hzero⟩ := hknow 0 g v rfl rfl htype hv
      have hwidth4 : g.width = 4 := by rw [hwidth, htype]; rfl
      have hb4 : b.length = 4 := by rw [hfull (by rw [htype]; decide), hwidth4]
      have hpre' : (pre ++ ofNatLE 4 id).length = offset + g.width := by simp [hpre, hwidth4]
      obtain ⟨slots', hput, hslots⟩ := ih hrest hknow.tail hpre'
      refine ⟨(ofNatLE 4 id ++ zeros (g.width - (ofNatLE 4 id).length)) :: slots', ?_,
        .value hv (encodeField_symbol htype hb hid hzero) hbit hslots⟩
      have hnone : zeros (g.width - b.length) = [] := by simp [hwidth4, hb4, zeros]
      have hnone' : zeros (g.width - (ofNatLE 4 id).length) = [] := by simp [hwidth4, zeros]
      have hblit := blit_append_mid (c := slots.flatten ++ rest) (hoffset.trans hpre.symm)
        ((length_ofNatLE 4 id).trans hb4.symm)
      rw [putSymbols, if_pos ⟨htype, hv⟩, show enc' index v.bytes = .ok id from hid, hnone, hnone',
        append_nil, append_nil, flatten_cons, flatten_cons, append_assoc,
        append_assoc]
      simp only
      rw [hblit, ← append_assoc pre, hput, append_assoc]
    · have hpre' : (pre ++ (b ++ zeros (g.width - b.length))).length = offset + g.width := by
        simp [hpre]
        omega
      obtain ⟨slots', hput, hslots⟩ := ih hrest hknow.tail hpre'
      refine ⟨(b ++ zeros (g.width - b.length)) :: slots', ?_,
        .value hv (by rw [encodeField_congr htype]; exact hb) hbit hslots⟩
      rw [putSymbols, if_neg (fun h ↦ htype h.1)]
      simpa [append_assoc] using hput

/-- **Rewriting the identifiers** of a row image gives the image for the new resolver. -/
theorem RowImage.putSymbols {time : ℕ}
    (R : RowImage s enc values time row) (hs : s.Layout) (hknow : Knows enc' 1 s.userFields values) :
    RowImage s enc' values time (putSymbols enc' 1 s.userFields values row) := by
  obtain ⟨bm, slots, pad, hrow, hbm, hslots, hunused, hlen⟩ := R
  obtain ⟨stop, hplaced, -⟩ := hs.placed
  have hpre : (ofNatLE 8 time ++ bm).length = 8 + s.nullBytes := by
    rw [length_append, length_ofNatLE, hbm]
  obtain ⟨slots', hput, hslots'⟩ := hslots.putSymbols_eq hplaced hknow hpre (zeros pad)
  rw [append_assoc, append_assoc, ← hrow] at hput
  refine ⟨bm, slots', pad, hput, hbm, hslots', hunused, ?_⟩
  have h1 := hslots.length_flatten hplaced
  have h2 := hslots'.length_flatten hplaced
  rw [hput, ← hlen, hrow]
  simp only [length_append]
  omega

/-- **Rewriting the timestamp** of a row image. -/
theorem RowImage.putTime {time : ℕ} (R : RowImage s enc values time row) (t : ℕ) :
    RowImage s enc values t (blit row 0 (ofNatLE 8 t)) := by
  obtain ⟨bm, slots, pad, rfl, hbm, hslots, hunused, hlen⟩ := R
  have hblit : blit ([] ++ (ofNatLE 8 time ++ (bm ++ (slots.flatten ++ zeros pad)))) 0
      (ofNatLE 8 t) = [] ++ (ofNatLE 8 t ++ _) := blit_append_mid rfl (by simp)
  rw [nil_append, nil_append] at hblit
  refine ⟨bm, slots, pad, hblit, hbm, hslots, hunused, ?_⟩
  rw [hblit, ← hlen]
  simp

/-! ### Reading a row image -/

@[simp] theorem Field.stored_isNull (f : Field) (v : Value) : (f.stored v).isNull = v.isNull := by
  unfold Field.stored
  cases hv : v.isNull
  · cases f.type <;> rfl
  · rfl

/-- The identifiers `enc` gives to the symbols of a row decode to those symbols. -/
def Inverts (s : Schema) (values : List Value) (enc : SymbolEncode) (dec : SymbolDecode) : Prop :=
  ∀ (i : ℕ) (f : Field) (v : Value) (id : ℕ), s.userFields[i]? = some f → values[i]? = some v →
    f.type = .symbol32 → v.isNull = false → enc (i + 1) v.bytes = .ok id →
      id < 2 ^ 32 ∧ dec (i + 1) id = .ok v.bytes

theorem isZero_slice_zeros (n off len : ℕ) : isZero (slice (zeros n) off len) = true := by
  unfold isZero slice zeros
  rw [all_eq_true]
  intro x hx
  simp [eq_of_mem_replicate (mem_of_mem_drop (mem_of_mem_take hx))]

theorem slice_length_zero (p : Bytes) (off : ℕ) : slice p off 0 = [] := by
  simp [slice]

namespace RowImage

variable {s : Schema} {values : List Value} {time : ℕ} {i : ℕ}

section

variable (R : RowImage s enc values time row)
include R

/-- The slot of user field `i`, seen in the row. -/
theorem slot (hs : s.Layout) (hf : s.userFields[i]? = some f) :
    ∃ v, values[i]? = some v ∧ f.width = typeWidth f.type f.size ∧
      SlotHolds enc (nullBitSet row) (i + 1) f v (slice row f.offset f.width) := by
  obtain ⟨bm, slots, pad, rfl, hbm, hslots, -, -⟩ := R
  obtain ⟨stop, hplaced, -⟩ := hs.placed
  have hpre : (ofNatLE 8 time ++ bm).length = 8 + s.nullBytes := by
    rw [length_append, length_ofNatLE, hbm]
  obtain ⟨v, hv, hwidth, hbit, hslot⟩ := hslots.slice_eq hplaced hpre hf
  rw [append_assoc, Nat.add_comm 1] at hslot
  have hbits : f.nullable = true →
      nullBitSet (ofNatLE 8 time ++ (bm ++ (slots.flatten ++ zeros pad))) f.nullBit =
        bitmapBit bm f.nullBit := by
    intro hn
    have := (hbit hn).2
    have := hs.bitmap
    exact nullBitSet_append (length_ofNatLE 8 time) (by omega)
  refine ⟨v, hv, hwidth, ?_⟩
  rcases hslot with ⟨hnull, hn, hset, hslot⟩ | ⟨hnull, hclear, hslot⟩
  · exact .inl ⟨hnull, hn, by rw [hbits hn, hset], hslot⟩
  · exact .inr ⟨hnull, fun hn ↦ by rw [hbits hn, hclear hn], hslot⟩

/-- **A user field reads back as the stored value.** -/
theorem decodeValue_eq (hs : s.Layout) (hinv : Inverts s values enc dec)
    (hf : s.userFields[i]? = some f) :
    ∃ v, values[i]? = some v ∧ decodeValue s (i + 1) row (some dec) = .ok (f.stored v) := by
  obtain ⟨v, hv, hwidth, hslot⟩ := R.slot hs hf
  refine ⟨v, hv, ?_⟩
  have hfield : s.fields[i + 1]? = some f := by rw [hs.time]; exact hf
  rw [decodeValue, hfield]
  rcases hslot with ⟨hnull, hn, hset, -⟩ | ⟨hnull, hclear, b, hb, hslot⟩
  · simp [hn, hset, Field.stored, hnull]
  · have hskip : (f.nullable && nullBitSet row f.nullBit) = false := by
      cases hn : f.nullable
      · rfl
      · rw [hclear hn]
        rfl
    simp only [hskip]
    exact decodeSlot_encodeField hwidth hnull (hs.sized f (mem_of_getElem? hf)) hb hslot
      fun id ht hid ↦ hinv i f v id hf hv ht hnull hid

theorem getI64_time (htime : time < 2 ^ 64) : getI64 row 0 = i64OfBits time := by
  obtain ⟨bm, slots, pad, rfl, -⟩ := R
  rw [getI64, getLE, slice_append_head (length_ofNatLE 8 time).symm, toNatLE_ofNatLE_of_lt htime]

/-- The timestamp reads back. -/
theorem decodeValue_time (hs : s.Layout) (htime : time < 2 ^ 64) (r : Option SymbolDecode) :
    decodeValue s 0 row r = .ok (.ofInt (i64OfBits time)) := by
  rw [decodeValue, hs.time]
  simp [timeField, decodeSlot, R.getI64_time htime]

/-- The padding the validator checks in a user field is zero. -/
theorem padding (hs : s.Layout) (hinv : Inverts s values enc dec)
    (hf : s.userFields[i]? = some f) {v : Value}
    (hv : decodeValue s (i + 1) row (some dec) = .ok v) :
    isZero (slice row (f.offset + if v.isNull then 0 else
        if f.type = .text then 4 + v.bytes.length else f.width)
      (f.width - if v.isNull then 0 else
        if f.type = .text then 4 + v.bytes.length else f.width)) = true := by
  obtain ⟨v', hv', hdec⟩ := R.decodeValue_eq hs hinv hf
  obtain ⟨v'', hv'', hwidth, hslot⟩ := R.slot hs hf
  rw [hv'] at hv''
  cases hv''
  rw [hdec] at hv
  cases hv
  rw [Field.stored_isNull]
  rcases hslot with ⟨hnull, -, -, hslot⟩ | ⟨hnull, -, b, hb, hslot⟩
  · rw [if_pos hnull, Nat.add_zero, Nat.sub_zero, hslot]
    exact isZero_zeros _
  · obtain ⟨hle, -, htext⟩ := encodeField_length hwidth hb
    simp only [hnull, Bool.false_eq_true, if_false]
    split
    next ht =>
      have hbytes : (f.stored v').bytes = v'.bytes := by
        simp [Field.stored, hnull, ht, Value.ofBytes]
      rw [hbytes, ← htext ht, slice_of_slot hslot (by omega), slice_append_right (by omega)]
      exact isZero_slice_zeros _ _ _
    next ht =>
      rw [Nat.sub_self, slice_length_zero]
      rfl

theorem validateFields_ok (hs : s.Layout)
    (hinv : Inverts s values enc dec) (htime : time < 2 ^ 64) :
    validateFields s row (some dec) 0 s.fields = .ok () := by
  have huser : ∀ (fs : List Field) (i : ℕ), s.userFields.drop i = fs →
      validateFields s row (some dec) (i + 1) fs = .ok () := by
    intro fs
    induction fs with
    | nil => exact fun _ _ ↦ rfl
    | cons f fs ih =>
      intro i hi
      have hf : s.userFields[i]? = some f := by
        rw [← head?_drop, hi]
        rfl
      obtain ⟨v, -, hdec⟩ := R.decodeValue_eq hs hinv hf
      rw [validateFields, hdec]
      simp only
      rw [R.padding hs hinv hf hdec, if_pos rfl]
      refine ih (i + 1) ?_
      rw [← drop_drop, hi]
      rfl
  rw [hs.time, validateFields, R.decodeValue_time hs htime]
  have hnull : (Value.ofInt (i64OfBits time)).isNull = false := rfl
  simp only [hnull, timeField, Bool.false_eq_true, if_false, reduceCtorEq, Nat.sub_self,
    slice_length_zero]
  rw [if_pos (by rfl)]
  exact huser _ 0 rfl

/-- **The validator accepts a row image.** -/
theorem validateRow_ok (hs : s.Layout) (hinv : Inverts s values enc dec) (htime : time < 2 ^ 64) :
    validateRow s row (some dec) = .ok () := by
  rw [validateRow, R.validateFields_ok hs hinv htime]
  obtain ⟨bm, slots, pad, rfl, hbm, hslots, hunused, -⟩ := R
  obtain ⟨stop, hplaced, hwidth⟩ := hs.placed
  have hnullable : s.fields.countP (·.nullable) = s.userFields.countP (·.nullable) := by
    rw [hs.time, countP_cons]
    rfl
  have hlen := hslots.length_flatten hplaced
  have hbytes := hs.bitmap
  simp only [hnullable]
  rw [if_neg, if_pos]
  · by_cases hnil : s.userFields = []
    · -- no user field: all that follows the timestamp is padding
      rw [hnil, countP_nil] at hbytes
      rw [hnil] at hslots
      cases hslots
      have hend : s.slotsEnd = 8 := by
        rw [Schema.slotsEnd, hs.time, hnil]
        rfl
      rw [hbytes, length_eq_zero_iff] at hbm
      rw [hbm, hend, slice_append_right (by simp)]
      exact isZero_slice_zeros _ _ _
    · have hend : s.slotsEnd = stop := by
        rw [Schema.slotsEnd, hs.time, getLast?_cons, getLast?_eq_some_getLast hnil]
        exact hplaced.last_end hnil
      rw [hend, ← append_assoc, ← append_assoc, append_assoc (ofNatLE 8 time),
        slice_append_right]
      · exact isZero_slice_zeros _ _ _
      · simp only [length_append, length_ofNatLE]
        omega
  · rintro ⟨hmod, hbits⟩
    refine hbits ?_
    rw [show 8 + s.nullBytes - 1 = 8 + (s.nullBytes - 1) by omega,
      getD_append_mid (length_ofNatLE 8 time) (by omega), ← hbm]
    exact unused_bits_clear (by omega) hmod hunused

end

end RowImage

end WebAnalyticsDb
