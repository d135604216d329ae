import WebAnalyticsDb.Core.RowCodec
import WebAnalyticsDb.Foundation.Access

/-!
# What the row decoders read

`wadb_utf8`, `wadb_decode_value` and `wadb_validate_row` again, with the reads they make: every byte is asked
for at its address in the memory the caller has given, in the order of the code, and numbers that become
addresses are computed in the width the code computes them in. A function with the suffix `At` is undefined
as soon as one read is outside.

The memory is `p`, and a row is the address `row` in it. Where the whole row is inside, the functions are
defined and answer as those that read by offset do (`utf8At_eq`, `decodeValueAt_eq`, `validateRowAt_eq`); this
rests on the layout that compiling a schema establishes, since the offsets are those of the schema and not of
the bytes.
-/

namespace WebAnalyticsDb

open Bytes List
open Option (bind_eq_bind bind_some)

/-! ### Text -/

/-- Collect `more` continuation bytes of the text at `a`, from index `i` on. -/
def utf8ContinueAt (p : Bytes) (a : ℕ) : ℕ → ℕ → ℕ → Option (Option (ℕ × ℕ))
  | 0, cp, i => some (some (cp, i))
  | more + 1, cp, i => do
    let c ← peek p (a + i)
    if c.toNat &&& 0xc0 ≠ 0x80 then some none
    else utf8ContinueAt p a more ((cp <<< 6) ||| (c.toNat &&& 0x3f)) (u64 (i + 1))

/-- The loop of `wadb_utf8` from index `i` on. Without fuel it is undefined as well. -/
def utf8LoopAt (p : Bytes) (a n : ℕ) : ℕ → ℕ → Option Bool
  | 0, i => if i < n then none else some true
  | fuel + 1, i =>
    if i < n then do
      let c ← peek p (a + i)
      if c < 0x80 then utf8LoopAt p a n fuel (u64 (i + 1))
      else
        match utf8Lead c.toNat with
        | none => some false
        | some (more, least, cp) =>
          if more > u64Sub n (u64 (i + 1)) then some false
          else
            match ← utf8ContinueAt p a more cp (u64 (i + 1)) with
            | none => some false
            | some (cp, i) =>
              if cp < least ∨ cp > 0x10ffff ∨ (0xd800 ≤ cp ∧ cp ≤ 0xdfff) then some false
              else utf8LoopAt p a n fuel i
    else some true

/-- `wadb_utf8` of the `n` bytes at `a`. -/
def utf8At (p : Bytes) (a n : ℕ) : Option Bool := utf8LoopAt p a n n 0

section Utf8

variable {p : Bytes} {a n : ℕ}

/-- Text that ends too early has no continuation. -/
theorem utf8Continue_short {more cp : ℕ} {q : Bytes} (h : q.length < more) :
    utf8Continue more cp q = none := by
  induction q generalizing more cp with
  | nil =>
    cases more with
    | zero => exact absurd h (Nat.not_lt_zero _)
    | succ more => rfl
  | cons c q ih =>
    cases more with
    | zero => exact absurd h (Nat.not_lt_zero _)
    | succ more =>
      rw [utf8Continue]
      split
      · rfl
      · exact ih (Nat.lt_of_succ_lt_succ h)

theorem slice_eq_cons (hp : a + n ≤ p.length) {i : ℕ} (hi : i < n) : slice p (a + i) (n - i) =
    p.getD (a + i) 0 :: slice p (a + (i + 1)) (n - (i + 1)) := by
  rw [show n - i = n - (i + 1) + 1 by omega, slice_succ (by omega)]
  rfl

/-- Continuation bytes that are inside the text. -/
theorem utf8ContinueAt_eq (hn : n < 2 ^ 64) (hp : a + n ≤ p.length) (more cp : ℕ) {i : ℕ}
    (h : i + more ≤ n) :
    utf8ContinueAt p a more cp i =
      some ((utf8Continue more cp (slice p (a + i) (n - i))).map fun x ↦ (x.1, n - x.2.length)) ∧
    ∀ x ∈ utf8Continue more cp (slice p (a + i) (n - i)),
      x.2 = slice p (a + (i + more)) (n - (i + more)) := by
  induction more generalizing cp i with
  | zero =>
    have hlen : (slice p (a + i) (n - i)).length = n - i := length_slice_of_le (by omega)
    simp only [utf8ContinueAt, utf8Continue, Option.map_some, hlen, Nat.sub_sub_self (by omega : i ≤ n),
      Option.mem_def, Option.some.injEq, add_zero, true_and]
    rintro x rfl
    rfl
  | succ more ih =>
    rw [utf8ContinueAt, peek_eq (by omega), slice_eq_cons hp (by omega), utf8Continue, u64_of_lt (by omega)]
    generalize p.getD (a + i) 0 = c
    by_cases hc : c.toNat &&& 0xc0 ≠ 0x80
    · simp [hc]
    · have ih' := @ih ((cp <<< 6) ||| (c.toNat &&& 0x3f)) (i + 1) (by omega)
      rw [show i + 1 + more = i + (more + 1) by omega] at ih'
      simp only [bind_eq_bind, bind_some, if_neg hc]
      exact ih'

/-- **`wadb_utf8` reads inside the text it is given**, and comes to its end. -/
theorem utf8LoopAt_eq (hn : n < 2 ^ 64) (hp : a + n ≤ p.length) {fuel i : ℕ} (hi : i ≤ n)
    (hfuel : n - i ≤ fuel) :
    utf8LoopAt p a n fuel i = some (utf8Loop fuel (slice p (a + i) (n - i))) := by
  induction fuel generalizing i with
  | zero =>
    obtain rfl : i = n := by omega
    simp [utf8LoopAt, slice, utf8Loop]
  | succ fuel ih =>
    rw [utf8LoopAt]
    split
    swap
    next hlt =>
      obtain rfl : i = n := by omega
      simp [slice, utf8Loop]
    next hlt =>
      rw [peek_eq (by omega), slice_eq_cons hp hlt, utf8Loop, u64_of_lt (by omega), u64Sub_of_le hn (by omega)]
      generalize p.getD (a + i) 0 = c
      simp only [bind_eq_bind, bind_some]
      by_cases hc : c < 0x80
      · rw [if_pos hc, if_pos hc, ih (by omega) (by omega)]
      rw [if_neg hc, if_neg hc]
      rcases utf8Lead c.toNat with _ | ⟨more, least, cp⟩
      · rfl
      dsimp only
      by_cases hmore : more > n - (i + 1)
      · -- the code compares first; the model finds the end of the text
        rw [if_pos hmore, utf8Continue_short (by rw [length_slice]; omega)]
      rw [if_neg hmore]
      obtain ⟨hat, hrest⟩ := utf8ContinueAt_eq hn hp more cp (by omega : i + 1 + more ≤ n)
      rw [hat]
      generalize hcont : utf8Continue more cp (slice p (a + (i + 1)) (n - (i + 1))) = r at hrest
      rcases r with _ | ⟨cp', q⟩
      · rfl
      have hq : q = slice p (a + (i + 1 + more)) (n - (i + 1 + more)) := hrest (cp', q) rfl
      have hlen : n - q.length = i + 1 + more := by
        rw [hq, length_slice_of_le (by omega)]
        omega
      simp only [Option.map_some, bind_some, hlen]
      split
      · rfl
      · rw [ih (by omega) (by omega), hq]

theorem utf8At_eq (hn : n < 2 ^ 64) (hp : a + n ≤ p.length) :
    utf8At p a n = some (utf8 (slice p a n)) := by
  rw [utf8At, utf8LoopAt_eq hn hp (Nat.zero_le n) (Nat.sub_le n 0), utf8, length_slice_of_le hp]
  rfl

end Utf8

/-! ### One field -/

/-- The bytes of a slot as a number, which `wadb_decode_value` reads first if there are at most eight. -/
def slotWordAt (f : Field) (p : Bytes) (a : ℕ) : Option ℕ :=
  if f.width ≤ 8 then peekLE f.width p a else some 0

/-- The slot of a field that is not null. -/
def decodeSlotAt (f : Field) (index : ℕ) (p : Bytes) (row : ℕ) (resolve : Option SymbolDecode) :
    Option (Except Error Value) := do
  let a := row + f.offset
  let u ← slotWordAt f p a
  match f.type with
  | .i8 | .i16 | .i32 =>
    some (.ok (.ofInt (if u.testBit (f.width * 8 - 1) then -1 - ((2 ^ (f.width * 8) - 1) - u : ℤ) else u)))
  | .i64 | .timestampUs =>
    let v ← peekLE 8 p a
    some (.ok (.ofInt (i64OfBits v)))
  | .u8 | .u16 | .u32 | .u64 => some (.ok (.ofNat u))
  | .bool => some (if u > 1 then .error (fieldError f) else .ok (.ofNat u))
  | .f32 => some (if f32Finite u = false then .error (fieldError f) else .ok (.ofNat (widen u)))
  | .f64 => some (if f64Finite u = false then .error (fieldError f) else .ok (.ofNat u))
  | .uuid | .bytes =>
    -- the caller gets a pointer, and may read what it points to
    let b ← peekRange p a f.width
    some (.ok (.ofBytes b))
  | .text =>
    let n ← peekLE 4 p a
    if n > f.size then some (.error (fieldError f))
    else
      let valid ← utf8At p (a + 4) n
      if valid = false then some (.error (fieldError f))
      else
        let b ← peekRange p (a + 4) n
        some (.ok (.ofBytes b))
  | .symbol32 =>
    match resolve with
    | none => some (.error (fieldError f))
    | some r => some (if u = 0 then .error (fieldError f) else (r index u).map .ofBytes)
  | .unknown => some (.error (fieldError f))

/-- `wadb_decode_value` of the row at an address. -/
def decodeValueAt (s : Schema) (index : ℕ) (p : Bytes) (row : ℕ) (resolve : Option SymbolDecode) :
    Option (Except Error Value) :=
  match s.fields[index]? with
  | none => some (.error ⟨.invalid, "invalid field or row"⟩)
  | some f =>
    if f.nullable then do
      let b ← peek p (row + u32 (8 + f.nullBit / 8))
      if b.toNat.testBit (f.nullBit % 8) then some (.ok .null) else decodeSlotAt f index p row resolve
    else decodeSlotAt f index p row resolve

/-- **A field inside its row.** -/
structure Field.Inside (f : Field) (s : Schema) : Prop where
  width : f.width = typeWidth f.type f.size
  slot : f.offset + f.width ≤ s.rowWidth
  bit : f.nullable = true → 8 + f.nullBit / 8 < s.rowWidth

theorem Schema.Layout.inside {s : Schema} (h : s.Layout) {f : Field} (hf : f ∈ s.fields) : f.Inside s := by
  obtain ⟨stop, hplaced, hrow⟩ := h.placed
  obtain ⟨hstop, -⟩ := hplaced.le_stop
  rw [h.time] at hf
  rcases mem_cons.1 hf with rfl | hf
  · exact ⟨rfl, by simp only [timeField]; omega, nofun⟩
  · obtain ⟨hwidth, hslot, hbit⟩ := hplaced.mem hf
    refine ⟨hwidth, by omega, fun hnull ↦ ?_⟩
    have hbitmap := h.bitmap
    have hlt := hbit hnull
    omega

section Rows

variable {s : Schema} {f : Field} {p : Bytes} {row : ℕ} {resolve : Option SymbolDecode}

/-- A slot of a row that is inside the memory. -/
theorem decodeSlotAt_eq (hf : f.Inside s) (hrow : row + s.rowWidth ≤ p.length) (index : ℕ) :
    decodeSlotAt f index p row resolve =
      some (decodeSlot f index (slice p row s.rowWidth) resolve) := by
  have hslot := hf.slot
  have hwidth := hf.width
  have hget {w : ℕ} (hw : w ≤ f.width) : peekLE w p (row + f.offset) =
      some (getLE w (slice p row s.rowWidth) f.offset) := by
    rw [peekLE_eq (by omega), getLE_slice (by omega)]
  have hu : slotWordAt f p (row + f.offset) =
      some (if f.width ≤ 8 then getLE f.width (slice p row s.rowWidth) f.offset else 0) := by
    unfold slotWordAt
    split
    · exact hget le_rfl
    · rfl
  unfold decodeSlotAt decodeSlot
  simp only [hu, bind_eq_bind, bind_some]
  cases htype : f.type <;> rw [htype] at hwidth <;> simp only [typeWidth] at hwidth
  case text =>
    have hlt := getLE_lt 4 (slice p row s.rowWidth) f.offset
    simp only [hget (w := 4) (by omega), bind_some]
    by_cases hn : getLE 4 (slice p row s.rowWidth) f.offset > f.size
    · rw [if_pos hn, if_pos (.inl hn)]
    · rw [if_neg hn, utf8At_eq (by omega) (by omega), peekRange_eq (by omega), bind_some,
        bind_some, slice_slice (by omega), Nat.add_assoc]
      simp only [hn, false_or]
      split <;> rfl
  case uuid | bytes =>
    rw [peekRange_eq (by omega), bind_some, slice_slice (by omega)]
  case i64 | timestampUs =>
    rw [hget (by omega)]
    rfl
  case symbol32 => cases resolve <;> rfl

theorem decodeValueAt_eq (hs : s.Layout) (hrow : row + s.rowWidth ≤ p.length) (index : ℕ) :
    decodeValueAt s index p row resolve =
      some (decodeValue s index (slice p row s.rowWidth) resolve) := by
  unfold decodeValueAt decodeValue
  cases hf : s.fields[index]? with
  | none => rfl
  | some f =>
    have hinside := hs.inside (mem_of_getElem? hf)
    simp only [decodeSlotAt_eq hinside hrow index]
    cases hnull : f.nullable with
    | false => rfl
    | true =>
      have hbit := hinside.bit hnull
      have hmax := hs.width
      unfold maxRowBytes at hmax
      have hbyte : (slice p row s.rowWidth).getD (8 + f.nullBit / 8) 0 =
          p.getD (row + (8 + f.nullBit / 8)) 0 := by
        rw [getD_eq_getElem?_getD, getD_eq_getElem?_getD, slice, getElem?_take_of_lt hbit,
          getElem?_drop]
      rw [if_pos rfl, u32_of_lt (by omega), peek_eq (by omega), nullBitSet, hbyte]
      simp only [bind_eq_bind, bind_some, Bool.true_and]
      split <;> rfl

end Rows

/-! ### A row -/

/-- Whether `k` bytes of the row are zero, from `offset + j` on. -/
def clearAt (p : Bytes) (row offset : ℕ) : ℕ → ℕ → Option Bool
  | 0, _ => some true
  | k + 1, j => do
    let b ← peek p (row + u32 (offset + j))
    if b = 0 then clearAt p row offset k (u32 (j + 1)) else some false

/-- The field loop of `wadb_validate_row`, from field number `index` on. -/
def validateFieldsAt (s : Schema) (p : Bytes) (row : ℕ) (resolve : Option SymbolDecode) :
    ℕ → List Field → Option (Except Error Unit)
  | _, [] => some (.ok ())
  | index, f :: fs => do
    match ← decodeValueAt s index p row resolve with
    | .error e => some (.error e)
    | .ok v =>
      let start := if v.isNull then 0 else if f.type = .text then u32 (4 + v.bytes.length) else f.width
      let clear ← clearAt p row f.offset (f.width - start) start
      if clear then validateFieldsAt s p row resolve (index + 1) fs
      else some (.error ⟨.corrupt, "nonzero null/text padding"⟩)

/-- The end of a row, behind its last slot. -/
def rowPaddingAt (s : Schema) (p : Bytes) (row : ℕ) : Option (Except Error Unit) := do
  let stop := u32 s.slotsEnd
  let clear ← clearAt p row 0 (s.rowWidth - stop) stop
  if clear then some (.ok ()) else some (.error ⟨.corrupt, "nonzero row padding"⟩)

/-- `wadb_validate_row` of the row at an address. -/
def validateRowAt (s : Schema) (p : Bytes) (row : ℕ) (resolve : Option SymbolDecode) :
    Option (Except Error Unit) := do
  match ← validateFieldsAt s p row resolve 0 s.fields with
  | .error e => some (.error e)
  | .ok () =>
    let nullable := s.fields.countP (·.nullable)
    if nullable % 8 ≠ 0 then
      let b ← peek p (row + u32 (8 + s.nullBytes - 1))
      if b.toNat &&& ((0xff <<< (nullable % 8)) % 256) ≠ 0 then
        some (.error ⟨.corrupt, "nonzero unused null bits"⟩)
      else rowPaddingAt s p row
    else rowPaddingAt s p row

section Validate

variable {s : Schema} {p : Bytes} {row : ℕ} {resolve : Option SymbolDecode}

/-- Padding inside a row. -/
theorem clearAt_eq (hs : s.Layout) (hrow : row + s.rowWidth ≤ p.length) {offset k j : ℕ}
    (h : offset + j + k ≤ s.rowWidth) : clearAt p row offset k j =
      some (isZero (slice (slice p row s.rowWidth) (offset + j) k)) := by
  have hmax := hs.width
  unfold maxRowBytes at hmax
  rw [slice_slice h]
  induction k generalizing j with
  | zero => simp [clearAt, slice, isZero]
  | succ k ih =>
    rw [clearAt, u32_of_lt (by omega), u32_of_lt (by omega), peek_eq (by omega), slice_succ (by omega),
      ih (by omega)]
    generalize p.getD (row + (offset + j)) 0 = b
    by_cases hb : b = 0
    · simp [isZero, hb, Nat.add_assoc]
    · simp [isZero, hb]

/-- A text that was accepted fits its slot. -/
theorem decodeValue_text {f : Field} {index : ℕ} {q : Bytes} {v : Value} (hf : s.fields[index]? = some f)
    (htype : f.type = .text) (h : decodeValue s index q resolve = .ok v) (hnull : v.isNull = false) :
    v.bytes.length ≤ f.size := by
  unfold decodeValue at h
  rw [hf] at h
  dsimp only at h
  split at h
  · cases h
    cases hnull
  · unfold decodeSlot at h
    simp only [htype] at h
    split at h
    · cases h
    next hn =>
      cases h
      rw [not_or, not_lt] at hn
      simp only [Value.ofBytes, length_slice]
      omega

theorem validateFieldsAt_eq (hs : s.Layout) (hrow : row + s.rowWidth ≤ p.length) {fs : List Field}
    {index : ℕ} (hfs : s.fields.drop index = fs) : validateFieldsAt s p row resolve index fs =
      some (validateFields s (slice p row s.rowWidth) resolve index fs) := by
  induction fs generalizing index with
  | nil => rfl
  | cons f fs ih =>
    have hf : s.fields[index]? = some f := by
      rw [← head?_drop, hfs]
      rfl
    have hrest : s.fields.drop (index + 1) = fs := by
      rw [← tail_drop, hfs]
      rfl
    have hinside := hs.inside (mem_of_getElem? hf)
    have hslot := hinside.slot
    have hmax := hs.width
    unfold maxRowBytes at hmax
    rw [validateFieldsAt, validateFields, decodeValueAt_eq hs hrow]
    simp only [bind_eq_bind, bind_some]
    cases hv : decodeValue s index (slice p row s.rowWidth) resolve with
    | error e => rfl
    | ok v =>
      have hstart : (if v.isNull then 0 else if f.type = .text then u32 (4 + v.bytes.length)
            else f.width) =
          (if v.isNull then 0 else if f.type = .text then 4 + v.bytes.length else f.width) ∧
          (if v.isNull then 0 else if f.type = .text then 4 + v.bytes.length else f.width) ≤ f.width := by
        cases hnull : v.isNull with
        | true => exact ⟨rfl, zero_le⟩
        | false =>
          by_cases htype : f.type = .text
          · have hlen := decodeValue_text hf htype hv hnull
            have hwidth := hinside.width
            rw [htype, typeWidth] at hwidth
            simp only [htype, if_true, Bool.false_eq_true, if_false]
            exact ⟨u32_of_lt (by omega), by omega⟩
          · simp [htype]
      obtain ⟨heq, hle⟩ := hstart
      simp only [heq]
      generalize (if v.isNull then 0 else if f.type = .text then 4 + v.bytes.length else f.width) = start
        at hle ⊢
      rw [clearAt_eq hs hrow (by omega), bind_some]
      split
      · exact ih hrest
      · rfl

/-- The last slot ends in the row. -/
theorem Schema.Layout.slotsEnd_le (hs : s.Layout) : s.slotsEnd ≤ s.rowWidth := by
  unfold Schema.slotsEnd
  split
  · exact zero_le
  next f hf => exact (hs.inside (mem_of_getLast? hf)).slot

theorem validateRowAt_eq (hs : s.Layout) (hrow : row + s.rowWidth ≤ p.length) :
    validateRowAt s p row resolve = some (validateRow s (slice p row s.rowWidth) resolve) := by
  have hmax := hs.width
  have hend := hs.slotsEnd_le
  unfold maxRowBytes at hmax
  have hpadding : rowPaddingAt s p row =
      some (if isZero (slice (slice p row s.rowWidth) s.slotsEnd (s.rowWidth - s.slotsEnd)) then .ok ()
        else .error ⟨.corrupt, "nonzero row padding"⟩) := by
    unfold rowPaddingAt
    dsimp only
    rw [u32_of_lt (by omega), clearAt_eq hs hrow (by omega), zero_add]
    simp only [bind_eq_bind, bind_some]
    split <;> rfl
  unfold validateRowAt validateRow
  rw [validateFieldsAt_eq hs hrow (drop_zero ..)]
  simp only [bind_eq_bind, bind_some, hpadding]
  rcases validateFields s (slice p row s.rowWidth) resolve 0 s.fields with e | ⟨⟩
  · rfl
  dsimp only
  by_cases hbits : s.fields.countP (·.nullable) % 8 ≠ 0
  · -- there is a bitmap, since a field is nullable
    obtain ⟨stop, hplaced, hwidth⟩ := hs.placed
    have hstop := hplaced.le_stop.1
    have hbyte : (slice p row s.rowWidth).getD (8 + s.nullBytes - 1) 0 =
        p.getD (row + (8 + s.nullBytes - 1)) 0 := by
      rw [getD_eq_getElem?_getD, getD_eq_getElem?_getD, slice,
        getElem?_take_of_lt (by omega), getElem?_drop]
    rw [if_pos hbits, u32_of_lt (by omega), peek_eq (by omega), bind_some, hbyte]
    split
    next hset => exact congrArg some (if_pos ⟨hbits, hset⟩).symm
    next hset => exact congrArg some (if_neg fun h ↦ hset h.2).symm
  · rw [if_neg hbits]
    exact congrArg some (if_neg fun h ↦ hbits h.1).symm

end Validate

end WebAnalyticsDb
