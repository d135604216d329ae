import Mathlib.Data.List.Forall2
import WebAnalyticsDb.Core.RowCodec

/-!
# Rows are canonical

The converse of the row codec: a row that the validator accepts is the encoding of the values that are
decoded from it. Every byte of a row is pinned down by exactly one of the validator's checks, the
timestamp and the value slots by the decoder, text padding and null slots by the padding check, the
unused bits of the null bitmap and the end of the row by the two checks at the end.

* **The encoder produces nothing but row images, and all of them** (`encodeRow_image`,
  `RowImage.encodeRow_eq`), so both directions of the codec are about `RowImage`.
* **A dictionary is a bijection per column.** `SymbolBijection` holds both directions and what they
  promise each other; the dictionaries of the engine are instances
  (`Dictionary.Rep.symbolBijection`).
-/

namespace WebAnalyticsDb

open Bytes List

/-! ### Binary32 numbers are exact -/

theorem roundShift_exact (x k : ℕ) : roundShift (x * 2 ^ k) k = x := by
  have hpos : 0 < 2 ^ k := Nat.two_pow_pos k
  unfold roundShift
  rw [Nat.mul_mod_left, Nat.mul_div_cancel _ hpos, if_neg]
  omega

/-- The subnormal numbers, by the position of their leading bit. -/
theorem subnormal_bounds {m : ℕ} (hm : m ≠ 0) (hlt : m < 2 ^ 23) :
    m.log2 ≤ 22 ∧ 2 ^ m.log2 ≤ m ∧ m < 2 * 2 ^ m.log2 := by
  have hlog : m.log2 < 23 := (Nat.log2_lt hm).2 hlt
  refine ⟨by omega, Nat.log2_self_le hm, ?_⟩
  have := Nat.lt_log2_self (n := m)
  rwa [pow_succ, Nat.mul_comm] at this

/-- A subnormal binary32 number is a normal binary64 number with the leading bit implied. -/
theorem subnormal_eq {m : ℕ} (hm : m ≠ 0) (hlt : m < 2 ^ 23) :
    (m - 2 ^ m.log2) * 2 ^ (52 - m.log2) < 2 ^ 52 ∧
      2 ^ 52 + (m - 2 ^ m.log2) * 2 ^ (52 - m.log2) = m * 2 ^ (52 - m.log2) := by
  obtain ⟨hlog, hle, hlt'⟩ := subnormal_bounds hm hlt
  have hpow : 2 ^ m.log2 * 2 ^ (52 - m.log2) = 2 ^ 52 := by
    rw [← pow_add]
    congr 1
    omega
  constructor
  · rw [← hpow]
    exact Nat.mul_lt_mul_of_pos_right (by omega) (Nat.two_pow_pos _)
  · rw [← hpow, ← Nat.add_mul]
    congr 1
    omega

/-- **Widening and narrowing** a finite binary32 number gives it back. -/
theorem narrow_widen {u : ℕ} (hu : u < 2 ^ 32) (hfin : f32Finite u = true) :
    narrow (widen u) = u ∧ widen u < 2 ^ 64 ∧ f64Finite (widen u) = true ∧
      widen u % 2 ^ 63 ≤ fltMaxBits := by
  rw [f32Finite, bne_iff_ne] at hfin
  obtain ⟨sign, hsign⟩ : ∃ x, x = u / 2 ^ 31 % 2 := ⟨_, rfl⟩
  obtain ⟨e, he⟩ : ∃ x, x = u / 2 ^ 23 % 2 ^ 8 := ⟨_, rfl⟩
  obtain ⟨m, hm⟩ : ∃ x, x = u % 2 ^ 23 := ⟨_, rfl⟩
  have hsplit : u = sign * 2 ^ 31 + (e * 2 ^ 23 + m) := by omega
  have hmlt : m < 2 ^ 23 := by omega
  -- what is known of a widened number from its exponent and its fraction
  have hfields {E M : ℕ} (hE : E ≤ 1150) (hM : M < 2 ^ 52)
      (hw : widen u = sign * 2 ^ 63 + (E * 2 ^ 52 + M)) :
      widen u / 2 ^ 63 % 2 = sign ∧ widen u / 2 ^ 52 % 2 ^ 11 = E ∧ widen u % 2 ^ 52 = M ∧
        widen u < 2 ^ 64 ∧ f64Finite (widen u) = true ∧ widen u % 2 ^ 63 = E * 2 ^ 52 + M := by
    have hs : sign < 2 := by omega
    refine ⟨by omega, by omega, by omega, by omega, ?_, by omega⟩
    rw [f64Finite, bne_iff_ne]
    omega
  by_cases hnormal : e = 0
  · by_cases hzero : m = 0
    · have hw : widen u = sign * 2 ^ 63 + (0 * 2 ^ 52 + 0) := by
        unfold widen
        simp only [← hsign, ← he, ← hm, hnormal, hzero]
        norm_num
      obtain ⟨h1, h2, h3, h4, h5, h6⟩ := hfields (by decide) (by decide) hw
      refine ⟨?_, h4, h5, by rw [h6]; unfold fltMaxBits; omega⟩
      have hround : roundShift 0 925 = 0 := by
        have := roundShift_exact 0 925
        rwa [Nat.zero_mul] at this
      unfold narrow
      simp only [h1, h2, h3]
      rw [if_neg (by decide), if_pos trivial, hround]
      omega
    · obtain ⟨hlog, -, -⟩ := subnormal_bounds hzero hmlt
      obtain ⟨hfrac, hvalue⟩ := subnormal_eq hzero hmlt
      have hw : widen u = sign * 2 ^ 63 +
          ((m.log2 + 874) * 2 ^ 52 + (m - 2 ^ m.log2) * 2 ^ (52 - m.log2)) := by
        unfold widen
        simp only [← hsign, ← he, ← hm, hnormal]
        rw [if_neg (by decide), if_neg (by decide), if_neg hzero]
      obtain ⟨h1, h2, h3, h4, h5, h6⟩ := hfields (by omega) hfrac hw
      refine ⟨?_, h4, h5, by rw [h6]; unfold fltMaxBits; omega⟩
      unfold narrow
      simp only [h1, h2, h3]
      rw [if_neg (by omega), if_neg (by omega), hvalue,
        show 926 - (m.log2 + 874) = 52 - m.log2 by omega, roundShift_exact]
      omega
  · have hw : widen u = sign * 2 ^ 63 + ((e + 896) * 2 ^ 52 + m * 2 ^ 29) := by
      unfold widen
      simp only [← hsign, ← he, ← hm]
      rw [if_neg (by omega), if_pos hnormal]
    obtain ⟨h1, h2, h3, h4, h5, h6⟩ := hfields (by omega) (by omega) hw
    refine ⟨?_, h4, h5, by rw [h6]; unfold fltMaxBits; omega⟩
    unfold narrow
    simp only [h1, h2, h3]
    rw [if_pos (by omega),
      show (e + 896 - 896) * 2 ^ 52 + m * 2 ^ 29 = (e * 2 ^ 23 + m) * 2 ^ 29 by omega,
      roundShift_exact]
    omega

/-! ### One slot -/

/-- **A value of the field's type**: what the client supplies through the union member of the type, a
`float` as one of the finite binary32 numbers. -/
def Field.Carries (f : Field) (v : Value) : Prop :=
  v = .null ∨ match f.type with
    | .f32 => ∃ u, u < 2 ^ 32 ∧ f32Finite u = true ∧ v = .ofNat (widen u)
    | .uuid | .bytes | .text | .symbol32 => v = .ofBytes v.bytes
    | _ => v = ⟨false, v.word, []⟩

theorem Value.word_ofInt (x : ℤ) : (Value.ofInt x).word.toNat = i64Bits x := by
  simp only [Value.ofInt, Value.ofNat, UInt64.toNat_ofNat']
  exact Nat.mod_eq_of_lt (i64Bits_lt x)

variable {n : ℕ} {bits : ℕ → Bool} {fs : List Field} {slots : List Bytes} {vs : List Value}

theorem Value.u64_ofNat (h : n < 2 ^ 64) : (Value.ofNat n).u64 = n := by
  simp only [Value.u64, Value.ofNat, UInt64.toNat_ofNat']
  exact Nat.mod_eq_of_lt h

/-- Such a value is stored as it is. -/
theorem Field.Carries.stored_eq {f : Field} {v : Value} (h : f.Carries v) : f.stored v = v := by
  rcases h with rfl | h
  · rfl
  · cases htype : f.type <;> simp only [htype] at h
    case f32 =>
      obtain ⟨u, hu, hfin, rfl⟩ := h
      obtain ⟨hnarrow, hlt, -⟩ := narrow_widen hu hfin
      simp only [Field.stored, htype, Value.u64_ofNat hlt, hnarrow]
      rfl
    all_goals
      rw [h]
      simp [Field.stored, htype, Value.ofBytes]

theorem ofNatLE_mod (w n : ℕ) : ofNatLE w (n % 256 ^ w) = ofNatLE w n := by
  have h := ofNatLE_toNatLE (ofNatLE w n)
  rwa [length_ofNatLE, toNatLE_ofNatLE] at h

/-- Truncation undoes sign extension. -/
theorem signExtend_mod {w u : ℕ} (hw : w = 1 ∨ w = 2 ∨ w = 4) (hu : u < 256 ^ w) (x : ℤ)
    (hx : x = if u.testBit (w * 8 - 1) then -1 - ((2 ^ (w * 8) - 1) - (u : ℤ)) else (u : ℤ)) :
    i64Bits x % 256 ^ w = u ∧ -2 ^ (w * 8 - 1) ≤ x ∧ x < 2 ^ (w * 8 - 1) := by
  rw [Nat.testBit_eq_decide_div_mod_eq] at hx
  unfold i64Bits
  rcases hw with rfl | rfl | rfl <;> norm_num at hu hx ⊢ <;> split at hx <;> omega

variable {f : Field} {v : Value} {index : ℕ} {enc : SymbolEncode} {dec : SymbolDecode} {row : Bytes}

/-- The identifier a string was decoded from is the one it is encoded to. -/
def Encodes (enc : SymbolEncode) (dec : SymbolDecode) (index : ℕ) : Prop :=
  ∀ id b, dec index id = .ok b →
    enc index b = .ok id ∧ b.length ≤ maxStringBytes ∧ utf8 b = true

/-- **A slot that decodes is the encoding of its value.** -/
theorem encodeField_decodeSlot (hwidth : f.width = typeWidth f.type f.size)
    (hin : f.offset + f.width ≤ row.length)
    (henc : f.type = .symbol32 → Encodes enc dec index)
    (hdec : decodeSlot f index row (some dec) = .ok v)
    (hpad : f.type = .text → isZero (slice row (f.offset + (4 + v.bytes.length))
      (f.width - (4 + v.bytes.length))) = true) :
    v.isNull = false ∧ f.Carries v ∧ ∃ b, encodeField f v index (some enc) = .ok b ∧
      slice row f.offset f.width = b ++ zeros (f.width - b.length) := by
  -- a slot of full width, from the number it spells
  have hnumber {w : ℕ} (hw : f.width = w) {n : ℕ} (hn : n % 256 ^ w = getLE w row f.offset) :
      slice row f.offset w = ofNatLE w n ++ zeros (w - (ofNatLE w n).length) := by
    rw [length_ofNatLE, Nat.sub_self, ← ofNatLE_mod, hn, ofNatLE_getLE (by omega)]
    simp [zeros]
  have hlt {w : ℕ} : getLE w row f.offset % 256 ^ w = getLE w row f.offset :=
    Nat.mod_eq_of_lt (getLE_lt w row f.offset)
  have hread {w : ℕ} (hw : f.width = w) (hle : w ≤ 8) :
      (if f.width ≤ 8 then getLE f.width row f.offset else 0) = getLE w row f.offset := by
    rw [hw, if_pos hle]
  unfold decodeSlot at hdec
  unfold encodeField Field.Carries
  cases htype : f.type <;> simp only [htype, typeWidth] at hdec hwidth hpad henc ⊢
  case unknown => cases hdec
  case uuid | bytes =>
    cases hdec
    have hlen : (slice row f.offset f.width).length = f.width := length_slice_of_le hin
    refine ⟨rfl, .inr rfl, _, if_neg (not_not.2 hlen), ?_⟩
    rw [Value.ofBytes, hlen, Nat.sub_self]
    simp [zeros]
  case text =>
    split at hdec
    · cases hdec
    next hfit =>
    cases hdec
    simp only [not_or, not_lt, Bool.not_eq_false] at hfit
    obtain ⟨hle, hutf⟩ := hfit
    have hlen : (slice row (f.offset + 4) (getLE 4 row f.offset)).length = getLE 4 row f.offset :=
      length_slice_of_le (by omega)
    simp only [Value.ofBytes, hlen] at hpad ⊢
    refine ⟨trivial, .inr trivial, _, if_neg (by simp [hle, hutf]), ?_⟩
    -- length, text and padding make up the slot
    have hzero := slice_eq_zeros (by omega) (hpad trivial)
    rw [length_append, length_ofNatLE, hlen, ← hzero, append_assoc,
      show f.width = 4 + (getLE 4 row f.offset + (f.width - (4 + getLE 4 row f.offset))) by omega,
      slice_add, slice_add, ofNatLE_getLE (by omega), Nat.add_assoc f.offset]
    congr 4
    omega
  case symbol32 =>
    rw [hread hwidth (by decide)] at hdec
    rw [hwidth]
    split at hdec
    · cases hdec
    next hzero =>
    cases hb : dec index (getLE 4 row f.offset) with
    | error e =>
      rw [hb] at hdec
      cases hdec
    | ok b =>
      rw [hb] at hdec
      cases hdec
      obtain ⟨hid, hlen, hutf⟩ := henc trivial _ b hb
      refine ⟨rfl, .inr rfl, ofNatLE 4 (getLE 4 row f.offset), ?_, hnumber hwidth hlt⟩
      simp only [Value.ofBytes, hid]
      rw [if_neg (by simp [hlen, hutf]), if_neg hzero]
  case f32 =>
    rw [hread hwidth (by decide)] at hdec
    rw [hwidth]
    split at hdec
    · cases hdec
    next hfin =>
    rw [Bool.not_eq_false] at hfin
    cases hdec
    obtain ⟨hnarrow, hw, hfin', hmax⟩ := narrow_widen (getLE_lt 4 row f.offset) hfin
    refine ⟨rfl, .inr ⟨_, getLE_lt 4 row f.offset, hfin, rfl⟩, ofNatLE 4 _, ?_,
      hnumber hwidth hlt⟩
    rw [Value.u64_ofNat hw, if_neg (not_or.2 ⟨by simp [hfin'], not_lt.2 hmax⟩), hnarrow]
  case f64 =>
    rw [hread hwidth (by decide)] at hdec
    rw [hwidth]
    split at hdec
    · cases hdec
    next hfin =>
    rw [Bool.not_eq_false] at hfin
    cases hdec
    refine ⟨rfl, .inr rfl, ofNatLE 8 _, ?_, hnumber hwidth hlt⟩
    rw [Value.u64_ofNat (getLE_lt 8 row f.offset), if_neg (by simp [hfin])]
  case i64 | timestampUs =>
    cases hdec
    rw [hwidth]
    refine ⟨rfl, .inr rfl, _, if_neg (by omega), hnumber hwidth ?_⟩
    rw [Value.word_ofInt, getI64, i64Bits_i64OfBits (getLE_lt 8 row f.offset), hlt]
  case bool =>
    rw [hread hwidth (by decide)] at hdec
    rw [hwidth]
    split at hdec
    · cases hdec
    next hle =>
    cases hdec
    have hu := Value.u64_ofNat (show getLE 1 row f.offset < 2 ^ 64 by omega)
    refine ⟨rfl, .inr rfl, ofNatLE 1 _, ?_, hnumber hwidth hlt⟩
    rw [hu, if_neg (by omega)]
    exact congrArg _ (congrArg _ hu)
  case u8 | u16 | u32 | u64 =>
    have hle : f.width ≤ 8 := by omega
    have hlt8 : getLE f.width row f.offset < 2 ^ 64 :=
      (getLE_lt _ _ _).trans_le (Nat.pow_le_pow_right (by decide : 0 < 256) hle)
    rw [hread rfl hle] at hdec
    cases hdec
    have hu := Value.u64_ofNat hlt8
    refine ⟨rfl, .inr rfl, ofNatLE f.width _, ?_, hnumber rfl hlt⟩
    have hsmall : getLE f.width row f.offset < 2 ^ (f.width * 8) := by
      rw [Nat.mul_comm, pow_mul]
      exact getLE_lt _ _ _
    rw [hu, if_neg (by simp [hsmall])]
    exact congrArg _ (congrArg _ hu)
  case i8 | i16 | i32 =>
    rw [hread rfl (by omega)] at hdec
    obtain ⟨x, hx⟩ : ∃ x : ℤ, x = if (getLE f.width row f.offset).testBit (f.width * 8 - 1) then
        -1 - ((2 ^ (f.width * 8) - 1) - (getLE f.width row f.offset : ℤ)) else
        (getLE f.width row f.offset : ℤ) := ⟨_, rfl⟩
    obtain ⟨hmod, hlo, hhi⟩ := signExtend_mod (by omega) (getLE_lt f.width row f.offset) x hx
    rw [← hx] at hdec
    cases hdec
    have hi64 : (Value.ofInt x).i64 = x := by
      rw [hwidth] at hlo hhi
      rw [Value.i64, Value.word_ofInt, i64OfBits_i64Bits] <;> omega
    refine ⟨rfl, .inr rfl, ofNatLE f.width (Value.ofInt x).word.toNat, ?_, ?_⟩
    · rw [hi64, if_neg (by omega)]
    · rw [Value.word_ofInt]
      exact hnumber rfl hmod

/-! ### The bitmap -/

/-- A bitmap is determined by its bits. -/
theorem bitmap_ext {a b : Bytes} (hlen : a.length = b.length)
    (h : ∀ j, bitmapBit a j = bitmapBit b j) : a = b := by
  refine ext_getElem hlen fun i ha hb ↦ ?_
  rw [← UInt8.toNat_inj]
  refine Nat.eq_of_testBit_eq fun k ↦ ?_
  by_cases hk : k < 8
  · have hbit := h (8 * i + k)
    unfold bitmapBit at hbit
    rw [show (8 * i + k) / 8 = i by omega, show (8 * i + k) % 8 = k by omega] at hbit
    simpa [getD_eq_getElem?_getD, ha, hb] using hbit
  · have hlt (x : UInt8) : x.toNat < 2 ^ k :=
      x.toNat_lt.trans_le (Nat.pow_le_pow_right (by decide) (by omega))
    rw [Nat.testBit_lt_two_pow (hlt _), Nat.testBit_lt_two_pow (hlt _)]

/-- The check of the unused bits passes only when every bit from `n` on is clear. -/
theorem bitmapBit_of_unused {bm : Bytes} (hlen : bm.length = (n + 7) / 8)
    (h : n % 8 ≠ 0 → (bm.getD (bm.length - 1) 0).toNat &&& ((0xff <<< (n % 8)) % 256) = 0) {j : ℕ}
    (hj : n ≤ j) : bitmapBit bm j = false := by
  unfold bitmapBit
  by_cases hin : j / 8 < bm.length
  · -- the bit is in the last byte, under the mask
    have hmod : n % 8 ≠ 0 := by omega
    have hbit := congrArg (·.testBit (j % 8)) (h hmod)
    simp only [Nat.testBit_and, Nat.zero_testBit] at hbit
    rw [show 256 = 2 ^ 8 from rfl, Nat.testBit_mod_two_pow, Nat.testBit_shiftLeft,
      show bm.length - 1 = j / 8 by omega] at hbit
    have hmask : Nat.testBit 255 (j % 8 - n % 8) = true := by
      rw [show 255 = 2 ^ 8 - 1 from rfl, Nat.testBit_two_pow_sub_one, decide_eq_true_iff]
      omega
    simpa [hmask, show n % 8 ≤ j % 8 by omega, show j % 8 < 8 by omega] using hbit
  · rw [getD_eq_getElem?_getD, getElem?_eq_none (by omega)]
    exact Nat.zero_testBit _

/-! ### Whole rows -/

variable {s : Schema} {values : List Value}

/-- The loop succeeds on values whose slots exist. -/
theorem Slots.encodeFields_ok (h : Slots enc bits index fs vs slots) (row : Bytes) :
    ∃ row', encodeFields (some enc) index fs vs row = .ok row' := by
  induction h generalizing row with
  | nil => exact ⟨row, rfl⟩
  | null hv hf _ _ ih =>
    obtain ⟨row', hrow'⟩ := ih (setNullBit row _)
    refine ⟨row', ?_⟩
    rw [encodeFields, if_pos hv, if_pos hf, hrow']
  | value hv hb _ _ ih =>
    obtain ⟨row', hrow'⟩ := ih (blit row _ _)
    refine ⟨row', ?_⟩
    rw [encodeFields, if_neg (by simp [hv]), hb]
    exact hrow'

theorem Slots.length_eq (h : Slots enc bits index fs vs slots) : vs.length = fs.length := by
  induction h with
  | nil => rfl
  | null _ _ _ _ ih | value _ _ _ _ ih => simp [ih]

/-- The values determine the slots and the bits of their fields. -/
theorem Slots.unique {bits' : ℕ → Bool}
    {slots' : List Bytes} {offset bit stop : ℕ} (h : Slots enc bits index fs vs slots)
    (h' : Slots enc bits' index fs vs slots') (hp : Placed offset bit fs stop n) :
    slots = slots' ∧ ∀ j, bit ≤ j → j < n → bits j = bits' j := by
  induction h generalizing slots' offset bit with
  | nil =>
    cases h'
    cases hp
    exact ⟨rfl, fun j hle hlt ↦ by omega⟩
  | @null index f v fs vs slots hv hf hbit _ ih =>
    obtain _ | ⟨-, -, -, hfbit, hrest⟩ := hp
    obtain _ | ⟨-, -, hbit', rest'⟩ | ⟨hv', -, -, -⟩ := h'
    · obtain ⟨rfl, hbits⟩ := ih rest' hrest
      refine ⟨rfl, fun j hle hlt ↦ ?_⟩
      rw [if_pos hf] at hbits
      rcases hle.eq_or_lt with rfl | hlt'
      · rw [← hfbit hf, hbit, hbit']
      · exact hbits j hlt' hlt
    · rw [hv] at hv'
      cases hv'
  | @value index f v fs vs slots b hv hb hbit _ ih =>
    obtain _ | ⟨-, -, -, hfbit, hrest⟩ := hp
    obtain _ | ⟨hv', -, -, -⟩ | ⟨-, hb', hbit', rest'⟩ := h'
    · rw [hv] at hv'
      cases hv'
    · obtain ⟨rfl, hbits⟩ := ih rest' hrest
      rw [hb] at hb'
      cases hb'
      refine ⟨rfl, fun j hle hlt ↦ ?_⟩
      by_cases hf : f.nullable = true
      · rw [if_pos hf] at hbits
        rcases hle.eq_or_lt with rfl | hlt'
        · rw [← hfbit hf, hbit hf, hbit' hf]
        · exact hbits j hlt' hlt
      · rw [if_neg hf] at hbits
        exact hbits j hle hlt

/-- **A row image is what the encoder writes.** -/
theorem RowImage.encodeRow_eq {time : ℤ} (R : RowImage s enc values (i64Bits time) row)
    (hs : s.Layout) : encodeRow s values time (some enc) = .ok row := by
  obtain ⟨bm, slots, pad, hrow, hbm, hslots, hunused, hlen⟩ := R
  obtain ⟨stop, hplaced, -⟩ := hs.placed
  obtain ⟨row', hrow'⟩ := hslots.encodeFields_ok
    (blit (zeros s.rowWidth) 0 (ofNatLE 8 (i64Bits time)))
  obtain ⟨bm', slots', pad', hrow₁, hbm', hslots', hunused', hlen'⟩ :=
    encodeRow_image hs hslots.length_eq hrow'
  obtain ⟨rfl, hbits⟩ := hslots.unique hslots' hplaced
  -- equal bits below the count of nullable fields, clear bits above
  obtain rfl : bm = bm' := by
    refine bitmap_ext (hbm.trans hbm'.symm) fun j ↦ ?_
    by_cases hj : j < s.userFields.countP (·.nullable)
    · exact hbits j (Nat.zero_le _) hj
    · rw [hunused j (by omega), hunused' j (by omega)]
  obtain rfl : pad = pad' := by
    rw [hrow] at hlen
    rw [hrow₁] at hlen'
    simp only [length_append, length_zeros] at hlen hlen'
    omega
  rw [encodeRow, hrow', hrow, hrow₁]

/-- Where the unused bytes of a slot start. -/
def Field.used (f : Field) (v : Value) : ℕ :=
  if v.isNull then 0 else if f.type = .text then 4 + v.bytes.length else f.width

/-- One step of the validator's loop. -/
theorem validateFields_cons (h : validateFields s row (some dec) index (f :: fs) = .ok ()) :
    ∃ v, decodeValue s index row (some dec) = .ok v ∧
      isZero (slice row (f.offset + f.used v) (f.width - f.used v)) = true ∧
      validateFields s row (some dec) (index + 1) fs = .ok () := by
  rw [validateFields] at h
  split at h
  · cases h
  next v hv =>
    refine ⟨v, hv, ?_⟩
    change (if isZero (slice row (f.offset + f.used v) (f.width - f.used v)) = true then _ else _) = _
      at h
    split at h
    next hzero => exact ⟨hzero, h⟩
    · cases h

/-- **The validator's loop**: the windows of the fields are the slots of the decoded values. -/
theorem validateFields_slots {t bm x : Bytes} (ht : t.length = 8) (hrow : row = t ++ (bm ++ x))
    {offset bit stop bits : ℕ} (hp : Placed offset bit fs stop bits)
    (hfields : ∀ i f, fs[i]? = some f → s.fields[index + i]? = some f)
    (hbits : bits ≤ 8 * bm.length) (hin : stop ≤ row.length)
    (henc : ∀ index, Encodes enc dec index)
    (h : validateFields s row (some dec) index fs = .ok ()) :
    ∃ vs slots, Slots enc (bitmapBit bm) index fs vs slots ∧
      slots.flatten = slice row offset (stop - offset) ∧ List.Forall₂ Field.Carries fs vs ∧
      ∀ i v, vs[i]? = some v → decodeValue s (index + i) row (some dec) = .ok v := by
  induction hp generalizing index with
  | nil => exact ⟨[], [], .nil _, by simp [slice], .nil, by simp⟩
  | @cons offset bit stop bits f fs hoffset hwidth hpos hbit hrest ih =>
    obtain ⟨v, hv, hzero, hok⟩ := validateFields_cons h
    have hnext (i : ℕ) : index + 1 + i = index + (i + 1) := by omega
    obtain ⟨vs, slots, hslots, hflat, hcarries, hdec⟩ :=
      ih (fun i g hg ↦ by rw [hnext]; exact hfields (i + 1) g hg) hbits hin hok
    obtain ⟨hstop, hbitle⟩ := hrest.le_stop
    have hwindow : slice row offset (stop - offset) =
        slice row f.offset f.width ++ slice row (offset + f.width) (stop - (offset + f.width)) := by
      rw [show stop - offset = f.width + (stop - (offset + f.width)) by omega, slice_add, hoffset]
    have hall : ∀ i w, (v :: vs)[i]? = some w →
        decodeValue s (index + i) row (some dec) = .ok w := by
      rintro (_ | i) w hw
      · cases hw
        exact hv
      · rw [← hnext]
        exact hdec i w hw
    have hnull : f.nullable = true → nullBitSet row f.nullBit = bitmapBit bm f.nullBit := by
      intro hf
      rw [if_pos hf] at hbitle
      rw [hrow]
      exact nullBitSet_append ht (by rw [hbit hf]; omega)
    have hvalue := hv
    rw [decodeValue, show s.fields[index]? = some f from hfields 0 f rfl] at hvalue
    simp only [Bool.and_eq_true] at hvalue
    split at hvalue
    next hnulled =>
      -- a null: the bit is set and the slot is zero
      cases hvalue
      obtain ⟨hf, hset⟩ := hnulled
      rw [hnull hf] at hset
      have hslot : slice row f.offset f.width = zeros f.width := slice_eq_zeros (by omega) hzero
      refine ⟨.null :: vs, zeros f.width :: slots, .null rfl hf hset hslots, ?_,
        .cons (.inl rfl) hcarries, hall⟩
      rw [flatten_cons, hflat, hwindow, hslot]
    next hnulled =>
      have hpad : f.type = .text → isZero (slice row (f.offset + (4 + v.bytes.length))
          (f.width - (4 + v.bytes.length))) = true := by
        intro htext
        by_cases hn : v.isNull = true
        · -- the decoder of a slot never returns a null
          simp only [decodeSlot, htext] at hvalue
          split at hvalue
          · cases hvalue
          · cases hvalue
            cases hn
        · simpa [Field.used, hn, htext] using hzero
      obtain ⟨hn, hcarry, b, hb, hslot⟩ :=
        encodeField_decodeSlot hwidth (by omega) (fun _ ↦ henc index) hvalue hpad
      refine ⟨v :: vs, (b ++ zeros (f.width - b.length)) :: slots,
        .value hn hb (fun hf ↦ ?_) hslots, ?_, .cons hcarry hcarries, hall⟩
      · rw [← hnull hf]
        simpa [hf] using hnulled
      · rw [flatten_cons, hflat, hwindow, hslot]

theorem Schema.Layout.countP_fields (hs : s.Layout) :
    s.fields.countP (·.nullable) = s.userFields.countP (·.nullable) := by
  rw [hs.time, countP_cons]
  rfl

/-- **The validator accepts row images only.** -/
theorem validateRow_image (hs : s.Layout) (henc : ∀ index, Encodes enc dec index)
    (hlen : row.length = s.rowWidth) (h : validateRow s row (some dec) = .ok ()) :
    ∃ values, RowImage s enc values (getLE 8 row 0) row ∧
      List.Forall₂ Field.Carries s.userFields values ∧
      ∀ i v, values[i]? = some v → decodeValue s (i + 1) row (some dec) = .ok v := by
  obtain ⟨stop, hplaced, hwidth⟩ := hs.placed
  obtain ⟨hstop, -⟩ := hplaced.le_stop
  have hbitmap := hs.bitmap
  -- the three checks
  rw [validateRow] at h
  split at h
  · cases h
  next hfields =>
  simp only [hs.countP_fields] at h
  split at h
  · cases h
  next hunused =>
  split at h
  case isFalse => cases h
  next hpadding =>
  rw [hs.time] at hfields
  obtain ⟨-, -, -, huser⟩ := validateFields_cons hfields
  -- the row in parts
  have hhead : row = slice row 0 8 ++ (slice row 8 s.nullBytes ++
      slice row (8 + s.nullBytes) (s.rowWidth - (8 + s.nullBytes))) := by
    have hall := slice_add row 0 8 (s.nullBytes + (s.rowWidth - (8 + s.nullBytes)))
    rw [Nat.zero_add, slice_add row 8, show 8 + (s.nullBytes + (s.rowWidth - (8 + s.nullBytes))) =
      row.length by omega, slice_zero_length] at hall
    exact hall
  have htime : (slice row 0 8).length = 8 := length_slice_of_le (by omega)
  have hbm : (slice row 8 s.nullBytes).length = s.nullBytes := length_slice_of_le (by omega)
  obtain ⟨values, slots, hslots, hflat, hcarries, hdec⟩ := validateFields_slots htime hhead hplaced
    (fun i f hf ↦ by rw [hs.time, Nat.add_comm]; exact hf) (by omega) (by omega) henc huser
  refine ⟨values, ⟨slice row 8 s.nullBytes, slots, s.rowWidth - stop, ?_, hbm, hslots, ?_, hlen⟩,
    hcarries, fun i v hv ↦ by rw [Nat.add_comm]; exact hdec i v hv⟩
  · have hend : s.slotsEnd ≤ stop := by
      unfold Schema.slotsEnd
      rw [hs.time, getLast?_cons]
      by_cases hnil : s.userFields = []
      · rw [hnil]
        exact (Nat.le_add_right 8 _).trans hstop
      · rw [getLast?_eq_some_getLast hnil]
        exact (hplaced.last_end hnil).le
    have hpad : slice row stop (s.rowWidth - stop) = zeros (s.rowWidth - stop) := by
      refine slice_eq_zeros (by omega) ?_
      rw [show s.rowWidth - s.slotsEnd = (stop - s.slotsEnd) + (s.rowWidth - stop) by omega, slice_add,
        show s.slotsEnd + (stop - s.slotsEnd) = stop by omega, isZero, all_append,
        Bool.and_eq_true] at hpadding
      exact hpadding.2
    rw [ofNatLE_getLE (by omega), hflat, ← hpad]
    conv_lhs => rw [hhead]
    rw [show s.rowWidth - (8 + s.nullBytes) = (stop - (8 + s.nullBytes)) + (s.rowWidth - stop) by omega,
      slice_add, show 8 + s.nullBytes + (stop - (8 + s.nullBytes)) = stop by omega]
  · intro j hj
    refine bitmapBit_of_unused (by omega) (fun hmod ↦ ?_) hj
    by_contra hne
    refine hunused ⟨hmod, ?_⟩
    rw [hbm] at hne
    conv at hne => rw [← getD_append_mid htime (by omega), ← hhead]
    rwa [show 8 + s.nullBytes - 1 = 8 + (s.nullBytes - 1) by omega]

/-! ### The codec -/

/-- **A dictionary**: identifiers and strings correspond one to one in every column. Identifiers have
32 bits; the strings are those a symbol may be. -/
structure SymbolBijection (enc : SymbolEncode) (dec : SymbolDecode) : Prop where
  inverse : ∀ index id b, enc index b = .ok id ↔ dec index id = .ok b
  id_lt : ∀ index id b, enc index b = .ok id → id < 2 ^ 32
  string : ∀ index id b, enc index b = .ok id → b.length ≤ maxStringBytes ∧ utf8 b = true

theorem SymbolBijection.encodes (h : SymbolBijection enc dec) (index : ℕ) :
    Encodes enc dec index := by
  intro id b hb
  have hid := (h.inverse index id b).2 hb
  exact ⟨hid, h.string index id b hid⟩

theorem SymbolBijection.inverts (h : SymbolBijection enc dec) : Inverts s values enc dec :=
  fun i _ v id _ _ _ _ hid ↦ ⟨h.id_lt (i + 1) id v.bytes hid, (h.inverse _ _ _).1 hid⟩

/-- **The row codec is a bijection** between the value tuples the encoder accepts and the rows the
validator accepts. -/
theorem rowCodec_bijective {defs : List FieldDef} (hbuild : schemaBuild defs = .ok s)
    (hsymbols : SymbolBijection enc dec) :
    (∀ values time row, -2 ^ 63 ≤ time → time < 2 ^ 63 →
      List.Forall₂ Field.Carries s.userFields values →
      encodeRow s values time (some enc) = .ok row →
        row.length = s.rowWidth ∧ validateRow s row (some dec) = .ok () ∧
        decodeValue s 0 row (some dec) = .ok (.ofInt time) ∧
        ∀ i v, values[i]? = some v → decodeValue s (i + 1) row (some dec) = .ok v) ∧
    ∀ row, row.length = s.rowWidth → validateRow s row (some dec) = .ok () →
      ∃ values time, -2 ^ 63 ≤ time ∧ time < 2 ^ 63 ∧
        List.Forall₂ Field.Carries s.userFields values ∧
        decodeValue s 0 row (some dec) = .ok (.ofInt time) ∧
        (∀ i v, values[i]? = some v → decodeValue s (i + 1) row (some dec) = .ok v) ∧
        encodeRow s values time (some enc) = .ok row := by
  have hs := schemaBuild_layout hbuild
  constructor
  · intro values time row hlo hhi hcarries hrow
    have R := encodeRow_image hs hcarries.length_eq.symm hrow
    have hread := R.decodeValue_time hs (i64Bits_lt time) (some dec)
    rw [i64OfBits_i64Bits hlo hhi] at hread
    refine ⟨?_, R.validateRow_ok hs hsymbols.inverts (i64Bits_lt time), hread, fun i v hv ↦ ?_⟩
    · obtain ⟨_, _, _, hparts⟩ := R
      exact hparts.length_row
    · obtain ⟨hi, rfl⟩ := List.getElem?_eq_some_iff.1 hv
      have hi' : i < s.userFields.length := hcarries.length_eq ▸ hi
      have hcarry : s.userFields[i].Carries values[i] := hcarries.get hi' hi
      obtain ⟨v', hv', hdec⟩ := R.decodeValue_eq hs hsymbols.inverts (List.getElem?_eq_getElem hi')
      rw [hv] at hv'
      cases hv'
      rw [hdec, hcarry.stored_eq]
  · intro row hlen hvalid
    obtain ⟨values, R, hcarries, hdec⟩ := validateRow_image hs hsymbols.encodes hlen hvalid
    have hlt := getLE_lt 8 row 0
    have hbits := i64Bits_i64OfBits hlt
    refine ⟨values, getI64 row 0, ?_, ?_, hcarries, R.decodeValue_time hs hlt _, hdec, ?_⟩
    · exact (i64OfBits_bounds hlt).1
    · exact (i64OfBits_bounds hlt).2
    · rw [← hbits] at R
      exact R.encodeRow_eq hs

/-- A nullable text, a symbol and a nullable `float`. -/
def pageDefs : List FieldDef :=
  [⟨[116], .text, 3, true⟩, ⟨[115], .symbol32, 0, false⟩, ⟨[102], .f32, 0, true⟩]

/-- The dictionary that gives `"a"` the identifier 7. -/
theorem symbolBijection_singleton : SymbolBijection
    (fun _ b ↦ if b = [97] then .ok 7 else .error ⟨.invalid, ""⟩)
    (fun _ id ↦ if id = 7 then .ok [97] else .error ⟨.corrupt, ""⟩) where
  inverse _ id b := by
    constructor
    all_goals
      intro h
      split at h <;> cases h
      subst_vars
      rfl
  id_lt _ id b h := by
    split at h <;> cases h
    decide
  string _ id b h := by
    split at h <;> cases h
    subst_vars
    decide

/-- A row of `pageDefs` at time 5: no text, the symbol `"a"` and the number 1. -/
theorem rowCodec_bijective_page :
    ∃ s row, schemaBuild pageDefs = .ok s ∧ row = [5, 0, 0, 0, 0, 0, 0, 0, 1, 0, 0, 0, 0, 0, 0, 0, 7,
        0, 0, 0, 0, 0, 128, 63] ∧
      validateRow s row (some fun _ id ↦ if id = 7 then .ok [97] else .error ⟨.corrupt, ""⟩) =
        .ok () ∧
      ∃ values time, encodeRow s values time
        (some fun _ b ↦ if b = [97] then .ok 7 else .error ⟨.invalid, ""⟩) = .ok row := by
  obtain ⟨s, hs⟩ : ∃ s, schemaBuild pageDefs = .ok s := ⟨_, rfl⟩
  obtain ⟨hforward, hconverse⟩ := rowCodec_bijective hs symbolBijection_singleton
  cases hs
  obtain ⟨hlen, hvalid, -⟩ := hforward [.null, .ofBytes [97], .ofNat (widen 0x3f800000)] 5 _
    (by decide) (by decide)
    (.cons (Or.inl rfl) (.cons (Or.inr rfl) (.cons (Or.inr ⟨0x3f800000, by decide, rfl, rfl⟩) .nil)))
    rfl
  obtain ⟨values, time, -, -, -, -, -, hrow⟩ := hconverse _ hlen hvalid
  exact ⟨_, _, rfl, rfl, hvalid, values, time, hrow⟩

end WebAnalyticsDb
