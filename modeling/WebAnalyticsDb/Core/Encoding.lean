import WebAnalyticsDb.Core.Basic
import WebAnalyticsDb.Foundation.Crc

/-!
# Encodings and checksums

The byte-level helpers of `core/encoding.c`: identifiers, UTF-8 validation, signed little-endian
numbers, the Castagnoli checksum and the 64-bit hash. They are concrete, so that a byte string of the
format can be evaluated. All that is proved about the checksum is that one damaged byte changes it
(`crc32c_ne_of_damaged`), and about the hash nothing.
-/

namespace WebAnalyticsDb

open Bytes

/-! ### Sizes -/

/-- `wadb_add_size`. -/
def addSize (a b : ℕ) : Option ℕ :=
  if a > uint64Max - b then none else some (a + b)

/-- `wadb_mul_size`. -/
def mulSize (a b : ℕ) : Option ℕ :=
  if b ≠ 0 ∧ a > uint64Max / b then none else some (a * b)

theorem addSize_of_le {a b : ℕ} (h : a + b ≤ uint64Max) : addSize a b = some (a + b) :=
  if_neg (by omega)

theorem mulSize_of_le {a b : ℕ} (h : a * b ≤ uint64Max) : mulSize a b = some (a * b) := by
  refine if_neg fun ⟨hb, hlt⟩ ↦ ?_
  have := (Nat.le_div_iff_mul_le (pos_of_ne_zero hb)).2 h
  omega

/-! ### Names and text -/

/-- The characters of an identifier: a digit may not come first. -/
def identifierByte (first : Bool) (c : UInt8) : Bool :=
  c == 95 || (65 ≤ c && c ≤ 90) || (97 ≤ c && c ≤ 122) || (!first && 48 ≤ c && c ≤ 57)

/-- `wadb_identifier`. -/
def identifier : Bytes → Bool
  | [] => false
  | c :: rest => identifierByte true c && rest.all (identifierByte false) && rest.length + 1 < nameCap

/-- The lead byte of a sequence of several bytes: how many follow, the least code point allowed, and
the bits it contributes. -/
def utf8Lead (c : ℕ) : Option (ℕ × ℕ × ℕ) :=
  if 0xc2 ≤ c ∧ c ≤ 0xdf then some (1, 0x80, c &&& 0x1f)
  else if 0xe0 ≤ c ∧ c ≤ 0xef then some (2, 0x800, c &&& 0x0f)
  else if 0xf0 ≤ c ∧ c ≤ 0xf4 then some (3, 0x10000, c &&& 7)
  else none

/-- Collect `more` continuation bytes into the code point `cp`. -/
def utf8Continue : ℕ → ℕ → Bytes → Option (ℕ × Bytes)
  | 0, cp, p => some (cp, p)
  | _ + 1, _, [] => none
  | more + 1, cp, c :: p =>
    if c.toNat &&& 0xc0 ≠ 0x80 then none
    else utf8Continue more ((cp <<< 6) ||| (c.toNat &&& 0x3f)) p

/-- The loop of `wadb_utf8`; every iteration consumes a byte, so the length is enough fuel. -/
def utf8Loop : ℕ → Bytes → Bool
  | _, [] => true
  | 0, _ :: _ => false
  | fuel + 1, c :: p =>
    if c < 0x80 then utf8Loop fuel p
    else match utf8Lead c.toNat with
      | none => false
      | some (more, least, cp) =>
        match utf8Continue more cp p with
        | none => false
        | some (cp, p) =>
          if cp < least ∨ cp > 0x10ffff ∨ (0xd800 ≤ cp ∧ cp ≤ 0xdfff) then false
          else utf8Loop fuel p

/-- `wadb_utf8`. -/
def utf8 (p : Bytes) : Bool :=
  utf8Loop p.length p

/-- A name as text, for messages. -/
def showName (p : Bytes) : String :=
  String.ofList (p.map fun c ↦ Char.ofNat c.toNat)

/-! ### Signed numbers -/

/-- The 64 bits of a signed number, as `(uint64_t)v`. -/
def i64Bits (x : ℤ) : ℕ :=
  (x % 2 ^ 64).toNat

/-- `wadb_get_i64` on the number read. -/
def i64OfBits (u : ℕ) : ℤ :=
  if u ≤ int64Max then u else (u : ℤ) - 2 ^ 64

theorem i64Bits_lt (x : ℤ) : i64Bits x < 256 ^ 8 := by
  unfold i64Bits
  omega

/-- A number in the 64-bit signed range survives the round trip. -/
theorem i64OfBits_i64Bits {x : ℤ} (hlo : -2 ^ 63 ≤ x) (hhi : x < 2 ^ 63) :
    i64OfBits (i64Bits x) = x := by
  unfold i64OfBits i64Bits int64Max
  split <;> omega

theorem i64Bits_i64OfBits {u : ℕ} (h : u < 2 ^ 64) : i64Bits (i64OfBits u) = u := by
  unfold i64Bits i64OfBits int64Max
  split <;> omega

theorem i64OfBits_bounds {u : ℕ} (h : u < 256 ^ 8) :
    -2 ^ 63 ≤ i64OfBits u ∧ i64OfBits u < 2 ^ 63 := by
  unfold i64OfBits int64Max
  split <;> omega

/-- The 64-bit signed number at `off`. -/
def getI64 (p : Bytes) (off : ℕ) : ℤ :=
  i64OfBits (getLE 8 p off)

/-- A signed number in a window is written back as it was. -/
theorem ofNatLE_getI64 {p : Bytes} {off : ℕ} (h : off + 8 ≤ p.length) :
    ofNatLE 8 (i64Bits (getI64 p off)) = slice p off 8 := by
  rw [getI64, i64Bits_i64OfBits (getLE_lt 8 p off), ofNatLE_getLE h]

theorem getI64_of_slice {p : Bytes} {off : ℕ} {x : ℤ} (h : slice p off 8 = ofNatLE 8 (i64Bits x))
    (hlo : -2 ^ 63 ≤ x) (hhi : x < 2 ^ 63) : getI64 p off = x := by
  rw [getI64, getLE_of_slice h (i64Bits_lt x), i64OfBits_i64Bits hlo hhi]

/-! ### Checksum and hash -/

/-- One entry of the checksum table: eight shifts of the reflected polynomial. -/
def crcEntry (i : UInt32) : UInt32 :=
  (List.range 8).foldl (fun x _ ↦ (x >>> 1) ^^^ (if x &&& 1 = 1 then 0x82f63b78 else 0)) i

/-- `wadb_crc32c`. -/
def crc32c (p : Bytes) : ℕ :=
  (~~~ (p.foldl (fun crc b ↦ crcEntry ((crc ^^^ b.toUInt32) &&& 255) ^^^ (crc >>> 8))
    (0xffffffff : UInt32))).toNat

theorem crc32c_lt (p : Bytes) : crc32c p < 256 ^ 4 :=
  UInt32.toNat_lt _

/-- A table entry is eight shifts of the register. -/
theorem toBitVec_crcEntry (i : UInt32) :
    (crcEntry i).toBitVec = (Crc.shift 0x82f63b78#32)^[8] i.toBitVec := by
  have hstep (x : UInt32) : ((x >>> 1) ^^^ (if x &&& 1 = 1 then 0x82f63b78 else 0)).toBitVec =
      Crc.shift 0x82f63b78#32 x.toBitVec := by
    have hbit : (x &&& 1 = 1) ↔ x.toBitVec.getLsbD 0 = true := by
      rw [← UInt32.toNat_inj, UInt32.toNat_and, BitVec.getLsbD, Nat.testBit_zero, decide_eq_true_iff]
      show x.toNat &&& 1 = 1 ↔ x.toNat % 2 = 1
      rw [Nat.and_one_is_mod]
    unfold Crc.shift
    by_cases h : x &&& 1 = 1
    · rw [if_pos h, if_pos (hbit.1 h)]
      rfl
    · rw [if_neg h, if_neg (fun h' ↦ h (hbit.2 h'))]
      rfl
  simp only [crcEntry, List.range, List.range.loop, List.foldl, hstep, Function.iterate_succ_apply,
    Function.iterate_zero, id]

/-- A step of the checksum is eight shifts of the register with the byte in it. -/
theorem toBitVec_crcStep (crc : UInt32) (b : UInt8) :
    (crcEntry ((crc ^^^ b.toUInt32) &&& 255) ^^^ (crc >>> 8)).toBitVec =
      (Crc.shift 0x82f63b78#32)^[8] (crc ^^^ b.toUInt32).toBitVec := by
  have hbyte : b.toUInt32.toBitVec >>> 8 = 0#32 := by
    refine BitVec.eq_of_toNat_eq ?_
    rw [BitVec.toNat_ushiftRight]
    show b.toUInt32.toNat >>> 8 = 0
    rw [UInt8.toNat_toUInt32, Nat.shiftRight_eq_div_pow]
    exact Nat.div_eq_of_lt b.toNat_lt
  have hhigh : (crc >>> 8).toBitVec = (crc ^^^ b.toUInt32).toBitVec >>> 8 := by
    rw [UInt32.toBitVec_xor, BitVec.ushiftRight_xor_distrib, hbyte, BitVec.xor_zero]
    rfl
  rw [UInt32.toBitVec_xor, toBitVec_crcEntry, hhigh, UInt32.toBitVec_and]
  exact Crc.shift_table _ _

/-- **One damaged byte changes the checksum.** -/
theorem crc32c_ne_of_damaged {p q : Bytes} (h : Damaged p q) : crc32c q ≠ crc32c p := by
  have hstep {crc crc' : UInt32} {b b' : UInt8}
      (heq : crcEntry ((crc ^^^ b.toUInt32) &&& 255) ^^^ (crc >>> 8) =
        crcEntry ((crc' ^^^ b'.toUInt32) &&& 255) ^^^ (crc' >>> 8)) :
      crc ^^^ b.toUInt32 = crc' ^^^ b'.toUInt32 := by
    have hbits := congrArg UInt32.toBitVec heq
    rw [toBitVec_crcStep, toBitVec_crcStep] at hbits
    exact UInt32.toBitVec_inj.1 ((Crc.shift_injective (by decide)).iterate 8 hbits)
  intro heq
  refine foldl_ne_of_damaged (fun b x y hxy ↦ ?_) (fun crc x y hxy ↦ ?_) h 0xffffffff
    (UInt32.not_inj.1 (UInt32.toNat_inj.1 heq))
  · exact (UInt32.xor_left_inj _).1 (hstep hxy)
  · exact UInt8.toUInt32_inj.1 ((UInt32.xor_right_inj crc).1 (hstep hxy))

/-- `wadb_hash`, continued from `h`. -/
def hashBytes (p : Bytes) (h : UInt64) : UInt64 :=
  p.foldl (fun h b ↦ (h ^^^ b.toUInt64) * 1099511628211) h

/-- The offset basis every hash of the engine starts from. -/
def hashBasis : UInt64 := 14695981039346656037

end WebAnalyticsDb
