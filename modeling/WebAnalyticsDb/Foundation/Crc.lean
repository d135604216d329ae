import Mathlib.Logic.Function.Iterate
import WebAnalyticsDb.Foundation.Bytes

/-!
# One damaged byte changes a cyclic checksum

A reflected cyclic checksum keeps a register that is shifted to the right, once per bit, and xored with
the polynomial when the bit that falls out is set. The usual program takes eight shifts at a time from
a table indexed by the low byte.

* **A shift is linear and, when the polynomial has its top bit, injective**: the top bit of the result
  is the bit that fell out. So the register after a message determines the register before it.
* **A table step is eight shifts** of the register with the byte xored in (`shift_table`), so it is
  injective in the register and in the byte.

`Damaged p q` says that `q` is `p` with one byte changed; `foldl_ne_of_damaged` is the conclusion, for
every fold whose step is injective in both arguments.
-/

namespace Crc

variable {w : ℕ} (poly : BitVec w)

/-- One shift of the register. -/
def shift (x : BitVec w) : BitVec w :=
  (x >>> 1) ^^^ (if x.getLsbD 0 then poly else 0#w)

theorem shift_xor (a b : BitVec w) : shift poly (a ^^^ b) = shift poly a ^^^ shift poly b := by
  unfold shift
  rw [BitVec.getLsbD_xor, BitVec.ushiftRight_xor_distrib]
  cases a.getLsbD 0 <;> cases b.getLsbD 0
  case false.false => simp
  case false.true => simp [BitVec.xor_assoc]
  case true.false => simp [BitVec.xor_assoc, BitVec.xor_comm poly]
  case true.true =>
    have hpoly : poly ^^^ (b >>> 1 ^^^ poly) = b >>> 1 := by
      rw [BitVec.xor_comm (b >>> 1), ← BitVec.xor_assoc, BitVec.xor_self, BitVec.zero_xor]
    simp [BitVec.xor_assoc, hpoly]

variable {poly}

/-- The register before a shift that leaves nothing was empty. -/
theorem eq_zero_of_shift_eq_zero (hpoly : poly.msb = true) {x : BitVec w} (h : shift poly x = 0#w) :
    x = 0#w := by
  unfold shift at h
  have hw : 0 < w := by
    rcases Nat.eq_zero_or_pos w with rfl | hw
    · simp [BitVec.of_length_zero] at hpoly
    · exact hw
  cases hx : x.getLsbD 0 with
  | true =>
    -- the top bit of the result would be that of the polynomial
    have htop := congrArg BitVec.msb h
    rw [hx, if_pos rfl, BitVec.msb_xor, hpoly, BitVec.msb_ushiftRight] at htop
    simp at htop
  | false =>
    rw [hx, if_neg (by simp), BitVec.xor_zero] at h
    refine BitVec.eq_of_getLsbD_eq fun i hi ↦ ?_
    rw [BitVec.getLsbD_zero]
    cases i with
    | zero => exact hx
    | succ i =>
      have hbit := congrArg (·.getLsbD i) h
      simpa [BitVec.getLsbD_ushiftRight, add_comm] using hbit

theorem shift_injective (hpoly : poly.msb = true) : Function.Injective (shift poly) := by
  intro a b hab
  have hzero : shift poly (a ^^^ b) = 0#w := by
    rw [shift_xor, hab, BitVec.xor_self]
  exact BitVec.xor_eq_zero_iff.1 (eq_zero_of_shift_eq_zero hpoly hzero)

variable (poly)

theorem shift_iterate_xor (k : ℕ) (a b : BitVec w) :
    (shift poly)^[k] (a ^^^ b) = (shift poly)^[k] a ^^^ (shift poly)^[k] b := by
  induction k generalizing a b with
  | zero => rfl
  | succ k ih => rw [Function.iterate_succ_apply, shift_xor, ih]; rfl

/-- Without set bits to fall out a shift is a shift. -/
theorem shift_iterate_of_low {k : ℕ} {x : BitVec w} (h : ∀ i < k, x.getLsbD i = false) :
    (shift poly)^[k] x = x >>> k := by
  induction k generalizing x with
  | zero => simp
  | succ k ih =>
    have hshift : shift poly x = x >>> 1 := by
      rw [shift, h 0 (Nat.succ_pos k), if_neg (by simp), BitVec.xor_zero]
    rw [Function.iterate_succ_apply, hshift, ih, ← BitVec.shiftRight_add, add_comm]
    intro i hi
    rw [BitVec.getLsbD_ushiftRight]
    exact h (1 + i) (by omega)

/-- **A table step is eight shifts**: the low byte through the table, the rest shifted. -/
theorem shift_table (x : BitVec w) :
    (shift poly)^[8] (x &&& 255) ^^^ (x >>> 8) = (shift poly)^[8] x := by
  have hmask (i : ℕ) (hi : i < w) : (255 : BitVec w).getLsbD i = decide (i < 8) := by
    show (BitVec.ofNat w 255).getLsbD i = _
    rw [BitVec.getLsbD_ofNat, show 255 = 2 ^ 8 - 1 from rfl, Nat.testBit_two_pow_sub_one]
    simp [hi]
  have hsplit : x = (x &&& 255) ^^^ (x &&& ~~~255) := by
    refine BitVec.eq_of_getLsbD_eq fun i hi ↦ ?_
    simp only [BitVec.getLsbD_xor, BitVec.getLsbD_and, BitVec.getLsbD_not, hmask i hi, hi]
    cases x.getLsbD i <;> cases decide (i < 8) <;> rfl
  have hhigh : (x &&& ~~~255) >>> 8 = x >>> 8 := by
    refine BitVec.eq_of_getLsbD_eq fun i hi ↦ ?_
    simp only [BitVec.getLsbD_ushiftRight, BitVec.getLsbD_and, BitVec.getLsbD_not]
    by_cases hlt : 8 + i < w
    · rw [hmask _ hlt]
      simp [hlt]
    · rw [BitVec.getLsbD_of_ge x _ (by omega)]
      rfl
  conv_rhs => rw [hsplit, shift_iterate_xor]
  have hlow : ∀ i < 8, (x &&& ~~~255).getLsbD i = false := by
    intro i hi
    by_cases hlt : i < w
    · rw [BitVec.getLsbD_and, BitVec.getLsbD_not, hmask i hlt]
      simp [hi]
    · exact BitVec.getLsbD_of_ge _ _ (by omega)
  rw [shift_iterate_of_low poly hlow, hhigh]

end Crc

namespace Bytes

/-! ### One damaged byte -/

/-- `q` is `p` with one byte changed. -/
def Damaged (p q : Bytes) : Prop :=
  ∃ a x y t, x ≠ y ∧ p = a ++ x :: t ∧ q = a ++ y :: t

variable {p q u v : Bytes}

theorem Damaged.length_eq (h : Damaged p q) : q.length = p.length := by
  obtain ⟨a, x, y, t, -, rfl, rfl⟩ := h
  simp

theorem Damaged.ne (h : Damaged p q) : q ≠ p := by
  obtain ⟨a, x, y, t, hxy, rfl, rfl⟩ := h
  simp [Ne.symm hxy]

/-- The damage is in one of two parts. -/
theorem Damaged.append_cases (h : Damaged (u ++ v) q) :
    (∃ u', Damaged u u' ∧ q = u' ++ v) ∨ ∃ v', Damaged v v' ∧ q = u ++ v' := by
  obtain ⟨a, x, y, t, hxy, hp, rfl⟩ := h
  rcases List.append_eq_append_iff.1 hp with ⟨b, rfl, rfl⟩ | ⟨b, rfl, hb⟩
  · exact .inr ⟨b ++ y :: t, ⟨b, x, y, t, hxy, rfl, rfl⟩, by simp⟩
  · cases b with
    | nil => exact .inr ⟨y :: t, ⟨[], x, y, t, hxy, hb.symm, rfl⟩, by simp⟩
    | cons z b =>
      rw [List.cons_append, List.cons.injEq] at hb
      obtain ⟨rfl, rfl⟩ := hb
      exact .inl ⟨a ++ y :: b, ⟨a, x, y, b, hxy, rfl, rfl⟩, by simp⟩

/-- **A fold that loses nothing notices the damage.** -/
theorem foldl_ne_of_damaged {σ : Type} {step : σ → UInt8 → σ}
    (hstate : ∀ b, Function.Injective (step · b)) (hbyte : ∀ s, Function.Injective (step s))
    (h : Damaged p q) (s : σ) : q.foldl step s ≠ p.foldl step s := by
  have hrest (t : Bytes) : Function.Injective fun s ↦ t.foldl step s := by
    induction t with
    | nil => exact fun _ _ heq ↦ heq
    | cons b t ih => exact ih.comp (hstate b)
  obtain ⟨a, x, y, t, hxy, rfl, rfl⟩ := h
  rw [List.foldl_append, List.foldl_append, List.foldl_cons, List.foldl_cons]
  exact fun heq ↦ hxy (hbyte _ (hrest t heq)).symm

/-- A damaged number is another number. -/
theorem toNatLE_ne_of_damaged (h : Damaged p q) : toNatLE q ≠ toNatLE p := by
  intro heq
  refine h.ne ?_
  rw [← ofNatLE_toNatLE q, ← ofNatLE_toNatLE p, heq, h.length_eq]

end Bytes
