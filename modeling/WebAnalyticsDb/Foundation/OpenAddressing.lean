import Mathlib.Algebra.Group.Nat.Defs
import Mathlib.Data.List.GetD
import Mathlib.Tactic.Common

/-!
# Hash tables with open addressing

A table is a list of slots: `0` is a free slot and `i + 1` names entry `i`. An entry is looked for
from its home slot onwards, cyclically, until it or a free slot is met; it is inserted in the first
free slot met that way. Nothing is ever removed: a table that shrinks is filled anew. The number of
slots is a power of two, and positions are reduced by masking.

`Chained hashes slots` is the invariant: the slots name the entries `0, …, hashes.length - 1`, and
every entry is reached from its home without crossing a free slot. `find_spec` says what a lookup
finds in such a table, `Chained.insert` and `Chained.fill` that inserting and filling keep it.
-/

namespace OpenAddressing

/-! ### Probing -/

/-- Reduce a position to one of the `n` slots. -/
def wrap (n s : ℕ) : ℕ :=
  s &&& (n - 1)

/-- Walk the `n` slots cyclically from `s` to the first one where `stop` holds. -/
def probe (n : ℕ) (stop : ℕ → Bool) : ℕ → ℕ → Option ℕ
  | 0, _ => none
  | fuel + 1, s => if stop s then some s else probe n stop fuel (wrap n (s + 1))

variable {n s r fuel : ℕ} {stop : ℕ → Bool}

/-- Masking with one less than a power of two is reduction modulo it. -/
theorem wrap_eq_mod (hn : ∃ k, n = 2 ^ k) (s : ℕ) : wrap n s = s % n := by
  obtain ⟨k, rfl⟩ := hn
  exact Nat.and_two_pow_sub_one_eq_mod s k

theorem probe_eq_some (hn : ∃ k, n = 2 ^ k) (hs : s < n) (h : probe n stop fuel s = some r) :
    ∃ k, r = (s + k) % n ∧ stop r = true ∧ ∀ j < k, stop ((s + j) % n) = false := by
  induction fuel generalizing s with
  | zero => cases h
  | succ fuel ih =>
    rw [probe] at h
    split at h
    next hstop =>
      cases h
      exact ⟨0, by rw [Nat.add_zero, Nat.mod_eq_of_lt hs], hstop, by simp⟩
    next hstop =>
      rw [wrap_eq_mod hn] at h
      obtain ⟨k, hr, hk, hbefore⟩ := ih (Nat.mod_lt _ (by omega)) h
      have hshift (j : ℕ) : ((s + 1) % n + j) % n = (s + (j + 1)) % n := by
        rw [Nat.mod_add_mod, Nat.add_assoc, Nat.add_comm 1]
      refine ⟨k + 1, by rw [hr, hshift], hk, fun j hj ↦ ?_⟩
      cases j with
      | zero => simpa [Nat.mod_eq_of_lt hs] using hstop
      | succ j => rw [← hshift]; exact hbefore j (by omega)

theorem exists_probe (hn : ∃ k, n = 2 ^ k) (hs : s < n) {k : ℕ} (hk : k < fuel)
    (hstop : stop ((s + k) % n) = true) : ∃ r, probe n stop fuel s = some r := by
  induction fuel generalizing s k with
  | zero => omega
  | succ fuel ih =>
    rw [probe]
    split
    · exact ⟨s, rfl⟩
    next hs' =>
      cases k with
      | zero => rw [Nat.add_zero, Nat.mod_eq_of_lt hs] at hstop; exact absurd hstop hs'
      | succ k =>
        rw [wrap_eq_mod hn]
        refine ih (Nat.mod_lt _ (by omega)) (k := k) (by omega) ?_
        rwa [Nat.mod_add_mod, Nat.add_assoc, Nat.add_comm 1]

/-- `n` steps meet every slot. -/
theorem exists_probe_of_lt (hn : ∃ k, n = 2 ^ k) (stop : ℕ → Bool) (hs : s < n) {q : ℕ} (hq : q < n)
    (hstop : stop q = true) : ∃ r, probe n stop n s = some r := by
  have hwrap : (s + (q + n - s) % n) % n = q := by
    rw [Nat.add_mod_mod, show s + (q + n - s) = q + n by omega, Nat.add_mod_right,
      Nat.mod_eq_of_lt hq]
  exact exists_probe hn hs (Nat.mod_lt _ (by omega)) (by rwa [hwrap])

/-! ### Tables -/

/-- The content of a slot. -/
def look (slots : List ℕ) (s : ℕ) : ℕ :=
  slots.getD s 0

/-- Look for an entry satisfying `same` from the home of hash `h`: the slot content met, `0` when a
free slot comes first. -/
def find (slots : List ℕ) (h : ℕ) (same : ℕ → Bool) : Option ℕ :=
  (probe slots.length (fun s ↦ look slots s == 0 || same (look slots s - 1)) slots.length
    (wrap slots.length h)).map (look slots)

/-- Put `v` in the first free slot from the home of hash `h`. -/
def insert (slots : List ℕ) (h v : ℕ) : List ℕ :=
  match probe slots.length (fun s ↦ look slots s == 0) slots.length
    (wrap slots.length h) with
  | some s => slots.set s v
  | none => slots

/-- Insert entries with the given hashes, numbered from `next`. -/
def fill (slots : List ℕ) (next : ℕ) : List ℕ → List ℕ
  | [] => slots
  | h :: hs => fill (insert slots h (next + 1)) (next + 1) hs

@[simp] theorem length_insert (slots : List ℕ) (h v : ℕ) :
    (insert slots h v).length = slots.length := by
  unfold insert
  split <;> simp

@[simp] theorem length_fill (slots : List ℕ) (next : ℕ) (hs : List ℕ) :
    (fill slots next hs).length = slots.length := by
  induction hs generalizing slots next with
  | nil => rfl
  | cons h hs ih => rw [fill, ih, length_insert]

/-- The slots name the entries with the given hashes, each reached from its home. -/
structure Chained (hashes slots : List ℕ) : Prop where
  /-- The number of slots is a power of two. -/
  size : ∃ k, slots.length = 2 ^ k
  /-- There are as many occupied slots as entries. -/
  occupied : slots.countP (· != 0) = hashes.length
  /-- An occupied slot names an entry. -/
  bounded : ∀ x ∈ slots, x ≤ hashes.length
  /-- No free slot lies between an entry and its home. -/
  reach : ∀ (i : ℕ) (hi : i < hashes.length), ∃ k,
    look slots ((hashes[i] + k) % slots.length) = i + 1 ∧
      ∀ j < k, look slots ((hashes[i] + j) % slots.length) ≠ 0

theorem chained_nil {n : ℕ} (hn : ∃ k, n = 2 ^ k) : Chained [] (List.replicate n 0) where
  size := by simpa using hn
  occupied := by simp [List.countP_replicate]
  bounded x hx := by simp [List.eq_of_mem_replicate hx]
  reach i hi := absurd hi (Nat.not_lt_zero i)

variable {hashes slots : List ℕ}

theorem look_mem_of_lt (hs : s < slots.length) : look slots s ∈ slots := by
  unfold look
  rw [List.getD_eq_getElem _ _ hs]
  exact List.getElem_mem hs

theorem Chained.exists_free (hc : Chained hashes slots) (hlt : hashes.length < slots.length) :
    ∃ q < slots.length, look slots q = 0 := by
  by_contra hnone
  have hall : slots.countP (· != 0) = slots.length := by
    rw [List.countP_eq_length]
    intro x hx
    obtain ⟨q, hq, rfl⟩ := List.getElem_of_mem hx
    rw [bne_iff_ne]
    intro hzero
    exact hnone ⟨q, hq, by rw [look, List.getD_eq_getElem _ _ hq, hzero]⟩
  rw [hc.occupied] at hall
  omega

/-- **What a lookup finds**: the entry that `same` accepts, or a free slot when it accepts none. The
entries accepted by `same` must have the hash looked for. -/
theorem find_spec (hc : Chained hashes slots) (hlt : hashes.length < slots.length) {h : ℕ}
    {same : ℕ → Bool}
    (hsame : ∀ (i : ℕ) (hi : i < hashes.length), same i = true → hashes[i] = h) :
    (∃ i < hashes.length, same i = true ∧ find slots h same = some (i + 1)) ∨
      (∀ i < hashes.length, same i = false) ∧ find slots h same = some 0 := by
  obtain ⟨q, hq, hfree⟩ := hc.exists_free hlt
  have hhome : h % slots.length < slots.length := Nat.mod_lt _ (by omega)
  obtain ⟨r, hr⟩ := exists_probe_of_lt hc.size
    (fun s ↦ look slots s == 0 || same (look slots s - 1)) hhome hq (by simp [hfree])
  obtain ⟨k, hrk, hstop, hbefore⟩ := probe_eq_some hc.size hhome hr
  have hfind : find slots h same = some (look slots r) := by
    rw [find, wrap_eq_mod hc.size, hr]
    rfl
  by_cases hz : look slots r = 0
  · refine .inr ⟨fun i hi ↦ ?_, by rw [hfind, hz]⟩
    by_contra hne
    have hi' : same i = true := by simpa using hne
    obtain ⟨k', hk', hchain⟩ := hc.reach i hi
    rw [hsame i hi hi'] at hk' hchain
    rw [Nat.mod_add_mod] at hrk
    -- the walk stopped at a free slot, so it has not passed the entry's slot nor stopped before it
    rcases Nat.lt_trichotomy k k' with hlt' | rfl | hgt
    · exact hchain k hlt' (by rw [← hrk, hz])
    · rw [← hrk, hz] at hk'
      omega
    · have := hbefore k' hgt
      rw [Nat.mod_add_mod, hk'] at this
      simp [hi'] at this
  · have hrlt : r < slots.length := by rw [hrk]; exact Nat.mod_lt _ (by omega)
    have hle := hc.bounded _ (look_mem_of_lt hrlt)
    have hmatch : same (look slots r - 1) = true := by simpa [hz] using hstop
    refine .inl ⟨look slots r - 1, by omega, hmatch, ?_⟩
    rw [hfind]
    congr 1
    omega

theorem look_set (slots : List ℕ) {r v : ℕ} (hr : r < slots.length) (q : ℕ) :
    look (slots.set r v) q = if q = r then v else look slots q := by
  unfold look
  rw [List.getD_eq_getElem?_getD, List.getD_eq_getElem?_getD, List.getElem?_set]
  by_cases h : r = q
  · subst h
    simp [hr]
  · simp [h, Ne.symm h]

/-- **Inserting** the next entry keeps the invariant. -/
theorem Chained.insert (hc : Chained hashes slots) (hlt : hashes.length < slots.length) (h : ℕ) :
    Chained (hashes ++ [h]) (insert slots h (hashes.length + 1)) := by
  obtain ⟨q, hq, hfree⟩ := hc.exists_free hlt
  have hhome : h % slots.length < slots.length := Nat.mod_lt _ (by omega)
  obtain ⟨r, hr⟩ := exists_probe_of_lt hc.size (fun s ↦ look slots s == 0) hhome hq (by simp [hfree])
  obtain ⟨k, hrk, hstop, hbefore⟩ := probe_eq_some hc.size hhome hr
  have hins : OpenAddressing.insert slots h (hashes.length + 1) =
      slots.set r (hashes.length + 1) := by
    rw [OpenAddressing.insert, wrap_eq_mod hc.size, hr]
  have hrlt : r < slots.length := by rw [hrk]; exact Nat.mod_lt _ (by omega)
  have hz : look slots r = 0 := by simpa using hstop
  have hget : slots[r] = 0 := by rw [← hz, look, List.getD_eq_getElem _ _ hrlt]
  rw [hins]
  refine ⟨by simpa using hc.size, ?_, fun x hx ↦ ?_, fun i hi ↦ ?_⟩
  · rw [List.countP_set hrlt, hc.occupied, hget]
    simp
  · rw [List.length_append, List.length_singleton]
    rcases List.mem_or_eq_of_mem_set hx with hmem | rfl
    · exact Nat.le_succ_of_le (hc.bounded x hmem)
    · exact Nat.le_refl _
  · rw [List.length_set]
    rw [List.length_append, List.length_singleton] at hi
    by_cases hlast : i = hashes.length
    · subst hlast
      refine ⟨k, ?_, fun j hj ↦ ?_⟩
      · rw [Nat.mod_add_mod] at hrk
        simp [look_set slots hrlt, ← hrk]
      · have hj' := hbefore j hj
        rw [Nat.mod_add_mod] at hj'
        rw [List.getElem_concat_length rfl, look_set slots hrlt]
        split
        · exact Nat.succ_ne_zero _
        · simpa using hj'
    · have hi' : i < hashes.length := by omega
      obtain ⟨k', hk', hchain⟩ := hc.reach i hi'
      rw [List.getElem_append_left hi']
      refine ⟨k', ?_, fun j hj ↦ ?_⟩
      · -- the entry's slot is occupied, so it is not the one filled
        rw [look_set slots hrlt, if_neg, hk']
        intro heq
        rw [heq, hz] at hk'
        omega
      · rw [look_set slots hrlt]
        split
        · exact Nat.succ_ne_zero _
        · exact hchain j hj

/-- **Filling** keeps the invariant as long as there is room. -/
theorem Chained.fill (hc : Chained hashes slots) (hs : List ℕ)
    (hle : hashes.length + hs.length ≤ slots.length) :
    Chained (hashes ++ hs) (fill slots hashes.length hs) := by
  induction hs generalizing hashes slots with
  | nil => simpa [OpenAddressing.fill] using hc
  | cons h hs ih =>
    rw [List.length_cons] at hle
    have := ih (hc.insert (by omega) h) (by simp; omega)
    rw [List.append_assoc, List.length_append, List.length_singleton] at this
    exact this

/-- A table filled from scratch. -/
theorem chained_fill {n : ℕ} {hs : List ℕ} (hn : ∃ k, n = 2 ^ k) (hle : hs.length ≤ n) :
    Chained hs (fill (List.replicate n 0) 0 hs) := by
  have := (chained_nil hn).fill hs (by simpa using hle)
  rwa [List.nil_append] at this

end OpenAddressing
