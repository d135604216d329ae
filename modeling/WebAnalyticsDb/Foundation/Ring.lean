import Mathlib.Data.Nat.ModEq
import Mathlib.Logic.Function.Basic

/-!
# Rings

A ring of `k` slots keeps the last `k` of a sequence of numbered entries: the entry with number `id`,
counted from one, is put into slot `(id - 1) % k` and overwrites the one `k` numbers before.

* `SlotRing.Keeps k slots last entries` says that the slots hold the entries with the last `k` numbers
  up to `last`. It says nothing about entries that were overwritten or never put.
* Where all entries are kept elsewhere as a list, one more is put at its end (`Keeps.concat`), and what a
  reader finds in consecutive slots is a part of the list (`Keeps.window`).
-/

namespace SlotRing

variable {α : Type*} {k last id : ℕ} {slots entries : ℕ → Option α}

/-- The slot of an entry. -/
def slot (k id : ℕ) : ℕ := (id - 1) % k

/-- Put an entry under a number. -/
def put (k : ℕ) (slots : ℕ → Option α) (id : ℕ) (x : α) : ℕ → Option α :=
  Function.update slots (slot k id) (some x)

/-- **The slots hold the last `k` entries.** -/
def Keeps (k : ℕ) (slots : ℕ → Option α) (last : ℕ) (entries : ℕ → Option α) : Prop :=
  ∀ id, 0 < id → id ≤ last → last < id + k → slots (slot k id) = entries id

/-- Entries whose numbers differ by less than `k` have different slots. -/
theorem slot_ne {i j : ℕ} (hi : 0 < i) (hij : i < j) (hj : j < i + k) : slot k i ≠ slot k j := by
  intro heq
  have hmod : (i - 1) ≡ (j - 1) [MOD k] := heq
  have hdvd : k ∣ (j - 1) - (i - 1) := (Nat.modEq_iff_dvd' (by omega)).1 hmod
  have := Nat.le_of_dvd (by omega) hdvd
  omega

theorem Keeps.zero (k : ℕ) (slots entries : ℕ → Option α) : Keeps k slots 0 entries :=
  fun _ hpos hle _ ↦ absurd hpos (by omega)

/-- **The next entry** overwrites one that is not among the last `k` any more. -/
theorem Keeps.put (h : Keeps k slots last entries) (x : α) :
    Keeps k (put k slots (last + 1) x) (last + 1) (Function.update entries (last + 1) (some x)) := by
  intro id hpos hle hlt
  by_cases hid : id = last + 1
  · subst hid
    simp [SlotRing.put]
  · have hne : slot k id ≠ slot k (last + 1) := slot_ne hpos (by omega) hlt
    rw [SlotRing.put, Function.update_of_ne hne, Function.update_of_ne hid]
    exact h id hpos (by omega) (by omega)

variable {xs : List α}

/-- **The next entry of a list.** -/
theorem Keeps.concat (h : Keeps k slots xs.length fun id ↦ xs[id - 1]?) (x : α) :
    Keeps k (SlotRing.put k slots (xs.length + 1) x) (xs ++ [x]).length
      fun id ↦ (xs ++ [x])[id - 1]? := by
  intro id hpos hle hlt
  rw [List.length_append, List.length_singleton] at hle hlt
  rw [h.put x id hpos hle hlt]
  by_cases hid : id = xs.length + 1
  · subst hid
    simp
  · rw [Function.update_of_ne hid]
    exact (List.getElem?_append_left (by omega)).symm

/-- **What a reader finds**: consecutive numbers among the last `k` are a part of the list. -/
theorem Keeps.window (h : Keeps k slots xs.length fun id ↦ xs[id - 1]?) {first n : ℕ}
    (hfirst : 0 < first) (hold : xs.length < first + k) (hn : first + n ≤ xs.length + 1) (d : α) :
    ((List.range n).map fun i ↦ (slots (slot k (first + i))).getD d) = (xs.drop (first - 1)).take n := by
  refine List.ext_getElem? fun i ↦ ?_
  by_cases hi : i < n
  · have hentry : slots (slot k (first + i)) = xs[first + i - 1]? :=
      h (first + i) (by omega) (by omega) (by omega)
    have hlt : first + i - 1 < xs.length := by omega
    have hidx : first - 1 + i = first + i - 1 := by omega
    rw [List.getElem?_map, List.getElem?_range hi, List.getElem?_take_of_lt hi, List.getElem?_drop,
      Option.map_some, hentry, hidx, List.getElem?_eq_getElem hlt]
    rfl
  · rw [List.getElem?_eq_none (by simpa using hi), List.getElem?_eq_none (by
      rw [List.length_take]
      omega)]

end SlotRing
