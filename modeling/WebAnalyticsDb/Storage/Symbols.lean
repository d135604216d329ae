import Mathlib.Algebra.Order.BigOperators.Group.Finset
import WebAnalyticsDb.Storage.Dictionary

/-!
# What a dictionary represents

A dictionary stands for a list of symbols, `(field, string)` in the order of definition. The list
determines everything a reader can see: the identifier of a symbol is its position among the symbols
of its column, counted from one.

`Dictionary.Rep d S` is the representation invariant and `wp_dictionaryIntern` its one step. The byte
budget is part of it: `Dictionary.Tight` says that the arrays are no larger than a dictionary filled
with `S` from scratch needs, and `minAlloc` is what such a dictionary is charged. Since a live
dictionary is charged at least that much (`Rep.minAlloc_le`), what was once written within a budget can
be replayed within it.
-/

namespace WebAnalyticsDb

open Bytes List

/-- The symbols of a segment, in the order of definition. -/
abbrev Symbols : Type := List (ℕ × Bytes)

instance : LawfulBEq (ℕ × Bytes) := inferInstance

namespace Symbols

/-- The strings of a column. -/
def column (S : Symbols) (field : ℕ) : List Bytes :=
  (S.filter (·.1 == field)).map (·.2)

/-- The positions of a column's symbols. -/
def positions (S : Symbols) (field : ℕ) : List ℕ :=
  (List.range S.length).filter fun i ↦ (S[i]?.map (·.1)) == some field

/-- The symbols as the dictionary stores them, those of `before` being defined already. -/
def numberFrom (before : Symbols) : Symbols → List Symbol
  | [] => []
  | x :: xs =>
    ⟨x.1, (before.column x.1).length + 1, symbolHash x.1 x.2, x.2⟩ :: numberFrom (before ++ [x]) xs

/-- Define a symbol unless it is defined. -/
def define (S : Symbols) (x : ℕ × Bytes) : Symbols :=
  if x ∈ S then S else S ++ [x]

/-- The identifier of a symbol. -/
def idOf (S : Symbols) (field : ℕ) (data : Bytes) : ℕ :=
  (S.column field).idxOf data + 1

variable {S T : Symbols} {x : ℕ × Bytes} {field : ℕ}

theorem column_append (S T : Symbols) (field : ℕ) :
    column (S ++ T) field = column S field ++ column T field := by
  simp [column]

theorem column_singleton (x : ℕ × Bytes) (field : ℕ) :
    column [x] field = if x.1 = field then [x.2] else [] := by
  unfold column
  by_cases h : x.1 = field <;> simp [h]

variable {data : Bytes} {i : ℕ}

theorem mem_column : data ∈ S.column field ↔ (field, data) ∈ S := by
  simp only [column, mem_map, mem_filter, beq_iff_eq]
  constructor
  · rintro ⟨⟨f, b⟩, ⟨hmem, rfl⟩, rfl⟩
    exact hmem
  · intro h
    exact ⟨(field, data), ⟨h, rfl⟩, rfl⟩

theorem positions_append_singleton (S : Symbols) (x : ℕ × Bytes) (field : ℕ) :
    positions (S ++ [x]) field =
      positions S field ++ if x.1 = field then [S.length] else [] := by
  unfold positions
  rw [length_append, length_singleton, range_succ, filter_append]
  congr 1
  · refine filter_congr fun i hi ↦ ?_
    rw [getElem?_append_left (mem_range.1 hi)]
  · by_cases h : x.1 = field <;> simp [h]

theorem length_positions (S : Symbols) (field : ℕ) :
    (S.positions field).length = (S.column field).length := by
  induction S using List.reverseRecOn with
  | nil => rfl
  | append_singleton S x ih =>
    rw [positions_append_singleton, column_append, column_singleton, length_append,
      length_append, ih]
    split <;> rfl

/-- The position of the `k`-th symbol of a column holds its `k`-th string. -/
theorem getElem?_positions {k : ℕ} (h : (S.positions field)[k]? = some i) :
    ∃ data, S[i]? = some (field, data) ∧ (S.column field)[k]? = some data := by
  induction S using List.reverseRecOn with
  | nil => simp [positions] at h
  | append_singleton S x ih =>
    rw [positions_append_singleton] at h
    rw [column_append, column_singleton]
    have hlen := length_positions S field
    by_cases hk : k < (positions S field).length
    · rw [getElem?_append_left hk] at h
      obtain ⟨data, hi, hdata⟩ := ih h
      refine ⟨data, ?_, ?_⟩
      · rw [getElem?_append_left (List.getElem?_eq_some_iff.1 hi).1, hi]
      · rw [getElem?_append_left (by omega), hdata]
    · rw [getElem?_append_right (by omega)] at h
      by_cases hx : x.1 = field
      · rw [if_pos hx] at h ⊢
        obtain ⟨hk', hi⟩ := List.getElem?_eq_some_iff.1 h
        simp only [length_singleton, getElem_singleton] at hk' hi
        refine ⟨x.2, ?_, ?_⟩
        · rw [← hi, ← hx]
          simp
        · rw [getElem?_append_right (by omega), show k - (column S field).length = 0 by omega]
          rfl
      · rw [if_neg hx] at h
        simp at h

@[simp] theorem length_numberFrom (S T : Symbols) : (numberFrom S T).length = T.length := by
  induction T generalizing S with
  | nil => rfl
  | cons x T ih => simp [numberFrom, ih]

theorem numberFrom_append (S T U : Symbols) :
    numberFrom S (T ++ U) = numberFrom S T ++ numberFrom (S ++ T) U := by
  induction T generalizing S with
  | nil => simp [numberFrom]
  | cons x T ih => simp [numberFrom, ih, append_assoc]

theorem map_hash_numberFrom (S T : Symbols) :
    (numberFrom S T).map (·.hash) = T.map fun x ↦ symbolHash x.1 x.2 := by
  induction T generalizing S with
  | nil => rfl
  | cons x T ih => simp [numberFrom, ih]

theorem getElem?_numberFrom (S : Symbols) {x : ℕ × Bytes} (h : T[i]? = some x) : (numberFrom S T)[i]? =
      some ⟨x.1, ((S ++ T.take i).column x.1).length + 1, symbolHash x.1 x.2, x.2⟩ := by
  induction T generalizing S i with
  | nil => simp at h
  | cons y T ih =>
    cases i with
    | zero =>
      cases h
      simp [numberFrom]
    | succ i =>
      have := ih (S ++ [y]) h
      rw [append_assoc] at this
      exact this

theorem define_of_mem (h : x ∈ S) : S.define x = S := if_pos h

theorem define_of_notMem (h : x ∉ S) : S.define x = S ++ [x] := if_neg h

theorem prefix_define (S : Symbols) (x : ℕ × Bytes) : S <+: S.define x := by
  unfold define
  split
  · exact prefix_refl S
  · exact prefix_append S [x]

theorem mem_define (S : Symbols) (x : ℕ × Bytes) : x ∈ S.define x := by
  unfold define
  split
  · assumption
  · simp

theorem nodup_define (h : S.Nodup) (x : ℕ × Bytes) : (S.define x).Nodup := by
  unfold define
  split
  · exact h
  next hx =>
    rw [nodup_append]
    refine ⟨h, nodup_singleton x, ?_⟩
    intro a ha b hb
    rw [mem_singleton.1 hb]
    exact fun heq ↦ hx (heq ▸ ha)

theorem nodup_column (h : S.Nodup) (field : ℕ) : (S.column field).Nodup := by
  refine (h.filter _).map_on ?_
  intro a ha b hb heq
  simp only [mem_filter, beq_iff_eq] at ha hb
  exact Prod.ext (ha.2.trans hb.2.symm) heq

/-- Identifiers do not change when symbols are added. -/
theorem idOf_of_isPrefix (hpre : S <+: T) (h : (field, data) ∈ S) :
    T.idOf field data = S.idOf field data := by
  obtain ⟨U, rfl⟩ := hpre
  unfold idOf
  rw [column_append, idxOf_append_of_mem (mem_column.2 h)]

/-- The identifier of a symbol leads back to it. -/
theorem getElem?_idOf (h : (field, data) ∈ S) : (S.column field)[S.idOf field data - 1]? = some data := by
  have hlt := idxOf_lt_length_iff.2 (mem_column.2 h)
  rw [idOf, Nat.add_sub_cancel, getElem?_eq_getElem hlt, getElem_idxOf]

/-- A new symbol gets the next identifier of its column. -/
theorem idOf_append_of_notMem (h : (field, data) ∉ S) :
    idOf (S ++ [(field, data)]) field data = (S.column field).length + 1 := by
  rw [idOf, column_append, column_singleton, if_pos rfl,
    idxOf_append_of_notMem (fun hmem ↦ h (mem_column.1 hmem)), idxOf_cons_self,
    add_zero]

/-- The identifier of the symbol at position `i` counts the symbols of its column before it. -/
theorem idOf_getElem (hnodup : S.Nodup) (h : S[i]? = some (field, data)) :
    S.idOf field data = (column (S.take i) field).length + 1 := by
  obtain ⟨hi, hget⟩ := List.getElem?_eq_some_iff.1 h
  have hsplit : S = S.take i ++ ([(field, data)] ++ S.drop (i + 1)) := by
    rw [singleton_append, ← hget, getElem_cons_drop, take_append_drop]
  have hnot : (field, data) ∉ S.take i := by
    rw [hsplit, nodup_append] at hnodup
    exact fun hmem ↦ hnodup.2.2 _ hmem _ (by simp) rfl
  rw [idOf]
  conv_lhs => rw [hsplit]
  rw [column_append, column_append, column_singleton, if_pos rfl,
    idxOf_append_of_notMem (fun hmem ↦ hnot (mem_column.1 hmem)), singleton_append,
    idxOf_cons_self, add_zero]

end Symbols

/-! ### Array growth -/

/-- A capacity reached by doubling from `first`. -/
def Doubling (first capacity : ℕ) : Prop :=
  capacity = 0 ∨ ∃ k, capacity = first * 2 ^ k

/-- The capacity of an array after `n` additions to an empty one. -/
def fullCapacity (first : ℕ) : ℕ → ℕ
  | 0 => 0
  | n + 1 => grown n (fullCapacity first n) first

/-- The number of slots after `n` additions to an empty table. -/
def fullSlots : ℕ → ℕ
  | 0 => 0
  | n + 1 => grownSlots n (fullSlots n)

variable {first a b n : ℕ}

theorem Doubling.zero (first : ℕ) : Doubling first 0 := .inl rfl

theorem Doubling.grown (h : Doubling first a) (n : ℕ) : Doubling first (grown n a first) := by
  unfold WebAnalyticsDb.grown
  split
  · split
    · rcases h with h | ⟨k, rfl⟩
      · exact absurd h ‹_›
      · exact .inr ⟨k + 1, by rw [Nat.pow_succ]; ring⟩
    · exact .inr ⟨0, by simp⟩
  · exact h

theorem Doubling.grownSlots (h : Doubling 32 a) (n : ℕ) : Doubling 32 (grownSlots n a) := by
  unfold WebAnalyticsDb.grownSlots
  split
  · split
    · rcases h with h | ⟨k, rfl⟩
      · exact absurd h ‹_›
      · exact .inr ⟨k + 1, by rw [Nat.pow_succ]; ring⟩
    · exact .inr ⟨0, by simp⟩
  · exact h

/-- Between a capacity and its double there is no other. -/
theorem Doubling.double_le (ha : Doubling first a) (hb : Doubling first b) (hlt : a < b) :
    (if a ≠ 0 then a * 2 else first) ≤ b := by
  rcases hb with rfl | ⟨k, rfl⟩
  · omega
  rcases ha with rfl | ⟨j, rfl⟩
  · rw [if_neg (by simp)]
    exact Nat.le_mul_of_pos_right _ (Nat.two_pow_pos k)
  · have hjk : j < k := by
      by_contra hge
      exact absurd (Nat.mul_le_mul_left first (Nat.pow_le_pow_right (by decide) (by omega)))
        (Nat.not_le.2 hlt)
    split
    · rw [Nat.mul_assoc, ← Nat.pow_succ]
      exact Nat.mul_le_mul_left first (Nat.pow_le_pow_right (by decide) hjk)
    next h0 =>
      rw [not_not] at h0
      exact Nat.le_mul_of_pos_right _ (Nat.two_pow_pos k)

theorem doubling_fullCapacity (first n : ℕ) : Doubling first (fullCapacity first n) := by
  induction n with
  | zero => exact .zero first
  | succ n ih => exact ih.grown n

theorem doubling_fullSlots (n : ℕ) : Doubling 32 (fullSlots n) := by
  induction n with
  | zero => exact .zero 32
  | succ n ih => exact ih.grownSlots n

/-- **No array is smaller than one filled from scratch.** -/
theorem fullCapacity_le (ha : Doubling first a) (hle : n ≤ a) : fullCapacity first n ≤ a := by
  induction n with
  | zero => exact Nat.zero_le a
  | succ n ih =>
    have hn := ih (by omega)
    rw [fullCapacity, grown]
    split
    next heq => exact (doubling_fullCapacity first n).double_le ha (by omega)
    next => exact hn

theorem fullSlots_le (ha : Doubling 32 a) (hle : 2 * n ≤ a) : fullSlots n ≤ a := by
  induction n with
  | zero => exact Nat.zero_le a
  | succ n ih =>
    have hn := ih (by omega)
    rw [fullSlots, grownSlots]
    split
    next heq => exact (doubling_fullSlots n).double_le ha (by omega)
    next => exact hn

theorem le_grown (first : ℕ) (h : n ≤ a) : a ≤ grown n a first ∧ (0 < first → n + 1 ≤ grown n a first) := by
  unfold grown
  split
  · split <;> omega
  · omega

theorem le_grownSlots (h : 2 * n ≤ a) : a ≤ grownSlots n a ∧ 2 * (n + 1) ≤ grownSlots n a := by
  unfold grownSlots
  split
  · split <;> omega
  · omega

theorem le_fullCapacity (hfirst : 0 < first) (n : ℕ) : n ≤ fullCapacity first n := by
  induction n with
  | zero => exact zero_le
  | succ n ih => exact (le_grown first ih).2 hfirst

theorem le_fullSlots (n : ℕ) : 2 * n ≤ fullSlots n := by
  induction n with
  | zero => exact zero_le
  | succ n ih => exact (le_grownSlots ih).2

theorem fullCapacity_mono (hfirst : 0 < first) {m : ℕ} (h : n ≤ m) :
    fullCapacity first n ≤ fullCapacity first m :=
  fullCapacity_le (doubling_fullCapacity first m) (h.trans (le_fullCapacity hfirst m))

theorem fullSlots_mono {m : ℕ} (h : n ≤ m) : fullSlots n ≤ fullSlots m :=
  fullSlots_le (doubling_fullSlots m) ((Nat.mul_le_mul_left 2 h).trans (le_fullSlots m))

theorem Doubling.two_pow {j : ℕ} (h : Doubling (2 ^ j) a) (ha : a ≠ 0) : ∃ k, a = 2 ^ k := by
  rcases h with h | ⟨k, rfl⟩
  · exact absurd h ha
  · exact ⟨j + k, (Nat.pow_add 2 j k).symm⟩

/-! ### The representation invariant -/

/-- A symbol the dictionary accepts. -/
def SymbolOk (s : Schema) (x : ℕ × Bytes) : Prop :=
  x.1 ≠ 0 ∧ x.1 < s.fieldCount ∧ s.isSymbol x.1 = true ∧ x.2.length ≤ maxStringBytes ∧
    utf8 x.2 = true

/-- The bytes of the strings, each with its terminator. -/
def stringBytes (S : Symbols) : ℕ :=
  (S.map fun x ↦ x.2.length + 1).sum

/-- What a dictionary filled with `S` from scratch is charged. -/
def minAlloc (s : Schema) (S : Symbols) : ℕ :=
  sizeofDictionary + s.fieldCount * sizeofColumn + fullCapacity 16 S.length * sizeofSymbol +
    fullSlots S.length * sizeofSlot +
    (∑ f ∈ Finset.range s.fieldCount, fullCapacity 8 (S.column f).length) * sizeofSlot +
    stringBytes S

/-- More symbols are charged more. -/
theorem minAlloc_mono (s : Schema) (S T : Symbols) : minAlloc s S ≤ minAlloc s (S ++ T) := by
  have hcap : fullCapacity 16 S.length ≤ fullCapacity 16 (S ++ T).length :=
    fullCapacity_mono (by decide) (by simp)
  have hslots : fullSlots S.length ≤ fullSlots (S ++ T).length := fullSlots_mono (by simp)
  have hcol : ∑ f ∈ Finset.range s.fieldCount, fullCapacity 8 (S.column f).length ≤
      ∑ f ∈ Finset.range s.fieldCount, fullCapacity 8 (Symbols.column (S ++ T) f).length :=
    Finset.sum_le_sum fun f _ ↦ fullCapacity_mono (by decide) (by simp [Symbols.column_append])
  have hstrings : stringBytes S ≤ stringBytes (S ++ T) := by simp [stringBytes]
  unfold minAlloc sizeofSymbol sizeofSlot
  omega

/-- The charge covers an array entry for every symbol. -/
theorem length_le_minAlloc (s : Schema) (S : Symbols) : S.length * 32 ≤ minAlloc s S := by
  have := le_fullCapacity (show 0 < 16 by decide) S.length
  unfold minAlloc sizeofSymbol
  omega

/-- The symbols, the columns and the charge of a dictionary, without its hash table. -/
structure Dictionary.Core (d : Dictionary) (S : Symbols) : Prop where
  symbols : d.symbols = Symbols.numberFrom [] S
  length_columns : d.columns.length = d.schema.fieldCount
  indices : ∀ f < d.schema.fieldCount, (d.column f).indices = S.positions f
  nodup : S.Nodup
  valid : ∀ x ∈ S, SymbolOk d.schema x
  capacity : S.length ≤ d.capacity ∧ Doubling 16 d.capacity
  slots : Doubling 32 d.slots.length
  columnCapacity : ∀ f < d.schema.fieldCount,
    (S.column f).length ≤ (d.column f).capacity ∧ Doubling 8 (d.column f).capacity
  allocated : d.allocatedBytes = sizeofDictionary + d.schema.fieldCount * sizeofColumn +
    d.capacity * sizeofSymbol + d.slots.length * sizeofSlot +
    (∑ f ∈ Finset.range d.schema.fieldCount, (d.column f).capacity) * sizeofSlot + stringBytes S
  budget : d.allocatedBytes ≤ d.limit

/-- **The representation invariant**: the dictionary stands for the symbols `S`. The hash table has
room and reaches every symbol; there is none before the first symbol. -/
structure Dictionary.Sound (d : Dictionary) (S : Symbols) : Prop extends d.Core S where
  table : (d.slots = [] ∧ S = []) ∨
    (OpenAddressing.Chained (S.map fun x ↦ symbolHash x.1 x.2) d.slots ∧
      2 * S.length ≤ d.slots.length ∧ 0 < d.slots.length)

/-- The invariant, for a dictionary whose budget is one that the engine's options allow. Identifiers
never run out under it. -/
structure Dictionary.Rep (d : Dictionary) (S : Symbols) : Prop extends d.Sound S where
  limit_le : d.limit ≤ 64 * 1024 * 1024

/-- The arrays are those of a dictionary filled from scratch. -/
structure Dictionary.Tight (d : Dictionary) (S : Symbols) : Prop where
  capacity : d.capacity = fullCapacity 16 S.length
  slots : d.slots.length = fullSlots S.length
  columns : ∀ f < d.schema.fieldCount, (d.column f).capacity = fullCapacity 8 (S.column f).length

variable {d : Dictionary} {S : Symbols}

/-- **A live dictionary is charged at least what a replay of its symbols is.** -/
theorem Dictionary.Sound.minAlloc_le (h : d.Sound S) : minAlloc d.schema S ≤ d.allocatedBytes := by
  have hslots : 2 * S.length ≤ d.slots.length := by
    rcases h.table with ⟨hnil, rfl⟩ | ⟨-, hle, -⟩
    · simp
    · exact hle
  have hsum : ∑ f ∈ Finset.range d.schema.fieldCount, fullCapacity 8 (S.column f).length ≤
      ∑ f ∈ Finset.range d.schema.fieldCount, (d.column f).capacity :=
    Finset.sum_le_sum fun f hf ↦ by
      obtain ⟨hle, hdouble⟩ := h.columnCapacity f (Finset.mem_range.1 hf)
      exact fullCapacity_le hdouble hle
  have h1 := fullCapacity_le h.capacity.2 h.capacity.1
  have h2 := fullSlots_le h.slots hslots
  rw [h.allocated, minAlloc]
  unfold sizeofSymbol sizeofSlot
  omega

theorem Dictionary.Sound.allocated_eq (h : d.Sound S) (ht : d.Tight S) :
    d.allocatedBytes = minAlloc d.schema S := by
  rw [h.allocated, minAlloc, ht.capacity, ht.slots, Finset.sum_congr rfl fun f hf ↦
    ht.columns f (Finset.mem_range.1 hf)]

/-! ### Growing and pushing keep the invariant -/

theorem getD_modify {l : List SymbolColumn} {i : ℕ} (hi : i < l.length)
    (g : SymbolColumn → SymbolColumn) (j : ℕ) :
    (l.modify i g).getD j default = if j = i then g (l.getD i default) else l.getD j default := by
  rw [getD_eq_getElem?_getD, getElem?_modify]
  by_cases hj : j = i
  · subst hj
    simp [getElem?_eq_getElem hi]
  · simp [hj, Ne.symm hj, getD_eq_getElem?_getD]

/-- Changing one summand. -/
theorem sum_range_change {n i : ℕ} (hi : i < n) (g g' : ℕ → ℕ) (hne : ∀ f, f ≠ i → g' f = g f) :
    ∑ f ∈ Finset.range n, g' f + g i = ∑ f ∈ Finset.range n, g f + g' i := by
  have hmem : i ∈ Finset.range n := Finset.mem_range.2 hi
  have hrest : ∑ f ∈ (Finset.range n).erase i, g' f = ∑ f ∈ (Finset.range n).erase i, g f :=
    Finset.sum_congr rfl fun f hf ↦ hne f (Finset.ne_of_mem_erase hf)
  rw [← Finset.add_sum_erase _ g' hmem, ← Finset.add_sum_erase _ g hmem, hrest]
  ring

namespace Dictionary

/-- A table of hash slots filled from the symbols. -/
theorem Sound.rehashed (h : d.Sound S) {n : ℕ} (hn : Doubling 32 n) (hpos : 0 < n)
    (hle : 2 * S.length ≤ n) :
    OpenAddressing.Chained (S.map fun x ↦ symbolHash x.1 x.2)
      (OpenAddressing.fill (List.replicate n 0) 0 (d.symbols.map (·.hash))) := by
  rw [h.symbols, Symbols.map_hash_numberFrom]
  exact OpenAddressing.chained_fill (Doubling.two_pow (j := 5) hn (by omega)) (by simp; omega)

variable {c field : ℕ}

theorem Sound.withCapacity (h : d.Sound S) (hle : d.capacity ≤ c) (hc : Doubling 16 c)
    (hbudget : d.allocatedBytes + (c - d.capacity) * sizeofSymbol ≤ d.limit) :
    (d.withCapacity c).Sound S where
  symbols := h.symbols
  length_columns := h.length_columns
  indices := h.indices
  nodup := h.nodup
  valid := h.valid
  capacity := ⟨h.capacity.1.trans hle, hc⟩
  slots := h.slots
  columnCapacity := h.columnCapacity
  allocated := by
    have := h.allocated
    simp only [Dictionary.withCapacity, Dictionary.column, sizeofSymbol] at this ⊢
    omega
  budget := hbudget
  table := h.table

theorem withSlots_eq (d : Dictionary) {n : ℕ} (hn : 0 < n) :
    d.withSlots n = { d with
      allocatedBytes := d.allocatedBytes + (n - d.slots.length) * sizeofSlot
      slots := OpenAddressing.fill (List.replicate n 0) 0 (d.symbols.map (·.hash)) } := by
  unfold Dictionary.withSlots Dictionary.rehash
  rw [if_neg (by simp; omega)]
  simp

theorem Sound.withSlots (h : d.Sound S) {n : ℕ} (hle : d.slots.length ≤ n) (hn : Doubling 32 n)
    (hpos : 0 < n) (hroom : 2 * S.length ≤ n)
    (hbudget : d.allocatedBytes + (n - d.slots.length) * sizeofSlot ≤ d.limit) :
    (d.withSlots n).Sound S := by
  rw [withSlots_eq d hpos]
  refine ⟨⟨h.symbols, h.length_columns, h.indices, h.nodup, h.valid, h.capacity,
    ?_, h.columnCapacity, ?_, hbudget⟩, .inr ⟨?_, ?_, ?_⟩⟩
  rotate_left 2
  · exact h.rehashed hn hpos hroom
  · simpa using hroom
  · simpa using hpos
  · simpa using hn
  · have := h.allocated
    simp only [Dictionary.column, OpenAddressing.length_fill, length_replicate, sizeofSlot]
      at this ⊢
    omega

theorem column_withColumn (d : Dictionary) (hf : field < d.columns.length) (f : ℕ) :
    (d.withColumn field c).column f =
      if f = field then { d.column field with capacity := c } else d.column f :=
  getD_modify hf _ f

theorem Sound.withColumn (h : d.Sound S) (hf : field < d.schema.fieldCount)
    (hle : (d.column field).capacity ≤ c) (hc : Doubling 8 c)
    (hbudget : d.allocatedBytes + (c - (d.column field).capacity) * sizeofSlot ≤ d.limit) :
    (d.withColumn field c).Sound S := by
  have hcol := column_withColumn d (c := c) (show field < d.columns.length by
    rw [h.length_columns]; exact hf)
  refine ⟨⟨h.symbols, ?_, fun f hf' ↦ ?_, h.nodup, h.valid, h.capacity, h.slots,
    fun f hf' ↦ ?_, ?_, hbudget⟩, h.table⟩
  · rw [Dictionary.withColumn]
    simpa using h.length_columns
  · rw [hcol]
    split
    next heq => rw [heq]; exact h.indices field hf
    next => exact h.indices f hf'
  · rw [hcol]
    split
    next heq => rw [heq]; exact ⟨(h.columnCapacity field hf).1.trans hle, hc⟩
    next => exact h.columnCapacity f hf'
  · have hsum := sum_range_change hf (fun f ↦ (d.column f).capacity)
      (fun f ↦ ((d.withColumn field c).column f).capacity)
      (fun f hne ↦ by rw [hcol, if_neg hne])
    rw [hcol, if_pos rfl] at hsum
    have := h.allocated
    simp only [Dictionary.withColumn] at this hsum ⊢
    unfold sizeofSlot at *
    omega

theorem column_push (d : Dictionary) (data : Bytes) (hf : field < d.columns.length)
    (f : ℕ) : (d.push field data).column f = if f = field then
      { d.column field with indices := (d.column field).indices ++ [d.count] } else d.column f :=
  getD_modify hf _ f

theorem Sound.count_eq (h : d.Sound S) : d.count = S.length := by
  rw [Dictionary.count, h.symbols, Symbols.length_numberFrom]

theorem Sound.length_indices (h : d.Sound S) (hf : field < d.schema.fieldCount) :
    (d.column field).indices.length = (S.column field).length := by
  rw [h.indices field hf, Symbols.length_positions]

/-- **Pushing** a new symbol, once the arrays have room for it. -/
theorem Sound.push (h : d.Sound S) {data : Bytes} (hok : SymbolOk d.schema (field, data))
    (hnew : (field, data) ∉ S) (hcap : S.length + 1 ≤ d.capacity)
    (hslots : 2 * (S.length + 1) ≤ d.slots.length)
    (hcolumn : (S.column field).length + 1 ≤ (d.column field).capacity)
    (hbudget : d.allocatedBytes + (data.length + 1) ≤ d.limit) :
    (d.push field data).Sound (S ++ [(field, data)]) := by
  have hf : field < d.schema.fieldCount := hok.2.1
  have hcol := column_push d data (show field < d.columns.length by
    rw [h.length_columns]; exact hf)
  have hcapacity (f : ℕ) : ((d.push field data).column f).capacity = (d.column f).capacity := by
    rw [hcol]
    split
    next heq => rw [heq]
    next => rfl
  have hlen (f : ℕ) : (Symbols.column (S ++ [(field, data)]) f).length =
      (S.column f).length + if field = f then 1 else 0 := by
    rw [Symbols.column_append, Symbols.column_singleton, length_append]
    split <;> rfl
  refine ⟨⟨?_, ?_, fun f hf' ↦ ?_, ?_, fun x hx ↦ ?_, ⟨?_, h.capacity.2⟩, ?_,
    fun f hf' ↦ ?_, ?_, hbudget⟩, .inr ⟨?_, ?_, ?_⟩⟩
  · show d.symbols ++ [_] = _
    rw [Symbols.numberFrom_append, h.symbols, h.length_indices hf]
    rfl
  · show (d.columns.modify _ _).length = _
    rw [length_modify]
    exact h.length_columns
  · rw [hcol, Symbols.positions_append_singleton]
    by_cases heq : f = field
    · subst heq
      rw [if_pos rfl, if_pos rfl, ← h.indices f hf', ← h.count_eq]
    · rw [if_neg heq, if_neg (Ne.symm heq), append_nil]
      exact h.indices f hf'
  · rw [← Symbols.define_of_notMem hnew]
    exact Symbols.nodup_define h.nodup _
  · rcases mem_append.1 hx with hx | hx
    · exact h.valid x hx
    · rw [mem_singleton.1 hx]
      exact hok
  · show (S ++ [(field, data)]).length ≤ d.capacity
    simpa using hcap
  · show Doubling 32 (OpenAddressing.insert d.slots _ _).length
    rw [OpenAddressing.length_insert]
    exact h.slots
  · rw [hcapacity, hlen]
    refine ⟨?_, (h.columnCapacity f hf').2⟩
    have := (h.columnCapacity f hf').1
    split
    next heq => subst heq; exact hcolumn
    next => exact this
  · have hsum : ∑ f ∈ Finset.range d.schema.fieldCount, ((d.push field data).column f).capacity =
        ∑ f ∈ Finset.range d.schema.fieldCount, (d.column f).capacity :=
      Finset.sum_congr rfl fun f _ ↦ hcapacity f
    have hstrings : stringBytes (S ++ [(field, data)]) = stringBytes S + (data.length + 1) := by
      simp [stringBytes]
    have := h.allocated
    show d.allocatedBytes + _ = _ + d.schema.fieldCount * _ + d.capacity * _ +
      (OpenAddressing.insert d.slots _ _).length * _ + (∑ f ∈ Finset.range d.schema.fieldCount, _) * _ + _
    rw [hsum, hstrings, OpenAddressing.length_insert]
    omega
  · rcases h.table with ⟨hnil, -⟩ | ⟨hchain, -, -⟩
    · rw [hnil] at hslots
      simp at hslots
    · have := hchain.insert (by simp; omega) (symbolHash field data)
      rw [map_append]
      simpa [Dictionary.push, h.count_eq] using this
  · show 2 * (S ++ [(field, data)]).length ≤ (OpenAddressing.insert d.slots _ _).length
    simpa using hslots
  · show 0 < (OpenAddressing.insert d.slots _ _).length
    rw [OpenAddressing.length_insert]
    omega

/-- **What the lookup finds.** -/
theorem Sound.lookup_eq (h : d.Sound S) (field : ℕ) (data : Bytes) :
    (∃ i, S[i]? = some (field, data) ∧ d.lookup field data = some (i + 1)) ∨
      (field, data) ∉ S ∧ d.lookup field data = some 0 := by
  unfold Dictionary.lookup
  rcases h.table with ⟨hnil, rfl⟩ | ⟨hchain, hroom, hpos⟩
  · exact .inr ⟨by simp, by simp [hnil]⟩
  rw [if_pos (by omega)]
  have hsymbol (i : ℕ) (hi : i < S.length) :
      d.isAt field data i = decide (S[i] = (field, data)) := by
    rw [Dictionary.isAt, h.symbols, Symbols.getElem?_numberFrom [] (getElem?_eq_getElem hi)]
    rw [Bool.eq_iff_iff]
    simp only [Bool.and_eq_true, decide_eq_true_eq]
    constructor
    · rintro ⟨⟨-, hfield⟩, hdata⟩
      exact Prod.ext hfield hdata
    · intro heq
      rw [heq]
      exact ⟨⟨rfl, rfl⟩, rfl⟩
  have hhash (i : ℕ) (hi : i < (S.map fun x ↦ symbolHash x.1 x.2).length)
      (hsame : d.isAt field data i = true) :
      (S.map fun x ↦ symbolHash x.1 x.2)[i] = symbolHash field data := by
    rw [hsymbol i (by simpa using hi), decide_eq_true_eq] at hsame
    rw [getElem_map, hsame]
  rcases OpenAddressing.find_spec hchain (by simp; omega) hhash with
    ⟨i, hi, hsame, hfind⟩ | ⟨hnone, hfind⟩
  · rw [length_map] at hi
    rw [hsymbol i hi, decide_eq_true_eq] at hsame
    exact .inl ⟨i, by rw [getElem?_eq_getElem hi, hsame], hfind⟩
  · refine .inr ⟨fun hmem ↦ ?_, hfind⟩
    obtain ⟨i, hi, heq⟩ := getElem_of_mem hmem
    have := hnone i (by simpa using hi)
    rw [hsymbol i hi, heq] at this
    simp at this

end Dictionary

/-! ### Interning -/

/-- What `wadb_dictionary_intern` leaves, from a dictionary standing for `S`. It never ends the
process, and it fails for an argument it rejects, for memory, for the budget, or when there are no more
identifiers. -/
def InternSound (env : Env Path Dir) (d : Dictionary) (S : Symbols) (x : ℕ × Bytes) :
    Exit Error ℕ → Dictionary → Prop
  | .ok id, d' => d'.Sound (S.define x) ∧ id = (S.define x).idOf x.1 x.2 ∧ SymbolOk d.schema x ∧
      d'.schema = d.schema ∧ d'.limit = d.limit ∧ (d.Tight S → d'.Tight (S.define x)) ∧
      (x ∈ S → d' = d)
  | .fail e, d' => d'.Sound S ∧ d'.schema = d.schema ∧ d'.limit = d.limit ∧
      (e.code = .invalid ∧ ¬ SymbolOk d.schema x ∨
        SymbolOk d.schema x ∧ x ∉ S ∧ e.code = .nomem ∧ ¬ env.Calm ∨
        SymbolOk d.schema x ∧ x ∉ S ∧ e.code = .limit ∧
          (uint32Max ≤ S.length ∨ (d.Tight S → d.limit < minAlloc d.schema (S ++ [x]))))
  | .killed, _ => False

/-- What it leaves under a budget that the options allow. -/
def InternPost (env : Env Path Dir) (d : Dictionary) (S : Symbols) (x : ℕ × Bytes) :
    Exit Error ℕ → Dictionary → Prop
  | .ok id, d' => d'.Rep (S.define x) ∧ id = (S.define x).idOf x.1 x.2 ∧ SymbolOk d.schema x ∧
      d'.schema = d.schema ∧ d'.limit = d.limit ∧ (d.Tight S → d'.Tight (S.define x))
  | .fail e, d' => d'.Rep S ∧ d'.schema = d.schema ∧ d'.limit = d.limit ∧
      (e.code = .invalid ∧ ¬ SymbolOk d.schema x ∨
        SymbolOk d.schema x ∧ e.code = .nomem ∧ ¬ env.Calm ∨
        SymbolOk d.schema x ∧ x ∉ S ∧ e.code = .limit ∧
          (d.Tight S → d.limit < minAlloc d.schema (S ++ [x])))
  | .killed, _ => False

variable {env : Env Path Dir} {fs : Files} {n : ℕ}

/-- Growing one array: it happens, or memory ran out and nothing changed. -/
theorem wp_growBy {needed : Bool} {message : String} {f : Dictionary → Dictionary}
    {Q : Exit Error Unit → Files → Dictionary → Prop}
    (hok : Q (.ok ()) fs (if needed then f d else d))
    (hno : ¬ env.Calm → Q (.fail ⟨.nomem, message⟩) fs d) :
    wp (growBy needed message f) env Q ⟨fs, n, d⟩ := by
  unfold growBy
  cases needed with
  | false => exact hok
  | true => exact wp_bind (wp_allocOr (fun _ ↦ hok) hno)

theorem minAlloc_append {s : Schema} {x : ℕ × Bytes} (hx : x.1 < s.fieldCount) :
    minAlloc s (S ++ [x]) + fullCapacity 16 S.length * sizeofSymbol +
        fullSlots S.length * sizeofSlot + fullCapacity 8 (S.column x.1).length * sizeofSlot =
      minAlloc s S + grown S.length (fullCapacity 16 S.length) 16 * sizeofSymbol +
        grownSlots S.length (fullSlots S.length) * sizeofSlot +
        grown (S.column x.1).length (fullCapacity 8 (S.column x.1).length) 8 * sizeofSlot +
        (x.2.length + 1) := by
  have hcol (f : ℕ) : (Symbols.column (S ++ [x]) f).length =
      (S.column f).length + if x.1 = f then 1 else 0 := by
    rw [Symbols.column_append, Symbols.column_singleton, length_append]
    split <;> rfl
  have hsum := sum_range_change hx (fun f ↦ fullCapacity 8 (S.column f).length)
    (fun f ↦ fullCapacity 8 (Symbols.column (S ++ [x]) f).length)
    (fun f hne ↦ by rw [hcol, if_neg (Ne.symm hne), add_zero])
  simp only [hcol x.1, if_pos, fullCapacity] at hsum
  have hstrings : stringBytes (S ++ [x]) = stringBytes S + (x.2.length + 1) := by
    simp [stringBytes]
  unfold minAlloc
  rw [length_append, length_singleton, hstrings, fullCapacity, fullSlots]
  unfold sizeofSlot at *
  omega

/-- A dictionary standing for `S`, with the sizes of its arrays and its charge. -/
structure Shape (s : Schema) (limit : ℕ) (S : Symbols) (d : Dictionary) (capacity slots : ℕ)
    (columns : ℕ → ℕ) (allocated : ℕ) : Prop where
  rep : d.Sound S
  schema_eq : d.schema = s
  limit_eq : d.limit = limit
  capacity_eq : d.capacity = capacity
  slots_eq : d.slots.length = slots
  columns_eq : ∀ f, (d.column f).capacity = columns f
  allocated_eq : d.allocatedBytes = allocated

namespace Shape

variable {s : Schema} {limit capacity slots allocated c : ℕ} {columns : ℕ → ℕ}

section

variable (h : Shape s limit S d capacity slots columns allocated)
include h

theorem growCapacity (hle : capacity ≤ c)
    (hc : Doubling 16 c) (hbudget : allocated + (c - capacity) * sizeofSymbol ≤ limit) :
    Shape s limit S (if decide (c ≠ capacity) then d.withCapacity c else d) c slots columns
      (allocated + (c - capacity) * sizeofSymbol) := by
  obtain ⟨hrep, rfl, rfl, rfl, rfl, hcol, rfl⟩ := h
  by_cases heq : c = d.capacity
  · subst heq
    simpa using ⟨hrep, rfl, rfl, rfl, rfl, hcol, rfl⟩
  · rw [if_pos (by simpa using heq)]
    exact ⟨hrep.withCapacity hle hc hbudget, rfl, rfl, rfl, rfl, hcol, rfl⟩

theorem growSlots (hle : slots ≤ c) (hc : Doubling 32 c) (hpos : 0 < c) (hroom : 2 * S.length ≤ c)
    (hbudget : allocated + (c - slots) * sizeofSlot ≤ limit) :
    Shape s limit S (if decide (c ≠ slots) then d.withSlots c else d) capacity c columns
      (allocated + (c - slots) * sizeofSlot) := by
  obtain ⟨hrep, rfl, rfl, rfl, rfl, hcol, rfl⟩ := h
  by_cases heq : c = d.slots.length
  · subst heq
    simpa using ⟨hrep, rfl, rfl, rfl, rfl, hcol, rfl⟩
  · rw [if_pos (by simpa using heq)]
    have hrep' := hrep.withSlots hle hc hpos hroom hbudget
    rw [Dictionary.withSlots_eq d hpos] at hrep' ⊢
    exact ⟨hrep', rfl, rfl, rfl, by simp, hcol, rfl⟩

theorem growColumn {field : ℕ}
    (hf : field < s.fieldCount) (hle : columns field ≤ c) (hc : Doubling 8 c)
    (hbudget : allocated + (c - columns field) * sizeofSlot ≤ limit) :
    Shape s limit S (if decide (c ≠ columns field) then d.withColumn field c else d) capacity slots
      (Function.update columns field c) (allocated + (c - columns field) * sizeofSlot) := by
  obtain ⟨hrep, rfl, rfl, rfl, rfl, hcol, rfl⟩ := h
  rw [← hcol field] at hle hbudget ⊢
  by_cases heq : c = (d.column field).capacity
  · subst heq
    refine ⟨by simpa using hrep, by simp, by simp, by simp, by simp, fun f ↦ ?_, by simp⟩
    by_cases hff : f = field
    · subst hff
      simp
    · simp [hff, hcol]
  · rw [if_pos (by simpa using heq)]
    refine ⟨hrep.withColumn hf hle hc hbudget, rfl, rfl, rfl, rfl, fun f ↦ ?_, rfl⟩
    rw [Dictionary.column_withColumn d (by rw [hrep.length_columns]; exact hf)]
    by_cases hff : f = field
    · subst hff
      simp
    · simp [hff, hcol]

end

end Shape

/-- Pushing onto the grown arrays is what interning a new symbol leaves. -/
theorem internSound_push (h : d.Sound S) {field : ℕ} {data : Bytes} {d' : Dictionary} {a : ℕ}
    (hok : SymbolOk d.schema (field, data)) (hnew : (field, data) ∉ S)
    (hshape : Shape d.schema d.limit S d' (grown S.length d.capacity 16)
      (grownSlots S.length d.slots.length) (Function.update (fun f ↦ (d.column f).capacity) field
        (grown (S.column field).length (d.column field).capacity 8)) a)
    (hbudget : a + (data.length + 1) ≤ d.limit) :
    InternSound env d S (field, data) (.ok ((S.column field).length + 1)) (d'.push field data) := by
  have hf : field < d.schema.fieldCount := hok.2.1
  have hroom : 2 * S.length ≤ d.slots.length := by
    rcases h.table with ⟨-, rfl⟩ | ⟨-, hle, -⟩
    · simp
    · exact hle
  obtain ⟨hrep, hschema, hlimit, hcap, hslots, hcol, halloc⟩ := hshape
  have hdefine := Symbols.define_of_notMem hnew
  have hcolumns (f : ℕ) : ((d'.push field data).column f).capacity = (d'.column f).capacity := by
    rw [Dictionary.column_push d' data (by rw [hrep.length_columns, hschema]; exact hf)]
    split
    next heq => rw [heq]
    next => rfl
  refine ⟨?_, ?_, hok, hschema, hlimit, fun ht ↦ ⟨?_, ?_, fun f hf' ↦ ?_⟩, fun hmem ↦ absurd hmem hnew⟩
  · rw [hdefine]
    refine hrep.push (by rw [hschema]; exact hok) hnew ?_ ?_ ?_ (by rw [halloc, hlimit]; exact hbudget)
    · rw [hcap]
      exact (le_grown 16 h.capacity.1).2 (by decide)
    · rw [hslots]
      exact (le_grownSlots hroom).2
    · rw [hcol, Function.update_self]
      exact (le_grown 8 (h.columnCapacity field hf).1).2 (by decide)
  · rw [hdefine, Symbols.idOf_append_of_notMem hnew]
  · show d'.capacity = _
    rw [hcap, hdefine, ht.capacity, length_append, length_singleton, fullCapacity]
  · show (OpenAddressing.insert d'.slots _ _).length = _
    rw [OpenAddressing.length_insert, hslots, hdefine, ht.slots, length_append,
      length_singleton, fullSlots]
  · rw [hcolumns, hcol, hdefine, Symbols.column_append, Symbols.column_singleton]
    by_cases heq : f = field
    · subst heq
      rw [Function.update_self, if_pos rfl, length_append, length_singleton, fullCapacity,
        ht.columns f hf]
    · rw [Function.update_of_ne heq, if_neg (Ne.symm heq), append_nil]
      refine ht.columns f ?_
      rw [← hschema]
      exact hf'

/-- **Adding** a symbol that is not defined. -/
theorem wp_dictionaryAdd (h : d.Sound S) {field : ℕ} {data : Bytes}
    (hok : SymbolOk d.schema (field, data)) (hnew : (field, data) ∉ S) :
    wp (dictionaryAdd field data) env
      (fun e fs' d' ↦ fs' = fs ∧ InternSound env d S (field, data) e d') ⟨fs, n, d⟩ := by
  have hf : field < d.schema.fieldCount := hok.2.1
  have hlen := h.length_indices hf
  have hcount := h.count_eq
  have hdefine := Symbols.define_of_notMem hnew
  have hcap := le_grown 16 h.capacity.1
  have hcolCap := h.columnCapacity field hf
  have hcol := le_grown 8 hcolCap.1
  have hroom : 2 * S.length ≤ d.slots.length := by
    rcases h.table with ⟨-, rfl⟩ | ⟨-, hle, -⟩
    · simp
    · exact hle
  have hslots := le_grownSlots hroom
  have hcolumn : (S.column field).length ≤ S.length := by
    rw [Symbols.column, length_map]
    exact length_filter_le _ _
  unfold dictionaryAdd
  refine wp_bind ?_
  simp only [wp_get, andThen, hcount, hlen]
  intro n
  refine wp_bind (wp_require ?_ fun hno ↦ ?_)
  swap
  · refine ⟨rfl, h, rfl, rfl, .inr (.inr ⟨hok, hnew, rfl, .inl ?_⟩)⟩
    simp at hno
    omega
  intro _ n
  refine wp_bind (wp_require ?_ fun hno ↦ ?_)
  swap
  · -- the budget does not allow the growth; a tight dictionary has no room to spare
    refine ⟨rfl, h, rfl, rfl, .inr (.inr ⟨hok, hnew, rfl, .inr fun ht ↦ ?_⟩)⟩
    have hmin := minAlloc_append (S := S) (x := (field, data)) hf
    have halloc := h.allocated_eq ht
    have hbudget := h.budget
    simp only [decide_eq_false_iff_not, ht.capacity, ht.slots, ht.columns field hf] at hno hcap hslots hcol
    simp only at hmin
    have := hcap.1
    have := hslots.1
    have := hcol.1
    unfold sizeofSymbol sizeofSlot at *
    omega
  intro hbudget n
  rw [decide_eq_true_eq] at hbudget
  have halloc := h.budget
  have hnomem {e : Error} {d' : Dictionary} (hcode : e.code = .nomem) (hcalm : ¬ env.Calm)
      {c sl a : ℕ} {k : ℕ → ℕ} (hshape : Shape d.schema d.limit S d' c sl k a) :
      InternSound env d S (field, data) (.fail e) d' :=
    ⟨hshape.rep, hshape.schema_eq, hshape.limit_eq, .inr (.inl ⟨hok, hnew, hcode, hcalm⟩)⟩
  have h0 : Shape d.schema d.limit S d d.capacity d.slots.length (fun f ↦ (d.column f).capacity)
      d.allocatedBytes := ⟨h, rfl, rfl, rfl, rfl, fun _ ↦ rfl, rfl⟩
  refine wp_bind (wp_growBy (fun n ↦ ?_) fun hcalm ↦ ⟨rfl, hnomem rfl hcalm h0⟩)
  have h1 := h0.growCapacity hcap.1 (h.capacity.2.grown _) (by omega)
  refine wp_bind (wp_growBy (fun n ↦ ?_) fun hcalm ↦ ⟨rfl, hnomem rfl hcalm h1⟩)
  have h2 := h1.growSlots hslots.1 (h.slots.grownSlots _) (by omega) (by omega) (by omega)
  refine wp_bind (wp_growBy (fun n ↦ ?_) fun hcalm ↦ ⟨rfl, hnomem rfl hcalm h2⟩)
  have h3 := h2.growColumn hf hcol.1 (hcolCap.2.grown _) (by omega)
  refine wp_bind (wp_allocOr (fun n ↦ ?_) fun hcalm ↦ ⟨rfl, hnomem rfl hcalm h3⟩)
  refine wp_bind ?_
  simp only [wp_modify, andThen, wp_pure]
  exact fun _ ↦ ⟨trivial, internSound_push h hok hnew h3 (by omega)⟩

/-- **Interning** a symbol. -/
theorem wp_dictionaryIntern_sound (h : d.Sound S) (field : ℕ) (data : Bytes) :
    wp (dictionaryIntern field data) env
      (fun e fs' d' ↦ fs' = fs ∧ InternSound env d S (field, data) e d') ⟨fs, n, d⟩ := by
  unfold dictionaryIntern
  refine wp_bind ?_
  simp only [wp_get, andThen]
  intro n
  refine wp_bind (wp_require (fun hargs n ↦ ?_) fun hargs ↦ ?_)
  swap
  · refine ⟨rfl, h, rfl, rfl, .inl ⟨rfl, fun hok ↦ ?_⟩⟩
    obtain ⟨h1, h2, h3, h4, h5⟩ := hok
    simp [h1, h2, h3, h4, h5] at hargs
  have hok : SymbolOk d.schema (field, data) := by
    simp only [Bool.and_eq_true, decide_eq_true_eq] at hargs
    exact ⟨hargs.1.1.1.1, hargs.1.1.1.2, hargs.1.1.2, hargs.1.2, hargs.2⟩
  rcases h.lookup_eq field data with ⟨i, hi, hlookup⟩ | ⟨hnew, hlookup⟩
  · have hmem : (field, data) ∈ S := mem_of_getElem? hi
    rw [hlookup]
    simp only [h.symbols, Symbols.getElem?_numberFrom [] hi, nil_append]
    rw [wp_pure, InternSound, Symbols.define_of_mem hmem]
    exact ⟨rfl, h, (Symbols.idOf_getElem h.nodup hi).symm, hok, rfl, rfl, id, fun _ ↦ rfl⟩
  · rw [hlookup]
    exact wp_dictionaryAdd h hok hnew

/-- Under a budget that the options allow, memory runs out before the identifiers do. -/
theorem InternSound.post (h : d.Rep S) {x : ℕ × Bytes} {e : Exit Error ℕ} {d' : Dictionary}
    (hpost : InternSound env d S x e d') : InternPost env d S x e d' := by
  cases e with
  | ok id =>
    obtain ⟨hsound, hid, hok, hschema, hlimit, htight, -⟩ := hpost
    exact ⟨⟨hsound, by rw [hlimit]; exact h.limit_le⟩, hid, hok, hschema, hlimit, htight⟩
  | fail e =>
    obtain ⟨hsound, hschema, hlimit, hwhy⟩ := hpost
    refine ⟨⟨hsound, by rw [hlimit]; exact h.limit_le⟩, hschema, hlimit, hwhy.imp_right ?_⟩
    rintro (⟨hok, -, hcode, hcalm⟩ | ⟨hok, hnew, hcode, hmany | htight⟩)
    · exact .inl ⟨hok, hcode, hcalm⟩
    · have h1 := h.capacity.1
      have h2 := h.allocated
      have h3 := h.budget
      have h4 := h.limit_le
      unfold uint32Max at hmany
      unfold sizeofSymbol at h2
      omega
    · exact .inr ⟨hok, hnew, hcode, htight⟩
  | killed => exact hpost

theorem wp_dictionaryIntern (h : d.Rep S) (field : ℕ) (data : Bytes) :
    wp (dictionaryIntern field data) env
      (fun e fs' d' ↦ fs' = fs ∧ InternPost env d S (field, data) e d') ⟨fs, n, d⟩ :=
  (wp_dictionaryIntern_sound h.toSound field data).mono fun _ _ _ hpost ↦ ⟨hpost.1, hpost.2.post h⟩

end WebAnalyticsDb
