import Mathlib.Algebra.Order.Floor.Div
import Mathlib.Data.Nat.Log
import Mathlib.GroupTheory.GroupAction.Ring
import WebAnalyticsDb.Core.Basic

/-!
# Latency histograms

`core/stats.c` counts durations in 64 bins, by the number of halvings, rounded up, that bring a duration in
microseconds to one. Percentiles are read off the bins.

* **A bin is a logarithm.** The halving loop computes `Nat.clog 2`, so bin `i` has the samples above
  `2 ^ (i - 1)` and up to `2 ^ i` microseconds, and the first `i + 1` bins together have those up to `2 ^ i`
  (`Histogram.Tallies`).
* **A percentile is a first crossing.** The loop stops at the first bin up to which there are at least as many
  samples as the rank (`rankLoop_eq`). The rank is computed by parts, and each of its operations stays inside
  64 bits (`rank_eq`).
-/

namespace WebAnalyticsDb

open List

/-- `wadb_histogram`. -/
structure Histogram where
  count : ℕ
  bins : List ℕ
  maxUs : ℕ
deriving DecidableEq, Repr

/-- A duration in microseconds, rounded up. -/
def micros (ns : ℕ) : ℕ := u64 (ns / 1000 + if ns % 1000 ≠ 0 then 1 else 0)

/-- One round of the halving loop. -/
def halveUp (bound : ℕ) : ℕ := u64 (bound / 2 + if bound % 2 ≠ 0 then 1 else 0)

/-- The halving loop of `wadb_histogram_record`. -/
def binLoop (bound bin : ℕ) : ℕ :=
  if bound > 1 then binLoop (halveUp bound) (bin + 1) else bin
termination_by bound
decreasing_by
  refine (Nat.mod_le _ _).trans_lt ?_
  split <;> omega

namespace Histogram

/-- A histogram without samples. -/
def empty : Histogram := ⟨0, List.replicate 64 0, 0⟩

/-- `wadb_histogram_record`. -/
def record (h : Histogram) (ns : ℕ) : Histogram :=
  let us := micros ns
  let bin := binLoop us 0
  if h.count = uint64Max ∨ h.bins.getD bin 0 = uint64Max then h
  else
    { count := h.count + 1
      bins := h.bins.modify bin (· + 1)
      maxUs := if us > h.maxUs then us else h.maxUs }

end Histogram

/-- The rank of a percentile among `count` samples. -/
def rank (count percent : ℕ) : ℕ :=
  u64 (u64 (count / 100 * percent) + u64 (u64 (count % 100 * percent) + 99) / 100)

/-- The loop of `percentile` from bin `i` on. -/
def rankLoop (target : ℕ) : ℕ → ℕ → List ℕ → ℕ
  | _, _, [] => uint64Max
  | i, seen, b :: bins =>
    let seen := u64 (seen + b)
    if seen ≥ target then 1 <<< i else rankLoop target (i + 1) seen bins

/-- `percentile`. -/
def Histogram.percentile (h : Histogram) (percent : ℕ) : ℕ :=
  if h.count = 0 then 0 else rankLoop (rank h.count percent) 0 0 h.bins

/-- `wadb_latency_stats`. -/
structure LatencyStats where
  count : ℕ
  p50Us : ℕ
  p95Us : ℕ
  p99Us : ℕ
  maxUs : ℕ
deriving DecidableEq, Repr

/-- `summarize`. -/
def Histogram.summarize (h : Histogram) : LatencyStats :=
  ⟨h.count, h.percentile 50, h.percentile 95, h.percentile 99, h.maxUs⟩

/-! ### Bins -/

section Bins

variable {ns us bound bin : ℕ}

theorem micros_eq (h : ns < 2 ^ 64) : micros ns = (ns + 999) / 1000 := by
  unfold micros u64
  split <;> omega

theorem micros_lt : micros ns < 2 ^ 64 := u64_lt _

theorem halveUp_eq (h : bound < 2 ^ 64) : halveUp bound = (bound + 1) / 2 := by
  unfold halveUp u64
  split <;> omega

/-- **The halving loop computes the logarithm**, rounded up. -/
theorem binLoop_eq (h : bound < 2 ^ 64) : binLoop bound bin = bin + Nat.clog 2 bound := by
  induction bound using Nat.strong_induction_on generalizing bin with
  | _ bound ih =>
    rw [binLoop]
    split
    next hlt =>
      have hlog : Nat.clog 2 bound = Nat.clog 2 ((bound + 1) / 2) + 1 := Nat.clog_of_two_le (by decide) hlt
      rw [halveUp_eq h, ih ((bound + 1) / 2) (by omega) (by omega), hlog]
      omega
    next hle => rw [Nat.clog_of_right_le_one (by omega), add_zero]

/-- **The bin of a duration is below 64.** -/
theorem binLoop_micros_lt (h : ns < 2 ^ 64) : binLoop (micros ns) 0 < 64 := by
  rw [binLoop_eq micros_lt, zero_add, micros_eq h]
  refine lt_of_le_of_lt ((Nat.clog_le_iff_le_pow (by decide)).2 (?_ : _ ≤ 2 ^ 63)) (by decide)
  omega

end Bins

/-! ### Samples -/

/-- **The histogram of samples**, which are given in microseconds. -/
structure Histogram.Tallies (h : Histogram) (us : List ℕ) : Prop where
  count : h.count = us.length
  bins : h.bins = (List.range 64).map fun i ↦ us.countP (Nat.clog 2 · = i)
  upper : ∀ u ∈ us, u ≤ h.maxUs
  attained : us = [] ∧ h.maxUs = 0 ∨ h.maxUs ∈ us

section Samples

variable {h : Histogram} {us : List ℕ} {ns : ℕ}

theorem Histogram.tallies_empty : Histogram.empty.Tallies [] where
  count := rfl
  bins := by simp [Histogram.empty, map_const']
  upper := nofun
  attained := .inl ⟨rfl, rfl⟩

/-- One more in a place of a list that is given by a function. -/
theorem modify_map_range {n k : ℕ} (f : ℕ → ℕ) : ((List.range n).map f).modify k (· + 1) =
    (List.range n).map fun i ↦ f i + if k = i then 1 else 0 := by
  refine ext_getElem? fun i ↦ ?_
  rw [getElem?_modify, getElem?_map, getElem?_map]
  by_cases hi : i < n
  · rw [getElem?_range hi]
    split <;> simp [*]
  · rw [getElem?_eq_none (by simpa using hi)]
    split <;> rfl

/-- **One sample.** Counters that are not yet full count it. -/
theorem Histogram.Tallies.record (ht : h.Tallies us) (hns : ns < 2 ^ 64)
    (hlen : us.length < uint64Max) : (h.record ns).Tallies (us ++ [micros ns]) := by
  have hbin : binLoop (micros ns) 0 = Nat.clog 2 (micros ns) := by
    rw [binLoop_eq micros_lt, zero_add]
  have hcount := ht.count
  have hbound : h.bins.getD (binLoop (micros ns) 0) 0 ≤ us.length := by
    rw [ht.bins, getD_eq_getElem?_getD, getElem?_map,
      getElem?_range (binLoop_micros_lt hns)]
    exact countP_le_length
  unfold Histogram.record
  dsimp only
  rw [if_neg (by omega)]
  refine ⟨?_, ?_, fun u hu ↦ ?_, .inr ?_⟩
  · rw [length_append, ← hcount]
    rfl
  · dsimp only
    rw [ht.bins, modify_map_range, hbin]
    refine map_congr_left fun i _ ↦ ?_
    rw [countP_append, countP_singleton]
    simp
  · dsimp only
    rcases mem_append.1 hu with hu | hu
    · have := ht.upper u hu
      split <;> omega
    · rw [mem_singleton.1 hu]
      split <;> omega
  · dsimp only
    split
    · exact mem_append_right _ (mem_singleton.2 rfl)
    next hle =>
      rcases ht.attained with ⟨rfl, hzero⟩ | hmem
      · rw [hzero] at hle ⊢
        exact mem_singleton.2 (by omega)
      · exact mem_append_left _ hmem

/-- The histogram of a sequence of durations. -/
def Histogram.recordAll (ds : List UInt64) : Histogram :=
  ds.foldl (fun h d ↦ h.record d.toNat) Histogram.empty

/-- **A sequence of samples.** -/
theorem Histogram.tallies_recordAll {ds : List UInt64} (hlen : ds.length < 2 ^ 64) :
    (recordAll ds).Tallies (ds.map (micros ·.toNat)) := by
  induction ds using List.reverseRecOn with
  | nil => exact tallies_empty
  | append_singleton ds d ih =>
    rw [length_append, length_singleton] at hlen
    rw [recordAll, foldl_append, map_append]
    refine (ih (by omega)).record d.toNat_lt ?_
    rw [length_map, uint64Max]
    omega

end Samples

/-! ### Percentiles -/

section Percentiles

variable {us : List ℕ} {count percent target i n : ℕ}

/-- **No operation of the rank overflows.** -/
theorem rank_fits (hcount : count < 2 ^ 64) (hpercent : percent ≤ 100) :
    count / 100 * percent < 2 ^ 64 ∧ count % 100 * percent + 99 < 2 ^ 64 ∧
      count / 100 * percent + (count % 100 * percent + 99) / 100 < 2 ^ 64 := by
  have hdiv : count / 100 * percent ≤ count / 100 * 100 := Nat.mul_le_mul_left _ hpercent
  have hmod : count % 100 * percent ≤ count % 100 * 100 := Nat.mul_le_mul_left _ hpercent
  omega

/-- **The rank is the exact ceiling.** -/
theorem rank_eq (hcount : count < 2 ^ 64) (hpercent : percent ≤ 100) :
    rank count percent = (percent * count) ⌈/⌉ 100 := by
  obtain ⟨hdiv, hmod, hsum⟩ := rank_fits hcount hpercent
  have hsplit : percent * count = count % 100 * percent + 100 * (count / 100 * percent) := by
    conv_lhs => rw [← Nat.div_add_mod count 100]
    ring
  rw [rank, u64_of_lt hdiv, u64_of_lt (by omega : count % 100 * percent < 2 ^ 64), u64_of_lt hmod,
    u64_of_lt hsum, Nat.ceilDiv_eq_add_pred_div, hsplit]
  omega

theorem countP_clog_succ : us.countP (Nat.clog 2 · < i + 1) =
    us.countP (Nat.clog 2 · < i) + us.countP (Nat.clog 2 · = i) := by
  induction us with
  | nil => rfl
  | cons u us ih =>
    simp only [countP_cons, ih, decide_eq_true_eq]
    split <;> split <;> split <;> omega

/-- **The loop stops at the first bin** up to which there are `target` samples. The sum that it carries counts
the samples below bin `i` and is not enough. -/
theorem rankLoop_eq (hlen : us.length < 2 ^ 64) (hbelow : us.countP (Nat.clog 2 · < i) < target)
    (henough : target ≤ us.countP (Nat.clog 2 · < i + n)) :
    ∃ j, i ≤ j ∧ j < i + n ∧ rankLoop target i (us.countP (Nat.clog 2 · < i))
        ((List.range' i n).map fun k ↦ us.countP (Nat.clog 2 · = k)) = 2 ^ j ∧
      target ≤ us.countP (Nat.clog 2 · < j + 1) ∧
      ∀ k, i ≤ k → k < j → us.countP (Nat.clog 2 · < k + 1) < target := by
  induction n generalizing i with
  | zero => exact absurd henough (Nat.not_le.2 hbelow)
  | succ n ih =>
    have hsum : u64 (us.countP (Nat.clog 2 · < i) + us.countP (Nat.clog 2 · = i)) =
        us.countP (Nat.clog 2 · < i + 1) := by
      rw [← countP_clog_succ]
      exact u64_of_lt (countP_le_length.trans_lt hlen)
    rw [List.range'_succ, map_cons, rankLoop, hsum]
    by_cases hstop : us.countP (Nat.clog 2 · < i + 1) ≥ target
    · rw [if_pos hstop]
      exact ⟨i, le_rfl, by omega, Nat.one_shiftLeft i, hstop, fun k hk hlt ↦ absurd hlt (Nat.not_lt.2 hk)⟩
    · rw [if_neg hstop]
      obtain ⟨j, hij, hjn, hloop, hreach, hleast⟩ := ih (Nat.lt_of_not_le hstop) (by rwa [Nat.add_right_comm])
      refine ⟨j, by omega, by omega, hloop, hreach, fun k hk hlt ↦ ?_⟩
      rcases Nat.eq_or_lt_of_le hk with rfl | hk
      · exact Nat.lt_of_not_le hstop
      · exact hleast k hk hlt

theorem countP_clog_eq_countP_le : us.countP (Nat.clog 2 · < i + 1) = us.countP (· ≤ 2 ^ i) := by
  refine countP_congr fun u _ ↦ ?_
  rw [decide_eq_true_iff, decide_eq_true_iff, Nat.lt_succ_iff, Nat.clog_le_iff_le_pow (by decide)]

/-- **`2 ^ i` is the least power of two** that bounds as many samples as the percentile asks for. -/
def LeastBound (us : List ℕ) (percent i : ℕ) : Prop :=
  (percent * us.length) ⌈/⌉ 100 ≤ us.countP (· ≤ 2 ^ i) ∧
    ∀ j < i, us.countP (· ≤ 2 ^ j) < (percent * us.length) ⌈/⌉ 100

/-- A higher percentile has no lower bound. -/
theorem LeastBound.le {percent' j : ℕ} (hi : LeastBound us percent i) (hj : LeastBound us percent' j)
    (hle : percent ≤ percent') : i ≤ j := by
  by_contra hlt
  have hrank : (percent * us.length) ⌈/⌉ 100 ≤ (percent' * us.length) ⌈/⌉ 100 := by
    rw [Nat.ceilDiv_eq_add_pred_div, Nat.ceilDiv_eq_add_pred_div]
    have := Nat.mul_le_mul_right us.length hle
    omega
  have := hi.2 j (Nat.lt_of_not_le hlt)
  have := hj.1
  omega

/-- **A percentile of a histogram** bounds the samples from above. -/
theorem Histogram.Tallies.percentile {h : Histogram} (ht : h.Tallies us) (hne : us ≠ [])
    (hlen : us.length < 2 ^ 64) (hus : ∀ u ∈ us, u ≤ 2 ^ 63) (hpos : 0 < percent) (hpercent : percent ≤ 100) :
    ∃ i < 64, h.percentile percent = 2 ^ i ∧ LeastBound us percent i := by
  have hcount : 0 < us.length := length_pos_iff.2 hne
  have hrank := @rank_eq us.length percent hlen hpercent
  have hnone : us.countP (Nat.clog 2 · < 0) = 0 := by simp
  have hall : us.countP (Nat.clog 2 · < 0 + 64) = us.length := by
    rw [show 0 + 64 = 63 + 1 from rfl, countP_clog_eq_countP_le, countP_eq_length]
    exact fun u hu ↦ decide_eq_true (hus u hu)
  have hmul : 0 < percent * us.length := Nat.mul_pos hpos hcount
  have hmul' : percent * us.length ≤ 100 * us.length := Nat.mul_le_mul_right _ hpercent
  have hbelow : us.countP (Nat.clog 2 · < 0) < rank us.length percent := by
    rw [hnone, hrank, Nat.ceilDiv_eq_add_pred_div]
    omega
  have henough : rank us.length percent ≤ us.countP (Nat.clog 2 · < 0 + 64) := by
    rw [hall, hrank, Nat.ceilDiv_eq_add_pred_div]
    omega
  obtain ⟨i, -, hi, hloop, hreach, hleast⟩ := rankLoop_eq hlen hbelow henough
  rw [countP_clog_eq_countP_le, hrank] at hreach
  refine ⟨i, by omega, ?_, hreach, fun j hj ↦ ?_⟩
  · rw [hnone] at hloop
    rw [Histogram.percentile, if_neg (by rw [ht.count]; omega), ht.count, ht.bins, range_eq_range']
    exact hloop
  · rw [← hrank, ← countP_clog_eq_countP_le]
    exact hleast j (Nat.zero_le j) hj

/-- **Percentiles are sound upper bounds.** The samples are durations in microseconds, rounded up. -/
theorem summarize_exact (ds : List UInt64) (hne : ds ≠ []) (hlen : ds.length < 2 ^ 64) :
    let us := ds.map (·.toNat ⌈/⌉ 1000)
    let h := Histogram.recordAll ds
    h.summarize = ⟨ds.length, h.percentile 50, h.percentile 95, h.percentile 99, h.maxUs⟩ ∧
      (∀ percent ∈ [50, 95, 99], ∃ i < 64, h.percentile percent = 2 ^ i ∧ LeastBound us percent i) ∧
      (∀ p ∈ [50, 95, 99], ∀ q ∈ [50, 95, 99], p ≤ q → h.percentile p ≤ h.percentile q) ∧
      IsGreatest {u | u ∈ us} h.maxUs ∧
      (∀ d : UInt64, binLoop (micros d.toNat) 0 < 64) ∧
      ∀ count < 2 ^ 64, ∀ percent ∈ [50, 95, 99],
        rank count percent = (percent * count) ⌈/⌉ 100 ∧ count / 100 * percent < 2 ^ 64 ∧
        count % 100 * percent + 99 < 2 ^ 64 ∧
        count / 100 * percent + (count % 100 * percent + 99) / 100 < 2 ^ 64 := by
  intro us h
  have hmicros : ds.map (micros ·.toNat) = us := by
    refine List.map_congr_left fun d _ ↦ ?_
    rw [micros_eq d.toNat_lt, Nat.ceilDiv_eq_add_pred_div]
    rfl
  have ht : h.Tallies us := hmicros ▸ Histogram.tallies_recordAll hlen
  have hne' : us ≠ [] := fun hnil ↦ hne (List.map_eq_nil_iff.1 hnil)
  have hlen' : us.length < 2 ^ 64 := by rwa [List.length_map]
  have hus : ∀ u ∈ us, u ≤ 2 ^ 63 := by
    intro u hu
    obtain ⟨d, -, rfl⟩ := List.mem_map.1 hu
    have := d.toNat_lt
    rw [Nat.ceilDiv_eq_add_pred_div]
    omega
  have hrange : ∀ percent ∈ [50, 95, 99], 0 < percent ∧ percent ≤ 100 := by decide
  have hbound : ∀ percent ∈ [50, 95, 99], ∃ i < 64, h.percentile percent = 2 ^ i ∧ LeastBound us percent i :=
    fun percent hp ↦ ht.percentile hne' hlen' hus (hrange percent hp).1 (hrange percent hp).2
  have hmono : ∀ p ∈ [50, 95, 99], ∀ q ∈ [50, 95, 99], p ≤ q → h.percentile p ≤ h.percentile q := by
    intro p hp q hq hpq
    obtain ⟨i, -, hi, hleasti⟩ := hbound p hp
    obtain ⟨j, -, hj, hleastj⟩ := hbound q hq
    rw [hi, hj]
    exact Nat.pow_le_pow_right (by decide) (hleasti.le hleastj hpq)
  refine ⟨?_, hbound, hmono, ⟨?_, fun u hu ↦ ht.upper u hu⟩, fun d ↦ binLoop_micros_lt d.toNat_lt,
    fun count hc percent hp ↦ ?_⟩
  · have hcount : h.count = ds.length := by rw [ht.count, List.length_map]
    rw [Histogram.summarize, hcount]
  · exact ht.attained.resolve_left fun hnil ↦ hne' hnil.1
  · exact ⟨rank_eq hc (hrange percent hp).2, rank_fits hc (hrange percent hp).2⟩

/-- Three durations, among them no time at all and the longest time. -/
theorem summarize_exact_three :
    let ds : List UInt64 := [0, 1500, 18446744073709551615]
    ds ≠ [] ∧ ds.length < 2 ^ 64 ∧
      IsGreatest {u | u ∈ ds.map (·.toNat ⌈/⌉ 1000)} (Histogram.recordAll ds).maxUs :=
  ⟨by decide, by decide,
    (summarize_exact [0, 1500, 18446744073709551615] (by decide) (by decide)).2.2.2.1⟩

end Percentiles

end WebAnalyticsDb
