import WebAnalyticsDb.Ledger.Segments

/-!
# The log

The abstract state of a table is its **log**: the segments it ever had, each with the groups committed to
it, retired or not. The log only grows. Three things happen to it: a group is appended to the last
segment, a new empty segment follows, and segments are retired. Sequence numbers are positions in the
log, so none is ever used twice, and the watermarks of the table are its length and its last timestamp.

`Log.Ok` is the invariant: identifiers increase, every segment starts where the one before ended, times
do not decrease, and whatever has rows and precedes a retired segment is retired.
-/

namespace WebAnalyticsDb

open Bytes List

variable {c : Config}

/-- **The log of a table.** -/
abbrev Log (c : Config) : Type := List (LogSegment c)

namespace Log

/-- The groups committed, oldest first. -/
def groups (L : Log c) : List (Group c) := L.flatMap LogSegment.groups

/-- The number of rows ever committed: the last sequence number. -/
def total (L : Log c) : ℕ := rowTotal L.groups

/-- The last timestamp. -/
def time (L : Log c) : ℤ := timeThrough 0 L.groups

/-- The rows ever committed, in sequence order. -/
def records (L : Log c) : List Record := L.groups.flatMap groupRecords

/-- The identifier of the last segment, `prev` without segments. -/
def lastId (prev : ℕ) (L : Log c) : ℕ := (L.getLast?.map LogSegment.id).getD prev

/-- The identifier the next segment may have. -/
def next (L : Log c) : ℕ := L.lastId 0 + 1

/-- The records of the segments. -/
def summaries : Log c → List SegmentMeta
  | [] => []
  | s :: L => s.summary L.isEmpty :: summaries L

/-- The last retired segment. -/
def lastRetired? (L : Log c) : Option (LogSegment c) := (L.filter LogSegment.retired).getLast?

/-- The watermarks of the last retired segment. -/
def preserved (L : Log c) : ℕ × ℤ := (L.lastRetired?.map fun s ↦ (s.last, s.maxTime)).getD (0, 0)

/-- The manifest that records the log. -/
def manifest (L : Log c) (retentionUs generation : ℕ) : Manifest where
  nextSegmentId := L.next
  preservedSequence := L.preserved.1
  preservedTime := L.preserved.2
  retentionUs := retentionUs
  generation := generation
  segments := L.summaries

/-- **Segments that continue a log** with last identifier `prev`, last sequence number `seq` and last
timestamp `time`. -/
def Chain : ℕ → ℕ → ℤ → Log c → Prop
  | _, _, _, [] => True
  | prev, seq, time, s :: L =>
    prev < s.id ∧ s.Ok seq time ∧ Chain s.id (seq + s.count) (timeThrough time s.groups) L

/-- **The invariant of the log.** -/
structure Ok (L : Log c) : Prop where
  chain : Chain 0 0 0 L
  length_le : L.length ≤ maxSegments
  retired : L.Pairwise fun a b ↦ b.retired = true → a.entries ≠ [] → a.retired = true

/-! ### Lemmas about the functions -/

variable {L L' : Log c} {s : LogSegment c} {prev seq : ℕ} {time : ℤ}

@[simp] theorem groups_nil : groups ([] : Log c) = [] := rfl

@[simp] theorem groups_cons (s : LogSegment c) (L : Log c) :
    groups (s :: L) = s.groups ++ groups L := rfl

@[simp] theorem groups_append (L L' : Log c) : groups (L ++ L') = groups L ++ groups L' :=
  flatMap_append

@[simp] theorem total_append (L L' : Log c) : total (L ++ L') = total L + total L' := by
  rw [total, groups_append, rowTotal_append]
  rfl

@[simp] theorem total_nil : total ([] : Log c) = 0 := rfl

@[simp] theorem total_cons (s : LogSegment c) (L : Log c) : total (s :: L) = s.count + total L := by
  rw [total, groups_cons, rowTotal_append]
  rfl

@[simp] theorem lastId_nil (prev : ℕ) : lastId prev ([] : Log c) = prev := rfl

@[simp] theorem lastId_concat (prev : ℕ) (L : Log c) (s : LogSegment c) :
    lastId prev (L ++ [s]) = s.id := by
  simp [lastId]

theorem lastId_cons (prev : ℕ) (s : LogSegment c) (L : Log c) :
    lastId prev (s :: L) = lastId s.id L := by
  cases L with
  | nil => rfl
  | cons s' L =>
    rw [lastId, getLast?_cons_cons]
    cases h : (s' :: L).getLast? with
    | none => simp at h
    | some x => simp [lastId, h]

@[simp] theorem summaries_concat (L : Log c) (s : LogSegment c) :
    summaries (L ++ [s]) = L.map (·.summary false) ++ [s.summary true] := by
  induction L with
  | nil => rfl
  | cons s' L ih =>
    have hne : (L ++ [s]).isEmpty = false := by simp
    rw [cons_append, summaries, ih, hne]
    rfl

@[simp] theorem length_summaries (L : Log c) : L.summaries.length = L.length := by
  induction L with
  | nil => rfl
  | cons s L ih => rw [summaries, length_cons, ih, length_cons]

theorem getLast?_summaries (L : Log c) : L.summaries.getLast? = L.getLast?.map (·.summary true) := by
  rcases L.eq_nil_or_concat with rfl | ⟨L, s, rfl⟩
  · rfl
  · rw [concat_eq_append, summaries_concat]
    simp

/-- **One log after another.** -/
theorem chain_append : Chain prev seq time (L ++ L') ↔ Chain prev seq time L ∧
    Chain (L.lastId prev) (seq + L.total) (timeThrough time L.groups) L' := by
  induction L generalizing prev seq time with
  | nil => simp [Chain]
  | cons s L ih =>
    rw [cons_append, Chain, ih, Chain, lastId_cons, total_cons, groups_cons,
      timeThrough_append, add_assoc]
    tauto

theorem chain_concat : Chain prev seq time (L ++ [s]) ↔ Chain prev seq time L ∧
    L.lastId prev < s.id ∧ s.Ok (seq + L.total) (timeThrough time L.groups) := by
  rw [chain_append]
  simp [Chain]

section

variable (h : Chain prev seq time L)
include h

/-- A segment of a chain, with the state before it. -/
theorem Chain.mem (hs : s ∈ L) : ∃ L₁ L₂, L = L₁ ++ s :: L₂ ∧ Chain prev seq time L₁ ∧
      s.Ok (seq + L₁.total) (timeThrough time L₁.groups) ∧
      Chain s.id (seq + L₁.total + s.count) (timeThrough time (L₁.groups ++ s.groups)) L₂ := by
  obtain ⟨L₁, L₂, rfl⟩ := append_of_mem hs
  rw [chain_append, Chain] at h
  obtain ⟨h₁, -, hok, h₂⟩ := h
  refine ⟨L₁, L₂, rfl, h₁, hok, ?_⟩
  rwa [timeThrough_append]

/-- Every segment was acceptable when it was written. -/
theorem Chain.segOk (hs : s ∈ L) : ∃ seq' time', s.Ok seq' time' := by
  obtain ⟨_, _, -, -, hok, -⟩ := h.mem hs
  exact ⟨_, _, hok⟩

/-- Times do not decrease along the log. -/
theorem Chain.le_time : time ≤ timeThrough time L.groups := by
  induction L generalizing prev seq time with
  | nil => exact le_refl _
  | cons s L ih =>
    obtain ⟨-, hok, hrest⟩ := h
    rw [groups_cons, timeThrough_append]
    exact hok.groups.le_timeThrough.trans (ih hrest)

theorem Chain.prev_le : prev ≤ L.lastId prev := by
  induction L generalizing prev seq time with
  | nil => exact le_refl _
  | cons s L ih =>
    obtain ⟨hid, -, hrest⟩ := h
    rw [lastId_cons]
    exact hid.le.trans (ih hrest)

/-- Sequence numbers do not wrap. -/
theorem Chain.total_lt (hseq : seq < 2 ^ 64) : seq + L.total < 2 ^ 64 := by
  induction L generalizing prev seq time with
  | nil => simpa using hseq
  | cons s L ih =>
    obtain ⟨-, hok, hrest⟩ := h
    rw [total_cons, ← add_assoc]
    refine ih hrest ?_
    by_cases hne : s.entries = []
    · rw [hok.count_eq_zero.2 hne]
      simpa using hseq
    · have := hok.count_pos hne
      have := hok.first
      omega

theorem Chain.lastId_lt (hprev : prev < uint64Max) : L.lastId prev < uint64Max := by
  induction L generalizing prev seq time with
  | nil => exact hprev
  | cons s L ih =>
    obtain ⟨-, hok, hrest⟩ := h
    rw [lastId_cons]
    exact ih hrest hok.id.2

theorem Chain.time_lt (htime : time < 2 ^ 63) : timeThrough time L.groups < 2 ^ 63 := by
  induction L generalizing prev seq time with
  | nil => exact htime
  | cons s L ih =>
    obtain ⟨-, hok, hrest⟩ := h
    rw [groups_cons, timeThrough_append]
    refine ih hrest ?_
    by_cases hne : s.groups = []
    · rwa [hne]
    · exact (hok.groups.day_timeThrough hne).2.2

/-- Identifiers increase. -/
theorem Chain.pairwise_id :
    L.Pairwise (·.id < ·.id) ∧ ∀ s ∈ L, prev < s.id ∧ s.id ≤ L.lastId prev := by
  induction L generalizing prev seq time with
  | nil => exact ⟨.nil, by simp⟩
  | cons s L ih =>
    obtain ⟨hid, -, hrest⟩ := h
    obtain ⟨hpair, hmem⟩ := ih hrest
    refine ⟨pairwise_cons.2 ⟨fun b hb ↦ (hmem b hb).1, hpair⟩, fun b hb ↦ ?_⟩
    rw [lastId_cons]
    rcases mem_cons.1 hb with rfl | hb
    · exact ⟨hid, hrest.prev_le⟩
    · exact ⟨hid.trans (hmem b hb).1, (hmem b hb).2⟩

/-- Segments are distinguished by their identifiers. -/
theorem Chain.eq_of_id {a b : LogSegment c} (ha : a ∈ L) (hb : b ∈ L)
    (hid : a.id = b.id) : a = b := by
  have hnodup : (L.map LogSegment.id).Nodup := (pairwise_map.2 h.pairwise_id.1).imp (·.ne)
  exact inj_on_of_nodup_map hnodup ha hb hid

/-- Segments do not overlap in time. -/
theorem Chain.pairwise_time :
    L.Pairwise fun a b ↦ a.entries ≠ [] → b.entries ≠ [] → a.maxTime ≤ b.minTime := by
  induction L generalizing prev seq time with
  | nil => exact .nil
  | cons s L ih =>
    obtain ⟨-, -, hrest⟩ := h
    refine pairwise_cons.2 ⟨fun b hb ha hbne ↦ ?_, ih hrest⟩
    obtain ⟨L₁, _, -, h₁, hok, -⟩ := hrest.mem hb
    rw [LogSegment.maxTime_eq time ha]
    exact h₁.le_time.trans (hok.times hbne).1

/-! ### The manifest of a log -/

theorem Chain.recordsOk {next : ℕ} (hnext : L.lastId prev < next) :
    RecordsOk next prev L.summaries := by
  induction L generalizing prev seq time with
  | nil => trivial
  | cons s L ih =>
    obtain ⟨hid, hok, hrest⟩ := h
    rw [lastId_cons] at hnext
    have hfits := hok.fits (b := L.isEmpty)
    refine ⟨hok.summary_acceptable hid (hrest.prev_le.trans_lt hnext), hfits.firstSequence,
      hfits.lastSequence, hok.day.2.1, hfits.maxTime, fun hactive ↦ ?_, ih hrest hnext⟩
    -- only the last segment is active
    cases L with
    | nil => rfl
    | cons s' L =>
      simp only [LogSegment.summary, LogSegment.state, isEmpty_cons] at hactive
      split at hactive <;> cases hactive

end

theorem Ok.preserved_bounds (h : L.Ok) :
    L.preserved.1 < 2 ^ 64 ∧ 0 ≤ L.preserved.2 ∧ L.preserved.2 < 2 ^ 63 := by
  unfold preserved
  cases hlast : L.lastRetired? with
  | none => simp
  | some s =>
    obtain ⟨seq, time, hok⟩ := h.chain.segOk (mem_of_mem_filter (mem_of_getLast? hlast))
    have hfits := hok.fits (b := true)
    exact ⟨hfits.lastSequence, hfits.minTime.trans hfits.minTime_le, hfits.maxTime⟩

/-- **The loader accepts the manifest of a log.** -/
theorem Ok.manifest_ok (h : L.Ok) {retentionUs generation : ℕ} (hret : retentionUs ≤ int64Max)
    (hgen : 0 < generation ∧ generation < 2 ^ 64) : (L.manifest retentionUs generation).Ok where
  nextSegmentId := by
    have := h.chain.lastId_lt (by decide)
    unfold uint64Max at this
    exact ⟨Nat.succ_pos _, by simp only [manifest, next]; omega⟩
  preservedSequence := h.preserved_bounds.1
  preservedTime := h.preserved_bounds.2
  retentionUs := hret
  generation := hgen
  length_segments := by
    simp only [manifest, length_summaries]
    exact h.length_le
  records := h.chain.recordsOk (Nat.lt_succ_self _)

/-! ### What happens to a log -/

section Steps

/-- Segments with rows that are all older than `cutoff` are retired. -/
def retire (L : Log c) (cutoff : ℤ) : Log c := L.map (·.retire cutoff)

@[simp] theorem groups_retire (L : Log c) (cutoff : ℤ) : (L.retire cutoff).groups = L.groups := by
  induction L with
  | nil => rfl
  | cons s L ih => exact congrArg (s.groups ++ ·) ih

@[simp] theorem total_retire (L : Log c) (cutoff : ℤ) : (L.retire cutoff).total = L.total := by
  rw [total, groups_retire, total]

@[simp] theorem lastId_retire (L : Log c) (cutoff : ℤ) (prev : ℕ) :
    (L.retire cutoff).lastId prev = L.lastId prev := by
  simp [lastId, retire, Function.comp_def]

theorem Chain.retire (h : Chain prev seq time L) (cutoff : ℤ) :
    Chain prev seq time (L.retire cutoff) := by
  induction L generalizing prev seq time with
  | nil => trivial
  | cons s L ih =>
    obtain ⟨hid, hok, hrest⟩ := h
    refine ⟨by simpa using hid, hok.retire cutoff, ?_⟩
    rw [LogSegment.id_retire, LogSegment.count_retire, LogSegment.groups_retire]
    exact ih hrest

/-- **Retirement keeps the invariant**: segments do not overlap in time, so the expired ones are the
first ones with rows. -/
theorem Ok.retire (h : L.Ok) (cutoff : ℤ) : (L.retire cutoff).Ok where
  chain := h.chain.retire cutoff
  length_le := by
    rw [Log.retire, length_map]
    exact h.length_le
  retired := by
    refine pairwise_map.2 ((h.retired.and h.chain.pairwise_time).imp_of_mem ?_)
    rintro a b ha hb ⟨hretired, htime⟩ hb' hane
    rw [LogSegment.entries_retire] at hane
    by_cases hbr : b.retired = true
    · exact LogSegment.retired_retire_of_retired (hretired hbr hane) cutoff
    · obtain ⟨hbne, hbcut⟩ := LogSegment.expired_of_retired_retire hb' hbr
      obtain ⟨seq, time, hok⟩ := h.chain.segOk hb
      refine LogSegment.retired_retire_of_lt hane ?_
      exact ((htime hane hbne).trans (hok.times hbne).2.1).trans_lt hbcut

/-- **A new empty segment** keeps the invariant. -/
theorem Ok.rotate (h : L.Ok) (hs : s.entries = []) (hid : L.lastId 0 < s.id)
    (hok : s.Ok L.total L.time) (hlen : L.length < maxSegments) : (L ++ [s]).Ok where
  chain := chain_concat.2 ⟨h.chain, hid, by rwa [zero_add]⟩
  length_le := by rw [length_append]; exact hlen
  retired := by
    refine pairwise_append.2 ⟨h.retired, pairwise_singleton _ _, fun a _ b hb hbr ↦ ?_⟩
    rw [mem_singleton.1 hb] at hbr
    exact absurd hs (hok.retired hbr)

/-- **One more group** keeps the invariant. -/
theorem Ok.append {e : Entry c} (h : (L ++ [s]).Ok) (hs : s.retired = false)
    (hok : (s.push e).Ok L.total L.time) : (L ++ [s.push e]).Ok where
  chain := by
    obtain ⟨hchain, hid, -⟩ := chain_concat.1 h.chain
    exact chain_concat.2 ⟨hchain, hid, by rwa [zero_add]⟩
  length_le := by simpa using h.length_le
  retired := by
    have hpair := pairwise_append.1 h.retired
    refine pairwise_append.2 ⟨hpair.1, pairwise_singleton _ _, fun a _ b hb hbr ↦ ?_⟩
    rw [mem_singleton.1 hb] at hbr
    exact absurd hbr (by simp [LogSegment.push, hs])

end Steps

/-! ### Watermarks -/

theorem getLast?_filter {α : Type} {p : α → Bool} {l : List α} {x : α}
    (h : (l.filter p).getLast? = some x) :
    ∃ A B, l = A ++ x :: B ∧ p x = true ∧ ∀ b ∈ B, p b = false := by
  induction l using List.reverseRecOn with
  | nil => simp at h
  | append_singleton l y ih =>
    rw [filter_append] at h
    cases hy : p y with
    | true =>
      simp only [filter_cons, hy, if_true, filter_nil, getLast?_concat] at h
      cases h
      exact ⟨l, [], rfl, hy, by simp⟩
    | false =>
      simp only [filter_cons, hy, Bool.false_eq_true, if_false, filter_nil,
        append_nil] at h
      obtain ⟨A, B, rfl, hx, hB⟩ := ih h
      refine ⟨A, B ++ [y], by simp, hx, fun b hb ↦ ?_⟩
      rcases mem_append.1 hb with hb | hb
      · exact hB b hb
      · rwa [mem_singleton.1 hb]

theorem getLast?_filter_append {α : Type} {p : α → Bool} {A B : List α} {x : α} (hx : p x = true)
    (hB : ∀ b ∈ B, p b = false) : ((A ++ x :: B).filter p).getLast? = some x := by
  have hnil : B.filter p = [] := filter_eq_nil_iff.2 fun b hb ↦ by simp [hB b hb]
  simp [filter_append, filter_cons, hx, hnil]

/-- **The watermarks are those behind the last retired segment.** -/
theorem Chain.preserved_eq {A B : Log c} (h : Chain 0 0 0 (A ++ s :: B)) (hs : s.retired = true)
    (hB : ∀ b ∈ B, b.retired = false) :
    preserved (A ++ s :: B) = (total (A ++ [s]), Log.time (A ++ [s])) := by
  obtain ⟨-, -, hok, -⟩ := chain_append.1 h
  have hne := hok.retired hs
  rw [preserved, lastRetired?, getLast?_filter_append hs hB]
  simp only [Option.map_some, Option.getD_some, total_append, total_cons, total_nil, add_zero,
    Log.time, groups_append, timeThrough_append]
  rw [hok.last_eq_add hne, LogSegment.maxTime_eq (timeThrough 0 (groups A)) hne, zero_add]
  simp

theorem preserved_of_none (h : ∀ s ∈ L, s.retired = false) : L.preserved = (0, 0) := by
  have hnil : L.filter LogSegment.retired = [] :=
    filter_eq_nil_iff.2 fun b hb ↦ by simp [h b hb]
  rw [preserved, lastRetired?, hnil]
  rfl

end Log

end WebAnalyticsDb
