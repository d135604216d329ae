import WebAnalyticsDb.System.Site

/-!
# The segment directory

`Table.Directory` is what the rest of the engine relies on when it searches the segment records of a
table: identifiers, sequence numbers and times are in order, retirement takes segments from the front,
and the list of readable positions and the four counters are those of the records.

It holds in every state of the process that can be reached. The records are those of a log, so each part
is a fact about logs: `Log.Chain` for the order, `Log.Ok` for retirement, `Log.visibleFrom` for the
positions. Only the counters need more, namely that the sums stay below the range of 64 bits.
-/

namespace WebAnalyticsDb

open List

variable {c : Config}

/-- The segment has rows. -/
def SegmentMeta.nonempty (s : SegmentMeta) : Bool := s.lastSequence ≠ 0

/-- **The segment directory is in order.** -/
structure Table.Directory (t : Table c) : Prop where
  ids : t.segments.Pairwise (·.id < ·.id)
  next : ∀ s ∈ t.segments, s.id < t.nextSegmentId
  active : ∀ s ∈ t.segments.dropLast, s.state ≠ .active
  bounds : ∀ s ∈ t.segments, s.nonempty = true →
    s.firstSequence ≤ s.lastSequence ∧ s.minTime ≤ s.maxTime ∧
      s.dayStart ≤ s.minTime ∧ s.maxTime < s.dayStart + dayUs
  chain : (t.segments.filter (·.nonempty)).IsChain fun a b ↦
    b.firstSequence = a.lastSequence + 1 ∧ a.maxTime ≤ b.minTime
  retired : (t.segments.filter (·.nonempty)).Pairwise fun a b ↦
    b.state = .retired → a.state = .retired
  readable_lt : t.readableSegments.Pairwise (· < ·)
  readable : ∀ i, i ∈ t.readableSegments ↔
    ∃ s, t.segments[i]? = some s ∧ s.nonempty = true ∧ s.state ≠ .retired
  retainedRows : t.retainedRows = retainedSum SegmentMeta.rows t.segments
  retainedBytes : t.retainedBytes = retainedSum SegmentMeta.committedBytes t.segments
  retainedSegments : t.retainedSegments = retainedSum (fun _ ↦ 1) t.segments
  retiredSegments : t.retiredSegments = t.segments.countP (·.state = .retired)

/-! ### The records of a log -/

section Records

variable {s : LogSegment c} {L : Log c} {prev seq : ℕ} {time : ℤ} {b : Bool}

theorem LogSegment.Ok.nonempty_summary (h : s.Ok seq time) :
    (s.summary b).nonempty = true ↔ s.entries ≠ [] := by
  simp only [SegmentMeta.nonempty, decide_eq_true_eq]
  exact not_congr h.last_eq_zero

theorem LogSegment.visible_iff : s.visible = true ↔ s.entries ≠ [] ∧ s.retired = false := by
  simp [LogSegment.visible, and_comm]

namespace Log

theorem getElem?_summaries (L : Log c) (i : ℕ) :
    L.summaries[i]? = (L[i]?).map (·.summary (decide (i + 1 = L.length))) := by
  induction L generalizing i with
  | nil => rfl
  | cons s L ih =>
    cases i with
    | zero =>
      cases L with
      | nil => rfl
      | cons s' L => rfl
    | succ i =>
      rw [summaries, getElem?_cons_succ, getElem?_cons_succ, ih, length_cons]
      simp only [Nat.add_right_cancel_iff]

/-- A relation between segments that does not depend on which one is the last. -/
theorem pairwise_summaries {R : SegmentMeta → SegmentMeta → Prop}
    (h : L.Pairwise fun a b ↦ ∀ x y, R (a.summary x) (b.summary y)) : L.summaries.Pairwise R := by
  induction L with
  | nil => exact .nil
  | cons s L ih =>
    obtain ⟨hs, hL⟩ := pairwise_cons.1 h
    refine pairwise_cons.2 ⟨fun m hm ↦ ?_, ih hL⟩
    obtain ⟨s', hs', y, rfl⟩ := summaries_mem hm
    exact hs s' hs' _ y

theorem dropLast_summaries_state {m : SegmentMeta} (hm : m ∈ L.summaries.dropLast) :
    m.state ≠ .active := by
  obtain ⟨i, hi⟩ := mem_iff_getElem?.1 hm
  rw [getElem?_dropLast] at hi
  split at hi
  next hlt =>
    rw [length_summaries] at hlt
    rw [getElem?_summaries] at hi
    obtain ⟨s, -, rfl⟩ := Option.map_eq_some_iff.1 hi
    rw [decide_eq_false (by omega)]
    simp only [LogSegment.summary, LogSegment.state]
    split <;> simp
  next => cases hi

theorem mem_visibleFrom {i j : ℕ} :
    j ∈ visibleFrom i L ↔ i ≤ j ∧ ∃ s, L[j - i]? = some s ∧ s.visible = true := by
  induction L generalizing i with
  | nil => simp [visibleFrom]
  | cons s L ih =>
    have hrest : j ∈ visibleFrom (i + 1) L ↔
        i < j ∧ ∃ a, (s :: L)[j - i]? = some a ∧ a.visible = true := by
      rw [ih]
      refine and_congr_right fun hlt ↦ ?_
      rw [show j - i = j - (i + 1) + 1 by omega, getElem?_cons_succ]
    have hhead : (j = i ∧ s.visible = true) ∨ j ∈ visibleFrom (i + 1) L ↔
        i ≤ j ∧ ∃ a, (s :: L)[j - i]? = some a ∧ a.visible = true := by
      rw [hrest]
      constructor
      · rintro (⟨rfl, hs⟩ | ⟨hlt, ha⟩)
        · exact ⟨le_rfl, s, by simp, hs⟩
        · exact ⟨hlt.le, ha⟩
      · rintro ⟨hle, a, ha, hvis⟩
        rcases hle.eq_or_lt with rfl | hlt
        · rw [Nat.sub_self] at ha
          cases ha
          exact .inl ⟨rfl, hvis⟩
        · exact .inr ⟨hlt, a, ha, hvis⟩
    rw [← hhead, visibleFrom]
    split <;> simp [*]

theorem pairwise_visibleFrom (L : Log c) (i : ℕ) : (visibleFrom i L).Pairwise (· < ·) := by
  induction L generalizing i with
  | nil => exact .nil
  | cons s L ih =>
    rw [visibleFrom]
    split
    · refine pairwise_cons.2 ⟨fun j hj ↦ ?_, ih (i + 1)⟩
      exact (mem_visibleFrom.1 hj).1
    · exact ih (i + 1)

/-- **Segments with rows follow one another**, in sequence numbers and in time. -/
theorem Chain.isChain (h : Chain prev seq time L) :
    (L.summaries.filter (·.nonempty)).IsChain (fun a b ↦
      b.firstSequence = a.lastSequence + 1 ∧ a.maxTime ≤ b.minTime) ∧
      ∀ m ∈ (L.summaries.filter (·.nonempty)).head?, m.firstSequence = seq + 1 ∧ time ≤ m.minTime := by
  induction L generalizing prev seq time with
  | nil => exact ⟨.nil, nofun⟩
  | cons s L ih =>
    obtain ⟨-, hok, hrest⟩ := h
    obtain ⟨hchain, hhead⟩ := ih hrest
    rw [summaries, filter_cons]
    by_cases hne : s.entries = []
    · -- an empty segment is passed over
      rw [if_neg (by rwa [hok.nonempty_summary, not_not])]
      rw [hok.count_eq_zero.2 hne, LogSegment.groups_eq_nil.2 hne] at hhead
      exact ⟨hchain, hhead⟩
    · rw [if_pos (hok.nonempty_summary.2 hne)]
      refine ⟨isChain_cons.2 ⟨fun m hm ↦ ?_, hchain⟩, fun m hm ↦ ?_⟩
      · have hlast : s.last = seq + s.count := hok.last_eq_add hne
        have hmax := LogSegment.maxTime_eq time hne
        obtain ⟨h₁, h₂⟩ := hhead m hm
        exact ⟨h₁.trans (by rw [← hlast]; rfl), hmax.trans_le h₂⟩
      · cases hm
        exact ⟨hok.first, (hok.times hne).1⟩

end Log

/-! ### The counters -/

theorem Log.Chain.rows_le (h : Log.Chain prev seq time L) :
    retainedSum SegmentMeta.rows L.summaries ≤ L.total := by
  induction L generalizing prev seq time with
  | nil => exact Nat.zero_le _
  | cons s L ih =>
    obtain ⟨-, hok, hrest⟩ := h
    have hrows := hok.rows_summary L.isEmpty
    have := ih hrest
    rw [Log.summaries, retainedSum_cons, Log.total_cons, SegmentMeta.retained, hrows]
    split <;> omega

/-- A quantity that is bounded for every record is bounded by the number of records. -/
theorem retainedSum_le {f : SegmentMeta → ℕ} {n : ℕ} {segments : List SegmentMeta}
    (h : ∀ m ∈ segments, f m ≤ n) : retainedSum f segments ≤ segments.length * n := by
  refine (sum_le_card_nsmul _ n ?_).trans_eq (by simp)
  intro x hx
  obtain ⟨m, hm, rfl⟩ := mem_map.1 hx
  unfold SegmentMeta.retained
  split
  · exact Nat.zero_le n
  · exact h m hm

end Records

/-- **The directory of the handle of a log.** -/
theorem Handle.directory {t : Table c} {V : Log c} (h : Handle t V) : t.Directory := by
  have hchain := h.ok.chain
  have hsegOk {m : SegmentMeta} (hm : m ∈ t.segments) :
      ∃ (s : LogSegment c) (seq : ℕ) (time : ℤ) (b : Bool), s ∈ V ∧ s.Ok seq time ∧ m = s.summary b := by
    rw [h.segments] at hm
    obtain ⟨s, hs, b, rfl⟩ := summaries_mem hm
    obtain ⟨seq, time, hok⟩ := hchain.segOk hs
    exact ⟨s, seq, time, b, hs, hok, rfl⟩
  have hlen : t.segments.length ≤ maxSegments := by
    rw [h.segments, Log.length_summaries]
    exact h.ok.length_le
  constructor
  case ids =>
    rw [h.segments]
    exact Log.pairwise_summaries (hchain.pairwise_id.1.imp fun hlt _ _ ↦ hlt)
  case next =>
    intro m hm
    obtain ⟨s, -, -, b, hs, -, rfl⟩ := hsegOk hm
    rw [h.next]
    exact Nat.lt_succ_of_le (hchain.pairwise_id.2 s hs).2
  case active =>
    intro m hm
    rw [h.segments] at hm
    exact Log.dropLast_summaries_state hm
  case bounds =>
    intro m hm hne
    obtain ⟨s, seq, time, b, -, hok, rfl⟩ := hsegOk hm
    have hne' := hok.nonempty_summary.1 hne
    have hfits := hok.fits (b := b)
    have hpos := hok.count_pos hne'
    have hlast : s.last = seq + s.count := hok.last_eq_add hne'
    have hfirst : s.first = seq + 1 := hok.first
    refine ⟨?_, hfits.minTime_le, ?_⟩
    · show s.first ≤ s.last
      omega
    · obtain ⟨-, hmin, hmax⟩ := hok.times hne'
      have hday := hok.day
      show s.day ≤ s.minTime ∧ s.maxTime < s.day + dayUs
      unfold dayUs at *
      omega
  case chain =>
    rw [h.segments]
    exact hchain.isChain.1
  case retired =>
    rw [h.segments]
    refine List.Pairwise.imp_of_mem ?_ (List.Pairwise.filter _ (Log.pairwise_summaries
      (R := fun a b ↦ b.state = .retired → a.nonempty = true → a.state = .retired) ?_))
    · intro a b ha _ hab hb
      exact hab hb (mem_filter.1 ha).2
    · refine List.Pairwise.imp_of_mem ?_ h.ok.retired
      intro a b ha _ hab x y hb hne
      obtain ⟨seq, time, hok⟩ := hchain.segOk ha
      exact LogSegment.state_eq_retired.2
        (hab (LogSegment.state_eq_retired.1 hb) (hok.nonempty_summary.1 hne))
  case readable_lt =>
    rw [h.readable]
    exact V.pairwise_visibleFrom 0
  case readable =>
    intro i
    rw [h.readable, Log.mem_visibleFrom, h.segments, Log.getElem?_summaries, Nat.sub_zero]
    constructor
    · rintro ⟨-, s, hs, hvis⟩
      obtain ⟨hne, hret⟩ := LogSegment.visible_iff.1 hvis
      obtain ⟨seq, time, hok⟩ := hchain.segOk (mem_of_getElem? hs)
      refine ⟨_, by rw [hs]; rfl, hok.nonempty_summary.2 hne, fun hstate ↦ ?_⟩
      rw [LogSegment.state_eq_retired.1 hstate] at hret
      cases hret
    · rintro ⟨m, hm, hne, hstate⟩
      obtain ⟨s, hs, rfl⟩ := Option.map_eq_some_iff.1 hm
      obtain ⟨seq, time, hok⟩ := hchain.segOk (mem_of_getElem? hs)
      refine ⟨Nat.zero_le _, s, hs, LogSegment.visible_iff.2 ⟨hok.nonempty_summary.1 hne, ?_⟩⟩
      exact Bool.not_eq_true _ ▸ fun hret ↦ hstate (LogSegment.state_eq_retired.2 hret)
  case retainedRows =>
    rw [h.tallied.rows, h.segments]
    have := hchain.total_lt (by decide)
    exact u64_of_lt (hchain.rows_le.trans_lt (by omega))
  case retainedBytes =>
    rw [h.tallied.bytes]
    have hle : retainedSum SegmentMeta.committedBytes t.segments ≤
        t.segments.length * (segmentHeaderBytes + maxIndexEntries * maxFrameBytes) := by
      refine retainedSum_le fun m hm ↦ ?_
      obtain ⟨s, seq, time, b, -, hok, rfl⟩ := hsegOk hm
      exact hok.size_le
    exact u64_of_lt (hle.trans_lt ((Nat.mul_le_mul_right _ hlen).trans_lt (by decide)))
  case retainedSegments =>
    rw [h.tallied.segments]
    have hle : retainedSum (fun _ ↦ 1) t.segments ≤ t.segments.length * 1 :=
      retainedSum_le fun _ _ ↦ le_rfl
    exact u64_of_lt (hle.trans_lt ((Nat.mul_le_mul_right 1 hlen).trans_lt (by decide)))
  case retiredSegments =>
    rw [h.tallied.retired]
    exact u64_of_lt (countP_le_length.trans_lt (hlen.trans_lt (by decide)))

/-- **The segment directory is in order in every state that can be reached.** -/
theorem directory_of_reach {s : Site c} (h : Reach s) {t : Table c} (ht : s.process = some t) :
    t.Directory := by
  obtain ⟨P, L, tail, hat⟩ := h.at
  obtain ⟨V, hserves⟩ := hat.serves t ht
  exact hserves.live.view.toHandle.directory

/-- A new table and its first row. -/
theorem directory_of_reach_hit : ∃ t, ((Site.created hits 0).step (.still Path Dir)
    (.commit [hit 0 (by decide)])).process = some t ∧ t.retainedRows = 1 ∧ t.Directory := by
  have hrows : ((Site.created hits 0).step (.still Path Dir)
      (.commit [hit 0 (by decide)])).process.map (·.retainedRows) = some 1 := by
    decide +kernel
  obtain ⟨t, ht, hone⟩ := Option.map_eq_some_iff.1 hrows
  have hreach : Reach ((Site.created hits 0).step (.still Path Dir) (.commit [hit 0 (by decide)])) :=
    .step (.created 0 (by decide)) _ _ fun t ht _ ↦ by cases ht; decide
  exact ⟨t, ht, hone, directory_of_reach hreach ht⟩

end WebAnalyticsDb
