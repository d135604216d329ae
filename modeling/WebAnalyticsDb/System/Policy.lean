import WebAnalyticsDb.System.Site

/-!
# Applying the retention policy

What a successful call of `wadb_retention_apply` does to a table, in terms of the rows that readers see.

* **The rule is stated on the records.** `Table.Due` is the policy in its own words: a segment with rows
  that is not retired yet and whose last row is older than the policy allows. The cutoff of the source is
  zero where no policy applies, and no row is older than that.
* **Rows are numbered.** `Log.readable` lists the rows of the segments that are not retired, with their
  sequence numbers. Segments follow each other in time, so the due ones come first and what stays is the
  end of the list.
-/

namespace WebAnalyticsDb

open List

variable {c : Config}

/-! ### The policy -/

/-- **The policy removes the segment**: it has rows, is not retired, and all its rows are older than the
policy allows at the time `now`. -/
def Table.Due (t : Table c) (now : ℤ) (m : SegmentMeta) : Prop :=
  t.retentionUs ≠ 0 ∧ (t.retentionUs : ℤ) ≤ now ∧ m.state ≠ .retired ∧ m.lastSequence ≠ 0 ∧
    m.maxTime < now - t.retentionUs

instance (t : Table c) (now : ℤ) (m : SegmentMeta) : Decidable (t.Due now m) :=
  inferInstanceAs (Decidable (_ ∧ _))

/-- Where no policy applies the cutoff is zero, before every row. -/
theorem Table.expired_cutoff_iff (t : Table c) (now : ℤ) {m : SegmentMeta} (hm : 0 ≤ m.maxTime) :
    m.expired (t.cutoff now) = true ↔ t.Due now m := by
  have hexp : m.expired (t.cutoff now) = true ↔
      m.state ≠ .retired ∧ m.lastSequence ≠ 0 ∧ m.maxTime < t.cutoff now := by
    simp [SegmentMeta.expired, and_assoc]
  rw [hexp, Table.Due]
  by_cases h : t.retentionUs ≠ 0 ∧ (t.retentionUs : ℤ) ≤ now
  · rw [Table.cutoff, if_pos h]
    tauto
  · rw [Table.cutoff, if_neg h]
    constructor
    · rintro ⟨-, -, hlt⟩
      omega
    · rintro ⟨hne, hle, -⟩
      exact absurd ⟨hne, hle⟩ h

/-! ### Rows with their sequence numbers -/

/-- The rows of a segment with their sequence numbers. -/
def LogSegment.rows (s : LogSegment c) : List (Record × ℕ) :=
  (s.groups.flatMap groupRecords).zipIdx s.first

/-- **The rows that readers see**, in sequence order. -/
def Log.readable (L : Log c) : List (Record × ℕ) := (L.filter fun s ↦ !s.retired).flatMap LogSegment.rows

section Rows

variable {s : LogSegment c} {L V : Log c} {seq first : ℕ} {time day cutoff : ℤ} {S : Symbols}
  {gs : List (Group c)} {x : Record}

theorem Log.readable_cons (s : LogSegment c) (L : Log c) :
    Log.readable (s :: L) = if s.retired then Log.readable L else s.rows ++ Log.readable L := by
  unfold Log.readable
  cases hr : s.retired <;> simp [hr]

/-- No row is later than the last one. -/
theorem GroupsOk.time_le (h : GroupsOk day S first time gs) (hx : x ∈ gs.flatMap groupRecords) :
    x.time ≤ timeThrough time gs := by
  induction gs generalizing S first time with
  | nil => simp at hx
  | cons g gs ih =>
    obtain ⟨hframe, -, -, hrest⟩ := h
    rw [timeThrough_cons]
    rcases mem_append.1 hx with hx | hx
    · exact (hframe.records_sorted.2 x hx).trans hrest.le_timeThrough
    · exact ih hrest hx

theorem GroupsOk.time_nonneg (h : GroupsOk day S first time gs) (hx : x ∈ gs.flatMap groupRecords) :
    0 ≤ x.time := by
  induction gs generalizing S first time with
  | nil => simp at hx
  | cons g gs ih =>
    obtain ⟨hframe, -, -, hrest⟩ := h
    rcases mem_append.1 hx with hx | hx
    · have hmin : 0 ≤ groupMin g := hframe.sized.minTime
      exact hmin.trans ((pairwise_cons.1 hframe.records_sorted.1).1 _ (mem_map_of_mem hx))
    · exact ih hrest hx

theorem LogSegment.Ok.time_le (h : s.Ok seq time) {n : ℕ} (hx : (x, n) ∈ s.rows) :
    x.time ≤ s.maxTime := by
  have hmem : x ∈ s.groups.flatMap groupRecords := fst_mem_of_mem_zipIdx hx
  have hne : s.entries ≠ [] := by
    intro hnil
    rw [LogSegment.groups_eq_nil.2 hnil] at hmem
    simp at hmem
  rw [LogSegment.maxTime_eq time hne]
  exact h.groups.time_le hmem

/-- **What stays readable is the end of what was.** The log is read from its first segment: as long as
segments are retired they are left out, and behind the first one with rows that stays, all stay. -/
theorem Log.readable_retire_suffix (h : (V.retire cutoff).Pairwise
    fun a b ↦ b.retired = true → a.entries ≠ [] → a.retired = true) :
    (V.retire cutoff).readable <:+ V.readable := by
  induction V with
  | nil => exact suffix_refl _
  | cons s V ih =>
    have hcons : Log.retire (s :: V) cutoff = s.retire cutoff :: Log.retire V cutoff := rfl
    rw [hcons] at h ⊢
    obtain ⟨hhead, hrest⟩ := pairwise_cons.1 h
    have ih := ih hrest
    rw [Log.readable_cons, Log.readable_cons]
    cases hr' : (s.retire cutoff).retired with
    | true =>
      rw [if_pos rfl]
      split
      · exact ih
      · exact ih.trans (suffix_append _ _)
    | false =>
      rw [LogSegment.retired_of_retire hr', if_neg (by decide), if_neg (by decide)]
      by_cases hne : s.entries = []
      · have hrows : s.rows = [] ∧ (s.retire cutoff).rows = [] := by
          simp [LogSegment.rows, LogSegment.groups_eq_nil.2 hne]
        rw [hrows.1, hrows.2]
        exact ih
      · -- nothing behind a segment with rows that stays is retired
        have hsame : Log.retire V cutoff = V := by
          refine (map_congr_left fun a ha ↦ ?_).trans (map_id V)
          have hnot : (a.retire cutoff).retired = false := by
            cases har : (a.retire cutoff).retired with
            | false => rfl
            | true =>
              rw [hhead _ (mem_map_of_mem ha) har hne] at hr'
              cases hr'
          have hexp : (a.retired || a.expired cutoff) = false := hnot
          obtain ⟨-, hexp⟩ := Bool.or_eq_false_iff.1 hexp
          simp [LogSegment.retire, hexp]
        rw [hsame]
        exact suffix_refl _

/-- **A row that is removed is older than the cutoff.** -/
theorem Log.Ok.time_lt_of_removed (h : V.Ok) {n : ℕ} (hx : (x, n) ∈ V.readable)
    (hx' : (x, n) ∉ (V.retire cutoff).readable) : x.time < cutoff := by
  obtain ⟨s, hs, hrow⟩ := mem_flatMap.1 hx
  obtain ⟨hs, hr⟩ := mem_filter.1 hs
  have hretired : (s.retire cutoff).retired = true := by
    by_contra hnot
    exact hx' (mem_flatMap.2 ⟨s.retire cutoff, mem_filter.2
      ⟨mem_map_of_mem hs, by simpa using hnot⟩, hrow⟩)
  obtain ⟨-, hlt⟩ := LogSegment.expired_of_retired_retire hretired (by simpa using hr)
  obtain ⟨seq, time, hok⟩ := h.chain.segOk hs
  exact (hok.time_le hrow).trans_lt hlt

theorem Log.Ok.time_nonneg (h : V.Ok) {n : ℕ} (hx : (x, n) ∈ V.readable) : 0 ≤ x.time := by
  obtain ⟨s, hs, hrow⟩ := mem_flatMap.1 hx
  obtain ⟨seq, time, hok⟩ := h.chain.segOk (mem_filter.1 hs).1
  exact hok.groups.time_nonneg (fst_mem_of_mem_zipIdx hrow)

end Rows

/-! ### The records after a call -/

section Records

variable {t : Table c} {V : Log c} {now : ℤ}

/-- Every record has a time that is not negative. -/
theorem Handle.maxTime_nonneg (h : Handle t V) {m : SegmentMeta} (hm : m ∈ t.segments) :
    0 ≤ m.maxTime ∧ m.minTime ≤ m.maxTime := by
  rw [h.segments] at hm
  obtain ⟨s, hs, b, rfl⟩ := summaries_mem hm
  obtain ⟨seq, time, hok⟩ := h.ok.chain.segOk hs
  have hfits := hok.fits (b := b)
  exact ⟨hfits.minTime.trans hfits.minTime_le, hfits.minTime_le⟩

/-- The records of the log after a retirement. -/
theorem Handle.summaries_retire (h : Handle t V) : (V.retire (t.cutoff now)).summaries =
    t.segments.map fun m ↦ if t.Due now m then { m with state := .retired } else m := by
  rw [← h.ok.chain.retire_summaries, ← h.segments]
  refine map_congr_left fun m hm ↦ ?_
  have hiff := t.expired_cutoff_iff now (h.maxTime_nonneg hm).1
  unfold SegmentMeta.retire
  by_cases hdue : t.Due now m
  · rw [if_pos hdue, if_pos (hiff.2 hdue)]
  · rw [if_neg hdue, if_neg (fun hexp ↦ hdue (hiff.1 hexp))]

/-- The preview counts the due segments. -/
theorem Handle.eligibleSegments_preview (h : Handle t V) :
    (t.preview now).eligibleSegments = t.segments.countP (t.Due now ·) := by
  obtain ⟨-, -, hcount⟩ := foldl_previewSegment t.pendingRetention
    (fun m hm _ ↦ (h.maxTime_nonneg hm).2) ⟨t.cutoff now, 0, 0, 0, 0, 0, 0⟩
  have hsum : ∀ ms : List SegmentMeta, (∀ m ∈ ms, 0 ≤ m.maxTime) →
      expiringSum (fun _ ↦ 1) (t.cutoff now) ms = ms.countP (t.Due now ·) := by
    intro ms
    induction ms with
    | nil => exact fun _ ↦ rfl
    | cons m ms ih =>
      intro hms
      have ih := ih fun m' hm' ↦ hms m' (mem_cons_of_mem m hm')
      have hiff := t.expired_cutoff_iff now (hms m (mem_cons_self ..))
      simp only [expiringSum, map_cons, sum_cons, countP_cons,
        SegmentMeta.expiring] at ih ⊢
      rw [ih]
      by_cases hdue : t.Due now m
      · rw [if_pos (hiff.2 hdue), if_pos (decide_eq_true hdue), add_comm]
      · rw [if_neg (fun hexp ↦ hdue (hiff.1 hexp)), if_neg (by simpa using hdue), zero_add,
          add_zero]
  rw [← hsum _ fun m hm ↦ (h.maxTime_nonneg hm).1, ← zero_add (expiringSum _ _ _)]
  exact hcount

/-- The watermarks that are preserved are those of the last record that is retired. -/
theorem Handle.preserved_last (h : Handle t V) {m : SegmentMeta}
    (hm : (t.segments.filter (·.state = .retired)).getLast? = some m) :
    t.preservedSequence = m.lastSequence ∧ t.preservedTime = m.maxTime := by
  have hfilter : ∀ L : Log c, (L.summaries.filter (·.state = .retired)).map
      (fun m ↦ (m.lastSequence, m.maxTime)) =
        (L.filter LogSegment.retired).map fun s ↦ (s.last, s.maxTime) := by
    intro L
    induction L with
    | nil => rfl
    | cons s L ih =>
      have hstate : decide ((s.summary L.isEmpty).state = .retired) = s.retired := by
        rw [Bool.eq_iff_iff, decide_eq_true_iff]
        exact LogSegment.state_eq_retired
      rw [Log.summaries, filter_cons, filter_cons, hstate]
      split
      · rw [map_cons, map_cons, ih]
        rfl
      · exact ih
  have hlast : V.lastRetired?.map (fun s ↦ (s.last, s.maxTime)) = some (m.lastSequence, m.maxTime) := by
    rw [Log.lastRetired?, ← getLast?_map, ← hfilter, getLast?_map, ← h.segments, hm]
    rfl
  rw [h.preservedSequence, h.preservedTime, Log.preserved, hlast]
  exact ⟨rfl, rfl⟩

end Records

/-! ### The result -/

theorem Site.run_retentionPreview {env : Env Path Dir} (s : Site c) {t : Table c} {now : ℤ}
    (hnow : 0 ≤ now) :
    s.run env t (retentionPreview now) = (.ok (t.preview now), ⟨s.files, 0, t⟩) := by
  unfold Site.run retentionPreview require
  rw [decide_eq_true hnow]
  rfl

/-- **Retention removes exactly what it may.** A successful call retires the due segments and no others.
So the rows that stay readable are the last ones, no row is removed before its time, the preserved
watermarks are those of the last segment ever retired, and the counts are those of the preview. -/
theorem retentionApply_exact {s : Site c} (h : Reach s) {t : Table c} (ht : s.process = some t)
    {now : ℤ} {env : Env Path Dir} {stats : RetentionStats} {w : World Path (Table c)}
    (hrun : s.run env t (retentionApply now) = (.ok (.ok (), stats), w)) :
    w.mem.segments =
        t.segments.map (fun m ↦ if t.Due now m then { m with state := .retired } else m) ∧
      (∃ V V' P P', Live t s.files V P V [] ∧ Live w.mem w.fs V' P' V' [] ∧
        V'.readable <:+ V.readable ∧
        ∀ x n, (x, n) ∈ V.readable → (x, n) ∉ V'.readable →
          t.retentionUs ≠ 0 ∧ (t.retentionUs : ℤ) ≤ now ∧ x.time < now - t.retentionUs) ∧
      (∀ m, (w.mem.segments.filter (·.state = .retired)).getLast? = some m →
        w.mem.preservedSequence = m.lastSequence ∧ w.mem.preservedTime = m.maxTime) ∧
      stats.eligibleSegments = t.segments.countP (t.Due now ·) ∧
      ∃ preview w', s.run env t (retentionPreview now) = (.ok preview, w') ∧
        stats.eligibleSegments = preview.eligibleSegments ∧
        stats.eligibleRows = preview.eligibleRows ∧ stats.eligibleBytes = preview.eligibleBytes := by
  obtain ⟨P, L, tail, hat⟩ := h.at
  obtain ⟨V, hserves⟩ := hat.serves t ht
  have hlive := hserves.live
  have hview := hlive.view.toHandle
  have hwp : wp (retentionApply now) env _ ⟨s.files, 0, t⟩ := wp_retentionApply hlive now
  unfold wp at hwp
  rw [show retentionApply now env ⟨s.files, 0, t⟩ = _ from hrun] at hwp
  obtain ⟨-, -, -, -, ⟨deleted, pending, hstats⟩, V', P', L', -, -, hlive', -, hdone⟩ := hwp
  obtain ⟨hnow, rfl, rfl, rfl, rfl⟩ := hdone rfl
  dsimp only at hstats
  subst hstats
  have hview' := hlive'.view.toHandle
  refine ⟨hview'.segments.trans hview.summaries_retire, ⟨V, _, P, P', hlive, hlive',
    Log.readable_retire_suffix (hview.ok.retire _).retired, fun x n hx hx' ↦ ?_⟩,
    fun m hm ↦ hview'.preserved_last hm, hview.eligibleSegments_preview, t.preview now, _,
    s.run_retentionPreview hnow, rfl, rfl, rfl⟩
  have hlt := hview.ok.time_lt_of_removed hx hx'
  have hpos := hview.ok.time_nonneg hx
  unfold Table.cutoff at hlt
  split at hlt
  next hpolicy => exact ⟨hpolicy.1, hpolicy.2, hlt⟩
  next => omega

/-- A table with a row whose time is over: its segment is retired. -/
theorem retentionApply_exact_hit : ∃ (s : Site hits) (t : Table hits) (stats : RetentionStats)
    (w : World Path (Table hits)), Reach s ∧ s.process = some t ∧
      s.run (.still Path Dir) t (retentionApply 100) = (.ok (.ok (), stats), w) ∧
      stats.eligibleSegments = 1 ∧ t.segments.countP (t.Due 100 ·) = 1 := by
  obtain ⟨s, hs⟩ : ∃ s, s = (Site.created hits 10).step (.still Path Dir)
    (.commit [hit 0 (by decide)]) := ⟨_, rfl⟩
  have hrun : s.process.map (fun t ↦ (s.run (.still Path Dir) t (retentionApply 100)).1) =
      some (.ok (.ok (), ⟨90, 1, 1, 240, 0, 0, 1⟩)) := by
    rw [hs]
    decide +kernel
  obtain ⟨t, ht, hexit⟩ := Option.map_eq_some_iff.1 hrun
  have hreach : Reach s := by
    rw [hs]
    exact .step (.created 10 (by decide)) _ _ fun t ht _ ↦ by cases ht; decide
  have hexact := retentionApply_exact hreach ht (Prod.ext hexit rfl)
  exact ⟨s, t, _, _, hreach, ht, Prod.ext hexit rfl, rfl, hexact.2.2.2.1.symm⟩

end WebAnalyticsDb
