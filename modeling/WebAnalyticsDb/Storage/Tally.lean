import WebAnalyticsDb.Storage.Commit

/-!
# The counters of a table

A table keeps four counters beside its segment directory: the rows, the bytes and the number of the
segments that are not retired, and the number of those that are. `Table.Tallied` says that they are the
sums over the directory. Rotation, publication, retirement and recovery each update the directory and
the counters separately; one lemma for each says that the two stay together.

The counters are 64-bit numbers, so the sums are taken in 64 bits.
-/

namespace WebAnalyticsDb

open List

variable {c : Config}

/-! ### Sums -/

/-- The number of rows of a segment, by its record. -/
def SegmentMeta.rows (s : SegmentMeta) : ℕ :=
  if s.lastSequence = 0 then 0 else s.lastSequence - s.firstSequence + 1

/-- What a segment contributes to a sum over the segments that are not retired. -/
def SegmentMeta.retained (f : SegmentMeta → ℕ) (s : SegmentMeta) : ℕ :=
  if s.state = .retired then 0 else f s

/-- The sum of `f` over the segments that are not retired. -/
def retainedSum (f : SegmentMeta → ℕ) (segments : List SegmentMeta) : ℕ :=
  (segments.map (·.retained f)).sum

/-- **The counters of a table are the sums over its segment directory.** -/
structure Table.Tallied (t : Table c) : Prop where
  rows : t.retainedRows = u64 (retainedSum SegmentMeta.rows t.segments)
  bytes : t.retainedBytes = u64 (retainedSum SegmentMeta.committedBytes t.segments)
  segments : t.retainedSegments = u64 (retainedSum (fun _ ↦ 1) t.segments)
  retired : t.retiredSegments = u64 (t.segments.countP (·.state = .retired))

section Sums

variable {f : SegmentMeta → ℕ} {s : SegmentMeta} {segments : List SegmentMeta}

@[simp] theorem retainedSum_nil : retainedSum f [] = 0 := rfl

@[simp] theorem retainedSum_cons :
    retainedSum f (s :: segments) = s.retained f + retainedSum f segments := rfl

@[simp] theorem retainedSum_append (xs ys : List SegmentMeta) :
    retainedSum f (xs ++ ys) = retainedSum f xs + retainedSum f ys := by
  simp [retainedSum]

theorem retained_of_active (h : s.state = .active) : s.retained f = f s := by
  simp [SegmentMeta.retained, h]

theorem u64_add_left (a b : ℕ) : u64 (u64 a + b) = u64 (a + b) := Nat.mod_add_mod a (2 ^ 64) b

theorem u64_add_congr {a b n m : ℕ} (h : a = u64 n) (hb : n + b = m) : u64 (a + b) = u64 m := by
  rw [h, u64_add_left, hb]

theorem u64Sub_congr {a b n m k : ℕ} (ha : a = u64 n) (hb : u64 b = u64 m) (h : n = k + m) :
    u64Sub a b = u64 k := by
  subst ha h
  unfold u64Sub
  rw [hb]
  unfold u64
  omega

/-- A directory whose last record is replaced by one that contributes more. -/
theorem retainedSum_replace {s' : SegmentMeta} {d : ℕ} (hlast : segments.getLast? = some s)
    (h : s'.retained f = s.retained f + d) :
    retainedSum f segments + d = retainedSum f (segments.dropLast ++ [s']) := by
  obtain ⟨front, rfl⟩ := getLast?_eq_some_iff.1 hlast
  rw [dropLast_concat, retainedSum_append, retainedSum_append, retainedSum_cons,
    retainedSum_cons, h]
  simp only [retainedSum_nil]
  omega

end Sums

/-! ### Creation and rotation -/

theorem sealLast_concat (front : List SegmentMeta) (s : SegmentMeta) :
    sealLast (front ++ [s]) =
      front ++ [if s.state = .active then { s with state := .sealed } else s] := by
  rw [sealLast, length_append, length_singleton, Nat.add_sub_cancel,
    modify_eq_take_cons_drop (by simp)]
  simp

/-- Sealing changes no sum of a quantity that does not depend on the state. -/
theorem retainedSum_sealLast {f : SegmentMeta → ℕ} (segments : List SegmentMeta)
    (hf : ∀ s : SegmentMeta, f { s with state := .sealed } = f s) :
    retainedSum f (sealLast segments) = retainedSum f segments := by
  rcases segments.eq_nil_or_concat with rfl | ⟨front, s, rfl⟩
  · rfl
  · rw [concat_eq_append, sealLast_concat, retainedSum_append, retainedSum_append]
    split
    next h => simp [SegmentMeta.retained, h, hf]
    next => rfl

theorem countP_sealLast (segments : List SegmentMeta) :
    (sealLast segments).countP (·.state = .retired) = segments.countP (·.state = .retired) := by
  rcases segments.eq_nil_or_concat with rfl | ⟨front, s, rfl⟩
  · rfl
  · rw [concat_eq_append, sealLast_concat, countP_append, countP_append]
    split
    next h => simp [h]
    next => rfl

namespace Table.Tallied

variable {t t' : Table c}

/-- The other fields of a table do not matter. -/
theorem congr (h : t.Tallied) (hsegments : t'.segments = t.segments)
    (hcounters : (t'.retainedRows, t'.retainedBytes, t'.retainedSegments, t'.retiredSegments) =
      (t.retainedRows, t.retainedBytes, t.retainedSegments, t.retiredSegments)) : t'.Tallied := by
  obtain ⟨hrows, hbytes, hsegs, hretired⟩ := Prod.ext_iff.1 hcounters |>.imp id fun h ↦
    (Prod.ext_iff.1 h).imp id Prod.ext_iff.1
  exact ⟨by rw [hsegments]; exact hrows.trans h.rows, by rw [hsegments]; exact hbytes.trans h.bytes,
    by rw [hsegments]; exact hsegs.trans h.segments,
    by rw [hsegments]; exact hretired.trans h.retired⟩

/-- **Rotation.** -/
theorem installActive (h : t.Tallied) {s : SegmentMeta} (hstate : s.state = .active)
    (hlast : s.lastSequence = 0) (hbytes : s.committedBytes = segmentHeaderBytes) :
    (t.installActive (t.stageActive s) s).Tallied := by
  have hsum {f : SegmentMeta → ℕ} (hf : ∀ s : SegmentMeta, f { s with state := .sealed } = f s) :
      retainedSum f t.segments + f s = retainedSum f (sealLast t.segments ++ [s]) := by
    rw [retainedSum_append, retainedSum_sealLast _ hf, retainedSum_cons, retained_of_active hstate]
    rfl
  refine ⟨?_, u64_add_congr h.bytes ?_, u64_add_congr h.segments ?_, ?_⟩
  · have hrows : s.rows = 0 := if_pos hlast
    show t.retainedRows = u64 (retainedSum _ (sealLast t.segments ++ [s]))
    rw [← hsum fun _ ↦ rfl, hrows]
    exact h.rows
  · rw [← hbytes]
    exact hsum fun _ ↦ rfl
  · exact hsum (f := fun _ ↦ 1) fun _ ↦ rfl
  · show t.retiredSegments = u64 ((sealLast t.segments ++ [s]).countP _)
    rw [countP_append, countP_sealLast]
    simpa [hstate] using h.retired

/-- **Publication.** -/
theorem publishFrame (h : t.Tallied) {active : SegmentMeta} {f : Frame} {p : Bytes} {n : ℕ}
    (hlast : t.segments.getLast? = some active) (hstate : active.state = .active)
    (hrows : (active.extend f p.length).rows = active.rows + f.rowCount) :
    (t.publishFrame active f p n).Tallied := by
  have hstate' : (active.extend f p.length).state = .active := hstate
  refine ⟨u64_add_congr h.rows (retainedSum_replace hlast ?_),
    u64_add_congr h.bytes (retainedSum_replace hlast ?_), ?_, ?_⟩
  · rw [retained_of_active hstate, retained_of_active hstate', hrows]
  · rw [retained_of_active hstate, retained_of_active hstate']
    rfl
  · show t.retainedSegments = _
    rw [h.segments]
    refine congrArg u64 (retainedSum_replace (d := 0) hlast ?_)
    rw [retained_of_active hstate, retained_of_active hstate']
  · obtain ⟨front, hfront⟩ := getLast?_eq_some_iff.1 hlast
    have hretired := h.retired
    rw [hfront] at hretired
    show t.retiredSegments = u64 ((t.segments.dropLast ++ [active.extend f p.length]).countP _)
    rw [hfront, dropLast_concat, hretired]
    simp [hstate, hstate']

end Table.Tallied

/-! ### Retirement -/

section Retirement

variable {cutoff : ℤ}

/-- What a segment contributes to a sum over the expired ones. -/
def SegmentMeta.expiring (f : SegmentMeta → ℕ) (cutoff : ℤ) (s : SegmentMeta) : ℕ :=
  if s.expired cutoff then f s else 0

/-- The sum of `f` over the segments that expire. -/
def expiringSum (f : SegmentMeta → ℕ) (cutoff : ℤ) (segments : List SegmentMeta) : ℕ :=
  (segments.map (·.expiring f cutoff)).sum

/-- A sum splits into what stays and what expires. -/
theorem retainedSum_retire (f : SegmentMeta → ℕ) (segments : List SegmentMeta) :
    retainedSum f segments =
      retainedSum f (segments.map (·.retire cutoff)) + expiringSum f cutoff segments := by
  induction segments with
  | nil => rfl
  | cons s segments ih =>
    have hs : s.retained f = (s.retire cutoff).retained f + s.expiring f cutoff := by
      unfold SegmentMeta.retire SegmentMeta.expiring
      split
      next h =>
        have hstate : s.state ≠ .retired := by
          simp only [SegmentMeta.expired, Bool.and_eq_true, decide_eq_true_eq] at h
          exact h.1.1
        simp [SegmentMeta.retained, hstate]
      next => rfl
    simp only [map_cons, retainedSum_cons, expiringSum, sum_cons] at ih ⊢
    omega

theorem countP_retire (segments : List SegmentMeta) :
    (segments.map (·.retire cutoff)).countP (·.state = .retired) =
      segments.countP (·.state = .retired) + expiringSum (fun _ ↦ 1) cutoff segments := by
  induction segments with
  | nil => rfl
  | cons s segments ih =>
    simp only [map_cons, countP_cons, expiringSum, sum_cons] at ih ⊢
    rw [ih]
    unfold SegmentMeta.retire SegmentMeta.expiring
    split
    next h =>
      have hstate : s.state ≠ .retired := by
        simp only [SegmentMeta.expired, Bool.and_eq_true, decide_eq_true_eq] at h
        exact h.1.1
      simp [hstate]
      omega
    next => simp; omega

/-- **The preview counts exactly what a retirement retires**, once the times of the records are in
order. -/
theorem foldl_previewSegment (pending : Bool) {segments : List SegmentMeta}
    (htimes : ∀ s ∈ segments, s.lastSequence ≠ 0 → s.minTime ≤ s.maxTime) (out : RetentionStats) :
    let stats := segments.foldl (previewSegment pending) out
    u64 stats.eligibleRows = u64 (out.eligibleRows + expiringSum SegmentMeta.rows out.cutoff segments) ∧
      u64 stats.eligibleBytes =
        u64 (out.eligibleBytes + expiringSum SegmentMeta.committedBytes out.cutoff segments) ∧
      stats.eligibleSegments = out.eligibleSegments + expiringSum (fun _ ↦ 1) out.cutoff segments := by
  induction segments generalizing out with
  | nil => exact ⟨rfl, rfl, rfl⟩
  | cons s segments ih =>
    have htime := htimes s (mem_cons_self ..)
    have ih := ih (fun s' hs' ↦ htimes s' (mem_cons_of_mem s hs')) (previewSegment pending out s)
    simp only [foldl_cons, expiringSum, map_cons, sum_cons] at ih ⊢
    obtain ⟨hrows, hbytes, hsegs⟩ := ih
    rw [hrows, hbytes, hsegs]
    by_cases hexp : s.expired out.cutoff = true
    · have hexp' := hexp
      simp only [SegmentMeta.expired, Bool.and_eq_true, decide_eq_true_eq] at hexp'
      obtain ⟨⟨hstate, hlast⟩, hmax⟩ := hexp'
      have hmin := htime hlast
      have hstep : previewSegment pending out s =
          { out with
            eligibleSegments := out.eligibleSegments + 1
            eligibleRows := u64 (out.eligibleRows + (s.lastSequence - s.firstSequence + 1))
            eligibleBytes := u64 (out.eligibleBytes + s.committedBytes) } := by
        unfold previewSegment
        rw [if_neg hstate, if_neg (by omega), if_neg (by omega)]
      rw [hstep]
      simp only [SegmentMeta.expiring, hexp, if_true, SegmentMeta.rows, if_neg hlast, u64_add_left,
        add_assoc, and_self]
    · have hsame : (previewSegment pending out s).eligibleRows = out.eligibleRows ∧
          (previewSegment pending out s).eligibleBytes = out.eligibleBytes ∧
          (previewSegment pending out s).eligibleSegments = out.eligibleSegments ∧
          (previewSegment pending out s).cutoff = out.cutoff := by
        simp only [SegmentMeta.expired, Bool.and_eq_true, decide_eq_true_eq] at hexp
        unfold previewSegment
        split
        · split <;> exact ⟨rfl, rfl, rfl, rfl⟩
        · split
          · exact ⟨rfl, rfl, rfl, rfl⟩
          · split
            · exact ⟨rfl, rfl, rfl, rfl⟩
            · exact absurd ⟨⟨by assumption, by omega⟩, by omega⟩ hexp
      obtain ⟨h1, h2, h3, h4⟩ := hsame
      rw [h1, h2, h3, h4]
      simp [SegmentMeta.expiring, hexp]

/-- **Retirement.** -/
theorem Table.Tallied.installRetired {t : Table c} (h : t.Tallied) (now : ℤ)
    (htimes : ∀ s ∈ t.segments, s.lastSequence ≠ 0 → s.minTime ≤ s.maxTime)
    {staged : Table c} (hstaged : staged.segments = t.segments.map (·.retire (t.cutoff now))) :
    (t.installRetired staged (t.preview now)).Tallied := by
  obtain ⟨hrows, hbytes, hsegs⟩ := foldl_previewSegment t.pendingRetention htimes
    ⟨t.cutoff now, 0, 0, 0, 0, 0, 0⟩
  simp only [zero_add] at hrows hbytes hsegs
  suffices hfields : ∀ t' : Table c, t'.segments = staged.segments →
      (t'.retainedRows, t'.retainedBytes, t'.retainedSegments, t'.retiredSegments) =
        (u64Sub t.retainedRows (t.preview now).eligibleRows,
          u64Sub t.retainedBytes (t.preview now).eligibleBytes,
          u64Sub t.retainedSegments (t.preview now).eligibleSegments,
          u64 (t.retiredSegments + (t.preview now).eligibleSegments)) → t'.Tallied by
    unfold Table.installRetired
    simp only
    split <;> exact hfields _ rfl rfl
  intro t' hseg hcounters
  obtain ⟨h1, h2, h3, h4⟩ := Prod.ext_iff.1 hcounters |>.imp id fun h ↦
    (Prod.ext_iff.1 h).imp id Prod.ext_iff.1
  rw [hstaged] at hseg
  refine ⟨h1.trans ?_, h2.trans ?_, h3.trans ?_, h4.trans ?_⟩ <;> rw [hseg]
  · exact u64Sub_congr h.rows hrows (retainedSum_retire _ _)
  · exact u64Sub_congr h.bytes hbytes (retainedSum_retire _ _)
  · exact u64Sub_congr h.segments (congrArg u64 hsegs) (retainedSum_retire _ _)
  · refine u64_add_congr h.retired ?_
    rw [countP_retire]
    exact congrArg _ hsegs

end Retirement

end WebAnalyticsDb
