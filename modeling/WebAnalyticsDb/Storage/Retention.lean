import WebAnalyticsDb.Storage.Manifest

/-!
# Retention

Whole segments whose rows are all older than the policy allows are **retired**: the manifest that
records this is the commit point. Their files are removed afterwards, by a cleanup that waits until
no reader holds a snapshot and that can be repeated.

Retirement touches only segments with rows. An empty segment has no time and is never retired; what
follows from that for recovery is the subject of the recovery theorems.
-/

namespace WebAnalyticsDb

variable {c : Config} {μ : Type}

/-! ### Removing files -/

/-- Remove a file of a retired segment; a file that is gone already is no error. -/
def removeFile (p : Path) : Io μ Bool := do
  allocOr "retention path"
  let fs ← Prog.files
  let ok ← Prog.call false (.unlink p) (Prog.setFile p none)
  require ok .io "remove retired segment file"
  pure (fs p).isSome

/-- The files of one retired segment: its rows, its index, and then the directory is synchronized. -/
def removeSegment (s : SegmentMeta) : Io μ (Except Error Unit × Bool) := do
  match ← Prog.attempt (removeFile s.segPath) with
  | .error e => pure (.error e, false)
  | .ok removed =>
    let rest ← Prog.attempt do
      let _ ← removeFile s.idxPath
      syncDirectory s.idxPath.parent
    pure (rest, removed)

/-- The loop of `cleanup`, with the number of segments removed so far. It stops at the first error. -/
def cleanupLoop : List SegmentMeta → ℕ → Io μ (Except Error Unit × ℕ)
  | [], deleted => pure (.ok (), deleted)
  | s :: segments, deleted =>
    if s.state ≠ .retired then cleanupLoop segments deleted
    else do
      let (status, removed) ← removeSegment s
      let deleted := if removed then deleted + 1 else deleted
      match status with
      | .error e => pure (.error e, deleted)
      | .ok () => cleanupLoop segments deleted

/-- The status of an attempted call. -/
def statusOf {α : Type} : Except Error α → Option Status
  | .ok _ => none
  | .error e => some e.code

/-- `wadb_retention_cleanup`: the status and how many segments were removed. -/
def retentionCleanup : Io (Table c) (Except Error Unit × ℕ) := do
  let t ← Prog.get
  if !(t.pendingRetention && t.readers = 0) then pure (.ok (), 0)
  else
    let (status, deleted) ← cleanupLoop t.segments 0
    Prog.modify fun t ↦ { t with
      pendingRetention := (statusOf status).isSome
      maintenanceStatus := statusOf status }
    pure (status, deleted)

/-! ### Policies -/

/-- `protect_uncertain`: an outcome that is not known makes the table read-only. -/
def protectUncertain {α : Type} (status : Except Error α) : Io (Table c) Unit :=
  if statusOf status = some .indeterminate then Prog.modify fun t ↦ { t with readOnly := true }
  else pure ()

/-- `wadb_set_retention`. -/
def setRetention (duration : ℕ) : Io (Table c) Unit := do
  require (duration ≤ int64Max) .invalid "invalid retention duration"
  let t ← Prog.get
  let status ← Prog.attempt do
    require (!t.frozen) .readOnly "metadata requires recovery"
    require (t.manifestGeneration ≠ uint64Max) .limit "manifest generations exhausted"
    let staged : Table c :=
      { t with retentionUs := duration, manifestGeneration := t.manifestGeneration + 1 }
    saveManifest staged
    Prog.modify fun t ↦
      { t with retentionUs := duration, manifestGeneration := staged.manifestGeneration }
  protectUncertain status
  Prog.rethrow status

/-- `wadb_retention_stats`. -/
structure RetentionStats where
  cutoff : ℤ
  eligibleSegments : ℕ
  eligibleRows : ℕ
  eligibleBytes : ℕ
  partiallyExpiredSegments : ℕ
  pendingSegments : ℕ
  deletedSegments : ℕ
deriving DecidableEq, Repr

/-- The time before which rows may be removed. -/
def Table.cutoff (t : Table c) (now : ℤ) : ℤ :=
  if t.retentionUs ≠ 0 ∧ (t.retentionUs : ℤ) ≤ now then now - t.retentionUs else 0

/-- One round of the loop of `preview`. -/
def previewSegment (pending : Bool) (out : RetentionStats) (s : SegmentMeta) : RetentionStats :=
  if s.state = .retired then
    if pending then { out with pendingSegments := out.pendingSegments + 1 } else out
  else if s.lastSequence = 0 ∨ s.minTime ≥ out.cutoff then out
  else if s.maxTime ≥ out.cutoff then
    { out with partiallyExpiredSegments := out.partiallyExpiredSegments + 1 }
  else
    { out with
      eligibleSegments := out.eligibleSegments + 1
      eligibleRows := u64 (out.eligibleRows + (s.lastSequence - s.firstSequence + 1))
      eligibleBytes := u64 (out.eligibleBytes + s.committedBytes) }

/-- `preview`. -/
def Table.preview (t : Table c) (now : ℤ) : RetentionStats :=
  t.segments.foldl (previewSegment t.pendingRetention) ⟨t.cutoff now, 0, 0, 0, 0, 0, 0⟩

/-- `wadb_retention_preview`. -/
def retentionPreview (now : ℤ) : Io (Table c) RetentionStats := do
  require (0 ≤ now) .invalid "table, nonnegative time and preview output required"
  let t ← Prog.get
  pure (t.preview now)

/-- The segments that `wadb_retention_apply` retires. -/
def SegmentMeta.expired (s : SegmentMeta) (cutoff : ℤ) : Bool :=
  s.state ≠ .retired && s.lastSequence ≠ 0 && s.maxTime < cutoff

/-- A segment with its new state. -/
def SegmentMeta.retire (s : SegmentMeta) (cutoff : ℤ) : SegmentMeta :=
  if s.expired cutoff then { s with state := .retired } else s

/-- The staged table of `wadb_retention_apply`: expired segments are retired, and the watermarks are
those of the last of them. -/
def Table.retireExpired (t : Table c) (cutoff : ℤ) : Table c :=
  let staged := { t with
    segments := t.segments.map (·.retire cutoff)
    manifestGeneration := t.manifestGeneration + 1 }
  match (t.segments.filter (·.expired cutoff)).getLast? with
  | none => staged
  | some s => { staged with preservedSequence := s.lastSequence, preservedTime := s.maxTime }

/-- What becomes visible when the manifest of a retirement is installed. -/
def Table.installRetired (t staged : Table c) (stats : RetentionStats) : Table c :=
  let t := { t with
    segments := staged.segments
    manifestGeneration := staged.manifestGeneration
    preservedSequence := staged.preservedSequence
    preservedTime := staged.preservedTime
    pendingRetention := true
    retainedRows := u64Sub t.retainedRows stats.eligibleRows
    retainedBytes := u64Sub t.retainedBytes stats.eligibleBytes
    retainedSegments := u64Sub t.retainedSegments stats.eligibleSegments
    retiredSegments := u64 (t.retiredSegments + stats.eligibleSegments)
    readableSegments := t.readableSegments.filter fun i ↦
      (staged.segments[i]?.map (·.state)) ≠ some .retired }
  if (t.segments.getLast?.map (·.state)) = some .retired then
    { t with activeFd := none, index := .empty, publishedDictionaryBytes := 0, dictionary := none }
  else t

/-- The durable part of `wadb_retention_apply`. -/
def retireSegments (stats : RetentionStats) : Io (Table c) Unit := do
  let t ← Prog.get
  require (!t.frozen) .readOnly "retention requires recovered metadata"
  if stats.eligibleSegments = 0 then pure ()
  else
    require (t.manifestGeneration ≠ uint64Max) .limit "manifest generations exhausted"
    allocOr "retention manifest"
    let staged := t.retireExpired stats.cutoff
    saveManifest staged
    Prog.modify (·.installRetired staged stats)

/-- What `wadb_retention_apply` does between the section in which it copies the table and the one that
installs the retirement: the staged table, if a segment has expired. -/
def saveRetirement (copy : Table c) (stats : RetentionStats) : Io μ (Option (Table c)) := do
  require (!copy.frozen) .readOnly "retention requires recovered metadata"
  if stats.eligibleSegments = 0 then pure none
  else
    require (copy.manifestGeneration ≠ uint64Max) .limit "manifest generations exhausted"
    allocOr "retention manifest"
    saveManifest (copy.retireExpired stats.cutoff)
    pure (some (copy.retireExpired stats.cutoff))

/-- The durable part of a retirement, by its sections. -/
theorem retireSegments_eq (stats : RetentionStats) : (retireSegments stats : Io (Table c) Unit) = (do
    let t ← Prog.get
    let staged ← saveRetirement t stats
    staged.elim (pure ()) fun staged ↦ Prog.modify (·.installRetired staged stats)) := by
  unfold retireSegments saveRetirement
  refine congrArg (Prog.get >>= ·) (funext fun t ↦ ?_)
  rw [bind_assoc]
  refine congrArg (_ >>= ·) (funext fun _ ↦ ?_)
  split
  · rw [pure_bind]
    rfl
  · simp only [bind_assoc, pure_bind, Option.elim_some]

/-- The number of retired segments whose files may still be there. -/
def Table.pendingSegments (t : Table c) : ℕ :=
  if t.pendingRetention then t.segments.countP (·.state = .retired) else 0

/-- `wadb_retention_apply`, once expired cursors have been closed: the status and the statistics. -/
def retentionApply (now : ℤ) : Io (Table c) (Except Error Unit × RetentionStats) := do
  require (0 ≤ now) .invalid "table and nonnegative retention time required"
  let t ← Prog.get
  let stats := t.preview now
  let status ← Prog.attempt (retireSegments stats)
  protectUncertain status
  let (status, deleted) ← match status with
    | .error e => pure (.error e, 0)
    | .ok () => retentionCleanup
  let t ← Prog.get
  pure (status, { stats with deletedSegments := deleted, pendingSegments := t.pendingSegments })

/-! ### Setting the policy -/

/-- The table with a new policy. -/
def Table.withPolicy (t : Table c) (us : ℕ) : Table c :=
  { t with retentionUs := us, manifestGeneration := t.manifestGeneration + 1 }

/-- A policy that the table takes if its manifest can be written. -/
structure Table.Takes (t : Table c) (us : ℕ) : Prop where
  duration : us ≤ int64Max
  writable : t.frozen = false
  generation : t.manifestGeneration ≠ uint64Max
  segments : t.segments.length ≤ maxSegments

/-- **Setting the policy**, by its outcomes: a duration that is refused, a manifest that is not written,
and one that is there, whether or not the caller learns of it. -/
theorem wp_setRetention_cases {env : Env Path Dir} {t : Table c} {fs : Files} {n us : ℕ}
    {Q : Exit Error Unit → Files → Table c → Prop}
    (hbad : ¬ us ≤ int64Max → ∀ e, Q (.fail e) fs t)
    (hno : (env.Calm → ¬ t.Takes us) → ∀ e : Error, e.code ∈ [.readOnly, .limit, .io, .nomem] →
      ∀ fs', Agree fs fs' → Q (.fail e) fs' t)
    (hset : t.Takes us → ∀ fs', Agree (setFile .manifest
      (some ⟨(t.withPolicy us).manifest.image c.id, ((t.withPolicy us).manifest.image c.id).length⟩) fs) fs' →
      Q (.ok ()) fs' (t.withPolicy us) ∧ (¬ env.Calm → Q .killed fs' t ∧
        ∀ e : Error, e.code = .indeterminate → Q (.fail e) fs' { t with readOnly := true }))
    (hkill : ¬ env.Calm → ∀ fs', Agree fs fs' → Q .killed fs' t) :
    wp (setRetention us) env Q ⟨fs, n, t⟩ := by
  unfold setRetention
  refine wp_bind (wp_require (fun hus n ↦ ?_) fun hus ↦ hbad (of_decide_eq_false hus) _)
  refine wp_bind (wp_get.2 fun n ↦ ?_)
  -- an error that is certain is handed on
  have hstop (htakes : env.Calm → ¬ t.Takes us) {e : Error}
      (he : e.code ∈ [.readOnly, .limit, .io, .nomem]) {fs' : Files} (hfs : Agree fs fs') (n : ℕ) :
      wp (do
        protectUncertain (.error e : Except Error Unit)
        Prog.rethrow (.error e : Except Error Unit)) env Q ⟨fs', n, t⟩ := by
    have hcertain : statusOf (.error e : Except Error Unit) ≠ some .indeterminate := by
      intro h
      simp [Option.some.inj h] at he
    rw [protectUncertain, if_neg hcertain]
    exact wp_bind (wp_pure.2 fun n ↦ wp_rethrow.2 (hno htakes e he fs' hfs))
  refine wp_bind (wp_attempt.2 (wp_bind (wp_require (fun hopen n ↦ ?_) fun hopen ↦
    hstop (fun _ h ↦ by simp [h.writable] at hopen) (by simp) (.refl fs))))
  refine wp_bind (wp_require (fun hgen n ↦ ?_) fun hgen ↦
    hstop (fun _ h ↦ of_decide_eq_false hgen h.generation) (by simp) (.refl fs))
  by_cases hcount : t.segments.length ≤ maxSegments
  · have hset' := hset ⟨of_decide_eq_true hus, by simpa using hopen, of_decide_eq_true hgen, hcount⟩
    refine wp_bind (installs_saveManifest (t := t.withPolicy us) hcount env ⟨fs, n, t⟩ _
      (fun fs' ha n ↦ ?_) (fun hcalm fs' ha e he ↦ ?_) (fun hcalm fs' ha e he n ↦ ?_)
      fun hcalm fs' ha ↦ ha.elim (hkill hcalm fs') fun ha ↦ ((hset' fs' ha).2 hcalm).1)
    · exact wp_modify.2 fun n ↦ wp_bind (wp_pure.2 fun n ↦
        wp_rethrow.2 (hset' fs' ha).1)
    · exact hstop (fun h ↦ absurd h hcalm) (by rcases he with he | he <;> simp [he]) ha
    · have huncertain : statusOf (.error e : Except Error Unit) = some .indeterminate := congrArg some he
      rw [protectUncertain, if_pos huncertain]
      exact wp_bind (wp_modify.2 fun n ↦
        wp_rethrow.2 (((hset' fs' ha).2 hcalm).2 e he))
  · exact wp_bind (wp_bind (wp_require (fun h ↦ absurd (of_decide_eq_true h) hcount)
      fun _ ↦ hstop (fun _ h ↦ hcount h.segments) (by simp) (.refl fs)))

end WebAnalyticsDb
