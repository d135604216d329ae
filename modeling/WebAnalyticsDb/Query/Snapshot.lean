import WebAnalyticsDb.Foundation.Search
import WebAnalyticsDb.Storage.Retention

/-!
# Snapshots

A reader works on a **snapshot**: copies of the records of the segments it may need and of the index of
the active segment, taken in one critical section. A snapshot pins the table: files of retired segments
are removed only when there is none. Whoever releases the last one removes what is waiting to be
removed.

The segments of a snapshot are found by two binary searches in the directory of readable segments.
-/

namespace WebAnalyticsDb

variable {c : Config}

/-- `wadb_scan_options`. -/
structure ScanOptions where
  startTime : ℤ
  endTime : ℤ
  afterSequence : ℕ
  maxScanBytes : ℕ
  limit : ℕ
  timeoutMs : ℕ
deriving DecidableEq, Repr

/-- `wadb_snapshot`. -/
structure Snapshot where
  segments : List SegmentMeta
  charge : ℕ
  /-- The index of the active segment, if the snapshot has it. -/
  active : List IndexEntry
  /-- The last sequence number when the snapshot was taken. -/
  sequence : ℕ
deriving DecidableEq, Repr

/-- `sizeof(wadb_snapshot)`. -/
def sizeofSnapshot : ℕ := 64

/-- `sizeof(wadb_segment_meta)`. -/
def sizeofSegmentMeta : ℕ := 64

/-- `sizeof(wadb_index_entry)`. -/
def sizeofIndexEntry : ℕ := 56

/-- The records of the readable segments. -/
def Table.readable (t : Table c) : List SegmentMeta :=
  t.readableSegments.filterMap (t.segments[·]?)

/-- The segment ends before the range. -/
def ScanOptions.passes (o : ScanOptions) (s : SegmentMeta) : Bool :=
  s.maxTime < o.startTime || s.lastSequence ≤ o.afterSequence

/-- The segment begins before the end of the range. -/
def ScanOptions.reaches (o : ScanOptions) (s : SegmentMeta) : Bool := s.minTime < o.endTime

/-- The position of the first segment of a snapshot in the directory of readable segments. -/
def Table.firstReadable (t : Table c) (o : Option ScanOptions) : ℕ :=
  bisect (fun i ↦ (t.readable[i]?).any fun s ↦ o.any (·.passes s)) t.readable.length 0
    t.readable.length

/-- The position behind its last segment. -/
def Table.endReadable (t : Table c) (o : Option ScanOptions) : ℕ :=
  bisect (fun i ↦ (t.readable[i]?).any fun s ↦ o.all (·.reaches s)) t.readable.length
    (t.firstReadable o) t.readable.length

/-- The segments of a snapshot. -/
def Table.chosen (t : Table c) (o : Option ScanOptions) : List SegmentMeta :=
  if o.any (fun o ↦ o.startTime = o.endTime) then []
  else (t.readable.drop (t.firstReadable o)).take (t.endReadable o - t.firstReadable o)

/-- The snapshot of a table. -/
def Table.snapshot (t : Table c) (o : Option ScanOptions) : Snapshot :=
  let segments := t.chosen o
  let active := if (segments.getLast?.map (·.state)) = some .active then t.index.entries else []
  { segments := segments
    charge := sizeofSnapshot + segments.length * sizeofSegmentMeta + active.length * sizeofIndexEntry
    active := active
    sequence := t.lastSequence }

/-- The table with one more reader. -/
def Table.pin (t : Table c) (s : Snapshot) : Table c :=
  { t with
    readers := t.readers + 1
    db := { t.db with
      snapshotBytes := t.db.snapshotBytes + s.charge
      readerCount := t.db.readerCount + 1 } }

/-- The table with one reader less. -/
def Table.unpin (t : Table c) (s : Snapshot) : Table c :=
  { t with
    readers := t.readers - 1
    db := { t.db with
      snapshotBytes := t.db.snapshotBytes - s.charge
      readerCount := t.db.readerCount - 1 } }

/-- Memory for a copy of a list; an empty one needs none. -/
def allocCopy {α : Type} (l : List α) (message : String) : Io (Table c) Unit :=
  if l.isEmpty then pure () else allocOr message

/-- `wadb_snapshot_acquire`. -/
def snapshotAcquire (o : Option ScanOptions) : Io (Table c) Snapshot := do
  let t ← Prog.get
  let s := t.snapshot o
  require (t.db.readerCount < c.options.maxReaders &&
    s.charge ≤ c.options.snapshotLimitBytes - t.db.snapshotBytes) .backpressure
    "reader snapshot budget exhausted"
  allocCopy s.segments "query snapshot metadata"
  allocCopy s.active "query snapshot metadata"
  Prog.modify (·.pin s)
  pure s

/-- `wadb_snapshot_release`. -/
def snapshotRelease (s : Snapshot) : Io (Table c) Unit := do
  Prog.modify (·.unpin s)
  let t ← Prog.get
  if t.readers = 0 ∧ t.pendingRetention = true then
    let _ ← retentionCleanup
    pure ()
  else pure ()

section Acquire

variable {env : Env Path Dir} {t : Table c} {fs : Files} {n : ℕ}

theorem wp_allocCopy {α : Type} {l : List α} {message : String}
    {Q : Exit Error Unit → Files → Table c → Prop} (hok : Q (.ok ()) fs t)
    (hfail : ∀ e, Q (.fail e) fs t) : wp (allocCopy l message) env Q ⟨fs, n, t⟩ := by
  unfold allocCopy
  split
  · exact wp_pure.2 hok
  · exact wp_allocOr hok fun _ ↦ hfail _

/-- **Taking a snapshot.** The budget is read in the same critical section. -/
theorem wp_snapshotAcquire (o : Option ScanOptions)
    {Q : Exit Error Snapshot → Files → Table c → Prop}
    (hok : t.db.readerCount < c.options.maxReaders ∧
        (t.snapshot o).charge ≤ c.options.snapshotLimitBytes - t.db.snapshotBytes →
      Q (.ok (t.snapshot o)) fs (t.pin (t.snapshot o)))
    (hfail : ∀ e, Q (.fail e) fs t) : wp (snapshotAcquire o) env Q ⟨fs, n, t⟩ := by
  unfold snapshotAcquire
  refine wp_bind (wp_get.2 fun n ↦ ?_)
  refine wp_bind (wp_require (fun hfits n ↦ ?_) fun _ ↦ hfail _)
  simp only [Bool.and_eq_true, decide_eq_true_eq] at hfits
  refine wp_bind (wp_allocCopy (fun n ↦ ?_) fun _ ↦ hfail _)
  refine wp_bind (wp_allocCopy (fun n ↦ ?_) fun _ ↦ hfail _)
  exact wp_bind (wp_modify.2 fun n ↦ wp_pure.2 (hok hfits))

end Acquire

end WebAnalyticsDb
