import WebAnalyticsDb.Storage.Index
import WebAnalyticsDb.Storage.Retention

/-!
# Segments: rotation and recovery

`createActive` seals the active segment and installs a new, empty one. `recoverSegment` reads a segment
file back: a sealed segment through its derived index when that is intact, everything else frame by
frame. `storageRecover` does this for all segments of a table when it is opened.

* **A frame that is cut short ends an active segment.** The scan truncates the file there; in a sealed
  segment, or below the length the manifest has recorded, it is damage.
* **The scan carries its results along.** The source accumulates them in the table handle and in local
  variables; here they are the record `Scan`, so that the same scan serves recovery and the rebuilding
  of an index.
* **Loops over file contents are bounded by fuel** that the length of the file provides; running out of
  it is unreachable.
-/

namespace WebAnalyticsDb

open Bytes

variable {c : Config} {μ : Type}

/-! ### Rotation -/

/-- The loop that skips the files of segments whose manifest was never installed. The fuel is the number
of identifiers left. -/
def createFile (day : ℤ) : ℕ → ℕ → Io μ ℕ
  | 0, _ => wadbFail .limit "segment IDs exhausted"
  | fuel + 1, id => do
    allocOr "segment path"
    let fs ← Prog.files
    let exists' := (fs (.seg day id)).isSome
    let ok ← Prog.call false (.create (.seg day id)) fun fs ↦
      if (fs (.seg day id)).isSome then fs else Prog.setFile (.seg day id) (some ⟨[], 0⟩) fs
    require ok .io "create segment"
    if exists' then createFile day fuel (id + 1) else pure id

/-- The header of a segment. -/
def SegmentMeta.header (c : Config) (s : SegmentMeta) : SegmentHeader where
  tableId := c.id
  segmentId := s.id
  schemaHash := c.schema.fingerprint
  rowWidth := c.schema.rowWidth
  dayStart := s.dayStart
  firstSequence := s.firstSequence

/-- The segments with the active one sealed. -/
def sealLast (segments : List SegmentMeta) : List SegmentMeta :=
  segments.modify (segments.length - 1) fun s ↦
    if s.state = .active then { s with state := .sealed } else s

/-- The record of a new active segment for rows from `now` on. -/
def Table.newSegment (t : Table c) (now : ℤ) : SegmentMeta where
  id := t.nextSegmentId
  dayStart := now - now % dayUs
  firstSequence := u64 (t.lastSequence + 1)
  lastSequence := 0
  minTime := 0
  maxTime := 0
  committedBytes := segmentHeaderBytes
  state := .active

/-- The table with a new active segment. -/
def Table.stageActive (t : Table c) (s : SegmentMeta) : Table c :=
  { t with
    segments := sealLast t.segments ++ [s]
    nextSegmentId := s.id + 1
    manifestGeneration := t.manifestGeneration + 1 }

/-- What becomes visible when the manifest of a new active segment is installed. -/
def Table.installActive (t staged : Table c) (s : SegmentMeta) : Table c :=
  { t with
    segments := staged.segments
    nextSegmentId := staged.nextSegmentId
    manifestGeneration := staged.manifestGeneration
    retainedSegments := u64 (t.retainedSegments + 1)
    retainedBytes := u64 (t.retainedBytes + segmentHeaderBytes)
    publishedDictionaryBytes := 0
    index := .empty
    activeFd := some s.segPath }

/-- The part of `create_active` whose uncertain outcome makes the table read-only. -/
def installSegment (s : SegmentMeta) : Io (Table c) Unit := do
  allocOr "partition path"
  mkdir (.partition s.dayStart)
  syncDirectory .table
  let id ← createFile s.dayStart (uint64Max - s.id) s.id
  let s := { s with id := id }
  let header ← Prog.rethrow (segmentEncode (s.header c))
  writeAll s.segPath header
  syncFile s.segPath
  syncDirectory (.partition s.dayStart)
  let t ← Prog.get
  let staged := t.stageActive s
  saveManifest staged
  Prog.modify (·.installActive staged s)

/-- `create_active`. Saving the index of the segment to be sealed comes first and its outcome is
returned as it is. -/
def createActive (now : ℤ) : Io (Table c) Unit := do
  let t ← Prog.get
  require (t.nextSegmentId ≠ uint64Max && t.segments.length < maxSegments &&
    t.manifestGeneration ≠ uint64Max) .limit "segment metadata exhausted"
  match t.active? with
  | some s => indexSave c s t.index t.dictionary
  | none => pure ()
  allocOr "segment directory allocation"
  let status ← Prog.attempt (installSegment (t.newSegment now))
  protectUncertain status
  Prog.rethrow status

/-! ### Scanning a segment file -/

/-- Every call succeeds and the deadline is not reached. -/
def Undisturbed (env : Env Path Dir) (deadline : ℕ) : Prop :=
  env.Calm ∧ ∀ n, env.clock n < deadline

/-- What the scan of a segment has found so far. -/
structure Scan where
  /-- The end of the last complete frame. -/
  offset : ℕ
  /-- The last sequence number of the segment, zero without rows. -/
  last : ℕ
  minTime : ℤ
  maxTime : ℤ
  /-- The last sequence number of the table. -/
  lastSequence : ℕ
  /-- The last timestamp of the table. -/
  lastTime : ℤ
  index : FrameIndex
  dictionary : Dictionary
deriving DecidableEq, Repr

/-- The row loop of the scan. -/
def validateRows (s : Schema) (resolve : SymbolDecode) : ℕ → Bytes → Except Error Unit
  | 0, _ => .ok ()
  | n + 1, p =>
    match validateRow s (slice p 0 s.rowWidth) (some resolve) with
    | .error e => .error e
    | .ok () => validateRows s resolve n (p.drop s.rowWidth)

/-- The scan after a frame was accepted. -/
def Scan.accept (x : Scan) (f : Frame) (p : Bytes) (index : FrameIndex) (d : Dictionary) : Scan where
  offset := x.offset + p.length
  last := u64 (f.firstSequence + f.rowCount - 1)
  minTime := if x.last = 0 then f.minTime else x.minTime
  maxTime := f.maxTime
  lastSequence := u64 (f.firstSequence + f.rowCount - 1)
  lastTime := f.maxTime
  index := index.push (indexForFrame f p x.offset)
  dictionary := d

/-- A decoded frame continues the segment. -/
def Frame.continues (f : Frame) (c : Config) (s : SegmentMeta) (x : Scan) : Bool :=
  f.schemaHash = c.schema.fingerprint && f.rowWidth = c.schema.rowWidth &&
    x.lastSequence ≠ uint64Max && f.firstSequence = x.lastSequence + 1 && x.lastTime ≤ f.minTime &&
    f.minTime / dayUs = s.dayStart / dayUs

/-- One round of the frame loop: the scan after the next frame, or nothing when the file ends inside
one. -/
def scanFrame (c : Config) (s : SegmentMeta) (fileBytes deadline : ℕ) (x : Scan) :
    Io μ (Option Scan) := do
  let now ← Prog.clock
  require (now < deadline) .limit "index rebuild deadline exceeded"
  if fileBytes - x.offset < frameHeaderBytes then pure none
  else
    let head ← preadAll s.segPath x.offset frameHeaderBytes
    let (_, total) ← Prog.rethrow (frameInspect head)
    if total > fileBytes - x.offset then pure none
    else
      allocOr "recovery frame buffer"
      let p ← preadAll s.segPath x.offset total
      let f ← Prog.rethrow (frameDecode p)
      require (f.continues c s x) .corrupt "frame schema, sequence or timestamp mismatch"
      let (applied, d) ← Prog.within x.dictionary (dictionaryApply f.dictionary f.dictionaryCount)
      Prog.rethrow applied
      Prog.rethrow (validateRows c.schema (dictionaryResolve d) f.rowCount f.rows)
      let index ← indexReserve x.index
      pure (some (x.accept f p index d))

/-- The end of an active segment is cut at the last complete frame. -/
def truncateTail (s : SegmentMeta) (x : Scan) : Io μ Unit := do
  require (s.state = .active && s.committedBytes ≤ x.offset) .corrupt
    "partial frame inside committed segment"
  let ok ← Prog.call false (.truncate s.segPath) (Prog.truncateTo s.segPath x.offset)
  require ok .io "truncate interrupted tail"
  syncFile s.segPath

/-- The frame loop of `recover_segment`. -/
def scanLoop (c : Config) (s : SegmentMeta) (fileBytes deadline : ℕ) : ℕ → Scan → Io μ Scan
  | 0, x => if x.offset < fileBytes then Prog.die else pure x
  | fuel + 1, x =>
    if x.offset < fileBytes then do
      match ← scanFrame c s fileBytes deadline x with
      | some x' => scanLoop c s fileBytes deadline fuel x'
      | none =>
        truncateTail s x
        pure x
    else pure x

/-! ### Recovery -/

/-- What `recover_segment` leaves in the segment record and in the table. -/
structure Recovered where
  segment : SegmentMeta
  lastSequence : ℕ
  lastTime : ℤ
  /-- The dictionary and the index, when the table keeps them. -/
  kept : Option (Dictionary × FrameIndex)
deriving DecidableEq, Repr

/-- The segment record with what the scan has found. -/
def SegmentMeta.withScan (s : SegmentMeta) (x : Scan) : SegmentMeta :=
  { s with
    lastSequence := x.last, minTime := x.minTime, maxTime := x.maxTime, committedBytes := x.offset }

/-- The scan agrees with the summary in the manifest. -/
def Scan.agrees (x : Scan) (s : SegmentMeta) : Bool :=
  if s.state = .active then s.lastSequence ≤ x.last
  else s.lastSequence = x.last && s.minTime = x.minTime && s.maxTime = x.maxTime

/-- The part of `recover_segment` that reads the frames. -/
def scanSegment (c : Config) (s : SegmentMeta) (force : Bool) (deadline fileBytes : ℕ)
    (lastSequence : ℕ) (lastTime : ℤ) : Io μ Recovered := do
  let d ← dictionaryNew c.schema c.options.dictionaryLimitBytes
  let x ← scanLoop c s fileBytes deadline fileBytes
    ⟨segmentHeaderBytes, 0, 0, 0, lastSequence, lastTime, .empty, d⟩
  require (x.agrees s) .corrupt "segment summary contradicts durable manifest"
  let s' := s.withScan x
  if s.state = .active ∨ force = true then
    pure ⟨s', x.lastSequence, x.lastTime, some (x.dictionary, x.index)⟩
  else
    match ← Prog.attempt (indexSave c s' x.index (some x.dictionary)) with
    | .ok () => pure ⟨s', x.lastSequence, x.lastTime, none⟩
    | .error e =>
      if e.code = .io ∨ e.code = .indeterminate then
        pure ⟨s', x.lastSequence, x.lastTime, none⟩
      else Prog.fail e

/-- The segment is the one its file says it is, and continues the table. -/
def headerMatches (c : Config) (s : SegmentMeta) (h : SegmentHeader) (lastSequence : ℕ) : Bool :=
  h = s.header c && lastSequence ≠ uint64Max && s.firstSequence = lastSequence + 1

/-- The beginning of `recover_segment`: open the file, look at its size and read its header. -/
def openSegment (s : SegmentMeta) : Io μ (ℕ × SegmentHeader) := do
  allocOr "segment path"
  let opened ← Prog.call false (.open s.segPath) id
  let fs ← Prog.files
  require (opened && (fs s.segPath).isSome) .corrupt "manifest references unavailable segment"
  let fileBytes := ((fs s.segPath).elim [] File.data).length
  let stat ← Prog.call false (.stat s.segPath) id
  require (stat && segmentHeaderBytes ≤ fileBytes) .corrupt "invalid segment file"
  require ((s.state = .active || fileBytes = s.committedBytes) && s.committedBytes ≤ fileBytes)
    .corrupt "segment size contradicts manifest"
  let p ← preadAll s.segPath 0 segmentHeaderBytes
  let h ← Prog.rethrow (segmentDecode p)
  pure (fileBytes, h)

/-- `recover_segment`, with the watermarks of the table so far. -/
def recoverSegment (c : Config) (s : SegmentMeta) (force : Bool) (deadline : ℕ)
    (lastSequence : ℕ) (lastTime : ℤ) : Io μ Recovered := do
  let (fileBytes, h) ← openSegment s
  require (headerMatches c s h lastSequence) .corrupt "segment identity or sequence mismatch"
  if s.state ≠ .active ∧ force = false then
    let (status, _) ← Prog.within (.fresh s) (openRaw c s)
    match status with
    | .ok () =>
      if s.lastSequence = 0 then pure ⟨s, lastSequence, lastTime, none⟩
      else
        require (lastTime ≤ s.minTime) .corrupt "unordered sealed segments"
        pure ⟨s, s.lastSequence, s.maxTime, none⟩
    | .error e =>
      if e.code = .nomem ∨ e.code = .limit then Prog.fail e
      else scanSegment c s force deadline fileBytes lastSequence lastTime
  else scanSegment c s force deadline fileBytes lastSequence lastTime

/-- `wadb_rebuild_index_data`. -/
def rebuildIndexData (c : Config) (s : SegmentMeta) (deadline : ℕ) :
    Io μ (FrameIndex × Dictionary) := do
  require (s.state ≠ .active) .invalid "active indexes are memory snapshots"
  let r ← recoverSegment c s true deadline (u64Sub s.firstSequence 1) s.minTime
  match r.kept with
  | none => Prog.die
  | some (d, index) => pure (index, d)

/-- `wadb_readable_reserve`. -/
def readableReserve : Io (Table c) Unit := do
  let t ← Prog.get
  if t.readableSegments.length < t.readableCapacity then pure ()
  else
    let cap := min (if t.readableCapacity ≠ 0 then t.readableCapacity * 2 else 16) maxSegments
    require (t.readableSegments.length < cap) .limit "segment directory limit"
    allocOr "readable segment directory"
    Prog.modify fun t ↦ { t with readableCapacity := cap }

/-- The table after segment `i` was recovered. -/
def Table.withRecovered (t : Table c) (i : ℕ) (r : Recovered) : Table c :=
  let t := { t with
    segments := t.segments.set i r.segment
    lastSequence := r.lastSequence
    lastTime := r.lastTime
    retainedSegments := u64 (t.retainedSegments + 1)
    retainedBytes := u64 (t.retainedBytes + r.segment.committedBytes) }
  match r.kept with
  | none => t
  | some (d, index) =>
    { t with activeFd := some r.segment.segPath, dictionary := some d, index := index }

/-- The loop of `wadb_storage_recover` from segment `i` on. -/
def recoverLoop : ℕ → List SegmentMeta → Io (Table c) Unit
  | _, [] => pure ()
  | i, s :: segments => do
    if s.state = .retired then
      Prog.modify fun t ↦
        { t with pendingRetention := true, retiredSegments := u64 (t.retiredSegments + 1) }
      recoverLoop (i + 1) segments
    else
      let t ← Prog.get
      let r ← recoverSegment c s false uint64Max t.lastSequence t.lastTime
      Prog.modify (·.withRecovered i r)
      if r.segment.lastSequence = 0 then recoverLoop (i + 1) segments
      else
        Prog.modify fun t ↦ { t with
          retainedRows := u64 (t.retainedRows +
            (r.segment.lastSequence - r.segment.firstSequence + 1)) }
        readableReserve
        Prog.modify fun t ↦ { t with readableSegments := t.readableSegments ++ [i] }
        recoverLoop (i + 1) segments

/-- `wadb_storage_recover`. -/
def storageRecover : Io (Table c) Unit := do
  Prog.modify fun t ↦ { t with lastSequence := t.preservedSequence, lastTime := t.preservedTime }
  let t ← Prog.get
  recoverLoop 0 t.segments
  Prog.modify fun t ↦ { t with
    publishedDictionaryBytes := (t.dictionary.map (·.allocatedBytes)).getD 0 }
  let t ← Prog.get
  if t.pendingRetention then
    let _ ← retentionCleanup
    pure ()
  else pure ()

/-- Opening a table whose schema is known: its manifest and then its segments. -/
def openTable : Io (Table c) Unit := do
  let status ← Prog.attempt do
    loadManifest
    storageRecover
  match status with
  | .ok () => pure ()
  | .error e =>
    if e.code = .notFound then wadbFail .corrupt "catalog references missing table metadata"
    else Prog.fail e

/-! ### Rules -/

section Rules

variable {env : Env Path Dir} {fs : Files} {n deadline : ℕ} {m : SegmentMeta} {f : File} {mem : μ}

theorem disturbed (h : ¬ env.Calm) : ¬ Undisturbed env deadline := fun hu ↦ h hu.1

/-- **Opening a segment file**, up to the decoding of its header. -/
theorem wp_openSegment (hf : fs m.segPath = some f)
    {Q : Exit Error (ℕ × SegmentHeader) → Files → μ → Prop}
    (hsize : ¬ (segmentHeaderBytes ≤ f.data.length ∧
      (m.state = .active ∨ f.data.length = m.committedBytes) ∧ m.committedBytes ≤ f.data.length) →
      ∀ e, Q (.fail e) fs mem)
    (hok : ∀ h, m.state = .active ∨ f.data.length = m.committedBytes → segmentDecode (slice f.data 0 segmentHeaderBytes) = .ok h →
      Q (.ok (f.data.length, h)) fs mem)
    (hbad : ∀ e, segmentDecode (slice f.data 0 segmentHeaderBytes) = .error e → Q (.fail e) fs mem)
    (hno : ¬ env.Calm → ∀ e, Q (.fail e) fs mem) (hkill : ¬ env.Calm → Q .killed fs mem) :
    wp (openSegment m) env Q ⟨fs, n, mem⟩ := by
  unfold openSegment
  refine wp_bind (wp_allocOr (fun n ↦ ?_) fun h ↦ hno h _)
  refine wp_bind (wp_call (fun n ↦ ?_) (fun h n ↦ ?_) hkill hkill)
  swap
  · refine wp_bind (wp_files.2 fun n ↦ ?_)
    exact wp_bind (wp_require (by simp) fun _ ↦ hno h _)
  refine wp_bind (wp_files.2 fun n ↦ ?_)
  refine wp_require_of (by simp [hf]) fun n ↦ ?_
  simp only [id, hf, Option.elim_some]
  refine wp_bind (wp_call (fun n ↦ ?_) (fun h n ↦ ?_) hkill hkill)
  swap
  · exact wp_bind (wp_require (by simp) fun _ ↦ hno h _)
  refine wp_bind (wp_require (fun hhead n ↦ ?_) fun hshort ↦ hsize (fun h ↦ ?_) _)
  swap
  · simp [h.1] at hshort
  refine wp_bind (wp_require (fun hgood n ↦ ?_) fun hother ↦ hsize (fun h ↦ ?_) _)
  swap
  · simp only [Bool.and_eq_false_iff, Bool.or_eq_false_iff, decide_eq_false_iff_not] at hother
    tauto
  simp only [Bool.and_eq_true, Bool.or_eq_true, decide_eq_true_eq] at hhead hgood
  refine wp_bind (wp_preadAll (w := ⟨fs, _, mem⟩) hf (by decide) (by omega)
    (fun n ↦ ?_) (fun h ↦ hno h _) hkill)
  cases hdec : segmentDecode (slice f.data 0 segmentHeaderBytes) with
  | ok h => exact wp_bind (wp_rethrow.2 fun n ↦ hok h hgood.1 hdec)
  | error e => exact wp_bind (wp_rethrow.2 (hbad e hdec))

/-- **One round of the frame loop**, up to a decoded frame. -/
theorem wp_scanFrame {x : Scan} (hf : fs m.segPath = some f) (hlen : f.data.length ≤ int64Max)
    {Q : Exit Error (Option Scan) → Files → μ → Prop}
    (hno : ¬ Undisturbed env deadline → ∀ e, Q (.fail e) fs mem)
    (hkill : ¬ Undisturbed env deadline → Q .killed fs mem)
    (h : if f.data.length - x.offset < frameHeaderBytes then Q (.ok none) fs mem
      else match frameInspect (slice f.data x.offset frameHeaderBytes) with
        | .error e => Q (.fail e) fs mem
        | .ok (_, total) =>
          if total > f.data.length - x.offset then Q (.ok none) fs mem
          else match frameDecode (slice f.data x.offset total) with
            | .error e => Q (.fail e) fs mem
            | .ok g => ∀ n, wp (do
                require (g.continues c m x) .corrupt "frame schema, sequence or timestamp mismatch"
                let (applied, d) ← Prog.within x.dictionary
                  (dictionaryApply g.dictionary g.dictionaryCount)
                Prog.rethrow applied
                Prog.rethrow (validateRows c.schema (dictionaryResolve d) g.rowCount g.rows)
                let index ← indexReserve x.index
                pure (some (x.accept g (slice f.data x.offset total) index d))) env Q ⟨fs, n, mem⟩) :
    wp (scanFrame c m f.data.length deadline x) env Q ⟨fs, n, mem⟩ := by
  unfold scanFrame
  refine wp_bind (Prog.wp_clock.2 fun k ↦ ?_)
  refine wp_bind (wp_require (fun _ n ↦ ?_) fun hlate ↦ hno (fun hu ↦ ?_) _)
  swap
  · exact absurd (hu.2 n) (by simpa using hlate)
  split
  next hshort => rwa [if_pos hshort] at h
  next hlong =>
  rw [if_neg hlong] at h
  have hhead : frameHeaderBytes = 80 := rfl
  refine wp_bind (wp_preadAll (w := ⟨fs, _, mem⟩) hf (by omega) (by omega) (fun n ↦ ?_)
    (fun h ↦ hno (disturbed h) _) fun h ↦ hkill (disturbed h))
  cases hinspect : frameInspect (slice f.data x.offset frameHeaderBytes) with
  | error e =>
    rw [hinspect] at h
    exact wp_bind (wp_rethrow.2 h)
  | ok head =>
  rw [hinspect] at h
  refine wp_bind (wp_rethrow.2 fun n ↦ ?_)
  dsimp only at h ⊢
  split
  next hbeyond => rwa [if_pos hbeyond] at h
  next hfits =>
  rw [if_neg hfits] at h
  refine wp_bind (wp_allocOr (fun n ↦ ?_) fun h ↦ hno (disturbed h) _)
  refine wp_bind (wp_preadAll (w := ⟨fs, _, mem⟩) hf (by omega) (by omega) (fun n ↦ ?_)
    (fun h ↦ hno (disturbed h) _) fun h ↦ hkill (disturbed h))
  cases hdecode : frameDecode (slice f.data x.offset head.2) with
  | error e =>
    rw [hdecode] at h
    exact wp_bind (wp_rethrow.2 h)
  | ok g =>
    rw [hdecode] at h
    exact wp_bind (wp_rethrow.2 h)

end Rules

end WebAnalyticsDb
