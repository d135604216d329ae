import WebAnalyticsDb.Storage.Segments

/-!
# Committing a group of requests

`commitRequests` turns a group of requests into one frame at the end of the active segment. The symbols
of the group are interned provisionally in the live dictionary. When the group does not fit (the
dictionary or the frame is full, or the segment would outgrow its target) everything is taken back and
the group is prepared once more with an empty dictionary for a new segment.

* **At most two passes.** The source's loop runs a second time only with `fresh` set, and then always
  ends; the two passes are `commitActive` and `commitFresh`, and `publish` is their common end.
* **The second pass overwrites what the first wrote.** Both passes put an identifier into every symbol
  slot of the staged rows, so both start from the rows as they were staged.
-/

namespace WebAnalyticsDb

open Bytes

variable {c : Config} {μ : Type}

/-! ### Staging and interning -/

/-- The rows of a request with its timestamp. -/
def AppendRequest.stamped (r : AppendRequest c) : List Bytes :=
  r.rows.map fun row ↦ blit row 0 (ofNatLE 8 (i64Bits r.ingestionTime))

/-- The size loop of `wadb_commit_requests`: the number of rows and of row bytes. -/
def groupTotals : ℕ × ℕ → List (AppendRequest c) → Option (ℕ × ℕ)
  | total, [] => some total
  | (rows, bytes), r :: rs =>
    match addSize rows r.rowCount, addSize bytes r.rowBytes with
    | some rows, some bytes => groupTotals (rows, bytes) rs
    | _, _ => none

/-- The field loop: intern every symbol of a row and put its identifier into the row. -/
def internFields : ℕ → List Field → List Value → Bytes → Io Dictionary Bytes
  | index, f :: fs, v :: vs, row =>
    if f.type = .symbol32 ∧ v.isNull = false then do
      let id ← dictionaryIntern index v.bytes
      internFields (index + 1) fs vs (blit row f.offset (ofNatLE 4 id))
    else internFields (index + 1) fs vs row
  | _, _, _, row => pure row

/-- The row loop. -/
def internRows (s : Schema) : List (List Value × Bytes) → Io Dictionary (List Bytes)
  | [] => pure []
  | (values, row) :: rest => do
    let row ← internFields 1 s.userFields values row
    let rows ← internRows s rest
    pure (row :: rows)

/-- The rows of a group with the values they came from. -/
def groupRows (requests : List (AppendRequest c)) : List (List Value × Bytes) :=
  requests.flatMap fun r ↦ r.values.zip r.stamped

/-- What is known about a group before its frame is built. -/
structure GroupFrame where
  firstSequence : ℕ
  minTime : ℤ
  maxTime : ℤ
  rowCount : ℕ
  rowBytes : ℕ
deriving DecidableEq, Repr

/-- The frame of a group. -/
def GroupFrame.frame (g : GroupFrame) (s : Schema) (rows definitions : Bytes) (symbols : ℕ) :
    Frame where
  schemaHash := s.fingerprint
  firstSequence := g.firstSequence
  minTime := g.minTime
  maxTime := g.maxTime
  rowCount := g.rowCount
  rowWidth := s.rowWidth
  dictionaryCount := symbols
  dictionary := definitions
  rows := rows

/-- One pass up to the encoded frame, on the dictionary it interns into. -/
def prepareFrame (c : Config) (g : GroupFrame) (requests : List (AppendRequest c)) :
    Io Dictionary (Frame × Bytes) := do
  let d ← Prog.get
  let rows ← internRows c.schema (groupRows requests)
  let d' ← Prog.get
  let (definitions, symbols) ← dictionaryExport d' d.count
  require (definitions.length ≤ maxFrameBytes - 96 - g.rowBytes) .limit
    "rows and symbol additions exceed frame size"
  let frame := g.frame c.schema rows.flatten definitions symbols
  let bytes ← Prog.rethrow (frameEncode frame)
  allocOr "allocating frame"
  pure (frame, bytes)

/-! ### Publication -/

/-- The last segment after a frame was added to it. -/
def SegmentMeta.extend (s : SegmentMeta) (f : Frame) (bytes : ℕ) : SegmentMeta :=
  { s with
    minTime := if s.lastSequence = 0 then f.minTime else s.minTime
    maxTime := f.maxTime
    lastSequence := u64 (f.firstSequence + f.rowCount - 1)
    committedBytes := s.committedBytes + bytes }

/-- The database counters after a frame was committed. -/
def Db.countCommit (db : Db c) (f : Frame) (bytes requests : ℕ) : Db c :=
  let db := { db with
    committedFrames := u64 (db.committedFrames + 1)
    appendRequests := u64 (db.appendRequests + requests)
    committedRows := u64 (db.committedRows + f.rowCount)
    committedBytes := u64 (db.committedBytes + bytes) }
  if db.latestNotification < uint64Max then
    let id := db.latestNotification + 1
    { db with
      latestNotification := id
      notifications := Function.update db.notifications ((id - 1) % notificationCapacity) (some
        ⟨id, c.id, f.firstSequence, u64 (f.firstSequence + f.rowCount - 1), bytes, f.maxTime,
          f.rowCount⟩) }
  else db

/-- What becomes visible when a frame is durable. -/
def Table.publishFrame (t : Table c) (active : SegmentMeta) (f : Frame) (p : Bytes) (requests : ℕ) :
    Table c :=
  { t with
    index := t.index.push (indexForFrame f p active.committedBytes)
    readableSegments := if active.lastSequence = 0 then
      t.readableSegments ++ [t.segments.length - 1] else t.readableSegments
    segments := t.segments.dropLast ++ [active.extend f p.length]
    lastSequence := u64 (f.firstSequence + f.rowCount - 1)
    lastTime := f.maxTime
    committedFrames := u64 (t.committedFrames + 1)
    appendRequests := u64 (t.appendRequests + requests)
    retainedRows := u64 (t.retainedRows + f.rowCount)
    retainedBytes := u64 (t.retainedBytes + p.length)
    publishedDictionaryBytes := (t.dictionary.map (·.allocatedBytes)).getD 0
    db := t.db.countCommit f p.length requests }

/-- The receipts of the requests of a group. -/
def receipts : ℕ → List (AppendRequest c) → List AppendReceipt
  | _, [] => []
  | sequence, r :: rs =>
    ⟨sequence, u64 (sequence + r.rowCount - 1), r.ingestionTime, r.rowCount⟩ ::
      receipts (u64 (sequence + r.rowCount)) rs

/-- Write and synchronize a frame at the end of the active segment. -/
def writeFrame (fd : Option Path) (p : Bytes) : Io μ Unit :=
  match fd with
  | none => wadbFail .io "write failed"
  | some path => do
    writeAll path p
    syncFile path

/-- Room for one more entry in the index, and for a segment that gets its first rows in the directory of
readable segments. -/
def reserveEntry (active : SegmentMeta) : Io (Table c) Unit := do
  let t ← Prog.get
  let index ← indexReserve t.index
  Prog.modify fun t ↦ { t with index := index }
  if active.lastSequence = 0 then readableReserve else pure ()

/-- The end of both passes: reserve, write, synchronize and publish. -/
def publish (requests : List (AppendRequest c)) (f : Frame) (p : Bytes) :
    Io (Table c) (List AppendReceipt) := do
  let t ← Prog.get
  match t.segments.getLast? with
  | none => Prog.die
  | some active =>
    reserveEntry active
    match ← Prog.attempt (writeFrame t.activeFd p) with
    | .error _ =>
      Prog.modify fun t ↦ { t with readOnly := true }
      wadbFail .indeterminate "append durability is uncertain; close and recover before retrying"
    | .ok () =>
      Prog.modify (·.publishFrame active f p requests.length)
      pure (receipts f.firstSequence requests)

/-! ### Commit -/

/-- Take back the symbols from position `mark` on when a pass has failed. -/
def Table.rollback (t : Table c) (mark : ℕ) : Table c :=
  { t with dictionary := t.dictionary.map (·.rollback mark) }

/-- Publish, and take the symbols of the group back if that fails. -/
def publishOrRollback (mark : ℕ) (requests : List (AppendRequest c)) (f : Frame) (p : Bytes) :
    Io (Table c) (List AppendReceipt) := do
  match ← Prog.attempt (publish requests f p) with
  | .ok receipts => pure receipts
  | .error e =>
    Prog.modify (·.rollback mark)
    Prog.fail e

/-- The pass with a new segment. -/
def commitFresh (g : GroupFrame) (requests : List (AppendRequest c)) :
    Io (Table c) (List AppendReceipt) := do
  let d ← dictionaryNew c.schema c.options.dictionaryLimitBytes
  let (status, d) ← Prog.within d (prepareFrame c g requests)
  let (f, p) ← Prog.rethrow status
  createActive g.minTime
  Prog.modify fun t ↦ { t with dictionary := some d }
  publishOrRollback 0 requests f p

/-- The active segment would outgrow its target. -/
def tooLarge (c : Config) (active : SegmentMeta) (bytes : ℕ) : Bool :=
  active.lastSequence ≠ 0 && (c.options.segmentTargetBytes ≤ active.committedBytes ||
    c.options.segmentTargetBytes - active.committedBytes < bytes)

/-- The pass in the active segment, which falls back to the other one. -/
def commitActive (g : GroupFrame) (active : SegmentMeta) (requests : List (AppendRequest c)) :
    Io (Table c) (List AppendReceipt) := do
  let t ← Prog.get
  match t.dictionary with
  | none => Prog.die
  | some d =>
    let (status, d') ← Prog.within d (prepareFrame c g requests)
    Prog.modify fun t ↦ { t with dictionary := some d' }
    match status with
    | .error e =>
      Prog.modify (·.rollback d.count)
      if e.code = .limit then commitFresh g requests else Prog.fail e
    | .ok (f, p) =>
      if tooLarge c active p.length then
        Prog.modify (·.rollback d.count)
        commitFresh g requests
      else publishOrRollback d.count requests f p

/-- A group needs a new segment whatever its size. -/
def Table.needsFresh (t : Table c) (firstTime : ℤ) : Bool :=
  match t.active? with
  | none => true
  | some s => s.dayStart ≠ firstTime - firstTime % dayUs || maxIndexEntries ≤ t.index.count

/-- The times of a group are acceptable. -/
def groupClock (firstTime lastTime : ℤ) : Bool :=
  0 ≤ firstTime && firstTime ≤ lastTime && firstTime / dayUs = lastTime / dayUs

/-- `wadb_commit_requests`. -/
def commitRequests (requests : List (AppendRequest c)) : Io (Table c) (List AppendReceipt) := do
  match groupTotals (0, 0) requests, requests.head?, requests.getLast? with
  | none, _, _ => wadbFail .limit "append group overflow"
  | some _, none, _ => wadbFail .limit "append group exceeds frame size"
  | some _, some _, none => wadbFail .limit "append group exceeds frame size"
  | some (rowCount, rowBytes), some first, some last =>
    require (rowBytes ≤ maxFrameBytes - 96 && rowCount ≤ uint32Max) .limit
      "append group exceeds frame size"
    require (groupClock first.ingestionTime last.ingestionTime) .io
      "invalid ingestion clock for append group"
    allocOr "append group row buffer"
    let t ← Prog.get
    require (!t.frozen) .readOnly "writer requires recovery"
    require (t.lastSequence ≤ uint64Max - rowCount) .limit "row sequences exhausted"
    let g : GroupFrame :=
      ⟨u64 (t.lastSequence + 1), first.ingestionTime, last.ingestionTime, rowCount, rowBytes⟩
    match t.active? with
    | none => commitFresh g requests
    | some active =>
      if t.needsFresh first.ingestionTime then commitFresh g requests
      else commitActive g active requests

end WebAnalyticsDb
