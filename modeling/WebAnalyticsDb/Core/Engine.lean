import Mathlib.Data.List.Forall2
import WebAnalyticsDb.Storage.Dictionary

/-!
# The engine's state

The records of `core/engine.h`: the configuration of a table, its segment directory and frame
index, the append requests, and the handle of an open table.

* **What is fixed while a table lives is a configuration.** The identifier, the compiled schema and
  the options never change after `wadb_open`; `Config` holds them together with what was checked
  when they were accepted, and the types that depend on them carry it as a parameter.
* **A request is admitted or does not exist.** `AppendRequest` carries the proof that its rows are
  the encoding of its values, so the writer never meets a row that no client sent.
* **The handle is the memory of the storage programs.** `Table` is `wadb_table` together with the
  part of `wadb_db` that its `db` pointer leads to. A file descriptor is the path it was opened on:
  a segment file is never renamed, and never unlinked while it is open for writing.
-/

namespace WebAnalyticsDb

/-! ### Configuration -/

/-- `wadb_options`. -/
structure Options where
  segmentTargetBytes : ℕ
  queueLimitBytes : ℕ
  dictionaryLimitBytes : ℕ
  readCacheBytes : ℕ
  snapshotLimitBytes : ℕ
  maxReaders : ℕ
  batchTargetBytes : ℕ
  batchDelayMs : ℕ
  maxTables : ℕ
deriving DecidableEq, Repr

/-- `WADB_MAX_TABLES`. -/
def maxTables : ℕ := 1024

/-- `sizeof(wadb_cache_entry)`. -/
def sizeofCacheEntry : ℕ := 72

/-- The limits `wadb_open` accepts. -/
def Options.acceptable (o : Options) : Bool :=
  o.maxTables ≠ 0 && o.maxTables ≤ WebAnalyticsDb.maxTables && 256 ≤ o.segmentTargetBytes &&
    o.segmentTargetBytes ≤ int64Max && maxFrameBytes ≤ o.queueLimitBytes &&
    1024 ≤ o.dictionaryLimitBytes && o.dictionaryLimitBytes ≤ 64 * 1024 * 1024 &&
    256 ≤ o.batchTargetBytes && o.batchTargetBytes ≤ maxFrameBytes && o.batchDelayMs ≤ 1000 &&
    o.dictionaryLimitBytes + sizeofCacheEntry ≤ o.readCacheBytes && 1024 ≤ o.snapshotLimitBytes &&
    o.maxReaders ≠ 0 && o.maxReaders ≤ 1024

/-- `wadb_options_default`. -/
def optionsDefault : Options where
  segmentTargetBytes := 256 * 1024 * 1024
  queueLimitBytes := 64 * 1024 * 1024
  dictionaryLimitBytes := 8 * 1024 * 1024
  readCacheBytes := 64 * 1024 * 1024
  snapshotLimitBytes := 64 * 1024 * 1024
  maxReaders := 32
  batchTargetBytes := 256 * 1024
  batchDelayMs := 5
  maxTables := WebAnalyticsDb.maxTables

theorem optionsDefault_acceptable : optionsDefault.acceptable = true := by decide

/-- What is fixed while a table lives. -/
structure Config where
  /-- The identifier of the table. -/
  id : ℕ
  /-- The definitions the table was created with. -/
  defs : List FieldDef
  /-- The compiled schema. -/
  schema : Schema
  /-- The options of the database. -/
  options : Options
  /-- Identifiers start at one and are used up before the 64-bit range is. -/
  id_bounds : 0 < id ∧ id < uint64Max
  /-- The schema was accepted. -/
  built : schemaBuild defs = .ok schema
  /-- The options were accepted. -/
  accepted : options.acceptable = true

namespace Config

variable (c : Config)

theorem layout : c.schema.Layout := schemaBuild_layout c.built

theorem dictionaryLimit_bounds :
    1024 ≤ c.options.dictionaryLimitBytes ∧ c.options.dictionaryLimitBytes ≤ 64 * 1024 * 1024 := by
  have h := c.accepted
  simp only [Options.acceptable, Bool.and_eq_true, decide_eq_true_eq] at h
  tauto

end Config

/-- The tables of a database, which share its options. The budgets are machine words. -/
structure Catalogue (κ : Type) where
  table : κ → Config
  options : Options
  shared : ∀ i, (table i).options = options
  cacheFits : options.readCacheBytes < 2 ^ 64
  snapshotFits : options.snapshotLimitBytes < 2 ^ 64
  queueFits : options.queueLimitBytes < 2 ^ 64

/-! ### Segments and their index -/

/-- `wadb_segment_state`. -/
inductive SegmentState
  | active
  | sealed
  | retired
deriving DecidableEq, Repr

/-- The stored code of a state. -/
def SegmentState.code : SegmentState → ℕ
  | .active => 1
  | .sealed => 2
  | .retired => 3

/-- The state with a stored code, if it is one. -/
def SegmentState.ofCode : ℕ → Option SegmentState
  | 1 => some .active
  | 2 => some .sealed
  | 3 => some .retired
  | _ => none

theorem SegmentState.ofCode_code (s : SegmentState) : ofCode s.code = some s := by
  cases s <;> rfl

/-- `wadb_segment_meta`. A segment without rows has `lastSequence = 0`. -/
structure SegmentMeta where
  id : ℕ
  dayStart : ℤ
  firstSequence : ℕ
  lastSequence : ℕ
  minTime : ℤ
  maxTime : ℤ
  committedBytes : ℕ
  state : SegmentState
deriving DecidableEq, Repr

/-- `wadb_segment_path(t, s, "seg")`. -/
def SegmentMeta.segPath (s : SegmentMeta) : Path := .seg s.dayStart s.id

/-- `wadb_segment_path(t, s, "idx")`. -/
def SegmentMeta.idxPath (s : SegmentMeta) : Path := .idx s.dayStart s.id

/-- `wadb_index_entry`. -/
structure IndexEntry where
  minTime : ℤ
  maxTime : ℤ
  firstSequence : ℕ
  frameOffset : ℕ
  rowCount : ℕ
  dictionaryCount : ℕ
  frameBytes : ℕ
  rowsOffset : ℕ
  frameCrc : ℕ
  dictionaryCrc : ℕ
deriving DecidableEq, Repr

/-- `wadb_frame_index`. -/
structure FrameIndex where
  entries : List IndexEntry
  capacity : ℕ
deriving DecidableEq, Repr

/-- The index of a segment without frames. -/
def FrameIndex.empty : FrameIndex := ⟨[], 0⟩

/-- `count`. -/
def FrameIndex.count (i : FrameIndex) : ℕ := i.entries.length

/-! ### Requests -/

/-- The resolver that stands in for the writer's when a row is staged: every symbol is valid and gets
the identifier one. -/
def validateSymbol : SymbolEncode := fun _ _ ↦ .ok 1

/-- `wadb_append_request`: an admitted batch of rows. -/
structure AppendRequest (c : Config) where
  /-- The client's values, without the timestamp. -/
  values : List (List Value)
  /-- The staged rows: timestamp zero, every symbol numbered one. -/
  rows : List Bytes
  submittedNs : ℕ
  startedNs : ℕ
  /-- The timestamp the writer assigned. -/
  ingestionTime : ℤ
  /-- The timestamp is a signed 64-bit number. -/
  time_bounds : -2 ^ 63 ≤ ingestionTime ∧ ingestionTime < 2 ^ 63
  /-- A batch has a row. -/
  nonempty : values ≠ []
  /-- Every row has a value per user field. -/
  shape : ∀ v ∈ values, v.length = c.schema.userFields.length
  /-- The staged rows encode the values. -/
  encoded : List.Forall₂
    (fun v row ↦ encodeRow c.schema v 0 (some validateSymbol) = .ok row) values rows
  /-- The rows fit into a frame. -/
  fits : values.length * c.schema.rowWidth ≤ maxFrameBytes - 96

namespace AppendRequest

variable {c : Config}

/-- `row_count`. -/
def rowCount (r : AppendRequest c) : ℕ := r.values.length

/-- `row_bytes`. -/
def rowBytes (r : AppendRequest c) : ℕ := r.rowCount * c.schema.rowWidth

/-- `sizeof(wadb_append_request)`. -/
def sizeof : ℕ := 432

/-- `charge`. -/
def charge (r : AppendRequest c) : ℕ := r.rowBytes + sizeof

/-- The request with the timestamp the writer assigned, which is stored in 64 bits. -/
def stamp (r : AppendRequest c) (time : ℤ) : AppendRequest c :=
  { r with
    ingestionTime := i64OfBits (i64Bits time)
    time_bounds := i64OfBits_bounds (i64Bits_lt time) }

theorem rowCount_pos (r : AppendRequest c) : 0 < r.rowCount :=
  List.length_pos_iff.2 r.nonempty

theorem length_rows (r : AppendRequest c) : r.rows.length = r.rowCount :=
  r.encoded.length_eq.symm

end AppendRequest

/-- `wadb_append_receipt`. -/
structure AppendReceipt where
  firstSequence : ℕ
  lastSequence : ℕ
  ingestionTime : ℤ
  rowCount : ℕ
deriving DecidableEq, Repr

/-- `wadb_commit_event`. -/
structure CommitEvent where
  id : ℕ
  tableId : ℕ
  firstSequence : ℕ
  lastSequence : ℕ
  frameBytes : ℕ
  maxTime : ℤ
  rows : ℕ
deriving DecidableEq, Repr

/-- `WADB_NOTIFICATION_CAPACITY`. -/
def notificationCapacity : ℕ := 1024

/-! ### Handles -/

/-- The part of `wadb_db` that the functions of a table use. -/
structure Db (c : Config) where
  readOnly : Bool
  stopping : Bool
  writerStarted : Bool
  /-- The queue, first request first. -/
  queue : List (AppendRequest c)
  queueBytes : ℕ
  readyBytes : ℕ
  rejectedAppends : ℕ
  failedAppends : ℕ
  snapshotBytes : ℕ
  readerCount : ℕ
  committedRows : ℕ
  committedBytes : ℕ
  committedFrames : ℕ
  appendRequests : ℕ
  clockAdjustments : ℕ
  queries : ℕ
  failedQueries : ℕ
  rowsScanned : ℕ
  bytesScanned : ℕ
  /-- The ring of commit events, by position. -/
  notifications : ℕ → Option CommitEvent
  latestNotification : ℕ

/-- `wadb_table`. -/
structure Table (c : Config) where
  nextSegmentId : ℕ
  preservedSequence : ℕ
  preservedTime : ℤ
  retentionUs : ℕ
  manifestGeneration : ℕ
  segments : List SegmentMeta
  activeFd : Option Path
  lastSequence : ℕ
  lastTime : ℤ
  readers : ℕ
  readOnly : Bool
  pendingRetention : Bool
  maintenanceStatus : Option Status
  dictionary : Option Dictionary
  index : FrameIndex
  readableSegments : List ℕ
  readableCapacity : ℕ
  committedFrames : ℕ
  appendRequests : ℕ
  retainedRows : ℕ
  retainedBytes : ℕ
  retainedSegments : ℕ
  retiredSegments : ℕ
  publishedDictionaryBytes : ℕ
  db : Db c

variable {c : Config}

/-- The part of `wadb_db` in a database that was just opened. -/
def Db.initial : Db c where
  readOnly := false
  stopping := false
  writerStarted := true
  queue := []
  queueBytes := 0
  readyBytes := 0
  rejectedAppends := 0
  failedAppends := 0
  snapshotBytes := 0
  readerCount := 0
  committedRows := 0
  committedBytes := 0
  committedFrames := 0
  appendRequests := 0
  clockAdjustments := 0
  queries := 0
  failedQueries := 0
  rowsScanned := 0
  bytesScanned := 0
  notifications := fun _ ↦ none
  latestNotification := 0

/-- The zeroed handle that loading fills in. -/
def Table.zeroed : Table c where
  nextSegmentId := 0
  preservedSequence := 0
  preservedTime := 0
  retentionUs := 0
  manifestGeneration := 0
  segments := []
  activeFd := none
  lastSequence := 0
  lastTime := 0
  readers := 0
  readOnly := false
  pendingRetention := false
  maintenanceStatus := none
  dictionary := none
  index := .empty
  readableSegments := []
  readableCapacity := 0
  committedFrames := 0
  appendRequests := 0
  retainedRows := 0
  retainedBytes := 0
  retainedSegments := 0
  retiredSegments := 0
  publishedDictionaryBytes := 0
  db := .initial

/-- The handle of a table that `wadb_create_table` has just made. -/
def Table.created (retentionUs : ℕ) : Table c :=
  { Table.zeroed with nextSegmentId := 1, manifestGeneration := 1, retentionUs := retentionUs }

/-- The table or its database refuses changes. -/
def Table.frozen (t : Table c) : Bool := t.readOnly || t.db.readOnly

/-- The last segment, if it is active. -/
def Table.active? (t : Table c) : Option SegmentMeta :=
  t.segments.getLast?.filter (·.state = .active)

/-! ### A small table -/

/-- One column of counters. -/
def hitsDefs : List FieldDef := [⟨[110], .u32, 0, false⟩]

/-- A table with one column of counters and the default options. -/
def hits : Config where
  id := 1
  defs := hitsDefs
  schema := match schemaBuild hitsDefs with
    | .ok s => s
    | .error _ => ⟨0, 0, 0, []⟩
  options := optionsDefault
  id_bounds := by decide
  built := by decide +kernel
  accepted := by decide

/-- A database with this table alone. -/
def hitsCatalogue : Catalogue Unit :=
  ⟨fun _ ↦ hits, hits.options, fun _ ↦ rfl, by decide, by decide, by decide⟩

/-- A batch of one row, at the given time. -/
def hit (time : ℤ) (h : -2 ^ 63 ≤ time ∧ time < 2 ^ 63) : AppendRequest hits where
  values := [[.ofNat 5]]
  rows := [[0, 0, 0, 0, 0, 0, 0, 0, 5, 0, 0, 0, 0, 0, 0, 0]]
  submittedNs := 0
  startedNs := 0
  ingestionTime := time
  time_bounds := h
  nonempty := by simp
  shape := by decide +kernel
  encoded := .cons (by decide +kernel) .nil
  fits := by decide +kernel

theorem bounds_zero : -2 ^ 63 ≤ (0 : ℤ) ∧ (0 : ℤ) < 2 ^ 63 := by decide

end WebAnalyticsDb
