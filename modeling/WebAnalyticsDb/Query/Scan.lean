import WebAnalyticsDb.Query.Cache
import WebAnalyticsDb.Query.Snapshot

/-!
# Scans

A scan hands the rows of a snapshot to a callback, in sequence order: `query/scan.c`. Segments, frames and
rows that the options exclude are passed over, the first two by binary searches.

* **One memory.** The handle, the dictionary cache, the context of the callback, the statistics, and
  what the loop over the segments declares for each round. A failed scan keeps what it has counted and
  delivered so far.
* **The callback** is a program over its context. A status other than `WADB_OK` ends the scan, and a scan
  ended so says nothing about the files.
* **The byte budget** is counted in 64 bits. Two fields of the memory are not the engine's: the lengths
  of the frames that were read, and whether the scan has stayed within its budget so far, with no
  difference that wraps (`ScanMemory.frugal`).
* **The active segment** is read through the index entries that the snapshot has copied, and its
  dictionary is put together from the definitions in its frames.

`wadb_scan` expires cursors before anything else; a scan is modelled from there on.
-/

namespace WebAnalyticsDb

open Bytes

variable {c : Config} {κ μ α : Type}

/-- `wadb_scan_options_default`. -/
def scanOptionsDefault : ScanOptions where
  startTime := 0
  endTime := int64Max
  afterSequence := 0
  maxScanBytes := 64 * 1024 * 1024
  limit := 10000
  timeoutMs := 30000

/-- `wadb_scan_stats`. -/
structure ScanStats where
  rowsScanned : ℕ
  rowsReturned : ℕ
  bytesScanned : ℕ
  snapshotSequence : ℕ
  indexBytes : ℕ
  dictionaryBytes : ℕ
  framesScanned : ℕ
  segmentsScanned : ℕ
  rebuildBytes : ℕ
  lastSequence : ℕ
  limitReached : Bool
deriving DecidableEq, Repr

/-- The statistics of a scan that has done nothing yet. -/
def ScanStats.zero : ScanStats := ⟨0, 0, 0, 0, 0, 0, 0, 0, 0, 0, false⟩

/-- `wadb_row_fn`, for the sequence number and the values of a row. -/
abbrev Consumer (κ : Type) : Type := ℕ → List Value → Io κ Unit

/-- The memory of a scan. -/
structure ScanMemory (c : Config) (κ : Type) where
  table : Table c
  cache : DictionaryCache
  context : κ
  stats : ScanStats
  /-- The reader of the index of a segment. -/
  reader : IndexReader
  /-- How much of its rebuilding is accounted for. -/
  rebuilt : ℕ
  /-- The cache entry in use. -/
  cached : Option ℕ
  callbackFailed : Bool
  stop : Bool
  /-- The lengths of the frames that were read. -/
  framesRead : List ℕ
  /-- The budget was kept, and every difference was one of natural numbers. -/
  frugal : Bool

/-- Use the reader. -/
def withReader (p : Io IndexReader α) : Io (ScanMemory c κ) α := do
  let m ← Prog.get
  let (result, reader) ← Prog.within m.reader p
  Prog.modify fun m ↦ { m with reader := reader }
  Prog.rethrow result

/-- Use the handle. -/
def withTable (p : Io (Table c) α) : Io (ScanMemory c κ) α := do
  let m ← Prog.get
  let (result, table) ← Prog.within m.table p
  Prog.modify fun m ↦ { m with table := table }
  Prog.rethrow result

/-! ### One segment -/

/-- `check_header`. -/
def checkHeader (c : Config) (s : SegmentMeta) : Io μ Unit := do
  let p ← preadAll s.segPath 0 segmentHeaderBytes
  let h ← Prog.rethrow (segmentDecode p)
  require (h = s.header c) .corrupt "snapshot segment identity mismatch"

/-- The loop of `active_dictionary`. Frames that define nothing are not read. -/
def activeLoop (s : SegmentMeta) (deadline : ℕ) : Dictionary → List IndexEntry → Io μ Dictionary
  | d, [] => pure d
  | d, v :: entries =>
    if v.dictionaryCount = 0 then activeLoop s deadline d entries
    else do
      let now ← Prog.clock
      require (now < deadline) .limit "dictionary scan deadline exceeded"
      allocOr "active dictionary buffer"
      let p ← preadAll s.segPath (v.frameOffset + frameHeaderBytes) (v.rowsOffset - frameHeaderBytes)
      require (crc32c p = v.dictionaryCrc) .corrupt "committed dictionary checksum mismatch"
      let (applied, d) ← Prog.within d (dictionaryApply p v.dictionaryCount)
      Prog.rethrow applied
      activeLoop s deadline d entries

/-- `active_dictionary`. -/
def activeDictionary (c : Config) (s : SegmentMeta) (entries : List IndexEntry) (deadline : ℕ) :
    Io μ Dictionary := do
  let d ← dictionaryNew c.schema c.options.dictionaryLimitBytes
  activeLoop s deadline d entries

/-- What is left of the budget, `budget - stats->bytes_scanned`. -/
def ScanMemory.left (m : ScanMemory c κ) (budget : ℕ) : ℕ := u64Sub budget m.stats.bytesScanned

/-- The scan goes on only if no difference has wrapped. -/
def ScanMemory.watched (m : ScanMemory c κ) (ok : Bool) : ScanMemory c κ :=
  { m with frugal := m.frugal && ok }

/-- `budget - stats->bytes_scanned`. -/
def budgetLeft (budget : ℕ) : Io (ScanMemory c κ) ℕ := do
  Prog.modify fun m ↦ m.watched (m.stats.bytesScanned ≤ budget)
  let m ← Prog.get
  pure (m.left budget)

/-- The reader may rebuild what is left of the budget. -/
def allowRebuild (budget : ℕ) : Io (ScanMemory c κ) Unit := do
  let left ← budgetLeft budget
  Prog.modify fun m ↦ { m with reader := { m.reader with rebuildBudget := left } }

/-- Charge bytes to the scan. -/
def ScanMemory.spend (m : ScanMemory c κ) (n : ℕ) : ScanMemory c κ :=
  { m with stats := { m.stats with bytesScanned := u64 (m.stats.bytesScanned + n) } }

/-- What a rebuild of the index has read is charged to the scan. -/
def ScanMemory.rebuilding (m : ScanMemory c κ) (extra : ℕ) : ScanMemory c κ :=
  { m.spend extra with
    stats := { (m.spend extra).stats with rebuildBytes := u64 (m.stats.rebuildBytes + extra) }
    rebuilt := m.reader.rebuiltBytes }

/-- `account_rebuild`. -/
def accountRebuild (budget : ℕ) : Io (ScanMemory c κ) Unit := do
  Prog.modify fun m ↦ m.watched (m.rebuilt ≤ m.reader.rebuiltBytes)
  let m ← Prog.get
  let extra := u64Sub m.reader.rebuiltBytes m.rebuilt
  let left ← budgetLeft budget
  require (extra ≤ left) .limit "index rebuild exceeds scan budget"
  Prog.modify (·.rebuilding extra)
  allowRebuild budget

/-- The part of `wadb_cache_acquire` between its critical sections: the memory for the entry, then the
dictionary. -/
def cacheLoad (c : Config) : Io (ScanMemory c κ) Dictionary := do
  allocOr "dictionary cache entry"
  withReader (indexDictionary c)

/-- `wadb_cache_acquire`. -/
def cacheAcquire (c : Config) : Io (ScanMemory c κ) Unit := do
  let m ← Prog.get
  match m.cache.enter c.options (m.reader.cacheKey c) with
  | (cache, .hit serial) => Prog.modify fun m ↦ { m with cache := cache, cached := some serial }
  | (cache, .pinned) =>
    Prog.modify fun m ↦ { m with cache := cache }
    wadbFail .backpressure "dictionary cache is pinned by other readers"
  | (cache, .reserved) =>
    Prog.modify fun m ↦ { m with cache := cache }
    let loaded ← Prog.attempt (cacheLoad c)
    Prog.modify fun m ↦
      let r := m.cache.finish c.options (m.reader.cacheKey c) loaded.toOption
      { m with cache := r.1, cached := r.2 }
    let _ ← Prog.rethrow loaded
    pure ()

/-- The dictionary of the cache entry in use. The entry is there as long as it is referenced. -/
def cachedDictionary : Io (ScanMemory c κ) Dictionary := do
  let m ← Prog.get
  match m.cache.entries.find? fun p ↦ some p.serial = m.cached with
  | some p => pure p.dictionary
  | none => Prog.die

/-- The reader of the active segment: the entries of the snapshot. -/
def IndexReader.ofActive (s : SegmentMeta) (entries : List IndexEntry) : IndexReader :=
  { IndexReader.fresh s with
    memory := if entries = [] then none else some entries
    count := entries.length
    dictionaryBytes := (entries.map fun v ↦ v.rowsOffset - frameHeaderBytes).sum }

/-- The dictionary is charged to the scan. -/
def ScanMemory.withDictionary (m : ScanMemory c κ) : ScanMemory c κ :=
  { m.spend m.reader.dictionaryBytes with
    stats := { (m.spend m.reader.dictionaryBytes).stats with
      dictionaryBytes := u64 (m.stats.dictionaryBytes + m.reader.dictionaryBytes) } }

/-- The dictionary is charged, if the budget allows it. -/
def chargeDictionary (budget : ℕ) : Io (ScanMemory c κ) Unit := do
  let left ← budgetLeft budget
  let m ← Prog.get
  require (m.reader.dictionaryBytes ≤ left) .limit "dictionary exceeds scan byte budget"
  Prog.modify ScanMemory.withDictionary
  allowRebuild budget

/-- The index of a segment is opened. -/
def openIndex (S : Snapshot) (o : ScanOptions) (deadline : ℕ) (s : SegmentMeta) :
    Io (ScanMemory c κ) Unit := do
  if s.state = .active then Prog.modify fun m ↦ { m with reader := .ofActive s S.active }
  else
    let left ← budgetLeft o.maxScanBytes
    withReader (indexOpenBounded c s left deadline)

/-- The dictionary of a segment, from its frames or from the cache. -/
def openDictionary (S : Snapshot) (deadline : ℕ) (s : SegmentMeta) :
    Io (ScanMemory c κ) Dictionary := do
  if s.state = .active then activeDictionary c s S.active deadline
  else
    cacheAcquire c
    cachedDictionary

/-- Before the rows of a segment are read: its index, its dictionary, and the first frame. -/
def prepareSegment (S : Snapshot) (o : ScanOptions) (deadline : ℕ) (s : SegmentMeta) :
    Io (ScanMemory c κ) (Dictionary × ℕ) := do
  checkHeader c s
  openIndex S o deadline s
  accountRebuild o.maxScanBytes
  chargeDictionary o.maxScanBytes
  let d ← openDictionary S deadline s
  accountRebuild o.maxScanBytes
  let position ← withReader (indexLowerBound c o.startTime o.afterSequence)
  accountRebuild o.maxScanBytes
  pure (d, position)

/-! ### Rows and frames -/

/-- The row is wanted. -/
def ScanOptions.selects (o : ScanOptions) (snapshotSequence : ℕ) (time : ℤ) (sequence : ℕ) : Bool :=
  o.startTime ≤ time && time < o.endTime && o.afterSequence < sequence && sequence ≤ snapshotSequence

/-- All fields of a row, from field number `index` on. -/
def decodeFields (s : Schema) (row : Bytes) (resolve : Option SymbolDecode) :
    ℕ → List Field → Except Error (List Value)
  | _, [] => .ok []
  | index, _ :: fields =>
    match decodeValue s index row resolve with
    | .error e => .error e
    | .ok v =>
      match decodeFields s row resolve (index + 1) fields with
      | .error e => .error e
      | .ok vs => .ok (v :: vs)

/-- The scan after the callback has taken a row. -/
def ScanMemory.taken (m : ScanMemory c κ) (limit sequence : ℕ) : ScanMemory c κ :=
  { m with
    stats := { m.stats with
      rowsReturned := m.stats.rowsReturned + 1
      lastSequence := sequence
      limitReached := m.stats.limitReached || m.stats.rowsReturned + 1 = limit }
    stop := m.stop || m.stats.rowsReturned + 1 = limit }

/-- One row. -/
def scanRow (o : ScanOptions) (consume : Consumer κ) (f : Frame) (d : Dictionary) (row : ℕ) :
    Io (ScanMemory c κ) Unit := do
  let sequence := u64 (f.firstSequence + row)
  let p := slice f.rows (row * f.rowWidth) f.rowWidth
  Prog.modify fun m ↦ { m with stats := { m.stats with rowsScanned := m.stats.rowsScanned + 1 } }
  let m ← Prog.get
  if o.selects m.stats.snapshotSequence (getI64 p 0) sequence then
    Prog.rethrow (validateRow c.schema p (some (dictionaryResolve d)))
    let values ← Prog.rethrow (decodeFields c.schema p (some (dictionaryResolve d)) 0 c.schema.fields)
    let (status, context) ← Prog.within m.context (consume sequence values)
    Prog.modify fun m ↦ { m with context := context }
    match status with
    | .ok () => Prog.modify (·.taken o.limit sequence)
    | .error e =>
      Prog.modify fun m ↦ { m with callbackFailed := true }
      wadbFail e.code "scan stopped by callback"
  else pure ()

/-- The rows of a frame, `k` of them from number `row` on. -/
def scanRows (o : ScanOptions) (deadline : ℕ) (consume : Consumer κ) (f : Frame) (d : Dictionary) :
    ℕ → ℕ → Io (ScanMemory c κ) Unit
  | 0, _ => pure ()
  | k + 1, row => do
    -- the clock is read before every 256th row
    if row % 256 = 0 then
      let now ← Prog.clock
      require (now < deadline) .limit "scan deadline exceeded"
    scanRow o consume f d row
    let m ← Prog.get
    if m.stop then pure () else scanRows o deadline consume f d k (row + 1)

/-- The frame is the one that its index entry describes. -/
def Frame.matchesEntry (c : Config) (f : Frame) (v : IndexEntry) (p : Bytes) : Bool :=
  f.schemaHash = c.schema.fingerprint && f.rowWidth = c.schema.rowWidth &&
    f.firstSequence = v.firstSequence && f.rowCount = v.rowCount && f.minTime = v.minTime &&
    f.maxTime = v.maxTime && getLE 4 p (v.frameBytes - 4) = v.frameCrc

/-- The frame of an index entry. -/
def scanFrameAt (o : ScanOptions) (deadline : ℕ) (consume : Consumer κ) (s : SegmentMeta)
    (d : Dictionary) (v : IndexEntry) : Io (ScanMemory c κ) Unit := do
  let left ← budgetLeft o.maxScanBytes
  require (v.frameBytes ≤ left) .limit "scan byte budget exceeded"
  Prog.modify (·.spend v.frameBytes)
  allocOr "scan frame"
  let p ← preadAll s.segPath v.frameOffset v.frameBytes
  Prog.modify fun m ↦ { m with framesRead := m.framesRead ++ [v.frameBytes] }
  let f ← Prog.rethrow (frameDecode p)
  require (f.matchesEntry c v p) .corrupt "frame contradicts index"
  Prog.modify fun m ↦ { m with stats := { m.stats with framesScanned := m.stats.framesScanned + 1 } }
  scanRows o deadline consume f d f.rowCount 0

/-- The entry at a position, after the clock was read. -/
def entryAt (o : ScanOptions) (deadline position : ℕ) : Io (ScanMemory c κ) IndexEntry := do
  let now ← Prog.clock
  require (now < deadline) .limit "scan deadline exceeded"
  allowRebuild o.maxScanBytes
  let v ← withReader (indexGet c position)
  accountRebuild o.maxScanBytes
  pure v

/-- The loop over the frames of a segment. An index has at most `maxIndexEntries` of them, which is the
`fuel`. -/
def scanFrames (o : ScanOptions) (deadline : ℕ) (consume : Consumer κ) (s : SegmentMeta)
    (d : Dictionary) : ℕ → ℕ → Io (ScanMemory c κ) Unit
  | 0, _ => pure ()
  | fuel + 1, position => do
    let m ← Prog.get
    if position < m.reader.count ∧ m.stop = false then
      let v ← entryAt o deadline position
      if o.endTime ≤ v.minTime then pure ()
      else
        scanFrameAt o deadline consume s d v
        scanFrames o deadline consume s d fuel (position + 1)
    else pure ()

/-! ### Scans -/

/-- What remains to be done for a segment, whatever its status is: the index reads are counted and the
cache entry is released. -/
def ScanMemory.close (m : ScanMemory c κ) : ScanMemory c κ :=
  { m with
    stats := { m.stats with
      indexBytes := m.stats.indexBytes + (m.reader.ioBytes - m.reader.dictionaryIoBytes) }
    cache := m.cached.elim m.cache m.cache.release
    cached := none }

/-- One segment of the snapshot. -/
def scanOne (S : Snapshot) (o : ScanOptions) (deadline : ℕ) (consume : Consumer κ) (s : SegmentMeta) :
    Io (ScanMemory c κ) Unit := do
  allocOr "scan path"
  let opened ← Prog.call false (.open s.segPath) id
  let fs ← Prog.files
  require (opened && (fs s.segPath).isSome) .io "open snapshot segment"
  Prog.modify fun m ↦ { m with reader := .fresh s, rebuilt := 0, cached := none }
  let prepared ← Prog.attempt (prepareSegment S o deadline s)
  Prog.modify fun m ↦
    { m with stats := { m.stats with segmentsScanned := m.stats.segmentsScanned + 1 } }
  match prepared with
  | .error e =>
    Prog.modify ScanMemory.close
    Prog.fail e
  | .ok (d, position) =>
    let status ← Prog.attempt (scanFrames o deadline consume s d maxIndexEntries position)
    Prog.modify ScanMemory.close
    Prog.rethrow status

/-- The segment has no row that is wanted. -/
def ScanOptions.skips (o : ScanOptions) (s : SegmentMeta) : Bool :=
  o.passes s || decide (o.endTime ≤ s.minTime)

/-- The loop over the segments of the snapshot. -/
def scanSegments (S : Snapshot) (o : ScanOptions) (deadline : ℕ) (consume : Consumer κ) :
    List SegmentMeta → Io (ScanMemory c κ) Unit
  | [] => pure ()
  | s :: segments => do
    let m ← Prog.get
    if m.stop then pure ()
    else
      let now ← Prog.clock
      require (now < deadline) .limit "scan deadline exceeded"
      if o.skips s then scanSegments S o deadline consume segments
      else
        scanOne S o deadline consume s
        scanSegments S o deadline consume segments

/-- The first segment that does not end before the range. -/
def Snapshot.firstFor (S : Snapshot) (o : ScanOptions) : ℕ :=
  bisect (fun i ↦ (S.segments[i]?).any o.passes) S.segments.length 0 S.segments.length

/-- `wadb_scan_snapshot`. Corruption stops the table, unless it is the callback that reports it. -/
def scanSnapshot (S : Snapshot) (o : ScanOptions) (consume : Consumer κ) :
    Io (ScanMemory c κ) Unit := do
  Prog.modify fun m ↦ { m with
    stats := { ScanStats.zero with snapshotSequence := S.sequence }
    callbackFailed := false
    stop := false
    framesRead := []
    frugal := true }
  let now ← Prog.clock
  let deadline := u64 (now + o.timeoutMs * 1000000)
  match ← Prog.attempt (scanSegments S o deadline consume (S.segments.drop (S.firstFor o))) with
  | .ok () => pure ()
  | .error e =>
    let m ← Prog.get
    if e.code = .corrupt ∧ m.callbackFailed = false then
      Prog.modify fun m ↦ { m with table := { m.table with readOnly := true } }
    Prog.fail e

/-- The options that `wadb_scan` accepts. -/
def ScanOptions.acceptable (o : ScanOptions) : Bool :=
  o.startTime ≤ o.endTime && o.limit ≠ 0 && o.maxScanBytes ≠ 0 && o.timeoutMs ≠ 0 &&
    o.timeoutMs ≤ 3600000

/-- `wadb_scan`. -/
def scan (o : ScanOptions) (consume : Consumer κ) : Io (ScanMemory c κ) Unit := do
  require o.acceptable .invalid "invalid scan interval or resource budget"
  Prog.modify fun m ↦ { m with stats := .zero }
  let S ← withTable (snapshotAcquire (some o))
  let status ← Prog.attempt (scanSnapshot S o consume)
  withTable (snapshotRelease S)
  Prog.rethrow status

/-! ### The context of a scan -/

section Unchanged

variable {I : ScanMemory c κ → Prop}

end Unchanged

section Context

variable {I : κ → Prop}

variable {o : ScanOptions} {consume : Consumer κ} (hconsume : ∀ k values, (consume k values).Preserves I)

include hconsume

end Context

end WebAnalyticsDb
