import WebAnalyticsDb.Storage.Definitions
import WebAnalyticsDb.Storage.Manifest

/-!
# Derived indexes

A sealed segment has a derived index file: a header, one record per frame, and a checkpoint of the
segment's dictionary. It is written when the segment is sealed and can be rebuilt from the segment
file, so it is never authoritative: the reader of this module accepts a file only if it describes
exactly the segment asked for, and reports everything else as stale.

Records are read in pages of 64. The reader is the memory of the functions that use it, because a
failed read leaves it half filled.
-/

namespace WebAnalyticsDb

open Bytes List

variable {c : Config} {μ : Type}

/-! ### The index in memory -/

/-- `wadb_index_reserve`. -/
def indexReserve (index : FrameIndex) : Io μ FrameIndex := do
  require (index.count < maxIndexEntries) .limit "active index is full"
  if index.count < index.capacity then pure index
  else
    allocOr "active frame index"
    pure { index with
      capacity := min (if index.capacity ≠ 0 then index.capacity * 2 else 64) maxIndexEntries }

/-- `wadb_index_for_frame`. -/
def indexForFrame (f : Frame) (p : Bytes) (offset : ℕ) : IndexEntry where
  minTime := f.minTime
  maxTime := f.maxTime
  firstSequence := f.firstSequence
  frameOffset := offset
  rowCount := f.rowCount
  dictionaryCount := f.dictionaryCount
  frameBytes := getLE 4 p 8
  rowsOffset := frameHeaderBytes + f.dictionary.length
  frameCrc := getLE 4 p (getLE 4 p 8 - 4)
  dictionaryCrc := crc32c (slice p frameHeaderBytes f.dictionary.length)

/-- The last sequence number of a frame. -/
def IndexEntry.lastSequence (v : IndexEntry) : ℕ := v.firstSequence + v.rowCount - 1

/-- Append an entry. -/
def FrameIndex.push (index : FrameIndex) (v : IndexEntry) : FrameIndex :=
  { index with entries := index.entries ++ [v] }

/-! ### The index file -/

/-- `WADBIDX1`. -/
def indexMagic : Bytes := [87, 65, 68, 66, 73, 68, 88, 49]

/-- The fields of an index record before its checksum. -/
def IndexEntry.parts (v : IndexEntry) : List Bytes :=
  [ofNatLE 8 (i64Bits v.minTime), ofNatLE 8 (i64Bits v.maxTime), ofNatLE 8 v.firstSequence,
    ofNatLE 4 v.rowCount, ofNatLE 4 v.dictionaryCount, ofNatLE 8 v.frameOffset,
    ofNatLE 4 v.frameBytes, ofNatLE 4 v.rowsOffset, ofNatLE 4 v.frameCrc, ofNatLE 4 v.dictionaryCrc,
    zeros 4]

/-- `entry_encode`. -/
def entryEncode (v : IndexEntry) : Bytes :=
  v.parts.flatten ++ ofNatLE 4 (crc32c v.parts.flatten)

/-- The offset of the dictionary checkpoint behind `n` records. -/
def checkpointOffset (n : ℕ) : ℕ := indexHeaderBytes + n * indexEntryBytes

/-- The fields of an index header before its checksum. -/
def indexParts (c : Config) (s : SegmentMeta) (count : ℕ) (checkpoint : Bytes) (symbols : ℕ) :
    List Bytes :=
  [indexMagic, ofNatLE 4 formatVersion, ofNatLE 4 indexHeaderBytes, ofNatLE 8 c.id, ofNatLE 8 s.id,
    ofNatLE 8 c.schema.fingerprint, ofNatLE 8 s.committedBytes, ofNatLE 8 count,
    ofNatLE 8 (checkpointOffset count), ofNatLE 8 checkpoint.length, ofNatLE 4 symbols, zeros 4,
    ofNatLE 8 (i64Bits s.minTime), ofNatLE 8 (i64Bits s.maxTime), ofNatLE 8 s.firstSequence,
    ofNatLE 8 s.lastSequence, ofNatLE 4 c.schema.rowWidth, ofNatLE 4 (crc32c checkpoint), zeros 4]

/-- The 128 bytes of an index header. -/
def indexHeader (c : Config) (s : SegmentMeta) (count : ℕ) (checkpoint : Bytes) (symbols : ℕ) :
    Bytes :=
  (indexParts c s count checkpoint symbols).flatten ++
    ofNatLE 4 (crc32c (indexParts c s count checkpoint symbols).flatten)

/-- The bytes of an index file. -/
def indexImage (c : Config) (s : SegmentMeta) (entries : List IndexEntry) (checkpoint : Bytes)
    (symbols : ℕ) : Bytes :=
  indexHeader c s entries.length checkpoint symbols ++ (entries.flatMap entryEncode ++ checkpoint)

/-- The size a dictionary checkpoint may have. -/
def checkpointLimit : ℕ := 64 * 1024 * 1024

/-- `wadb_index_save`. A table without a dictionary would be dereferenced as a null pointer. -/
def indexSave (c : Config) (s : SegmentMeta) (index : FrameIndex) (dictionary : Option Dictionary) :
    Io μ Unit :=
  match dictionary with
  | none => Prog.die
  | some d => do
    let (checkpoint, symbols) ← dictionaryExportLimit d 0 checkpointLimit
    allocOr "sealed index serialization"
    allocOr "index path"
    atomicFile s.idxPath (indexImage c s index.entries checkpoint symbols)

/-! ### Reading an index file -/

/-- The values an index record may hold in a segment. -/
def IndexEntry.acceptable (c : Config) (s : SegmentMeta) (v : IndexEntry) : Bool :=
  v.rowCount ≠ 0 && v.firstSequence ≠ 0 && s.firstSequence ≤ v.firstSequence &&
    v.rowCount - 1 ≤ uint64Max - v.firstSequence && v.lastSequence ≤ s.lastSequence &&
    s.minTime ≤ v.minTime && v.minTime ≤ v.maxTime && v.maxTime ≤ s.maxTime &&
    segmentHeaderBytes ≤ v.frameOffset && v.frameOffset ≤ s.committedBytes &&
    v.frameBytes ≤ maxFrameBytes && v.frameBytes ≤ s.committedBytes - v.frameOffset &&
    frameHeaderBytes ≤ v.rowsOffset && v.rowsOffset % 8 = 0 &&
    v.frameBytes = v.rowsOffset + v.rowCount * c.schema.rowWidth + frameTrailerBytes &&
    v.dictionaryCount ≤ (v.rowsOffset - frameHeaderBytes) / 12

/-- The values found in an index record. -/
def entryFields (p : Bytes) : IndexEntry where
  minTime := getI64 p 0
  maxTime := getI64 p 8
  firstSequence := getLE 8 p 16
  rowCount := getLE 4 p 24
  dictionaryCount := getLE 4 p 28
  frameOffset := getLE 8 p 32
  frameBytes := getLE 4 p 40
  rowsOffset := getLE 4 p 44
  frameCrc := getLE 4 p 48
  dictionaryCrc := getLE 4 p 52

/-- `entry_decode`. -/
def entryDecode (c : Config) (s : SegmentMeta) (p : Bytes) : Except Error IndexEntry :=
  if getLE 4 p 56 ≠ 0 ∨ getLE 4 p 60 ≠ crc32c (slice p 0 60) then
    .error ⟨.corrupt, "index record checksum mismatch"⟩
  else if (entryFields p).acceptable c s then .ok (entryFields p)
  else .error ⟨.corrupt, "invalid index record bounds"⟩

/-- `wadb_index_reader`. The page number is absent until a page has been read. -/
structure IndexReader where
  segment : SegmentMeta
  fd : Option Path
  memory : Option (List IndexEntry)
  count : ℕ
  dictionaryOffset : ℕ
  dictionaryBytes : ℕ
  dictionaryCount : ℕ
  dictionaryCrc : ℕ
  pageNumber : Option ℕ
  ioBytes : ℕ
  dictionaryIoBytes : ℕ
  page : Bytes
  repaired : Bool
  rebuiltDictionary : Option Dictionary
  rebuildBudget : ℕ
  rebuiltBytes : ℕ
  deadline : ℕ
deriving DecidableEq, Repr

/-- A reader of a segment before anything has been read. -/
def IndexReader.fresh (s : SegmentMeta) : IndexReader where
  segment := s
  fd := none
  memory := none
  count := 0
  dictionaryOffset := 0
  dictionaryBytes := 0
  dictionaryCount := 0
  dictionaryCrc := 0
  pageNumber := none
  ioBytes := 0
  dictionaryIoBytes := 0
  page := []
  repaired := false
  rebuiltDictionary := none
  rebuildBudget := 0
  rebuiltBytes := 0
  deadline := 0

/-- Read from the reader's file. -/
def readerPread (off n : ℕ) : Io IndexReader Bytes := do
  let r ← Prog.get
  match r.fd with
  | none => wadbFail .io "pread failed"
  | some p => preadAll p off n

/-- `get_raw`. A failed read leaves the page buffer undefined, but then no page is used again: the
reader is repaired or given up. -/
def getRaw (c : Config) (position : ℕ) : Io IndexReader IndexEntry := do
  let r ← Prog.get
  require (position < r.count) .invalid "index position out of bounds"
  match r.memory with
  | some entries =>
    match entries[position]? with
    | none => Prog.die
    | some v => pure v
  | none =>
    let number := position / 64
    if r.pageNumber ≠ some number then
      let first := number * 64
      let bytes := min (r.count - first) 64 * indexEntryBytes
      let page ← readerPread (indexHeaderBytes + first * indexEntryBytes) bytes
      Prog.modify fun r ↦
        { r with page := page, ioBytes := r.ioBytes + bytes, pageNumber := some number }
    let r ← Prog.get
    Prog.rethrow (entryDecode c r.segment
      (slice r.page (position % 64 * indexEntryBytes) indexEntryBytes))

/-- The header checks of `open_raw`, given the length of the file. -/
def indexHeaderValid (c : Config) (s : SegmentMeta) (p : Bytes) (length : ℕ) : Bool :=
  slice p 0 8 = indexMagic && getLE 4 p 8 = formatVersion && getLE 4 p 12 = indexHeaderBytes &&
    crc32c (slice p 0 124) = getLE 4 p 124 && getLE 8 p 16 = c.id && getLE 8 p 24 = s.id &&
    getLE 8 p 32 = c.schema.fingerprint && getLE 8 p 40 = s.committedBytes &&
    getLE 8 p 48 ≤ maxIndexEntries && getLE 8 p 56 = checkpointOffset (getLE 8 p 48) &&
    getLE 8 p 64 ≤ checkpointLimit && getLE 8 p 64 % 8 = 0 &&
    length = getLE 8 p 56 + getLE 8 p 64 && getLE 4 p 72 ≤ getLE 8 p 64 / 12 &&
    getLE 4 p 76 = 0 && getLE 4 p 120 = 0 && getI64 p 80 = s.minTime && getI64 p 88 = s.maxTime &&
    getLE 8 p 96 = s.firstSequence && getLE 8 p 104 = s.lastSequence &&
    getLE 4 p 112 = c.schema.rowWidth && (getLE 8 p 48 == 0) == (s.lastSequence == 0)

/-- The first and the last record agree with the segment. -/
def endpointsValid (s : SegmentMeta) (first last : IndexEntry) : Bool :=
  first.firstSequence = s.firstSequence && first.frameOffset = segmentHeaderBytes &&
    first.minTime = s.minTime && last.maxTime = s.maxTime && last.lastSequence = s.lastSequence &&
    last.frameOffset + last.frameBytes = s.committedBytes

/-- The end of `open_raw`: the first and the last record of a nonempty index. -/
def checkEndpoints (c : Config) (s : SegmentMeta) : Io IndexReader Unit := do
  let r ← Prog.get
  if r.count = 0 then pure ()
  else
    let first ← getRaw c 0
    let last ← getRaw c (r.count - 1)
    require (endpointsValid s first last) .corrupt "index endpoints contradict segment"

/-- The reader once the header has been accepted. -/
def IndexReader.withHeader (r : IndexReader) (p : Bytes) : IndexReader :=
  { r with
    count := getLE 8 p 48
    dictionaryOffset := getLE 8 p 56
    dictionaryBytes := getLE 8 p 64
    dictionaryCount := getLE 4 p 72
    dictionaryCrc := getLE 4 p 116 }

/-- The part of `open_raw` during which the file is open. -/
def openRawChecks (c : Config) (s : SegmentMeta) : Io IndexReader Unit := do
  let p ← readerPread 0 indexHeaderBytes
  Prog.modify fun r ↦ { r with ioBytes := r.ioBytes + indexHeaderBytes }
  let stat ← Prog.call false (.stat s.idxPath) id
  require stat .corrupt "invalid index file"
  let fs ← Prog.files
  let length := ((fs s.idxPath).elim [] File.data).length
  require (indexHeaderValid c s p length) .corrupt "stale or invalid derived index header"
  Prog.modify (·.withHeader p)
  checkEndpoints c s

/-- `open_raw`. -/
def openRaw (c : Config) (s : SegmentMeta) : Io IndexReader Unit := do
  Prog.modify fun _ ↦ .fresh s
  allocOr "index path"
  let opened ← Prog.call false (.open s.idxPath) id
  require opened .io "open derived index"
  let fs ← Prog.files
  require (fs s.idxPath).isSome .notFound "open derived index"
  Prog.modify fun r ↦ { r with fd := some s.idxPath }
  match ← Prog.attempt (openRawChecks c s) with
  | .ok () => pure ()
  | .error e =>
    Prog.modify fun r ↦ { r with fd := none }
    Prog.fail e

/-! ### Reading back -/

/-- The values of a segment fit the slots of an index header. -/
structure SegmentMeta.Fits (s : SegmentMeta) : Prop where
  id : s.id < 2 ^ 64
  firstSequence : s.firstSequence < 2 ^ 64
  lastSequence : s.lastSequence < 2 ^ 64
  minTime : 0 ≤ s.minTime
  minTime_le : s.minTime ≤ s.maxTime
  maxTime : s.maxTime < 2 ^ 63
  committedBytes : s.committedBytes ≤ int64Max

/-- The entries are those of an index of the segment. -/
structure EntriesOk (c : Config) (s : SegmentMeta) (entries : List IndexEntry) : Prop where
  acceptable : ∀ v ∈ entries, v.acceptable c s = true
  crc : ∀ v ∈ entries, v.frameCrc < 2 ^ 32 ∧ v.dictionaryCrc < 2 ^ 32
  count : entries.length ≤ maxIndexEntries
  empty : entries = [] ↔ s.lastSequence = 0
  ends : ∀ first last, entries.head? = some first → entries.getLast? = some last →
    endpointsValid s first last = true

theorem IndexEntry.length_parts (v : IndexEntry) : v.parts.flatten.length = 60 := by
  simp [IndexEntry.parts]

@[simp] theorem length_entryEncode (v : IndexEntry) : (entryEncode v).length = 64 := by
  rw [entryEncode, length_append, v.length_parts, length_ofNatLE]

theorem rowWidth_bounds (c : Config) : 8 ≤ c.schema.rowWidth ∧ c.schema.rowWidth ≤ maxRowBytes := by
  have hpos := c.layout.rowWidth_pos
  have hmod := c.layout.rowWidth_mod
  exact ⟨by omega, c.layout.width⟩

/-- **An index record reads back.** -/
theorem entryDecode_entryEncode {s : SegmentMeta} {v : IndexEntry} (hs : s.Fits)
    (hacc : v.acceptable c s = true) (hcrc : v.frameCrc < 2 ^ 32 ∧ v.dictionaryCrc < 2 ^ 32) :
    entryDecode c s (entryEncode v) = .ok v := by
  obtain ⟨hwidth, -⟩ := rowWidth_bounds c
  have hint : int64Max = 9223372036854775807 := rfl
  have hframe : maxFrameBytes = 1048576 := rfl
  have hbounds : v.lastSequence ≤ s.lastSequence ∧ v.rowCount ≠ 0 ∧ s.minTime ≤ v.minTime ∧
      v.minTime ≤ v.maxTime ∧ v.maxTime ≤ s.maxTime ∧ v.frameOffset ≤ s.committedBytes ∧
      v.frameBytes ≤ maxFrameBytes ∧
      v.frameBytes = v.rowsOffset + v.rowCount * c.schema.rowWidth + frameTrailerBytes ∧
      v.dictionaryCount ≤ (v.rowsOffset - frameHeaderBytes) / 12 := by
    simp only [IndexEntry.acceptable, Bool.and_eq_true, decide_eq_true_eq] at hacc
    tauto
  obtain ⟨hlast, hrows, hmin, hminmax, hmax, hoffset, hbytes, hsize, hdict⟩ := hbounds
  have hmul : v.rowCount * 8 ≤ v.rowCount * c.schema.rowWidth := Nat.mul_le_mul_left _ hwidth
  have hrowCount : v.rowCount ≤ maxFrameBytes := by omega
  have hrowsOffset : v.rowsOffset ≤ maxFrameBytes := by omega
  obtain ⟨-, -, hslast, hsmin, -, hsmax, hscommit⟩ := hs
  have hfirst : v.firstSequence ≤ v.lastSequence := by
    unfold IndexEntry.lastSequence
    omega
  have hshows : Shows (entryEncode v) 0 v.parts := shows_flatten _ _
  simp only [IndexEntry.parts, Shows, length_ofNatLE, length_zeros, Nat.reduceAdd, and_true] at hshows
  obtain ⟨w0, w1, w2, w3, w4, w5, w6, w7, w8, w9, w10⟩ := hshows
  have hpad : getLE 4 (entryEncode v) 56 = 0 := getLE_of_slice (v := 0) w10 (by decide)
  have hcheck : getLE 4 (entryEncode v) 60 = crc32c (slice (entryEncode v) 0 60) := by
    rw [entryEncode, slice_append_head v.length_parts.symm,
      getLE_append_end v.length_parts.symm (crc32c_lt _)]
  have hfields : entryFields (entryEncode v) = v := by
    rw [entryFields, getI64_of_slice w0 (by omega) (by omega), getI64_of_slice w1 (by omega) (by omega),
      getLE_of_slice w2 (by omega), getLE_of_slice w3 (by omega), getLE_of_slice w4 (by omega),
      getLE_of_slice w5 (by omega), getLE_of_slice w6 (by omega), getLE_of_slice w7 (by omega),
      getLE_of_slice w8 (by omega), getLE_of_slice w9 (by omega)]
  rw [entryDecode, if_neg (by simp [hpad, hcheck]), hfields, if_pos hacc]

theorem length_indexParts (c : Config) (s : SegmentMeta) (n : ℕ) (checkpoint : Bytes) (k : ℕ) :
    (indexParts c s n checkpoint k).flatten.length = 124 := by
  simp [indexParts, indexMagic]

@[simp] theorem length_indexHeader (c : Config) (s : SegmentMeta) (n : ℕ) (checkpoint : Bytes)
    (k : ℕ) : (indexHeader c s n checkpoint k).length = 128 := by
  rw [indexHeader, length_append, length_indexParts, length_ofNatLE]

theorem length_indexImage (c : Config) (s : SegmentMeta) (entries : List IndexEntry)
    (checkpoint : Bytes) (k : ℕ) :
    (indexImage c s entries checkpoint k).length =
      checkpointOffset entries.length + checkpoint.length := by
  rw [indexImage, length_append, length_indexHeader, length_append,
    length_flatMap_uniform fun v _ ↦ length_entryEncode v]
  unfold checkpointOffset indexHeaderBytes indexEntryBytes
  omega

/-- A dictionary checkpoint that an index may carry. -/
structure CheckpointOk (checkpoint : Bytes) (symbols : ℕ) : Prop where
  aligned : checkpoint.length % 8 = 0
  length_le : checkpoint.length ≤ checkpointLimit
  count : symbols ≤ checkpoint.length / 12

/-- **An index header reads back** and describes the segment it was written for. -/
theorem indexHeaderValid_image {s : SegmentMeta} {entries : List IndexEntry} {checkpoint : Bytes}
    {symbols : ℕ} (hs : s.Fits) (hentries : EntriesOk c s entries)
    (hcheck : CheckpointOk checkpoint symbols) :
    indexHeaderValid c s (indexHeader c s entries.length checkpoint symbols)
        (indexImage c s entries checkpoint symbols).length = true ∧
      getLE 8 (indexHeader c s entries.length checkpoint symbols) 48 = entries.length ∧
      getLE 8 (indexHeader c s entries.length checkpoint symbols) 56 =
        checkpointOffset entries.length ∧
      getLE 8 (indexHeader c s entries.length checkpoint symbols) 64 = checkpoint.length ∧
      getLE 4 (indexHeader c s entries.length checkpoint symbols) 72 = symbols ∧
      getLE 4 (indexHeader c s entries.length checkpoint symbols) 116 = crc32c checkpoint := by
  obtain ⟨p, hp⟩ : ∃ p, p = indexHeader c s entries.length checkpoint symbols := ⟨_, rfl⟩
  have hshows : Shows p 0 (indexParts c s entries.length checkpoint symbols) := by
    rw [hp, indexHeader]
    exact shows_flatten _ _
  simp only [indexParts, Shows, length_ofNatLE, length_zeros, indexMagic, length_cons,
    length_nil, Nat.reduceAdd, and_true] at hshows
  obtain ⟨w0, w1, w2, w3, w4, w5, w6, w7, w8, w9, w10, w11, w12, w13, w14, w15, w16, w17, w18⟩ := hshows
  have hcount := hentries.count
  have hlimit := hcheck.length_le
  have hsymbols := hcheck.count
  have hwidth := (rowWidth_bounds c).2
  have hcrc := crc32c_lt checkpoint
  have hfinger := c.layout.fingerprint
  obtain ⟨hid, hfirst, hlast, hmin, hminmax, hmax, hcommit⟩ := hs
  unfold maxIndexEntries at hcount
  unfold checkpointLimit at hlimit
  unfold maxRowBytes at hwidth
  unfold int64Max at hcommit
  have hoffset : checkpointOffset entries.length < 256 ^ 8 := by
    unfold checkpointOffset indexHeaderBytes indexEntryBytes
    omega
  have hc : c.id < 256 ^ 8 := by
    have := c.id_bounds.2
    unfold uint64Max at this
    omega
  have g1 := getLE_of_slice w1 (by decide)
  have g2 := getLE_of_slice w2 (by decide)
  have g3 := getLE_of_slice w3 hc
  have g4 := getLE_of_slice w4 (by omega)
  have g5 := getLE_of_slice w5 (by omega)
  have g6 := getLE_of_slice w6 (by omega)
  have g7 := getLE_of_slice w7 (by omega)
  have g8 := getLE_of_slice w8 hoffset
  have g9 := getLE_of_slice w9 (by omega)
  have g10 := getLE_of_slice w10 (by omega)
  have g11 := getLE_of_slice (v := 0) w11 (by decide)
  have g12 := getI64_of_slice w12 (by omega) (by omega)
  have g13 := getI64_of_slice w13 (by omega) (by omega)
  have g14 := getLE_of_slice w14 (by omega)
  have g15 := getLE_of_slice w15 (by omega)
  have g16 := getLE_of_slice w16 (by omega)
  have g17 := getLE_of_slice w17 hcrc
  have g18 := getLE_of_slice (v := 0) w18 (by decide)
  have hmagic : slice p 0 8 = indexMagic := w0
  have hheader : crc32c (slice p 0 124) = getLE 4 p 124 := by
    rw [hp, indexHeader, slice_append_head (length_indexParts ..).symm,
      getLE_append_end (length_indexParts ..).symm (crc32c_lt _)]
  have hempty : (entries.length == 0) = (s.lastSequence == 0) := by
    rw [Bool.eq_iff_iff, beq_iff_eq, beq_iff_eq, length_eq_zero_iff]
    exact hentries.empty
  rw [← hp]
  refine ⟨?_, g7, g8, g9, g10, g17⟩
  simp only [indexHeaderValid, g1, g2, g3, g4, g5, g6, g7, g8, g9, g10, g11, g12, g13, g14, g15, g16,
    g18, hmagic, hheader, hempty, length_indexImage, hcheck.aligned, decide_true, Bool.true_and,
    Bool.and_true, beq_self_eq_true, Bool.and_eq_true, decide_eq_true_eq]
  exact ⟨⟨hentries.count, hcheck.length_le⟩, hcheck.count⟩

/-! ### Rules -/

theorem definitionBytes_bounds (T : Symbols) : T.length * 12 ≤ definitionBytes T := by
  induction T with
  | nil => simp
  | cons x T ih =>
    simp only [definitionBytes, map_cons, sum_cons, length_cons] at ih ⊢
    omega

/-- The checkpoint of a dictionary within its budget. -/
theorem checkpointOk_of_minAlloc {s : Schema} {S : Symbols}
    (h : minAlloc s S ≤ 64 * 1024 * 1024) : CheckpointOk (definitions [] S) S.length := by
  have hle := (padded_definitionBytes_le s S).trans h
  have hcount := definitionBytes_bounds S
  have hpad : definitionBytes S ≤ padded (definitionBytes S) := by
    unfold padded
    omega
  refine ⟨?_, ?_, ?_⟩ <;> rw [length_definitions]
  · unfold padded
    omega
  · exact hle
  · omega

/-- The checkpoint of a live dictionary. -/
theorem checkpointOk {d : Dictionary} {S : Symbols} (h : d.Rep S) :
    CheckpointOk (definitions [] S) S.length :=
  checkpointOk_of_minAlloc (h.minAlloc_le.trans (h.budget.trans h.limit_le))

section Rules

variable {env : Env Path Dir} {fs : Files} {n : ℕ} {s : SegmentMeta} {entries : List IndexEntry}
  {checkpoint : Bytes} {symbols : ℕ}

theorem wp_indexReserve {m : μ} {index : FrameIndex}
    {Q : Exit Error FrameIndex → Files → μ → Prop}
    (hok : ∀ k, index.count < maxIndexEntries → Q (.ok { index with capacity := k }) fs m)
    (hno : ∀ e : Error, e.code ≠ .indeterminate →
      (e.code = .nomem ∧ ¬ env.Calm ∨ maxIndexEntries ≤ index.count) → Q (.fail e) fs m) :
    wp (indexReserve index) env Q ⟨fs, n, m⟩ := by
  unfold indexReserve
  refine wp_bind (wp_require (fun hlt n ↦ ?_) fun hbad ↦ hno _ (by decide) (.inr ?_))
  swap
  · exact not_lt.1 (of_decide_eq_false hbad)
  have hlt' := of_decide_eq_true hlt
  split
  · exact hok index.capacity hlt'
  · exact wp_bind (wp_allocOr (fun n ↦ hok _ hlt')
      fun hcalm ↦ hno _ (by decide) (.inl ⟨rfl, hcalm⟩))

/-- **Saving an index**: the file is replaced as a whole or not at all. -/
theorem installs_indexSave {d : Dictionary} {S : Symbols} (hd : d.Rep S) (index : FrameIndex) :
    Installs (indexSave c s index (some d) : Io μ Unit) s.idxPath
      (indexImage c s index.entries (definitions [] S) S.length) := by
  intro env w Q hok hno hind hkill
  have hsize := (checkpointOk hd).length_le
  rw [length_definitions] at hsize
  unfold indexSave
  refine wp_bind (wp_dictionaryExportLimit (S := []) hd checkpointLimit (fun _ n ↦ ?_)
    (fun e _ hlt ↦ ?_) fun e he hcalm ↦ hno hcalm w.fs (Agree.refl _) e (.inr he))
  · exact installs_allocated _ _ _ env ⟨w.fs, n, w.mem⟩ Q hok hno hind hkill
  · -- a checkpoint is never too large
    exfalso
    have hpad : definitionBytes S ≤ padded (definitionBytes S) := by
      unfold padded
      omega
    unfold checkpointLimit at hsize hlt
    unfold uint32Max at hlt
    omega

variable {i : ℕ} {v : IndexEntry}

/-- The record of position `i` in an index file. -/
theorem slice_indexImage (hi : entries[i]? = some v) :
    slice (indexImage c s entries checkpoint symbols) (indexHeaderBytes + i * indexEntryBytes)
      indexEntryBytes = entryEncode v := by
  rw [indexImage, slice_append_right (by rw [length_indexHeader]; exact Nat.le_add_right _ _),
    length_indexHeader, show indexHeaderBytes = 128 from rfl, Nat.add_sub_cancel_left]
  exact slice_flatMap (fun v _ ↦ length_entryEncode v) hi

/-- The part of an index file that page `k` covers. -/
def pageOf (entries : List IndexEntry) (image : Bytes) (k : ℕ) : Bytes :=
  slice image (indexHeaderBytes + k * 64 * indexEntryBytes)
    (min (entries.length - k * 64) 64 * indexEntryBytes)

/-- **A reader of an intact index file.** -/
structure Reads (c : Config) (s : SegmentMeta) (entries : List IndexEntry) (checkpoint : Bytes)
    (symbols : ℕ) (r : IndexReader) : Prop where
  segment : r.segment = s
  fd : r.fd = some s.idxPath
  memory : r.memory = none
  count : r.count = entries.length
  dictionaryOffset : r.dictionaryOffset = checkpointOffset entries.length
  dictionaryBytes : r.dictionaryBytes = checkpoint.length
  dictionaryCount : r.dictionaryCount = symbols
  dictionaryCrc : r.dictionaryCrc = crc32c checkpoint
  page : ∀ k, r.pageNumber = some k →
    r.page = pageOf entries (indexImage c s entries checkpoint symbols) k
  repaired : r.repaired = false

theorem entryDecode_page (hs : s.Fits) (hentries : EntriesOk c s entries) (hi : entries[i]? = some v) :
    entryDecode c s (slice (pageOf entries (indexImage c s entries checkpoint symbols) (i / 64))
      (i % 64 * indexEntryBytes) indexEntryBytes) = .ok v := by
  obtain ⟨hlt, rfl⟩ := List.getElem?_eq_some_iff.1 hi
  have hsplit : indexHeaderBytes + i / 64 * 64 * indexEntryBytes + i % 64 * indexEntryBytes =
      indexHeaderBytes + i * indexEntryBytes := by
    unfold indexEntryBytes
    omega
  rw [pageOf, slice_slice (by unfold indexEntryBytes; omega), hsplit, slice_indexImage hi]
  exact entryDecode_entryEncode hs (hentries.acceptable _ (getElem_mem hlt))
    (hentries.crc _ (getElem_mem hlt))

/-- **Reading a record** of an intact index file. -/
theorem wp_getRaw {r : IndexReader} {f : File} (hs : s.Fits)
    (hentries : EntriesOk c s entries) (hcheck : CheckpointOk checkpoint symbols)
    (hfile : fs s.idxPath = some f) (hdata : f.data = indexImage c s entries checkpoint symbols)
    (hr : Reads c s entries checkpoint symbols r) (hi : entries[i]? = some v)
    {Q : Exit Error IndexEntry → Files → IndexReader → Prop}
    (hok : ∀ r' : IndexReader, Reads c s entries checkpoint symbols r' →
      r'.rebuiltDictionary = r.rebuiltDictionary → r'.rebuildBudget = r.rebuildBudget →
      r'.rebuiltBytes = r.rebuiltBytes → r'.deadline = r.deadline → Q (.ok v) fs r')
    (hno : ¬ env.Calm → ∀ e : Error, e.code = .io → Q (.fail e) fs r)
    (hkill : ¬ env.Calm → Q .killed fs r) :
    wp (getRaw c i) env Q ⟨fs, n, r⟩ := by
  obtain ⟨hlt, -⟩ := List.getElem?_eq_some_iff.1 hi
  unfold getRaw
  refine wp_bind ?_
  simp only [wp_get, andThen]
  intro n
  refine wp_require_of (decide_eq_true (hr.count ▸ hlt)) fun n ↦ ?_
  simp only [hr.memory]
  split
  next hpage =>
    -- another page has to be read first
    have hbytes : min (r.count - i / 64 * 64) 64 * indexEntryBytes =
        min (entries.length - i / 64 * 64) 64 * indexEntryBytes := by rw [hr.count]
    have hend : indexHeaderBytes + i / 64 * 64 * indexEntryBytes +
        min (r.count - i / 64 * 64) 64 * indexEntryBytes ≤ f.data.length := by
      rw [hdata, length_indexImage, hr.count]
      unfold checkpointOffset indexEntryBytes
      omega
    have hrange : f.data.length ≤ int64Max := by
      have hcount := hentries.count
      have hlimit := hcheck.length_le
      rw [hdata, length_indexImage]
      unfold checkpointOffset indexHeaderBytes indexEntryBytes
      unfold maxIndexEntries at hcount
      unfold checkpointLimit at hlimit
      unfold int64Max
      omega
    refine wp_bind ?_
    unfold readerPread
    refine wp_bind ?_
    simp only [wp_get, andThen, hr.fd]
    intro n
    refine wp_preadAll (w := ⟨fs, n, r⟩) hfile (hend.trans hrange) hend (fun n ↦ ?_)
      (fun hcalm ↦ hno hcalm _ rfl) hkill
    refine wp_bind (wp_modify.2 fun n ↦ ?_)
    refine wp_bind ?_
    simp only [wp_get, andThen, hr.segment, hdata, hbytes]
    intro n
    have hdecode : entryDecode c s (slice (slice (indexImage c s entries checkpoint symbols)
        (indexHeaderBytes + i / 64 * 64 * indexEntryBytes)
        (min (entries.length - i / 64 * 64) 64 * indexEntryBytes)) (i % 64 * indexEntryBytes)
        indexEntryBytes) = .ok v := entryDecode_page hs hentries hi
    rw [wp_rethrow, hdecode]
    refine hok _ ⟨rfl, hr.fd, hr.memory, hr.count, hr.dictionaryOffset, hr.dictionaryBytes,
      hr.dictionaryCount, hr.dictionaryCrc, fun k hk ↦ ?_, hr.repaired⟩ rfl rfl rfl rfl
    cases hk
    rfl
  next hpage =>
    have hnumber : r.pageNumber = some (i / 64) := not_not.1 hpage
    refine wp_bind ?_
    simp only [wp_get, andThen, hr.segment, hr.page _ hnumber]
    intro n
    rw [wp_rethrow, entryDecode_page hs hentries hi]
    exact hok r hr rfl rfl rfl rfl

/-- What a failed open leaves: a reader of the segment that has nothing open. -/
structure Unread (s : SegmentMeta) (r : IndexReader) : Prop where
  segment : r.segment = s
  fd : r.fd = none
  memory : r.memory = none
  repaired : r.repaired = false
  rebuiltBytes : r.rebuiltBytes = 0

section Open

variable {f : File} (hs : s.Fits) (hentries : EntriesOk c s entries)
  (hcheck : CheckpointOk checkpoint symbols) (hfile : fs s.idxPath = some f)
  (hdata : f.data = indexImage c s entries checkpoint symbols)

include hs hentries hcheck hfile hdata

variable {Q : Exit Error Unit → Files → IndexReader → Prop} {r : IndexReader}

/-- The endpoints of an intact index agree with its segment. -/
theorem wp_checkEndpoints (hr : Reads c s entries checkpoint symbols r)
    (hok : ∀ r' : IndexReader, Reads c s entries checkpoint symbols r' →
      r'.rebuiltBytes = r.rebuiltBytes → r'.rebuiltDictionary = r.rebuiltDictionary →
      Q (.ok ()) fs r')
    (hno : ¬ env.Calm → ∀ r' : IndexReader, Reads c s entries checkpoint symbols r' →
      r'.rebuiltBytes = r.rebuiltBytes → ∀ e : Error, e.code = .io → Q (.fail e) fs r')
    (hkill : ¬ env.Calm → ∀ r', Q .killed fs r') :
    wp (checkEndpoints c s) env Q ⟨fs, n, r⟩ := by
  unfold checkEndpoints
  refine wp_bind ?_
  simp only [wp_get, andThen, hr.count]
  intro n
  by_cases hnil : entries.length = 0
  · rw [if_pos hnil]
    exact hok r hr rfl rfl
  rw [if_neg hnil]
  obtain ⟨first, hfirst⟩ : ∃ v, entries[0]? = some v :=
    ⟨_, getElem?_eq_getElem (pos_of_ne_zero hnil)⟩
  obtain ⟨last, hlast⟩ : ∃ v, entries[entries.length - 1]? = some v :=
    ⟨_, getElem?_eq_getElem (by omega)⟩
  have hends := hentries.ends first last (by rw [head?_eq_getElem?]; exact hfirst)
    (by rw [getLast?_eq_getElem?]; exact hlast)
  refine wp_bind (wp_getRaw hs hentries hcheck hfile hdata hr hfirst
    (fun r₁ h₁ hd₁ _ hb₁ _ n ↦ ?_) (fun hcalm e he ↦ hno hcalm r hr rfl e he)
    fun hcalm ↦ hkill hcalm _)
  refine wp_bind (wp_getRaw hs hentries hcheck hfile hdata h₁ hlast
    (fun r₂ h₂ hd₂ _ hb₂ _ n ↦ ?_) (fun hcalm e he ↦ hno hcalm r₁ h₁ hb₁ e he)
    fun hcalm ↦ hkill hcalm _)
  exact wp_require (fun _ ↦ hok r₂ h₂ (hb₂.trans hb₁) (hd₂.trans hd₁))
    fun hbad ↦ by rw [hends] at hbad; cases hbad

/-- The checks on an intact index that has just been opened. -/
theorem wp_openRawChecks (hr : r = { IndexReader.fresh s with fd := some s.idxPath })
    (hok : ∀ r' : IndexReader, Reads c s entries checkpoint symbols r' → r'.rebuiltBytes = 0 →
      r'.rebuiltDictionary = none → Q (.ok ()) fs r')
    (hno : ¬ env.Calm → ∀ r' : IndexReader, r'.segment = s → r'.memory = none →
      r'.repaired = false → r'.rebuiltBytes = 0 → ∀ e : Error,
      e.code = .io ∨ e.code = .nomem ∨ e.code = .corrupt → Q (.fail e) fs r')
    (hkill : ¬ env.Calm → ∀ r', Q .killed fs r') :
    wp (openRawChecks c s) env Q ⟨fs, n, r⟩ := by
  obtain ⟨hvalid, g1, g2, g3, g4, g5⟩ := indexHeaderValid_image hs hentries hcheck
  have hhead : slice f.data 0 indexHeaderBytes =
      indexHeader c s entries.length checkpoint symbols := by
    rw [hdata, indexImage]
    exact slice_append_head (length_indexHeader ..).symm
  have hlen : 0 + indexHeaderBytes ≤ f.data.length := by
    rw [hdata, length_indexImage]
    unfold checkpointOffset
    omega
  have hfd : r.fd = some s.idxPath := by rw [hr]
  have hfailed (hcalm : ¬ env.Calm) (k : ℕ) {e : Error}
      (he : e.code = .io ∨ e.code = .nomem ∨ e.code = .corrupt) :
      Q (.fail e) fs { r with ioBytes := k } :=
    hno hcalm _ (by rw [hr]; rfl) (by rw [hr]; rfl) (by rw [hr]; rfl) (by rw [hr]; rfl) e he
  unfold openRawChecks
  refine wp_bind ?_
  unfold readerPread
  refine wp_bind ?_
  simp only [wp_get, andThen, hfd]
  intro n
  refine wp_preadAll (w := ⟨fs, n, r⟩) hfile (by decide) hlen (fun n ↦ ?_)
    (fun hcalm ↦ hfailed hcalm r.ioBytes (by simp)) (fun hcalm ↦ hkill hcalm _)
  rw [hhead]
  refine wp_bind (wp_modify.2 fun n ↦ ?_)
  refine wp_callOr_bind (fun n ↦ ?_) (fun hcalm ↦ hfailed hcalm _ (by simp)) (hkill · _) (hkill · _)
  refine wp_bind ?_
  simp only [wp_files, andThen, id_eq, hfile]
  intro n
  refine wp_require_of (by rw [Option.elim_some, hdata, hvalid]) fun n ↦ ?_
  refine wp_bind (wp_modify.2 fun n ↦ ?_)
  obtain ⟨r', hr'⟩ : ∃ r' : IndexReader, r' = IndexReader.withHeader
      { r with ioBytes := r.ioBytes + indexHeaderBytes }
      (indexHeader c s entries.length checkpoint symbols) := ⟨_, rfl⟩
  have hreads : Reads c s entries checkpoint symbols r' := by
    rw [hr', IndexReader.withHeader, g1, g2, g3, g4, g5, hr]
    exact ⟨rfl, rfl, rfl, rfl, rfl, rfl, rfl, rfl, fun k hk ↦ (by cases hk), rfl⟩
  have hrebuilt : r'.rebuiltBytes = 0 ∧ r'.rebuiltDictionary = none := by
    rw [hr', hr]
    exact ⟨rfl, rfl⟩
  simp only
  rw [← hr']
  refine wp_checkEndpoints hs hentries hcheck hfile hdata hreads
    (fun r₁ h₁ hb₁ hd₁ ↦ hok r₁ h₁ (hb₁.trans hrebuilt.1) (hd₁.trans hrebuilt.2))
    (fun hcalm r₁ h₁ hb₁ e he ↦ ?_) hkill
  exact hno hcalm r₁ h₁.segment h₁.memory h₁.repaired (hb₁.trans hrebuilt.1) e (.inl he)

/-- **Opening an intact index.** It can only fail when a call does. -/
theorem wp_openRaw
    (hok : ∀ r' : IndexReader, Reads c s entries checkpoint symbols r' → r'.rebuiltBytes = 0 →
      r'.rebuiltDictionary = none → Q (.ok ()) fs r')
    (hno : ¬ env.Calm → ∀ r' : IndexReader, Unread s r' → ∀ e : Error,
      e.code = .io ∨ e.code = .nomem ∨ e.code = .corrupt → Q (.fail e) fs r')
    (hkill : ¬ env.Calm → ∀ r', Q .killed fs r') :
    wp (openRaw c s) env Q ⟨fs, n, r⟩ := by
  have hfresh : Unread s (.fresh s) := ⟨rfl, rfl, rfl, rfl, rfl⟩
  unfold openRaw
  refine wp_bind (wp_modify.2 fun n ↦ ?_)
  refine wp_bind (wp_allocOr (fun n ↦ ?_) fun hcalm ↦ hno hcalm _ hfresh _ (by simp))
  refine wp_callOr_bind (fun n ↦ ?_) (fun hcalm ↦ hno hcalm _ hfresh _ (by simp)) (hkill · _)
    (hkill · _)
  refine wp_bind ?_
  simp only [wp_files, andThen, id_eq, hfile]
  intro n
  refine wp_require_of rfl fun n ↦ ?_
  refine wp_bind (wp_modify.2 fun n ↦ ?_)
  refine wp_bind (wp_attempt.2 (wp_openRawChecks hs hentries hcheck hfile hdata rfl
    (fun r' hr' hb hd n ↦ hok r' hr' hb hd) (fun hcalm r' hseg hmem hrep hb e he n ↦ ?_) hkill))
  -- whatever fails while the file is open closes it
  exact wp_bind (wp_modify.2 fun _ ↦
    hno hcalm { r' with fd := none } ⟨hseg, rfl, hmem, hrep, hb⟩ e he)

end Open

end Rules

end WebAnalyticsDb
