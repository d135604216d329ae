import WebAnalyticsDb.Core.Encoding

/-!
# Segment headers and frames

The two checksummed records of a segment file. A record is written as a concatenation of its fields
and read by offset; `shows_flatten` connects the two.

A frame carries a dictionary section and rows. Its header alone can be inspected before the body is
read: `frameInspect` looks at the first eighty bytes only (`frameInspect_image`), so a frame that is
cut short after its header is still recognized, with the length it should have had. This is what lets
recovery tell a torn frame from damage.

Every byte of a frame is pinned down by some check, so the format is canonical: what is accepted is the
encoding of what it is read as (`frameDecode_eq_ok_iff`).
-/

namespace WebAnalyticsDb

open Bytes List

/-! ### Segment headers -/

/-- `wadb_segment_header`. -/
structure SegmentHeader where
  tableId : ℕ
  segmentId : ℕ
  schemaHash : ℕ
  rowWidth : ℕ
  dayStart : ℤ
  firstSequence : ℕ
deriving DecidableEq, Repr

/-- `WADBSEG1`. -/
def segmentMagic : Bytes := [87, 65, 68, 66, 83, 69, 71, 49]

/-- The fields of a segment header before its checksum. -/
def SegmentHeader.parts (h : SegmentHeader) : List Bytes :=
  [segmentMagic, ofNatLE 4 formatVersion, ofNatLE 4 segmentHeaderBytes, ofNatLE 8 h.tableId,
    ofNatLE 8 h.segmentId, ofNatLE 8 h.schemaHash, ofNatLE 4 h.rowWidth, zeros 4,
    ofNatLE 8 (i64Bits h.dayStart), ofNatLE 8 h.firstSequence, zeros 60]

/-- The values a segment header may hold. -/
def SegmentHeader.acceptable (h : SegmentHeader) : Bool :=
  h.tableId ≠ 0 && h.segmentId ≠ 0 && h.firstSequence ≠ 0 && h.rowWidth ≠ 0 &&
    h.rowWidth ≤ maxRowBytes && h.rowWidth % 8 = 0 && 0 ≤ h.dayStart && h.dayStart % dayUs = 0

/-- `wadb_segment_encode`. -/
def segmentEncode (h : SegmentHeader) : Except Error Bytes :=
  if h.acceptable then .ok (h.parts.flatten ++ ofNatLE 4 (crc32c h.parts.flatten))
  else .error ⟨.invalid, "invalid segment header"⟩

/-- The values found in a segment header. -/
def segmentFields (p : Bytes) : SegmentHeader where
  tableId := getLE 8 p 16
  segmentId := getLE 8 p 24
  schemaHash := getLE 8 p 32
  rowWidth := getLE 4 p 40
  dayStart := getI64 p 48
  firstSequence := getLE 8 p 56

/-- `wadb_segment_decode`. -/
def segmentDecode (p : Bytes) : Except Error SegmentHeader :=
  if p.length ≠ segmentHeaderBytes ∨ slice p 0 8 ≠ segmentMagic then
    .error ⟨.corrupt, "missing or invalid segment header"⟩
  else if crc32c (slice p 0 124) ≠ getLE 4 p 124 then
    .error ⟨.corrupt, "segment header checksum mismatch"⟩
  else if getLE 4 p 8 ≠ formatVersion then .error ⟨.version, "unsupported segment version"⟩
  else if getLE 4 p 12 ≠ segmentHeaderBytes ∨ isZero (slice p 44 4) = false ∨
      isZero (slice p 64 60) = false then
    .error ⟨.corrupt, "invalid segment header size or reserved bytes"⟩
  else
    match segmentEncode (segmentFields p) with
    | .error _ => .error ⟨.corrupt, "invalid segment header values"⟩
    | .ok _ => .ok (segmentFields p)

/-! ### Frames -/

/-- The header of a frame: `wadb_frame` as `wadb_frame_inspect` fills it. The total length and the
offset of the rows are determined by the other fields. -/
structure FrameHeader where
  schemaHash : ℕ
  firstSequence : ℕ
  minTime : ℤ
  maxTime : ℤ
  rowCount : ℕ
  rowWidth : ℕ
  dictionaryCount : ℕ
  dictionaryBytes : ℕ
deriving DecidableEq, Repr

/-- `wadb_frame` with its two sections. -/
structure Frame where
  schemaHash : ℕ
  firstSequence : ℕ
  minTime : ℤ
  maxTime : ℤ
  rowCount : ℕ
  rowWidth : ℕ
  dictionaryCount : ℕ
  dictionary : Bytes
  rows : Bytes
deriving DecidableEq, Repr

/-- The header of a frame. -/
def Frame.header (f : Frame) : FrameHeader where
  schemaHash := f.schemaHash
  firstSequence := f.firstSequence
  minTime := f.minTime
  maxTime := f.maxTime
  rowCount := f.rowCount
  rowWidth := f.rowWidth
  dictionaryCount := f.dictionaryCount
  dictionaryBytes := f.dictionary.length

/-- `WADBBAT1`. -/
def frameMagic : Bytes := [87, 65, 68, 66, 66, 65, 84, 49]

/-- `WADBEND1`. -/
def frameEndMagic : Bytes := [87, 65, 68, 66, 69, 78, 68, 49]

/-- `frame_sizes`: the length of the whole frame, if the header is consistent. -/
def frameSizes (f : FrameHeader) : Option ℕ :=
  if f.rowCount = 0 ∨ f.rowWidth = 0 ∨ f.rowWidth > maxRowBytes ∨ f.rowWidth % 8 ≠ 0 ∨
      f.firstSequence = 0 ∨ f.rowCount - 1 > uint64Max - f.firstSequence ∨
      f.minTime < 0 ∨ f.maxTime < f.minTime ∨ f.minTime / dayUs ≠ f.maxTime / dayUs ∨
      f.dictionaryBytes % 8 ≠ 0 ∨ f.dictionaryBytes > maxFrameBytes ∨
      f.dictionaryCount > f.dictionaryBytes / 12 ∨
      (f.dictionaryCount = 0 ∧ f.dictionaryBytes ≠ 0) then none
  else do
    let rowBytes ← mulSize f.rowCount f.rowWidth
    let body ← addSize rowBytes f.dictionaryBytes
    let total ← addSize body (frameHeaderBytes + frameTrailerBytes)
    if total ≤ maxFrameBytes then some total else none

/-- `dictionary_valid`: `n` well-formed definitions and then less than eight zero bytes. -/
def dictionaryValid : ℕ → Bytes → Bool
  | 0, p => p.length < 8 && isZero p
  | n + 1, p =>
    if p.length < 12 then false
    else
      let length := getLE 4 p 8
      if getLE 2 p 0 = 0 ∨ getLE 2 p 0 ≥ maxFields ∨ getLE 2 p 2 ≠ 0 ∨ getLE 4 p 4 = 0 ∨
          length > maxStringBytes ∨ length > p.length - 12 ∨ utf8 (slice p 12 length) = false then
        false
      else dictionaryValid n (p.drop (12 + length))

/-- The loop of `times_valid` over the remaining rows. -/
def timesLoop (minTime maxTime : ℤ) (width : ℕ) : ℕ → Bool → ℤ → Bytes → Bool
  | 0, _, previous, _ => previous == maxTime
  | n + 1, first, previous, p =>
    let time := getI64 p 0
    if time < previous ∨ time > maxTime ∨ (first = true ∧ time ≠ minTime) then false
    else timesLoop minTime maxTime width n false time (p.drop width)

/-- `times_valid`. -/
def timesValid (f : Frame) : Bool :=
  timesLoop f.minTime f.maxTime f.rowWidth f.rowCount true f.minTime f.rows

/-- The fields of a frame header before its checksum. -/
def FrameHeader.parts (f : FrameHeader) (total : ℕ) : List Bytes :=
  [frameMagic, ofNatLE 4 total, ofNatLE 4 frameHeaderBytes, ofNatLE 4 f.rowCount,
    ofNatLE 4 f.rowWidth, ofNatLE 8 f.firstSequence, ofNatLE 8 (i64Bits f.minTime),
    ofNatLE 8 (i64Bits f.maxTime), ofNatLE 4 f.dictionaryBytes, ofNatLE 4 f.dictionaryCount,
    ofNatLE 4 (frameHeaderBytes + f.dictionaryBytes), zeros 4, ofNatLE 8 f.schemaHash]

/-- The eighty bytes of a frame header. -/
def FrameHeader.image (f : FrameHeader) (total : ℕ) : Bytes :=
  (f.parts total).flatten ++ (ofNatLE 4 (crc32c (f.parts total).flatten) ++ zeros 4)

/-- A frame before its last checksum. -/
def Frame.body (f : Frame) (total : ℕ) : Bytes :=
  f.header.image total ++ (f.dictionary ++ (f.rows ++ (frameEndMagic ++ ofNatLE 4 total)))

/-- The bytes of a frame of the given length. -/
def Frame.image (f : Frame) (total : ℕ) : Bytes :=
  f.body total ++ ofNatLE 4 (crc32c (f.body total))

/-- `wadb_frame_encode`, without its allocation. -/
def frameEncode (f : Frame) : Except Error Bytes :=
  match frameSizes f.header with
  | none => .error ⟨.invalid, "invalid frame values or size"⟩
  | some total =>
    if dictionaryValid f.dictionaryCount f.dictionary && timesValid f then .ok (f.image total)
    else .error ⟨.invalid, "invalid frame values or size"⟩

/-- The values found in a frame header. -/
def frameFields (p : Bytes) : FrameHeader where
  rowCount := getLE 4 p 16
  rowWidth := getLE 4 p 20
  firstSequence := getLE 8 p 24
  minTime := getI64 p 32
  maxTime := getI64 p 40
  dictionaryBytes := getLE 4 p 48
  dictionaryCount := getLE 4 p 52
  schemaHash := getLE 8 p 64

/-- `wadb_frame_inspect`: the header and the length of the whole frame. -/
def frameInspect (p : Bytes) : Except Error (FrameHeader × ℕ) :=
  if p.length < frameHeaderBytes ∨ slice p 0 8 ≠ frameMagic ∨ getLE 4 p 12 ≠ frameHeaderBytes ∨
      crc32c (slice p 0 72) ≠ getLE 4 p 72 ∨ isZero (slice p 60 4) = false ∨
      isZero (slice p 76 4) = false then
    .error ⟨.corrupt, "invalid frame header or checksum"⟩
  else
    match frameSizes (frameFields p) with
    | none => .error ⟨.corrupt, "invalid frame lengths or ranges"⟩
    | some total =>
      if total ≠ getLE 4 p 8 ∨
          getLE 4 p 56 ≠ frameHeaderBytes + (frameFields p).dictionaryBytes then
        .error ⟨.corrupt, "invalid frame lengths or ranges"⟩
      else .ok (frameFields p, total)

/-- A frame with its two sections, once the header has been read. -/
def FrameHeader.withSections (h : FrameHeader) (p : Bytes) : Frame where
  schemaHash := h.schemaHash
  firstSequence := h.firstSequence
  minTime := h.minTime
  maxTime := h.maxTime
  rowCount := h.rowCount
  rowWidth := h.rowWidth
  dictionaryCount := h.dictionaryCount
  dictionary := slice p frameHeaderBytes h.dictionaryBytes
  rows := slice p (frameHeaderBytes + h.dictionaryBytes) (h.rowCount * h.rowWidth)

/-- `wadb_frame_decode`. -/
def frameDecode (p : Bytes) : Except Error Frame :=
  match frameInspect p with
  | .error e => .error e
  | .ok (h, total) =>
    if p.length ≠ total ∨ slice p (p.length - frameTrailerBytes) 8 ≠ frameEndMagic ∨
        getLE 4 p (p.length - 8) ≠ p.length ∨
        crc32c (slice p 0 (p.length - 4)) ≠ getLE 4 p (p.length - 4) then
      .error ⟨.corrupt, "frame is incomplete or checksum mismatches"⟩
    else if dictionaryValid h.dictionaryCount (h.withSections p).dictionary &&
        timesValid (h.withSections p) then
      .ok (h.withSections p)
    else .error ⟨.corrupt, "invalid dictionary or unordered frame rows"⟩

/-! ### Reading back a segment header -/

/-- The fields of a segment header fit their slots. -/
structure SegmentHeader.Fits (h : SegmentHeader) : Prop where
  tableId : h.tableId < 2 ^ 64
  segmentId : h.segmentId < 2 ^ 64
  schemaHash : h.schemaHash < 2 ^ 64
  dayStart : h.dayStart < 2 ^ 63
  firstSequence : h.firstSequence < 2 ^ 64

theorem SegmentHeader.length_parts (h : SegmentHeader) : h.parts.flatten.length = 124 := by
  simp [SegmentHeader.parts, segmentMagic]

variable {p : Bytes} {total : ℕ} {f : Frame}

theorem length_segmentEncode {h : SegmentHeader} (he : segmentEncode h = .ok p) :
    p.length = segmentHeaderBytes := by
  unfold segmentEncode at he
  split at he
  · cases he
    rw [length_append, h.length_parts, length_ofNatLE]
    rfl
  · cases he

/-- **A segment header reads back.** -/
theorem segmentDecode_segmentEncode {h : SegmentHeader} (hfit : h.Fits)
    (he : segmentEncode h = .ok p) : segmentDecode p = .ok h := by
  have hlen := length_segmentEncode he
  have hp : p = h.parts.flatten ++ ofNatLE 4 (crc32c h.parts.flatten) := by
    unfold segmentEncode at he
    split at he <;> cases he
    rfl
  have hacc : h.acceptable = true := by
    unfold segmentEncode at he
    split at he
    next hacc => exact hacc
    next => cases he
  have hshows : Shows p 0 h.parts := by
    rw [hp]
    exact shows_flatten _ _
  simp only [SegmentHeader.parts, Shows, length_ofNatLE, length_zeros, segmentMagic, length_cons,
    length_nil, Nat.reduceAdd, and_true] at hshows
  obtain ⟨hmagic, w1, w2, w3, w4, w5, w6, w7, w8, w9, w10⟩ := hshows
  have hbody : slice p 0 124 = h.parts.flatten := by
    rw [hp]
    exact slice_append_head h.length_parts.symm
  have hcrc : getLE 4 p 124 = crc32c h.parts.flatten := by
    rw [hp]
    exact getLE_append_end h.length_parts.symm (crc32c_lt _)
  simp only [SegmentHeader.acceptable, Bool.and_eq_true, decide_eq_true_eq] at hacc
  obtain ⟨⟨⟨⟨⟨⟨⟨-, -⟩, -⟩, -⟩, hwidth⟩, -⟩, hday⟩, -⟩ := hacc
  unfold maxRowBytes at hwidth
  have hfields : segmentFields p = h := by
    rw [segmentFields, getLE_of_slice w3 hfit.tableId, getLE_of_slice w4 hfit.segmentId,
      getLE_of_slice w5 hfit.schemaHash, getLE_of_slice w6 (by omega),
      getI64_of_slice w8 (by omega) hfit.dayStart, getLE_of_slice w9 hfit.firstSequence]
  have hmagic' : slice p 0 8 = segmentMagic := hmagic
  unfold segmentDecode
  rw [if_neg (by simp [hlen, hmagic']), if_neg (by rw [hbody, hcrc]; simp),
    getLE_of_slice w1 (by decide), if_neg (by simp), getLE_of_slice w2 (by decide),
    if_neg (by simp [isZero_of_slice w7, isZero_of_slice w10]), hfields, he]

/-! ### Reading back a frame -/

/-- What `frame_sizes` has checked. -/
structure FrameHeader.Sized (f : FrameHeader) (total : ℕ) : Prop where
  rowCount : f.rowCount ≠ 0
  rowWidth : f.rowWidth ≠ 0 ∧ f.rowWidth ≤ maxRowBytes ∧ f.rowWidth % 8 = 0
  firstSequence : f.firstSequence ≠ 0
  lastSequence : f.rowCount - 1 ≤ uint64Max - f.firstSequence
  minTime : 0 ≤ f.minTime
  maxTime : f.minTime ≤ f.maxTime
  day : f.minTime / dayUs = f.maxTime / dayUs
  dictionaryBytes : f.dictionaryBytes % 8 = 0 ∧ f.dictionaryBytes ≤ maxFrameBytes
  dictionaryCount : f.dictionaryCount ≤ f.dictionaryBytes / 12
  noDictionary : f.dictionaryCount = 0 → f.dictionaryBytes = 0
  total_eq : total = f.rowCount * f.rowWidth + f.dictionaryBytes + 96
  total_le : total ≤ maxFrameBytes

theorem frameSizes_eq_some {f : FrameHeader} : frameSizes f = some total ↔ f.Sized total := by
  unfold frameSizes
  constructor
  · intro h
    split at h
    · cases h
    next hc =>
      simp only [not_or, not_and, not_not, not_lt, gt_iff_lt, ne_eq] at hc
      obtain ⟨h1, h2, h3, h4, h5, h6, h7, h8, h9, h10, h11, h12, h13⟩ := hc
      simp only [Option.bind_eq_bind, Option.bind_eq_some_iff] at h
      obtain ⟨rowBytes, hmul, body, hadd, t, hadd', ht⟩ := h
      unfold mulSize at hmul
      unfold addSize at hadd hadd'
      split at hmul <;> cases hmul
      split at hadd <;> cases hadd
      split at hadd' <;> cases hadd'
      split at ht <;> cases ht
      next hle =>
        exact ⟨h1, ⟨h2, h3, h4⟩, h5, h6, h7, h8, h9, ⟨h10, h11⟩, h12, h13, rfl, hle⟩
  · rintro ⟨h1, ⟨h2, h3, h4⟩, h5, h6, h7, h8, h9, ⟨h10, h11⟩, h12, h13, rfl, hle⟩
    have hmax : maxFrameBytes = 1048576 := rfl
    have hu : uint64Max = 2 ^ 64 - 1 := rfl
    rw [if_neg]
    · rw [mulSize_of_le (by omega)]
      simp only [Option.bind_eq_bind, Option.bind_some]
      rw [addSize_of_le (by omega)]
      simp only [Option.bind_some]
      rw [addSize_of_le (by unfold frameHeaderBytes frameTrailerBytes; omega)]
      simp only [Option.bind_some]
      rw [if_pos (by simpa [frameHeaderBytes, frameTrailerBytes] using hle)]
      rfl
    · simp only [not_or, not_and, not_not, not_lt, gt_iff_lt, ne_eq]
      exact ⟨h1, h2, h3, h4, h5, h6, h7, h8, h9, h10, h11, h12, h13⟩

/-- The fields of a frame header fit their slots. -/
structure FrameHeader.Fits (f : FrameHeader) : Prop where
  schemaHash : f.schemaHash < 2 ^ 64
  firstSequence : f.firstSequence < 2 ^ 64
  maxTime : f.maxTime < 2 ^ 63

namespace FrameHeader

variable {f : FrameHeader} {total : ℕ}

theorem length_parts (f : FrameHeader) (total : ℕ) : (f.parts total).flatten.length = 72 := by
  simp [FrameHeader.parts, frameMagic]

@[simp] theorem length_image (f : FrameHeader) (total : ℕ) : (f.image total).length = 80 := by
  rw [FrameHeader.image, length_append, length_parts]
  simp

theorem Sized.rowCount_le (h : f.Sized total) : f.rowCount ≤ 1048576 := by
  have hle := h.total_le
  have hmul : f.rowCount ≤ f.rowCount * f.rowWidth :=
    Nat.le_mul_of_pos_right _ (pos_of_ne_zero h.rowWidth.1)
  rw [h.total_eq] at hle
  unfold maxFrameBytes at hle
  omega

/-- **A frame header reads back**, whatever follows it. -/
theorem frameInspect_image (hsized : f.Sized total) (hfit : f.Fits) (rest : Bytes) :
    frameInspect (f.image total ++ rest) = .ok (f, total) := by
  have hmax : maxFrameBytes = 1048576 := rfl
  have hrow : maxRowBytes = 16384 := rfl
  have hhdr : frameHeaderBytes = 80 := rfl
  have htotal := hsized.total_le
  have hcount := hsized.rowCount_le
  have hwidth := hsized.rowWidth
  have hdict := hsized.dictionaryBytes
  have hdictCount := hsized.dictionaryCount
  have hmin := hsized.minTime
  have hminmax := hsized.maxTime
  have hmaxTime := hfit.maxTime
  obtain ⟨p, hp⟩ : ∃ p, p = f.image total ++ rest := ⟨_, rfl⟩
  have hp' : p = (f.parts total).flatten ++
      (ofNatLE 4 (crc32c (f.parts total).flatten) ++ (zeros 4 ++ rest)) := by
    rw [hp, FrameHeader.image]
    simp only [append_assoc]
  have hshows : Shows p 0 (f.parts total) := by
    rw [hp']
    exact shows_flatten _ _
  simp only [FrameHeader.parts, Shows, length_ofNatLE, length_zeros, frameMagic, length_cons,
    length_nil, Nat.reduceAdd, and_true] at hshows
  obtain ⟨w0, w1, w2, w3, w4, w5, w6, w7, w8, w9, w10, w11, w12⟩ := hshows
  have hmagic : slice p 0 8 = frameMagic := w0
  have hbody : slice p 0 72 = (f.parts total).flatten := by
    rw [hp']
    exact slice_append_head (length_parts f total).symm
  have hcrc : getLE 4 p 72 = crc32c (f.parts total).flatten := by
    rw [hp']
    exact getLE_append_mid (length_parts f total).symm (crc32c_lt _)
  have hpad : isZero (slice p 60 4) = true := isZero_of_slice w11
  have hpad' : isZero (slice p 76 4) = true := by
    rw [hp', ← append_assoc, slice_append_mid (b := zeros 4)
      (by rw [length_append, length_parts, length_ofNatLE]) (by simp)]
    exact isZero_zeros 4
  have hfields : frameFields p = f := by
    rw [frameFields, getLE_of_slice w12 hfit.schemaHash, getLE_of_slice w5 hfit.firstSequence,
      getI64_of_slice w6 (by omega) (by omega), getI64_of_slice w7 (by omega) (by omega),
      getLE_of_slice w3 (by omega), getLE_of_slice w4 (by omega), getLE_of_slice w9 (by omega),
      getLE_of_slice w8 (by omega)]
  have hlen : ¬ p.length < frameHeaderBytes := by
    rw [hp, length_append, length_image, hhdr]
    omega
  rw [← hp, frameInspect, if_neg, hfields, frameSizes_eq_some.2 hsized]
  · simp only
    rw [getLE_of_slice w1 (by omega), getLE_of_slice w10 (by omega), if_neg (by simp)]
  · rw [getLE_of_slice w2 (by decide), hbody, hcrc]
    simp [hlen, hmagic, hpad, hpad']

end FrameHeader

namespace Frame

variable {f : Frame} {total : ℕ}

theorem length_body (f : Frame) (total : ℕ) :
    (f.body total).length = f.rows.length + f.dictionary.length + 92 := by
  simp only [Frame.body, length_append, FrameHeader.length_image, length_ofNatLE]
  simp only [frameEndMagic, length_cons, length_nil]
  omega

theorem length_image (f : Frame) (total : ℕ) :
    (f.image total).length = f.rows.length + f.dictionary.length + 96 := by
  rw [Frame.image, length_append, length_body, length_ofNatLE]

/-- A frame begins with its header. -/
theorem image_eq_append (f : Frame) (total : ℕ) : ∃ rest, f.image total = f.header.image total ++ rest :=
  ⟨_, by rw [Frame.image, Frame.body, append_assoc]⟩

end Frame

/-- What `wadb_frame_encode` has checked. -/
theorem frameEncode_eq_ok (h : frameEncode f = .ok p) :
    ∃ total, f.header.Sized total ∧ dictionaryValid f.dictionaryCount f.dictionary = true ∧
      timesValid f = true ∧ p = f.image total := by
  unfold frameEncode at h
  split at h
  · cases h
  next total hsizes =>
    split at h
    next hvalid =>
      cases h
      rw [Bool.and_eq_true] at hvalid
      exact ⟨total, frameSizes_eq_some.1 hsizes, hvalid.1, hvalid.2, rfl⟩
    next => cases h

/-- **A frame reads back.** -/
theorem frameDecode_image (hsized : f.header.Sized total)
    (hfit : f.header.Fits) (hrows : f.rows.length = f.rowCount * f.rowWidth)
    (hdict : dictionaryValid f.dictionaryCount f.dictionary = true) (htimes : timesValid f = true) :
    frameDecode (f.image total) = .ok f := by
  have hmax : maxFrameBytes = 1048576 := rfl
  have htotal : total = f.rows.length + f.dictionary.length + 96 := by
    rw [hsized.total_eq, hrows]
    rfl
  have hle := hsized.total_le
  obtain ⟨rest, hrest⟩ := f.image_eq_append total
  have hlen : (f.image total).length = total := by rw [f.length_image, htotal]
  have hhead : frameInspect (f.image total) = .ok (f.header, total) := by
    rw [hrest]
    exact FrameHeader.frameInspect_image hsized hfit rest
  obtain ⟨crc, himage⟩ : ∃ crc, f.image total = f.header.image total ++
      (f.dictionary ++ (f.rows ++ (frameEndMagic ++ (ofNatLE 4 total ++ crc)))) :=
    ⟨ofNatLE 4 (crc32c (f.body total)), by
      unfold Frame.image Frame.body
      simp only [append_assoc]⟩
  have hsections : f.header.withSections (f.image total) = f := by
    have hd : slice (f.image total) frameHeaderBytes f.dictionary.length = f.dictionary := by
      rw [himage]
      exact slice_append_mid (FrameHeader.length_image _ _).symm rfl
    have hr : slice (f.image total) (frameHeaderBytes + f.dictionary.length)
        (f.rowCount * f.rowWidth) = f.rows := by
      rw [himage, ← append_assoc]
      refine slice_append_mid ?_ hrows.symm
      rw [length_append, FrameHeader.length_image]
      rfl
    unfold FrameHeader.withSections
    simp only [Frame.header, hd, hr]
  have hend : slice (f.image total) (total - frameTrailerBytes) 8 = frameEndMagic := by
    rw [himage, ← append_assoc, ← append_assoc]
    refine slice_append_mid ?_ rfl
    simp only [frameTrailerBytes, length_append, FrameHeader.length_image]
    omega
  have hcount : getLE 4 (f.image total) (total - 8) = total := by
    rw [himage, ← append_assoc, ← append_assoc, ← append_assoc]
    refine getLE_append_mid ?_ (by omega)
    simp only [length_append, FrameHeader.length_image, frameEndMagic, length_cons,
      length_nil]
    omega
  have hcrc : getLE 4 (f.image total) (total - 4) = crc32c (f.body total) := by
    rw [Frame.image]
    exact getLE_append_end (by rw [f.length_body]; omega) (crc32c_lt _)
  have hbody : slice (f.image total) 0 (total - 4) = f.body total := by
    rw [Frame.image]
    exact slice_append_head (by rw [f.length_body]; omega)
  rw [frameDecode, hhead]
  simp only [hlen, hsections, hend, hcount, hcrc, hbody]
  rw [if_neg (by simp)]
  simp [Frame.header, hdict, htimes]

/-! ### Accepted bytes are canonical -/

/-- **The values of a frame are those of its C types**, and there are as many row bytes as the counts
say. -/
structure Frame.Typed (f : Frame) : Prop where
  schemaHash : f.schemaHash < 2 ^ 64
  firstSequence : f.firstSequence < 2 ^ 64
  maxTime : f.maxTime < 2 ^ 63
  rows : f.rows.length = f.rowCount * f.rowWidth

theorem Frame.Typed.fits (h : f.Typed) : f.header.Fits :=
  ⟨h.schemaHash, h.firstSequence, h.maxTime⟩

/-- **A header that was accepted** is the encoding of what it was read as. -/
theorem frameInspect_eq_ok {h : FrameHeader} (hp : frameInspect p = .ok (h, total)) :
    slice p 0 80 = h.image total ∧ h.Sized total ∧ h.Fits := by
  unfold frameInspect at hp
  split at hp
  · cases hp
  next hchecks =>
  simp only [not_or, not_not, not_lt, Bool.not_eq_false] at hchecks
  obtain ⟨hlen, hmagic, hbytes, hcrc, hpad, hpad'⟩ := hchecks
  have hlen' : 80 ≤ p.length := hlen
  split at hp
  · cases hp
  next t hsizes =>
  split at hp
  · cases hp
  next hranges =>
  simp only [not_or, not_not] at hranges
  obtain ⟨htotal, hoffset⟩ := hranges
  cases hp
  have hle {off w : ℕ} (h : off + w ≤ 80) : off + w ≤ p.length := h.trans hlen'
  have hzero {off n : ℕ} (h : off + n ≤ 80) (hz : isZero (slice p off n) = true) :=
    slice_eq_zeros (hle h) hz
  have hnum {off w v : ℕ} (h : off + w ≤ 80) (hv : getLE w p off = v) : slice p off w = ofNatLE w v :=
    slice_eq_ofNatLE (hle h) hv
  -- each field is the window it was read from
  have hshows : Shows p 0 ((frameFields p).parts total) := by
    simp only [FrameHeader.parts, Shows, length_ofNatLE, length_zeros, frameMagic, length_cons,
      length_nil, Nat.reduceAdd, and_true]
    exact ⟨hmagic, hnum (by decide) htotal.symm, hnum (by decide) hbytes, hnum (by decide) rfl,
      hnum (by decide) rfl, hnum (by decide) rfl, (ofNatLE_getI64 (hle (by decide))).symm,
      (ofNatLE_getI64 (hle (by decide))).symm, hnum (by decide) rfl, hnum (by decide) rfl,
      hnum (by decide) hoffset, hzero (by decide) hpad, hnum (by decide) rfl⟩
  have hparts : slice p 0 72 = ((frameFields p).parts total).flatten := by
    rw [← hshows.slice_eq, FrameHeader.length_parts]
  have hsum : slice p 72 4 = ofNatLE 4 (crc32c ((frameFields p).parts total).flatten) := by
    rw [← hparts, hcrc, ofNatLE_getLE (hle (by decide))]
  refine ⟨?_, frameSizes_eq_some.1 hsizes, getLE_lt 8 p 64, getLE_lt 8 p 24,
    (i64OfBits_bounds (getLE_lt 8 p 40)).2⟩
  rw [show (80 : ℕ) = 72 + (4 + 4) from rfl, slice_add, slice_add, hparts, hsum,
    hzero (by decide) hpad']
  rfl

/-- What `wadb_frame_decode` has checked. -/
theorem frameDecode_eq_ok (hp : frameDecode p = .ok f) :
    f.Typed ∧ f.header.Sized p.length ∧ dictionaryValid f.dictionaryCount f.dictionary = true ∧
      timesValid f = true ∧ p = f.image p.length := by
  unfold frameDecode at hp
  split at hp
  · cases hp
  next h total hinspect =>
  obtain ⟨hhead, hsized, hfits⟩ := frameInspect_eq_ok hinspect
  split at hp
  · cases hp
  next htrailer =>
  simp only [not_or, not_not] at htrailer
  obtain ⟨hlen, hend, hcount, hcrc⟩ := htrailer
  split at hp
  swap
  · cases hp
  next hvalid =>
  cases hp
  rw [Bool.and_eq_true] at hvalid
  subst hlen
  have htotal := hsized.total_eq
  have hsize : 96 ≤ p.length := by omega
  have hhb : frameHeaderBytes = 80 := rfl
  have htb : frameTrailerBytes = 16 := rfl
  have hdict : (h.withSections p).dictionary.length = h.dictionaryBytes :=
    length_slice_of_le (by omega)
  have hrows : (h.withSections p).rows.length = h.rowCount * h.rowWidth :=
    length_slice_of_le (by omega)
  have hheader : (h.withSections p).header = h := by
    unfold Frame.header
    rw [hdict]
    rfl
  have hbody : slice p 0 (p.length - 4) = (h.withSections p).body p.length := by
    have hsplit : p.length - 4 =
        80 + (h.dictionaryBytes + (h.rowCount * h.rowWidth + (8 + 4))) := by omega
    have hend' : slice p (0 + 80 + h.dictionaryBytes + h.rowCount * h.rowWidth) 8 = frameEndMagic := by
      rw [← hend, htb]
      congr 1
      omega
    have hcount' : slice p (0 + 80 + h.dictionaryBytes + h.rowCount * h.rowWidth + 8) 4 =
        ofNatLE 4 p.length := by
      rw [show 0 + 80 + h.dictionaryBytes + h.rowCount * h.rowWidth + 8 = p.length - 8 by omega,
        ← ofNatLE_getLE (by omega), hcount]
    rw [hsplit, slice_add, slice_add, slice_add, slice_add, hhead, hend', hcount', Frame.body, hheader,
      zero_add]
    rfl
  have himage : p = (h.withSections p).image p.length := by
    have hall : slice p 0 (p.length - 4) ++ slice p (0 + (p.length - 4)) 4 = p := by
      rw [← slice_add, Nat.sub_add_cancel (by omega), slice_zero_length]
    rw [Frame.image, ← hbody, hcrc, ofNatLE_getLE (by omega)]
    rwa [zero_add, eq_comm] at hall
  refine ⟨⟨hfits.schemaHash, hfits.firstSequence, hfits.maxTime, hrows⟩, ?_, hvalid.1, hvalid.2,
    himage⟩
  rw [hheader]
  exact hsized

/-- **The codec is a bijection** between the frames the encoder accepts and the byte strings the decoder
accepts. -/
theorem frameDecode_eq_ok_iff (f : Frame) (p : Bytes) :
    frameDecode p = .ok f ↔ f.Typed ∧ frameEncode f = .ok p := by
  constructor
  · intro hp
    obtain ⟨htyped, hsized, hdict, htimes, himage⟩ := frameDecode_eq_ok hp
    refine ⟨htyped, ?_⟩
    rw [frameEncode, frameSizes_eq_some.2 hsized]
    simp only [hdict, htimes, Bool.and_self, if_true]
    rw [← himage]
  · rintro ⟨htyped, hp⟩
    obtain ⟨total, hsized, hdict, htimes, rfl⟩ := frameEncode_eq_ok hp
    exact frameDecode_image hsized htyped.fits htyped.rows hdict htimes

/-- A frame is recognized by its first eighty bytes, so nothing of another length passes for it. -/
theorem frameDecode_error_of_comparable {q : Bytes} (hp : frameDecode p = .ok f)
    (hq : q <+: p ∨ p <+: q) (hne : q ≠ p) : ∃ e, frameDecode q = .error e := by
  obtain ⟨htyped, hsized, -, -, himage⟩ := frameDecode_eq_ok hp
  have hlength : q.length ≠ p.length := by
    rcases hq with h | h
    · exact fun heq ↦ hne (h.eq_of_length heq)
    · exact fun heq ↦ hne (h.eq_of_length heq.symm).symm
  by_cases hshort : q.length < frameHeaderBytes
  · refine ⟨⟨.corrupt, "invalid frame header or checksum"⟩, ?_⟩
    rw [frameDecode, frameInspect, if_pos (.inl hshort)]
  · obtain ⟨more, hmore⟩ := f.image_eq_append p.length
    rw [hmore] at himage
    -- both begin with the header of `f`
    have hhead : f.header.image p.length <+: q := by
      have hpre : f.header.image p.length <+: p := ⟨more, himage.symm⟩
      rcases hq with h | h
      · refine prefix_of_prefix_length_le hpre h ?_
        rw [FrameHeader.length_image]
        exact not_lt.1 hshort
      · exact hpre.trans h
    obtain ⟨rest, rfl⟩ := hhead
    refine ⟨⟨.corrupt, "frame is incomplete or checksum mismatches"⟩, ?_⟩
    rw [frameDecode, FrameHeader.frameInspect_image hsized htyped.fits rest]
    exact if_pos (.inl hlength)

/-- **The frame codec is exact.** What is encoded reads back as it was, what is read is the encoding of
the frame it is read as, and neither a part of a frame nor a frame with something behind it is read. -/
theorem frameCodec_exact :
    (∀ f p, f.Typed → frameEncode f = .ok p → frameDecode p = .ok f) ∧
      (∀ p f, frameDecode p = .ok f → f.Typed ∧ frameEncode f = .ok p) ∧
      (∀ p q f, frameDecode p = .ok f → frameDecode q = .ok f → p = q) ∧
      ∀ p q f, frameDecode p = .ok f → q <+: p ∨ p <+: q → q ≠ p → ∃ e, frameDecode q = .error e := by
  refine ⟨fun f p htyped hp ↦ (frameDecode_eq_ok_iff f p).2 ⟨htyped, hp⟩,
    fun p f hp ↦ (frameDecode_eq_ok_iff f p).1 hp, fun p q f hp hq ↦ ?_,
    fun p q f hp hq hne ↦ frameDecode_error_of_comparable hp hq hne⟩
  have hsame : (Except.ok p : Except Error Bytes) = .ok q :=
    ((frameDecode_eq_ok_iff f p).1 hp).2.symm.trans ((frameDecode_eq_ok_iff f q).1 hq).2
  cases hsame
  rfl

/-- A frame of one row of eight bytes, at time 5. -/
def oneRowFrame : Frame where
  schemaHash := 7
  firstSequence := 1
  minTime := 5
  maxTime := 5
  rowCount := 1
  rowWidth := 8
  dictionaryCount := 0
  dictionary := []
  rows := [5, 0, 0, 0, 0, 0, 0, 0]

theorem frameCodec_exact_oneRow :
    frameEncode oneRowFrame = .ok (oneRowFrame.image 104) ∧
      frameDecode (oneRowFrame.image 104) = .ok oneRowFrame ∧
      (∃ e, frameDecode ((oneRowFrame.image 104).take 103) = .error e) ∧
      ∃ e, frameDecode (oneRowFrame.image 104 ++ [0]) = .error e := by
  have henc : frameEncode oneRowFrame = .ok (oneRowFrame.image 104) := by rfl
  have hlen : (oneRowFrame.image 104).length = 104 := oneRowFrame.length_image 104
  have hdec := frameCodec_exact.1 oneRowFrame _ ⟨by decide, by decide, by decide, rfl⟩ henc
  have hpre : (oneRowFrame.image 104).take 103 <+: oneRowFrame.image 104 := List.take_prefix _ _
  refine ⟨henc, hdec, frameCodec_exact.2.2.2 _ _ _ hdec (Or.inl hpre) fun heq ↦ ?_,
    frameCodec_exact.2.2.2 _ _ _ hdec (Or.inr (List.prefix_append _ _)) (by simp)⟩
  have := congrArg List.length heq
  rw [List.length_take, hlen] at this
  omega

end WebAnalyticsDb
