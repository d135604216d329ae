import WebAnalyticsDb.Core.Engine
import WebAnalyticsDb.Platform.Files

/-!
# The manifest

The durable description of a table: its watermarks, its retention policy and one record per segment.
It is replaced as a whole (`saveManifest`) and read once, when the table is opened
(`loadManifest`).

`Manifest.Ok` says what a manifest must satisfy to be accepted. It is the interface between the
invariants of the engine and the checks of the loader: `wp_loadManifest` reads back every manifest
that satisfies it.
-/

namespace WebAnalyticsDb

open Bytes List

variable {c : Config} {μ : Type}

/-! ### Writing -/

/-- The part of a table that the manifest records. -/
structure Manifest where
  nextSegmentId : ℕ
  preservedSequence : ℕ
  preservedTime : ℤ
  retentionUs : ℕ
  generation : ℕ
  segments : List SegmentMeta
deriving DecidableEq, Repr

/-- The manifest of a table in its present state. -/
def Table.manifest (t : Table c) : Manifest where
  nextSegmentId := t.nextSegmentId
  preservedSequence := t.preservedSequence
  preservedTime := t.preservedTime
  retentionUs := t.retentionUs
  generation := t.manifestGeneration
  segments := t.segments

/-- `WADBMAN1`. -/
def manifestMagic : Bytes := [87, 65, 68, 66, 77, 65, 78, 49]

/-- The fields of a segment record. -/
def SegmentMeta.parts (s : SegmentMeta) : List Bytes :=
  [ofNatLE 8 s.id, ofNatLE 8 (i64Bits s.dayStart), ofNatLE 8 s.firstSequence,
    ofNatLE 8 s.lastSequence, ofNatLE 8 (i64Bits s.minTime), ofNatLE 8 (i64Bits s.maxTime),
    ofNatLE 8 s.committedBytes, ofNatLE 4 s.state.code, zeros 4]

/-- The 64 bytes of a segment record. -/
def SegmentMeta.image (s : SegmentMeta) : Bytes := s.parts.flatten

/-- The fields of the manifest before its records. -/
def Manifest.parts (m : Manifest) (tableId : ℕ) : List Bytes :=
  [manifestMagic, ofNatLE 4 formatVersion, ofNatLE 4 80, ofNatLE 8 tableId,
    ofNatLE 8 m.nextSegmentId, ofNatLE 8 m.preservedSequence, ofNatLE 8 (i64Bits m.preservedTime),
    ofNatLE 8 m.retentionUs, ofNatLE 8 m.generation, ofNatLE 4 m.segments.length, zeros 12]

/-- The manifest before its checksum. -/
def Manifest.body (m : Manifest) (tableId : ℕ) : Bytes :=
  (m.parts tableId).flatten ++ m.segments.flatMap SegmentMeta.image

/-- The bytes of the manifest file. -/
def Manifest.image (m : Manifest) (tableId : ℕ) : Bytes :=
  m.body tableId ++ ofNatLE 4 (crc32c (m.body tableId))

/-- `wadb_save_manifest`. -/
def saveManifest (t : Table c) : Io μ Unit := do
  require (t.segments.length ≤ maxSegments) .limit "segment metadata limit"
  allocOr "manifest allocation"
  allocOr "metadata path"
  atomicFile .manifest (t.manifest.image c.id)

/-! ### Reading -/

/-- The values found in a segment record. -/
def segmentRecord (p : Bytes) (state : SegmentState) : SegmentMeta where
  id := getLE 8 p 0
  dayStart := getI64 p 8
  firstSequence := getLE 8 p 16
  lastSequence := getLE 8 p 24
  minTime := getI64 p 32
  maxTime := getI64 p 40
  committedBytes := getLE 8 p 48
  state := state

/-- The values a segment record may hold after a record with identifier `previous`. -/
def SegmentMeta.acceptable (s : SegmentMeta) (previous next : ℕ) : Bool :=
  previous < s.id && s.id < next && 0 ≤ s.dayStart && s.dayStart % dayUs = 0 &&
    s.firstSequence ≠ 0 && segmentHeaderBytes ≤ s.committedBytes && s.committedBytes ≤ int64Max &&
    (s.lastSequence = 0 || (s.firstSequence ≤ s.lastSequence && s.dayStart ≤ s.minTime &&
      s.minTime ≤ s.maxTime && s.maxTime / dayUs = s.dayStart / dayUs)) &&
    (s.lastSequence ≠ 0 || (s.minTime = 0 && s.maxTime = 0 &&
      s.committedBytes = segmentHeaderBytes))

/-- The record loop of `wadb_load_manifest`, with the number of records left. Only the last record may
be active. -/
def recordsLoop (next : ℕ) : ℕ → ℕ → ℕ → Bytes → Option (List SegmentMeta)
  | 0, _, _, _ => some []
  | n + 1, previous, active, p =>
    match SegmentState.ofCode (getLE 4 p 56) with
    | none => none
    | some state =>
      let s := segmentRecord p state
      let active := if state = .active then active + 1 else active
      if s.acceptable previous next = false ∨ isZero (slice p 60 4) = false ∨
          (state = .active ∧ (active > 1 ∨ n ≠ 0)) then none
      else (s :: ·) <$> recordsLoop next n s.id active (p.drop 64)

/-- `envelope`. -/
def envelope (p magic : Bytes) (minimum : ℕ) : Except Error Unit :=
  if p.length < minimum ∨ slice p 0 8 ≠ magic ∨
      crc32c (slice p 0 (p.length - 4)) ≠ getLE 4 p (p.length - 4) then
    .error ⟨.corrupt, "metadata magic, size, or checksum mismatch"⟩
  else if getLE 4 p 8 ≠ formatVersion then .error ⟨.version, "unsupported metadata version"⟩
  else .ok ()

/-- The manifest found in the bytes of a file, its records still to be read. -/
def manifestFields (p : Bytes) (segments : List SegmentMeta) : Manifest where
  nextSegmentId := getLE 8 p 24
  preservedSequence := getLE 8 p 32
  preservedTime := getI64 p 40
  retentionUs := getLE 8 p 48
  generation := getLE 8 p 56
  segments := segments

/-- The header checks of `wadb_load_manifest`. -/
def manifestHeaderValid (tableId : ℕ) (p : Bytes) : Bool :=
  getLE 4 p 64 ≤ maxSegments && p.length = 84 + getLE 4 p 64 * 64 && getLE 4 p 12 = 80 &&
    getLE 8 p 16 = tableId && getLE 8 p 24 ≠ 0 && isZero (slice p 68 12) && 0 ≤ getI64 p 40 &&
    getLE 8 p 48 ≤ int64Max && getLE 8 p 56 ≠ 0

/-- The table with everything the manifest records. -/
def Table.withManifest (t : Table c) (m : Manifest) : Table c :=
  { t with
    nextSegmentId := m.nextSegmentId
    preservedSequence := m.preservedSequence
    preservedTime := m.preservedTime
    retentionUs := m.retentionUs
    manifestGeneration := m.generation
    segments := m.segments }

/-- `wadb_load_manifest`. -/
def loadManifest : Io (Table c) Unit := do
  allocOr "metadata path"
  let p ← readFile .manifest (84 + maxSegments * 64)
  Prog.rethrow (envelope p manifestMagic 84)
  require (manifestHeaderValid c.id p) .corrupt "invalid segment manifest"
  if getLE 4 p 64 ≠ 0 then allocOr "segment metadata allocation"
  match recordsLoop (getLE 8 p 24) (getLE 4 p 64) 0 0 (p.drop 80) with
  | none => wadbFail .corrupt "invalid segment manifest"
  | some segments => Prog.modify (·.withManifest (manifestFields p segments))

/-! ### The envelope -/

/-- The body of a file with its checksum. -/
def withChecksum (body : Bytes) : Bytes := body ++ ofNatLE 4 (crc32c body)

@[simp] theorem length_withChecksum (body : Bytes) :
    (withChecksum body).length = body.length + 4 := by
  simp [withChecksum]

/-- **What the envelope accepts.** -/
theorem envelope_eq_ok {p magic : Bytes} {minimum : ℕ} (hmin : 12 ≤ minimum) :
    envelope p magic minimum = .ok () ↔ minimum ≤ p.length ∧ slice p 0 8 = magic ∧
      getLE 4 p 8 = formatVersion ∧ p = withChecksum (slice p 0 (p.length - 4)) := by
  have hsum (hlen : minimum ≤ p.length) : crc32c (slice p 0 (p.length - 4)) = getLE 4 p (p.length - 4) ↔
      p = withChecksum (slice p 0 (p.length - 4)) := by
    have hsplit : p = slice p 0 (p.length - 4) ++ slice p (p.length - 4) 4 := by
      conv_lhs => rw [← slice_zero_length p, show p.length = p.length - 4 + 4 by omega, slice_add]
      rw [zero_add]
    have hwindow : ofNatLE 4 (getLE 4 p (p.length - 4)) = slice p (p.length - 4) 4 :=
      ofNatLE_getLE (by omega)
    unfold withChecksum
    constructor
    · intro hcrc
      rw [hcrc, hwindow]
      exact hsplit
    · intro hp
      have hslice : slice p (p.length - 4) 4 =
          ofNatLE 4 (crc32c (slice p 0 (p.length - 4))) :=
        append_cancel_left (hsplit.symm.trans hp)
      rw [getLE, hslice, toNatLE_ofNatLE_of_lt (crc32c_lt _)]
  unfold envelope
  constructor
  · intro h
    split at h
    · cases h
    next hgood =>
      split at h
      · cases h
      next hversion =>
        simp only [not_or, not_lt, not_not] at hgood hversion
        exact ⟨hgood.1, hgood.2.1, hversion, (hsum hgood.1).1 hgood.2.2⟩
  · rintro ⟨hlen, hmagic, hversion, hp⟩
    rw [if_neg, if_neg (not_not.2 hversion)]
    simp only [not_or, not_lt, not_not]
    exact ⟨hlen, hmagic, (hsum hlen).2 hp⟩

/-- A body with its checksum passes the envelope, with the right magic number and version. -/
theorem envelope_withChecksum {p body magic : Bytes} {minimum : ℕ} (hp : p = withChecksum body)
    (hmin : 12 ≤ minimum) (hlen : minimum ≤ p.length) (hmagic : slice p 0 8 = magic)
    (hversion : getLE 4 p 8 = formatVersion) : envelope p magic minimum = .ok () := by
  have hbody : slice p 0 (p.length - 4) = body := by
    rw [hp, length_withChecksum, Nat.add_sub_cancel]
    exact slice_append_head rfl
  exact (envelope_eq_ok hmin).2 ⟨hlen, hmagic, hversion, by rw [hbody, hp]⟩

/-- A file is the parts and the records that it shows, with their checksum. -/
theorem eq_withChecksum {p records : Bytes} {parts : List Bytes} {k n : ℕ}
    (hp : p = withChecksum (slice p 0 (p.length - 4))) (hparts : Shows p 0 parts)
    (hk : parts.flatten.length = k) (hlen : p.length = 4 + k + n)
    (hrecords : slice (p.drop k) 0 n = records) : p = withChecksum (parts.flatten ++ records) := by
  have hfront := hparts.slice_eq
  rw [hk] at hfront
  rwa [show p.length - 4 = k + n by omega, slice_add, hfront, zero_add, ← slice_drop, hrecords] at hp

/-! ### Reading back -/

/-- The records that follow a record with identifier `previous` are accepted and fit their slots. -/
def RecordsOk (next : ℕ) : ℕ → List SegmentMeta → Prop
  | _, [] => True
  | previous, s :: rest =>
    s.acceptable previous next = true ∧ s.firstSequence < 2 ^ 64 ∧ s.lastSequence < 2 ^ 64 ∧
      s.dayStart < 2 ^ 63 ∧ s.maxTime < 2 ^ 63 ∧ (s.state = .active → rest = []) ∧
      RecordsOk next s.id rest

/-- A manifest the loader accepts. -/
structure Manifest.Ok (m : Manifest) : Prop where
  nextSegmentId : 0 < m.nextSegmentId ∧ m.nextSegmentId < 2 ^ 64
  preservedSequence : m.preservedSequence < 2 ^ 64
  preservedTime : 0 ≤ m.preservedTime ∧ m.preservedTime < 2 ^ 63
  retentionUs : m.retentionUs ≤ int64Max
  generation : 0 < m.generation ∧ m.generation < 2 ^ 64
  length_segments : m.segments.length ≤ maxSegments
  records : RecordsOk m.nextSegmentId 0 m.segments

theorem SegmentMeta.length_image (s : SegmentMeta) : s.image.length = 64 := by
  simp [SegmentMeta.image, SegmentMeta.parts]

theorem Manifest.length_parts (m : Manifest) (tableId : ℕ) :
    (m.parts tableId).flatten.length = 80 := by
  simp [Manifest.parts, manifestMagic]

theorem Manifest.length_body (m : Manifest) (tableId : ℕ) :
    (m.body tableId).length = 80 + m.segments.length * 64 := by
  rw [Manifest.body, length_append, m.length_parts,
    length_flatMap_uniform fun s _ ↦ s.length_image]

theorem Manifest.length_image (m : Manifest) (tableId : ℕ) :
    (m.image tableId).length = 84 + m.segments.length * 64 := by
  rw [Manifest.image, length_append, m.length_body, length_ofNatLE]
  omega

/-- The times of an accepted record are in range once its last one is. -/
theorem SegmentMeta.times_of_acceptable {s : SegmentMeta} {previous next : ℕ}
    (h : s.acceptable previous next = true) (hmax : s.maxTime < 2 ^ 63) :
    0 ≤ s.dayStart ∧ 0 ≤ s.minTime ∧ s.minTime ≤ s.maxTime ∧ s.minTime < 2 ^ 63 ∧ 0 ≤ s.maxTime := by
  simp only [SegmentMeta.acceptable, Bool.and_eq_true, Bool.or_eq_true, decide_eq_true_eq] at h
  omega

/-- **A record reads back.** -/
theorem segmentRecord_image {s : SegmentMeta} {previous next : ℕ} (hnext : next < 2 ^ 64)
    (hacc : s.acceptable previous next = true) (hfirst : s.firstSequence < 2 ^ 64)
    (hlast : s.lastSequence < 2 ^ 64) (hday : s.dayStart < 2 ^ 63) (hmax : s.maxTime < 2 ^ 63)
    (rest : Bytes) :
    segmentRecord (s.image ++ rest) s.state = s ∧ getLE 4 (s.image ++ rest) 56 = s.state.code ∧
      isZero (slice (s.image ++ rest) 60 4) = true := by
  obtain ⟨hday0, hmin0, hminmax, hmin, hmax0⟩ := SegmentMeta.times_of_acceptable hacc hmax
  have hid : s.id < next := by
    simp only [SegmentMeta.acceptable, Bool.and_eq_true, decide_eq_true_eq] at hacc
    tauto
  have hbytes : s.committedBytes ≤ int64Max := by
    simp only [SegmentMeta.acceptable, Bool.and_eq_true, decide_eq_true_eq] at hacc
    tauto
  unfold int64Max at hbytes
  have hcode : s.state.code < 256 ^ 4 := by cases s.state <;> decide
  have hshows : Shows (s.image ++ rest) 0 s.parts := shows_flatten s.parts rest
  simp only [SegmentMeta.parts, Shows, length_ofNatLE, length_zeros, Nat.reduceAdd, and_true] at hshows
  obtain ⟨w0, w1, w2, w3, w4, w5, w6, w7, w8⟩ := hshows
  refine ⟨?_, getLE_of_slice w7 hcode, isZero_of_slice w8⟩
  rw [segmentRecord, getLE_of_slice w0 (by omega), getI64_of_slice w1 (by omega) hday,
    getLE_of_slice w2 (by omega), getLE_of_slice w3 (by omega), getI64_of_slice w4 (by omega) hmin,
    getI64_of_slice w5 (by omega) hmax, getLE_of_slice w6 (by omega)]

/-- **The records read back**, one by one. None before the last is active. -/
theorem recordsLoop_flatMap {next : ℕ} (hnext : next < 2 ^ 64) {previous : ℕ}
    {segments : List SegmentMeta} (h : RecordsOk next previous segments) (rest : Bytes) :
    recordsLoop next segments.length previous 0 (segments.flatMap SegmentMeta.image ++ rest) =
      some segments := by
  induction segments generalizing previous with
  | nil => rfl
  | cons s segments ih =>
    obtain ⟨hacc, hfirst, hlast, hday, hmax, hactive, hrest⟩ := h
    obtain ⟨hrecord, hcode, hzero⟩ := segmentRecord_image hnext hacc hfirst hlast hday hmax
      (segments.flatMap SegmentMeta.image ++ rest)
    rw [flatMap_cons, append_assoc, length_cons, recordsLoop, hcode,
      SegmentState.ofCode_code]
    simp only [hrecord, hacc, hzero, Bool.true_eq_false, false_or]
    have hdrop : (s.image ++ (segments.flatMap SegmentMeta.image ++ rest)).drop 64 =
        segments.flatMap SegmentMeta.image ++ rest := drop_left' s.length_image
    rw [hdrop]
    by_cases hs : s.state = .active
    · have hnil := hactive hs
      subst hnil
      simp [hs, recordsLoop]
    · rw [if_neg (by simp [hs]), if_neg hs, ih hrest]
      rfl

/-- **A manifest reads back.** -/
theorem Manifest.Ok.readback {m : Manifest} (h : m.Ok) {tableId : ℕ} (hid : tableId < 2 ^ 64) :
    envelope (m.image tableId) manifestMagic 84 = .ok () ∧
      manifestHeaderValid tableId (m.image tableId) = true ∧
      getLE 4 (m.image tableId) 64 = m.segments.length ∧
      recordsLoop (getLE 8 (m.image tableId) 24) m.segments.length 0 0
        ((m.image tableId).drop 80) = some m.segments ∧
      manifestFields (m.image tableId) m.segments = m := by
  obtain ⟨p, hp⟩ : ∃ p, p = m.image tableId := ⟨_, rfl⟩
  have hlen : p.length = 84 + m.segments.length * 64 := by rw [hp, m.length_image]
  have hp' : p = (m.parts tableId).flatten ++ (m.segments.flatMap SegmentMeta.image ++
      ofNatLE 4 (crc32c (m.body tableId))) := by
    rw [hp, Manifest.image, Manifest.body, append_assoc]
  have hshows : Shows p 0 (m.parts tableId) := by
    rw [hp']
    exact shows_flatten _ _
  simp only [Manifest.parts, Shows, length_ofNatLE, length_zeros, manifestMagic, length_cons,
    length_nil, Nat.reduceAdd, and_true] at hshows
  obtain ⟨hmagic, w1, w2, w3, w4, w5, w6, w7, w8, w9, w10⟩ := hshows
  obtain ⟨⟨hnext0, hnext⟩, hseq, ⟨htime0, htime⟩, hret, ⟨hgen0, hgen⟩, hcount, hrecords⟩ := h
  have hmax : maxSegments = 1000000 := rfl
  have hint : int64Max = 9223372036854775807 := rfl
  have g2 := getLE_of_slice w2 (by decide)
  have g3 := getLE_of_slice w3 (by omega)
  have g4 := getLE_of_slice w4 (by omega)
  have g5 := getLE_of_slice w5 (by omega)
  have g6 := getI64_of_slice w6 (by omega) htime
  have g7 := getLE_of_slice w7 (by omega)
  have g8 := getLE_of_slice w8 (by omega)
  have g9 := getLE_of_slice w9 (by omega)
  rw [← hp]
  refine ⟨envelope_withChecksum hp (by decide) (by omega) hmagic (getLE_of_slice w1 (by decide)), ?_, g9,
    ?_, ?_⟩
  · simp only [manifestHeaderValid, g2, g3, g4, g6, g7, g8, g9, isZero_of_slice w10, Bool.and_eq_true,
      decide_eq_true_eq, and_true]
    refine ⟨⟨⟨⟨⟨hcount, hlen⟩, ?_⟩, htime0⟩, hret⟩, ?_⟩ <;> omega
  · have hdrop : p.drop 80 = m.segments.flatMap SegmentMeta.image ++
        ofNatLE 4 (crc32c (m.body tableId)) := by
      rw [hp']
      exact drop_left' (m.length_parts tableId)
    rw [g4, hdrop]
    exact recordsLoop_flatMap hnext hrecords _
  · rw [manifestFields, g4, g5, g6, g7, g8]

/-! ### Rules -/

section Rules

variable {env : Env Path Dir}

/-- **Saving the manifest**: it is replaced as a whole or not at all. -/
theorem installs_saveManifest {t : Table c} (hcount : t.segments.length ≤ maxSegments) :
    Installs (saveManifest t : Io μ Unit) .manifest (t.manifest.image c.id) := by
  intro env w Q hok hno hind hkill
  unfold saveManifest
  refine wp_require_of (decide_eq_true hcount) fun n ↦ ?_
  exact installs_allocated _ _ _ env ⟨w.fs, n, w.mem⟩ Q hok hno hind hkill

/-- **Loading a manifest** that is there and acceptable. -/
theorem wp_loadManifest {t : Table c} {m : Manifest} {fs : Files} {n : ℕ} {f : File}
    (hfile : fs .manifest = some f) (hdata : f.data = m.image c.id) (hm : m.Ok)
    {Q : Exit Error Unit → Files → Table c → Prop} (hok : Q (.ok ()) fs (t.withManifest m))
    (hno : ¬ env.Calm → ∀ e : Error, e.code = .io ∨ e.code = .nomem → Q (.fail e) fs t)
    (hkill : ¬ env.Calm → Q .killed fs t) :
    wp loadManifest env Q ⟨fs, n, t⟩ := by
  obtain ⟨henv, hheader, hcount, hloop, hfields⟩ :=
    hm.readback (lt_of_lt_of_le c.id_bounds.2 (Nat.sub_le _ _))
  have hlen : f.data.length ≤ 84 + maxSegments * 64 := by
    have := hm.length_segments
    rw [hdata, m.length_image]
    omega
  have hrange : f.data.length ≤ int64Max := hlen.trans (by decide)
  unfold loadManifest
  refine wp_bind (wp_allocOr (fun n ↦ ?_) fun hcalm ↦ hno hcalm _ (.inr rfl))
  refine wp_bind (wp_readFile (w := ⟨fs, n, t⟩) hfile hlen hrange (fun n ↦ ?_) hno hkill)
  rw [hdata, henv]
  refine wp_bind fun n ↦ ?_
  refine wp_require_of hheader fun n ↦ ?_
  simp only [hcount, hloop, hfields]
  split
  · exact wp_bind (wp_allocOr (fun k ↦ wp_modify.2 hok)
      fun hcalm ↦ hno hcalm _ (.inr rfl))
  · refine wp_bind (wp_pure.2 fun k ↦ ?_)
    exact wp_modify.2 hok

end Rules

end WebAnalyticsDb
