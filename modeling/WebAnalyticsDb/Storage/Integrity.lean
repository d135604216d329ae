import WebAnalyticsDb.Storage.Segments

/-!
# The integrity check

`check_segment` reads a segment file from front to back and compares it with the record of the segment,
without changing anything. Recovery reads the same files with a program of its own, `recover_segment`.
The two place their checks differently: the integrity check compares every frame with the time range of
the record, and recovery the whole range with the record at the end.

* **Both walk the same log.** `frameAt` is what the two demand of the frame at an offset and `Walk` the
  sequence of frames it leads through, up to the end of the file. What each program does is then said
  in terms of `Walk`: it succeeds if and only if there is a walk that satisfies its own conditions.
* **The timestamps decide.** In a walk no frame begins before the one before it ends, so the last
  maximum is the largest one, and the two sets of conditions amount to the same.
-/

namespace WebAnalyticsDb

open Bytes List

/-! ### The program -/

/-- `wadb_integrity_options`. -/
structure IntegrityOptions where
  maxScanBytes : ℕ
  timeoutMs : ℕ
  /-- The answer of the client's callback at the `n`-th call; never true when there is none. -/
  cancelled : ℕ → Bool

/-- `wadb_integrity_options_default`. -/
def integrityOptionsDefault : IntegrityOptions where
  maxScanBytes := 1024 * 1024 * 1024
  timeoutMs := 60000
  cancelled _ := false

/-- `wadb_integrity_stats`, without the sequence number of the snapshot. -/
structure IntegrityStats where
  segments : ℕ
  frames : ℕ
  rows : ℕ
  bytes : ℕ
deriving DecidableEq, Repr

variable {μ : Type}

/-- `check_limits`. -/
def checkLimits (o : IntegrityOptions) (deadline : ℕ) : Io μ Unit := do
  let cancelled ← Prog.poll o.cancelled
  require (!cancelled) .cancelled "integrity check cancelled"
  let now ← Prog.clock
  require (now < deadline) .limit "integrity deadline exceeded"

/-- The row loop of `check_segment`, from row number `row` on. -/
def checkRows (s : Schema) (o : IntegrityOptions) (deadline : ℕ) (resolve : SymbolDecode) :
    ℕ → ℕ → Bytes → Io μ Unit
  | _, 0, _ => pure ()
  | row, n + 1, p => do
    if row % 256 = 0 then checkLimits o deadline else pure ()
    Prog.rethrow (validateRow s (slice p 0 s.rowWidth) (some resolve))
    checkRows s o deadline resolve (row + 1) n (p.drop s.rowWidth)

/-- Where the check of a segment has arrived. -/
structure Check where
  offset : ℕ
  lastSequence : ℕ
  lastTime : ℤ
  dictionary : Dictionary
deriving DecidableEq, Repr

/-- A decoded frame continues the segment and lies within its time range. -/
def Frame.withinRecord (f : Frame) (c : Config) (s : SegmentMeta) (y : Check) : Bool :=
  f.schemaHash = c.schema.fingerprint && f.rowWidth = c.schema.rowWidth &&
    y.lastSequence ≠ uint64Max && f.firstSequence = y.lastSequence + 1 && y.lastTime ≤ f.minTime &&
    f.maxTime ≤ s.maxTime && f.minTime / dayUs = s.dayStart / dayUs &&
    (y.offset ≠ segmentHeaderBytes || f.minTime = s.minTime)

/-- One round of the frame loop of `check_segment`. -/
def checkFrame (c : Config) (s : SegmentMeta) (o : IntegrityOptions) (deadline : ℕ) (y : Check) :
    Io IntegrityStats Check := do
  checkLimits o deadline
  require (frameHeaderBytes ≤ s.committedBytes - y.offset) .corrupt "partial committed frame"
  let head ← preadAll s.segPath y.offset frameHeaderBytes
  let (_, total) ← Prog.rethrow (frameInspect head)
  require (total ≤ s.committedBytes - y.offset) .corrupt "frame exceeds snapshot boundary"
  allocOr "integrity frame"
  let p ← preadAll s.segPath y.offset total
  Prog.modify fun t ↦ { t with bytes := u64 (t.bytes + total) }
  let f ← Prog.rethrow (frameDecode p)
  require (f.withinRecord c s y) .corrupt
    "integrity frame contradicts segment sequence or time range"
  let (applied, d) ← Prog.within y.dictionary (dictionaryApply f.dictionary f.dictionaryCount)
  Prog.rethrow applied
  checkRows c.schema o deadline (dictionaryResolve d) 0 f.rowCount f.rows
  Prog.modify fun t ↦ { t with frames := u64 (t.frames + 1), rows := u64 (t.rows + f.rowCount) }
  pure ⟨y.offset + total, u64 (f.firstSequence + f.rowCount - 1), f.maxTime, d⟩

/-- The frame loop of `check_segment`; a frame has at least one byte. -/
def checkLoop (c : Config) (s : SegmentMeta) (o : IntegrityOptions) (deadline : ℕ) :
    ℕ → Check → Io IntegrityStats Check
  | 0, y => if y.offset < s.committedBytes then Prog.die else pure y
  | fuel + 1, y =>
    if y.offset < s.committedBytes then do
      let y' ← checkFrame c s o deadline y
      checkLoop c s o deadline fuel y'
    else pure y

/-- `check_segment`. -/
def checkSegment (c : Config) (s : SegmentMeta) (o : IntegrityOptions) (deadline : ℕ) :
    Io IntegrityStats Unit := do
  let stats ← Prog.get
  require (s.committedBytes ≤ u64Sub o.maxScanBytes stats.bytes) .limit
    "integrity byte budget exceeded"
  allocOr "integrity path"
  let opened ← Prog.call false (.open s.segPath) id
  let fs ← Prog.files
  require (opened && (fs s.segPath).isSome) .io "open segment for integrity check"
  let fileBytes := ((fs s.segPath).elim [] File.data).length
  let header ← preadAll s.segPath 0 segmentHeaderBytes
  Prog.modify fun t ↦ { t with bytes := u64 (t.bytes + segmentHeaderBytes) }
  let h ← Prog.rethrow (segmentDecode header)
  require (h = s.header c) .corrupt "integrity segment identity mismatch"
  let stat ← Prog.call false (.stat s.segPath) id
  require (stat && s.committedBytes ≤ fileBytes &&
    (s.state ≠ .sealed || fileBytes = s.committedBytes)) .corrupt
    "integrity file size contradicts snapshot"
  let d ← dictionaryNew c.schema c.options.dictionaryLimitBytes
  let y ← checkLoop c s o deadline s.committedBytes
    ⟨segmentHeaderBytes, u64Sub s.firstSequence 1, s.minTime, d⟩
  require (y.lastSequence = s.lastSequence && y.lastTime = s.maxTime) .corrupt
    "integrity segment endpoint mismatch"
  Prog.modify fun t ↦ { t with segments := u64 (t.segments + 1) }

/-! ### The walk through a log -/

section Walk

variable (c : Config) (s : SegmentMeta) (data : Bytes)

/-- A decoded frame continues a segment with the given watermarks. -/
def Frame.follows (f : Frame) (seq : ℕ) (time : ℤ) : Bool :=
  f.schemaHash = c.schema.fingerprint && f.rowWidth = c.schema.rowWidth && seq ≠ uint64Max &&
    f.firstSequence = seq + 1 && time ≤ f.minTime && f.minTime / dayUs = s.dayStart / dayUs

/-- The last sequence number of a frame. -/
def Frame.lastSequence (f : Frame) : ℕ := u64 (f.firstSequence + f.rowCount - 1)

/-- **The frame at an offset**, its bytes and the dictionary after it, if it is what both programs
demand. -/
def frameAt (offset seq : ℕ) (time : ℤ) (d : Dictionary) : Option (Frame × Bytes × Dictionary) :=
  if data.length - offset < frameHeaderBytes then none
  else
    match frameInspect (slice data offset frameHeaderBytes) with
    | .error _ => none
    | .ok (_, total) =>
      if total > data.length - offset then none
      else
        match frameDecode (slice data offset total) with
        | .error _ => none
        | .ok f =>
          if f.follows c s seq time = false then none
          else
            match Prog.outcome (dictionaryApply f.dictionary f.dictionaryCount) d with
            | (.ok (), d') =>
              match validateRows c.schema (dictionaryResolve d') f.rowCount f.rows with
              | .error _ => none
              | .ok () => some (f, slice data offset total, d')
            | _ => none

/-- **The walk**: the frames from an offset to the end of the file. -/
inductive Walk : ℕ → ℕ → ℤ → Dictionary → List Frame → Prop
  | done {offset seq : ℕ} {time : ℤ} {d : Dictionary} (h : data.length ≤ offset) :
      Walk offset seq time d []
  | next {offset seq : ℕ} {time : ℤ} {d d' : Dictionary} {f : Frame} {p : Bytes} {fs : List Frame}
      (h : offset < data.length) (hf : frameAt c s data offset seq time d = some (f, p, d'))
      (rest : Walk (offset + p.length) f.lastSequence f.maxTime d' fs) :
      Walk offset seq time d (f :: fs)

end Walk

section Facts

variable {c : Config} {s : SegmentMeta} {data : Bytes} {offset seq : ℕ} {time : ℤ}
  {d d' : Dictionary} {f : Frame} {p : Bytes} {frames frames' : List Frame}

/-- What is known about the frame at an offset. -/
theorem frameAt_eq_some (h : frameAt c s data offset seq time d = some (f, p, d')) :
    0 < p.length ∧ f.follows c s seq time = true ∧ f.lastSequence ≠ 0 ∧ f.minTime ≤ f.maxTime := by
  unfold frameAt at h
  split at h
  · cases h
  next hlong =>
  split at h
  · cases h
  next head total hinspect =>
  split at h
  · cases h
  next hfits =>
  split at h
  · cases h
  next g hdecode =>
  split at h
  · cases h
  next hfollows =>
  split at h
  next d₁ _ =>
    split at h
    · cases h
    · cases h
      obtain ⟨htyped, hsized, -, -, -⟩ := frameDecode_eq_ok hdecode
      have hcount : f.rowCount ≠ 0 := hsized.rowCount
      have hfirst : f.firstSequence ≠ 0 := hsized.firstSequence
      have hlast : f.rowCount - 1 ≤ uint64Max - f.firstSequence := hsized.lastSequence
      have htotal := hsized.total_eq
      have hlt := htyped.firstSequence
      unfold uint64Max at hlast
      refine ⟨by omega, by simpa using hfollows, ?_, hsized.maxTime⟩
      rw [Frame.lastSequence, u64_of_lt (by omega)]
      omega
  · cases h

section

variable (h : Walk c s data offset seq time d frames)
include h

theorem Walk.unique (h' : Walk c s data offset seq time d frames') : frames = frames' := by
  induction h generalizing frames' with
  | done hend =>
    cases h' with
    | done => rfl
    | next hlt => omega
  | next hlt hf _ ih =>
    cases h' with
    | done hend => omega
    | next _ hf' rest' =>
      rw [hf] at hf'
      cases hf'
      rw [ih rest']

/-- A walk has no more frames than there are bytes. -/
theorem Walk.length_le : frames.length ≤ data.length - offset := by
  induction h with
  | done => simp
  | next hlt hf _ ih =>
    obtain ⟨hpos, -⟩ := frameAt_eq_some hf
    rw [length_cons]
    omega

/-- The last frame of a walk ends last. -/
theorem Walk.times : time ≤ (frames.getLast?.map Frame.maxTime).getD time ∧
      ∀ f ∈ frames, f.maxTime ≤ (frames.getLast?.map Frame.maxTime).getD time := by
  induction h with
  | done => simp
  | @next offset seq time d d' f p fs hlt hf rest ih =>
    obtain ⟨-, hfollows, -, hle⟩ := frameAt_eq_some hf
    have htime : time ≤ f.minTime := by
      simp only [Frame.follows, Bool.and_eq_true, decide_eq_true_eq] at hfollows
      exact hfollows.1.2
    have hlast : ((f :: fs).getLast?.map Frame.maxTime).getD time =
        (fs.getLast?.map Frame.maxTime).getD f.maxTime := by
      rw [getLast?_cons]
      cases fs.getLast? <;> rfl
    rw [hlast]
    refine ⟨by omega, fun g hg ↦ ?_⟩
    rcases mem_cons.1 hg with rfl | hg
    · exact ih.1
    · exact ih.2 g hg

end

end Facts

/-! ### What recovery makes of a file -/

/-- **The scan has read some frames.** -/
structure Read (x : Scan) (frames : List Frame) (x' : Scan) : Prop where
  last : x'.last = (frames.getLast?.map Frame.lastSequence).getD x.last
  minTime : x'.minTime = if x.last = 0 then (frames.head?.map Frame.minTime).getD x.minTime
    else x.minTime
  maxTime : x'.maxTime = (frames.getLast?.map Frame.maxTime).getD x.maxTime
  rows : x'.index.entries.map IndexEntry.rowCount =
    x.index.entries.map IndexEntry.rowCount ++ frames.map Frame.rowCount

theorem getD_getLast?_cons {α β : Type} (g : α → β) (a : α) (l : List α) (b : β) :
    ((a :: l).getLast?.map g).getD b = (l.getLast?.map g).getD (g a) := by
  rw [getLast?_cons]
  cases l.getLast? <;> rfl

theorem Read.nil (x : Scan) : Read x [] x :=
  ⟨rfl, by simp, rfl, by simp⟩

/-- One frame and then others. -/
theorem Read.cons {x x' : Scan} {f : Frame} {p : Bytes} {k : ℕ} {d : Dictionary}
    {frames : List Frame} (hlast : f.lastSequence ≠ 0)
    (h : Read (x.accept f p { x.index with capacity := k } d) frames x') :
    Read x (f :: frames) x' where
  last := by
    rw [getD_getLast?_cons]
    exact h.last
  minTime := by
    have hmin := h.minTime
    rw [show (x.accept f p { x.index with capacity := k } d).last = f.lastSequence from rfl,
      if_neg hlast] at hmin
    exact hmin
  maxTime := by
    rw [getD_getLast?_cons]
    exact h.maxTime
  rows := by
    rw [h.rows]
    simp [Scan.accept, FrameIndex.push, indexForFrame]

section Recovery

variable {c : Config} {s : SegmentMeta} {env : Env Path Dir} {fs : Files} {n deadline : ℕ} {f : File}
  {x : Scan} {mem : μ}

/-- **One round of the scan** reads the frame at the offset, if there is one. -/
theorem wp_scanFrame_at (hu : Undisturbed env deadline) (hf : fs s.segPath = some f)
    (hlen : f.data.length ≤ int64Max) (hx : x.offset < f.data.length)
    {Q : Exit Error (Option Scan) → Files → μ → Prop}
    (hnext : ∀ g p d, frameAt c s f.data x.offset x.lastSequence x.lastTime x.dictionary =
      some (g, p, d) → x.index.count < maxIndexEntries → ∀ k,
        Q (.ok (some (x.accept g p { x.index with capacity := k } d))) fs mem)
    (hfull : ∀ g, frameAt c s f.data x.offset x.lastSequence x.lastTime x.dictionary = some g →
      maxIndexEntries ≤ x.index.count → ∀ e, Q (.fail e) fs mem)
    (hnone : frameAt c s f.data x.offset x.lastSequence x.lastTime x.dictionary = none →
      ∀ r, (∀ x', r ≠ .ok (some x')) → Q r fs mem) :
    wp (scanFrame c s f.data.length deadline x) env Q ⟨fs, n, mem⟩ := by
  unfold frameAt at hnext hfull hnone
  refine wp_scanFrame hf hlen (absurd hu) (absurd hu) ?_
  split
  next hshort => exact hnone (if_pos hshort) _ (by simp)
  next hlong =>
  rw [if_neg hlong] at hnext hfull hnone
  cases hinspect : frameInspect (slice f.data x.offset frameHeaderBytes) with
  | error e =>
    rw [hinspect] at hnone
    exact hnone rfl _ (by simp)
  | ok head =>
  rw [hinspect] at hnext hfull hnone
  dsimp only at hnext hfull hnone ⊢
  split
  next hbeyond => exact hnone (if_pos hbeyond) _ (by simp)
  next hfits =>
  rw [if_neg hfits] at hnext hfull hnone
  cases hdecode : frameDecode (slice f.data x.offset head.2) with
  | error e =>
    rw [hdecode] at hnone
    exact hnone rfl _ (by simp)
  | ok g =>
  rw [hdecode] at hnext hfull hnone
  dsimp only at hnext hfull hnone ⊢
  intro n
  refine wp_bind (wp_require (fun hok n ↦ ?_) fun hbad ↦ hnone (if_pos hbad) _ (by simp))
  have hfollows : g.follows c s x.lastSequence x.lastTime = true := hok
  rw [if_neg (by simp [hfollows])] at hnext hfull hnone
  refine wp_bind (Prog.wp_within.2 (((steady_dictionaryApply _ _).wp_iff hu.1).2 ?_))
  rcases houtcome : Prog.outcome (dictionaryApply g.dictionary g.dictionaryCount) x.dictionary with
    ⟨_ | e | _, d⟩
  · rw [houtcome] at hnext hfull hnone
    dsimp only at hnext hfull hnone
    intro n
    refine wp_bind (wp_rethrow.2 fun n ↦ ?_)
    cases hrows : validateRows c.schema (dictionaryResolve d) g.rowCount g.rows with
    | error e =>
      rw [hrows] at hnone
      exact wp_bind (wp_rethrow.2 (hnone rfl _ (by simp)))
    | ok _ =>
      rw [hrows] at hnext hfull
      refine wp_bind (wp_rethrow.2 fun n ↦ ?_)
      refine wp_bind (wp_indexReserve (fun k hk n ↦ ?_) fun e _ hwhy ↦ ?_)
      · exact hnext _ _ _ rfl hk k
      · rcases hwhy with ⟨-, h⟩ | h
        · exact absurd hu.1 h
        · exact hfull _ rfl h e
  · rw [houtcome] at hnone
    intro n
    exact wp_bind (wp_rethrow.2 (hnone rfl _ (by simp)))
  · rw [houtcome] at hnone
    exact hnone rfl _ (by simp)

/-- **The frame loop succeeds exactly on a walk** that the index has room for. -/
theorem wp_scanLoop_walk (hu : Undisturbed env deadline) (hf : fs s.segPath = some f)
    (hlen : f.data.length ≤ int64Max) (hstate : s.state ≠ .active) {fuel : ℕ}
    (hfuel : f.data.length ≤ x.offset + fuel) {Q : Exit Error Scan → Files → μ → Prop}
    (hok : ∀ frames x', Walk c s f.data x.offset x.lastSequence x.lastTime x.dictionary frames →
      Read x frames x' → Q (.ok x') fs mem)
    (hbad : ∀ r, (∀ x', r ≠ .ok x') → (∀ frames,
      Walk c s f.data x.offset x.lastSequence x.lastTime x.dictionary frames →
        maxIndexEntries < x.index.count + frames.length) → Q r fs mem) :
    wp (scanLoop c s f.data.length deadline fuel x) env Q ⟨fs, n, mem⟩ := by
  induction fuel generalizing x n with
  | zero =>
    rw [scanLoop, if_neg (by omega)]
    exact hok [] x (.done hfuel) (.nil x)
  | succ fuel ih =>
    rw [scanLoop]
    split
    swap
    next hend => exact hok [] x (.done (not_lt.1 hend)) (.nil x)
    next hlt =>
    refine wp_bind (wp_scanFrame_at hu hf hlen hlt (fun g p d hg hroom k n ↦ ?_)
      (fun g hg hfull e ↦ ?_) fun hnone r hr ↦ ?_)
    · -- a frame was read: what holds of the walk after it holds of the walk from here
      obtain ⟨hpos, -, hlast, -⟩ := frameAt_eq_some hg
      have hfuel' : f.data.length ≤ (x.accept g p { x.index with capacity := k } d).offset + fuel := by
        show f.data.length ≤ x.offset + p.length + fuel
        omega
      refine ih hfuel' (fun frames x' hwalk hread ↦ ?_) fun r hr hmany ↦ ?_
      · exact hok (g :: frames) x' (.next hlt hg hwalk) (hread.cons hlast)
      · refine hbad r hr fun frames hwalk ↦ ?_
        cases hwalk with
        | done hend => omega
        | next _ hg' rest =>
          rw [hg] at hg'
          cases hg'
          have := hmany _ rest
          simp only [Scan.accept, FrameIndex.push, FrameIndex.count, length_append,
            length_cons, length_nil] at this ⊢
          omega
    · refine hbad _ (by simp) fun frames hwalk ↦ ?_
      cases hwalk with
      | done hend => omega
      | next =>
        rw [length_cons]
        omega
    · -- no frame here: a sealed segment is not cut
      have hstuck (r : Exit Error Scan) (hr : ∀ x', r ≠ .ok x') : Q r fs mem := by
        refine hbad r hr fun frames hwalk ↦ ?_
        cases hwalk with
        | done hend => omega
        | next _ hg =>
          rw [hnone] at hg
          cases hg
      rcases r with (_ | x') | e | _
      · intro n
        refine wp_bind (wp_bind (wp_require (fun hok ↦ ?_) fun _ ↦ hstuck _ (by simp)))
        simp [hstate] at hok
      · exact (hr x' rfl).elim
      · exact hstuck _ (by simp)
      · exact hstuck _ (by simp)

end Recovery

/-! ### What the integrity check makes of a file -/

/-- The frames lie in the time range of the record, which begins with the first of them. -/
def InRange (s : SegmentMeta) (offset : ℕ) (frames : List Frame) : Prop :=
  (∀ f ∈ frames, f.maxTime ≤ s.maxTime) ∧
    (offset = segmentHeaderBytes → ∀ f ∈ frames.head?, f.minTime = s.minTime)

theorem inRange_cons {s : SegmentMeta} {offset n : ℕ} {f : Frame} {frames : List Frame}
    (hoffset : segmentHeaderBytes ≤ offset) (hn : 0 < n) :
    InRange s offset (f :: frames) ↔ f.maxTime ≤ s.maxTime ∧
      (offset = segmentHeaderBytes → f.minTime = s.minTime) ∧ InRange s (offset + n) frames := by
  unfold InRange
  simp only [forall_mem_cons, head?_cons, Option.mem_some_iff, forall_eq']
  have hne : offset + n ≠ segmentHeaderBytes := by omega
  simp only [hne, false_imp_iff, and_true]
  tauto

theorem Frame.withinRecord_iff {f : Frame} {c : Config} {s : SegmentMeta} {y : Check} :
    f.withinRecord c s y = true ↔ f.follows c s y.lastSequence y.lastTime = true ∧
      f.maxTime ≤ s.maxTime ∧ (y.offset = segmentHeaderBytes → f.minTime = s.minTime) := by
  unfold Frame.withinRecord Frame.follows
  simp only [Bool.and_eq_true, Bool.or_eq_true, decide_eq_true_eq, ne_eq]
  tauto

section Check

variable {c : Config} {s : SegmentMeta} {o : IntegrityOptions} {env : Env Path Dir} {fs : Files}
  {n deadline : ℕ} {f : File} {y : Check} {mem : IntegrityStats}

/-- The client does not cancel and the deadline is not reached. -/
def Patient (env : Env Path Dir) (o : IntegrityOptions) (deadline : ℕ) : Prop :=
  Undisturbed env deadline ∧ ∀ n, o.cancelled n = false

theorem wp_checkLimits (hu : Patient env o deadline) {m : μ} {Q : Exit Error Unit → Files → μ → Prop}
    (hok : Q (.ok ()) fs m) :
    wp (checkLimits o deadline) env Q ⟨fs, n, m⟩ := by
  refine wp_bind (Prog.wp_poll.2 fun n ↦ ?_)
  refine wp_require_of (by rw [hu.2]; rfl) fun n ↦ ?_
  refine wp_bind (Prog.wp_clock.2 fun k ↦ ?_)
  exact wp_require (fun _ ↦ hok) fun hlate ↦ absurd (hu.1.2 n) (by simpa using hlate)

/-- The row loop does what that of recovery does. -/
theorem wp_checkRows (hu : Patient env o deadline) {schema : Schema} {resolve : SymbolDecode}
    {row count : ℕ} {p : Bytes} {m : μ} {Q : Exit Error Unit → Files → μ → Prop}
    (h : Q (match validateRows schema resolve count p with
      | .ok () => .ok ()
      | .error e => .fail e) fs m) :
    wp (checkRows schema o deadline resolve row count p) env Q ⟨fs, n, m⟩ := by
  induction count generalizing row p n with
  | zero => exact h
  | succ count ih =>
    have hrow (n : ℕ) : wp (do
        Prog.rethrow (validateRow schema (slice p 0 schema.rowWidth) (some resolve))
        checkRows schema o deadline resolve (row + 1) count (p.drop schema.rowWidth)) env Q
          ⟨fs, n, m⟩ := by
      rw [validateRows] at h
      cases hvalid : validateRow schema (slice p 0 schema.rowWidth) (some resolve) with
      | error e =>
        rw [hvalid] at h
        exact wp_bind (wp_rethrow.2 h)
      | ok _ =>
        rw [hvalid] at h
        exact wp_bind (wp_rethrow.2 fun n ↦ ih h)
    rw [checkRows]
    split
    · exact wp_bind (wp_checkLimits hu hrow)
    · exact hrow n

/-- **One round of the check** reads the frame at the offset, if there is one in the time range. -/
theorem wp_checkFrame_at (hu : Patient env o deadline) (hf : fs s.segPath = some f)
    (hsize : f.data.length = s.committedBytes) (hlen : f.data.length ≤ int64Max)
    (hy : y.offset < f.data.length) {Q : Exit Error Check → Files → IntegrityStats → Prop}
    (hnext : ∀ g p d, frameAt c s f.data y.offset y.lastSequence y.lastTime y.dictionary =
      some (g, p, d) → g.maxTime ≤ s.maxTime →
        (y.offset = segmentHeaderBytes → g.minTime = s.minTime) → ∀ m : IntegrityStats,
          m.frames = u64 (mem.frames + 1) → m.rows = u64 (mem.rows + g.rowCount) →
            Q (.ok ⟨y.offset + p.length, g.lastSequence, g.maxTime, d⟩) fs m)
    (hbad : ∀ r m, (∀ y', r ≠ .ok y') →
      (∀ g p d, frameAt c s f.data y.offset y.lastSequence y.lastTime y.dictionary = some (g, p, d) →
        ¬ (g.maxTime ≤ s.maxTime ∧ (y.offset = segmentHeaderBytes → g.minTime = s.minTime))) →
          Q r fs m) :
    wp (checkFrame c s o deadline y) env Q ⟨fs, n, mem⟩ := by
  have hcalm : ∀ {P : Prop}, ¬ env.Calm → P := fun h ↦ absurd hu.1.1 h
  unfold frameAt at hnext hbad
  unfold checkFrame
  rw [← hsize]
  refine wp_bind (wp_checkLimits hu fun n ↦ ?_)
  refine wp_bind (wp_require (fun hlong n ↦ ?_) fun hshort ↦ ?_)
  swap
  · refine hbad _ _ (by simp) fun g p d hg ↦ ?_
    rw [if_pos (by simpa using hshort)] at hg
    cases hg
  have hlong' : ¬ f.data.length - y.offset < frameHeaderBytes := by simpa using hlong
  rw [if_neg hlong'] at hnext hbad
  refine wp_bind (wp_preadAll (w := ⟨fs, _, mem⟩) hf (by omega) (by omega) (fun n ↦ ?_) hcalm hcalm)
  cases hinspect : frameInspect (slice f.data y.offset frameHeaderBytes) with
  | error e =>
    rw [hinspect] at hbad
    exact wp_bind (wp_rethrow.2 (hbad _ _ (by simp) (by simp)))
  | ok head =>
  obtain ⟨_, total⟩ := head
  rw [hinspect] at hnext hbad
  dsimp only at hnext hbad
  refine wp_bind (wp_rethrow.2 fun n ↦ ?_)
  dsimp only
  refine wp_bind (wp_require (fun hfits n ↦ ?_) fun hbeyond ↦ ?_)
  swap
  · refine hbad _ _ (by simp) fun g p d hg ↦ ?_
    rw [if_pos (by simpa using hbeyond)] at hg
    cases hg
  have hfits' : ¬ total > f.data.length - y.offset := by simpa using hfits
  rw [if_neg hfits'] at hnext hbad
  refine wp_bind (wp_allocOr (fun n ↦ ?_) hcalm)
  refine wp_bind (wp_preadAll (w := ⟨fs, _, mem⟩) hf (by omega) (by omega) (fun n ↦ ?_) hcalm hcalm)
  refine wp_bind (wp_modify.2 fun n ↦ ?_)
  cases hdecode : frameDecode (slice f.data y.offset total) with
  | error e =>
    rw [hdecode] at hbad
    exact wp_bind (wp_rethrow.2 (hbad _ _ (by simp) (by simp)))
  | ok g =>
  rw [hdecode] at hnext hbad
  dsimp only at hnext hbad
  have hplen : (slice f.data y.offset total).length = total := length_slice_of_le (by omega)
  refine wp_bind (wp_rethrow.2 fun n ↦ ?_)
  refine wp_bind (wp_require (fun hok n ↦ ?_) fun hout ↦ ?_)
  swap
  · -- the frame does not follow, or it is out of range
    refine hbad _ _ (by simp) fun g' p d hg hrange ↦ ?_
    split at hg
    · cases hg
    next hfollows =>
    have hsame : g' = g := by
      split at hg
      · split at hg <;> cases hg
        rfl
      · cases hg
    subst hsame
    rw [Frame.withinRecord_iff.2 ⟨by simpa using hfollows, hrange⟩] at hout
    cases hout
  obtain ⟨hfollows, hrange⟩ := Frame.withinRecord_iff.1 hok
  rw [if_neg (by simp [hfollows])] at hnext hbad
  refine wp_bind (Prog.wp_within.2 (((steady_dictionaryApply _ _).wp_iff hu.1.1).2 ?_))
  rcases houtcome : Prog.outcome (dictionaryApply g.dictionary g.dictionaryCount) y.dictionary with
    ⟨_ | e | _, d⟩
  · rw [houtcome] at hnext hbad
    dsimp only at hnext hbad
    intro n
    refine wp_bind (wp_rethrow.2 fun n ↦ ?_)
    refine wp_bind (wp_checkRows hu ?_)
    cases hrows : validateRows c.schema (dictionaryResolve d) g.rowCount g.rows with
    | error e =>
      rw [hrows] at hbad
      exact hbad _ _ (by simp) (by simp)
    | ok _ =>
      rw [hrows] at hnext
      intro n
      refine wp_bind (wp_modify.2 fun n ↦ ?_)
      have := hnext _ _ _ rfl hrange.1 hrange.2
      rw [hplen] at this
      exact this _ rfl rfl
  · rw [houtcome] at hbad
    intro n
    exact wp_bind (wp_rethrow.2 (hbad _ _ (by simp) (by simp)))
  · rw [houtcome] at hbad
    exact hbad _ _ (by simp) (by simp)

/-- The counters after some frames were checked. -/
structure Counted (m : IntegrityStats) (gs : List Frame) (m' : IntegrityStats) : Prop where
  frames : m'.frames = u64 (m.frames + gs.length)
  rows : m'.rows = u64 (m.rows + (gs.map Frame.rowCount).sum)

/-- The counters are 64-bit numbers. -/
def IntegrityStats.Fits (m : IntegrityStats) : Prop := m.frames < 2 ^ 64 ∧ m.rows < 2 ^ 64

theorem Counted.nil {m : IntegrityStats} (h : m.Fits) : Counted m [] m :=
  ⟨(u64_of_lt h.1).symm, (u64_of_lt h.2).symm⟩

/-- **The frame loop succeeds exactly on a walk** in the time range of the record. -/
theorem wp_checkLoop_walk (hu : Patient env o deadline) (hf : fs s.segPath = some f)
    (hsize : f.data.length = s.committedBytes) (hlen : f.data.length ≤ int64Max) {fuel : ℕ}
    (hfuel : f.data.length ≤ y.offset + fuel) (hoffset : segmentHeaderBytes ≤ y.offset)
    (hm : mem.Fits) {Q : Exit Error Check → Files → IntegrityStats → Prop}
    (hok : ∀ frames y' mem', Walk c s f.data y.offset y.lastSequence y.lastTime y.dictionary frames →
      InRange s y.offset frames →
      y'.lastSequence = (frames.getLast?.map Frame.lastSequence).getD y.lastSequence →
      y'.lastTime = (frames.getLast?.map Frame.maxTime).getD y.lastTime →
      Counted mem frames mem' → Q (.ok y') fs mem')
    (hbad : ∀ r mem', (∀ y', r ≠ .ok y') → (∀ frames,
      Walk c s f.data y.offset y.lastSequence y.lastTime y.dictionary frames →
        ¬ InRange s y.offset frames) → Q r fs mem') :
    wp (checkLoop c s o deadline fuel y) env Q ⟨fs, n, mem⟩ := by
  induction fuel generalizing y n mem with
  | zero =>
    rw [checkLoop, if_neg (by omega)]
    exact hok [] y mem (.done hfuel) ⟨by simp, by simp⟩ rfl rfl (.nil hm)
  | succ fuel ih =>
    rw [checkLoop]
    split
    swap
    next hend => exact hok [] y mem (.done (by omega)) ⟨by simp, by simp⟩ rfl rfl (.nil hm)
    next hlt =>
    rw [← hsize] at hlt
    refine wp_bind (wp_checkFrame_at hu hf hsize hlen hlt
      (fun g p d hg hmax hmin m hframes hrows n ↦ ?_) fun r m hr hno ↦ ?_)
    · obtain ⟨hpos, -, -, -⟩ := frameAt_eq_some hg
      have hm' : m.Fits := ⟨hframes ▸ u64_lt _, hrows ▸ u64_lt _⟩
      refine ih (by dsimp only; omega) (by dsimp only; omega) hm'
        (fun frames y' mem' hwalk hrange hlast htime hcount ↦ ?_) fun r mem' hr hall ↦ ?_
      · refine hok (g :: frames) y' mem' (.next hlt hg hwalk)
          ((inRange_cons hoffset hpos).2 ⟨hmax, hmin, hrange⟩) ?_ ?_ ⟨?_, ?_⟩
        · rw [getD_getLast?_cons, hlast]
        · rw [getD_getLast?_cons, htime]
        · rw [hcount.frames, hframes, length_cons]
          unfold u64
          omega
        · rw [hcount.rows, hrows, map_cons, sum_cons]
          unfold u64
          omega
      · refine hbad r mem' hr fun frames hwalk hrange ↦ ?_
        cases hwalk with
        | done hend => omega
        | next _ hg' rest =>
          rw [hg] at hg'
          cases hg'
          exact hall _ rest ((inRange_cons hoffset hpos).1 hrange).2.2
    · have hstuck (r : Exit Error Check) (hr : ∀ y', r ≠ .ok y') : Q r fs m := by
        refine hbad r m hr fun frames hwalk hrange ↦ ?_
        cases hwalk with
        | done hend => omega
        | next _ hg rest =>
          obtain ⟨hpos, -, -, -⟩ := frameAt_eq_some hg
          obtain ⟨hmax, hmin, -⟩ := (inRange_cons hoffset hpos).1 hrange
          exact hno _ _ _ hg ⟨hmax, hmin⟩
      rcases r with y' | e | _
      · exact (hr y' rfl).elim
      · exact hstuck _ (by simp)
      · exact hstuck _ (by simp)

end Check

/-! ### The two verdicts -/

/-- **The file holds a log of the segment**: it has the size and the header of the record, and the
frames lead to its end. -/
structure LogOf (c : Config) (s : SegmentMeta) (data : Bytes) (frames : List Frame) : Prop where
  size : data.length = s.committedBytes
  header : segmentDecode (slice data 0 segmentHeaderBytes) = .ok (s.header c)
  budget : sizeofDictionary + c.schema.fieldCount * sizeofColumn ≤ c.options.dictionaryLimitBytes
  walk : Walk c s data segmentHeaderBytes (s.firstSequence - 1) s.minTime
    (.fresh c.schema c.options.dictionaryLimitBytes) frames

/-- What recovery demands of the log: its ends are those of the record. -/
structure Summarizes (s : SegmentMeta) (frames : List Frame) : Prop where
  last : s.lastSequence = (frames.getLast?.map Frame.lastSequence).getD 0
  minTime : s.minTime = (frames.head?.map Frame.minTime).getD 0
  maxTime : s.maxTime = (frames.getLast?.map Frame.maxTime).getD 0

/-- What the integrity check demands of the log. -/
structure Confirms (s : SegmentMeta) (frames : List Frame) : Prop where
  range : InRange s segmentHeaderBytes frames
  last : s.lastSequence = (frames.getLast?.map Frame.lastSequence).getD (s.firstSequence - 1)
  lastTime : s.maxTime = (frames.getLast?.map Frame.maxTime).getD s.minTime

section Verdicts

variable {c : Config} {s : SegmentMeta} {data : Bytes} {frames frames' : List Frame}

theorem LogOf.unique (h : LogOf c s data frames) (h' : LogOf c s data frames') : frames = frames' :=
  h.walk.unique h'.walk

/-- **The demands are the same** for a record with rows. -/
theorem LogOf.confirms_iff (h : LogOf c s data frames) (hfirst : s.firstSequence ≠ 0)
    (hlast : s.firstSequence ≤ s.lastSequence) : Confirms s frames ↔ Summarizes s frames := by
  obtain ⟨-, htimes⟩ := h.walk.times
  cases frames with
  | nil =>
    constructor
    · intro hc
      have := hc.last
      simp at this
      omega
    · intro hsum
      have := hsum.last
      simp at this
      omega
  | cons f fs =>
    constructor
    · rintro ⟨hrange, hlast', htime⟩
      refine ⟨?_, (hrange.2 rfl f rfl).symm, ?_⟩
      · rw [hlast', getD_getLast?_cons, getD_getLast?_cons]
      · rw [htime, getD_getLast?_cons, getD_getLast?_cons]
    · rintro ⟨hlast', hmin, hmax⟩
      refine ⟨⟨fun g hg ↦ ?_, fun _ g hg ↦ ?_⟩, ?_, ?_⟩
      · have := htimes g hg
        rw [getD_getLast?_cons] at hmax this
        rw [hmax]
        exact this
      · cases hg
        exact hmin.symm
      · rw [hlast', getD_getLast?_cons, getD_getLast?_cons]
      · rw [hmax, getD_getLast?_cons, getD_getLast?_cons]

variable {env : Env Path Dir} {fs : Files} {n deadline : ℕ} {f : File}

/-- A header is decoded only from a file that has one. -/
theorem header_le_of_segmentDecode {h : SegmentHeader}
    (hdec : segmentDecode (slice data 0 segmentHeaderBytes) = .ok h) :
    segmentHeaderBytes ≤ data.length := by
  by_contra hlt
  rw [segmentDecode, if_pos] at hdec
  · cases hdec
  · rw [length_slice]
    unfold segmentHeaderBytes at *
    omega

/-- **The verdict of recovery** on a sealed segment. -/
theorem wp_rebuildIndexData_iff (hu : Undisturbed env deadline) (hf : fs s.segPath = some f)
    (hlen : s.committedBytes ≤ int64Max) (hsealed : s.state ≠ .active)
    (hfirst : s.firstSequence ≠ 0 ∧ s.firstSequence < 2 ^ 64) {m : μ}
    {Q : Exit Error (FrameIndex × Dictionary) → Files → μ → Prop}
    (hok : ∀ frames index d, LogOf c s f.data frames → Summarizes s frames →
      index.entries.map IndexEntry.rowCount = frames.map Frame.rowCount → Q (.ok (index, d)) fs m)
    (hbad : ∀ r, (∀ a, r ≠ .ok a) → (∀ frames, LogOf c s f.data frames →
      frames.length ≤ maxIndexEntries → ¬ Summarizes s frames) → Q r fs m) :
    wp (rebuildIndexData c s deadline) env Q ⟨fs, n, m⟩ := by
  have hseq : u64Sub s.firstSequence 1 = s.firstSequence - 1 :=
    u64Sub_of_le hfirst.2 (pos_of_ne_zero hfirst.1)
  unfold rebuildIndexData recoverSegment
  rw [hseq]
  refine wp_require_of (by simp [hsealed]) fun n ↦ ?_
  have hfail {e : Error} (h : ∀ frames, ¬ LogOf c s f.data frames) : Q (.fail e) fs m :=
    hbad _ (by simp) fun frames hlog ↦ (h frames hlog).elim
  refine wp_bind (wp_bind (wp_openSegment hf (fun hsize e ↦ hfail fun frames hlog ↦ hsize
    ⟨header_le_of_segmentDecode hlog.header, .inr hlog.size, hlog.size.ge⟩) (fun h hsize hdec n ↦ ?_)
    (fun e hdec ↦ hfail fun frames hlog ↦ ?_) (absurd hu.1) (absurd hu.1)))
  swap
  · rw [hlog.header] at hdec
    cases hdec
  have hsize := hsize.resolve_left hsealed
  dsimp only
  refine wp_bind (wp_require (fun hmatch n ↦ ?_) fun hmatch ↦ ?_)
  swap
  · refine hfail fun frames hlog ↦ ?_
    rw [hlog.header] at hdec
    cases hdec
    have hne : s.firstSequence - 1 ≠ uint64Max := by unfold uint64Max; omega
    have hsucc : s.firstSequence = s.firstSequence - 1 + 1 := by omega
    simp [headerMatches, hne, ← hsucc] at hmatch
  have hheader : h = s.header c := by
    simp only [headerMatches, Bool.and_eq_true, decide_eq_true_eq] at hmatch
    exact hmatch.1.1
  rw [if_neg (by simp)]
  unfold scanSegment
  refine wp_bind (wp_dictionaryNew_fresh _ (fun hbudget n ↦ ?_)
    (fun e _ hover ↦ hfail fun frames hlog ↦ hover hlog.budget) fun _ _ h ↦ absurd hu.1 h)
  have hheader' := hheader ▸ hdec
  refine wp_bind (wp_scanLoop_walk hu hf (hsize ▸ hlen) hsealed (by dsimp only; omega)
    (fun frames x hwalk hread ↦ ?_) fun r hno hmany ↦ ?_)
  · have hlog : LogOf c s f.data frames := ⟨hsize, hheader', hbudget, hwalk⟩
    intro n
    refine wp_bind (wp_require (fun hagree n ↦ ?_) fun hagree ↦ ?_)
    · rw [if_pos (.inr rfl)]
      simp only [Scan.agrees, hsealed, if_false, Bool.and_eq_true, decide_eq_true_eq] at hagree
      obtain ⟨⟨hlast, hmin⟩, hmax⟩ := hagree
      exact fun n ↦ hok frames x.index x.dictionary hlog
        ⟨hlast.trans hread.last, hmin.trans hread.minTime, hmax.trans hread.maxTime⟩ hread.rows
    · refine hbad _ (by simp) fun frames' hlog' _ hsum ↦ ?_
      cases hlog.unique hlog'
      have hlast := hsum.last.trans hread.last.symm
      have hmin := hsum.minTime.trans hread.minTime.symm
      have hmax := hsum.maxTime.trans hread.maxTime.symm
      simp [Scan.agrees, hsealed, hlast, hmin, hmax] at hagree
  · have hstuck (r : Exit Error (FrameIndex × Dictionary)) (hr : ∀ a, r ≠ .ok a) : Q r fs m := by
      refine hbad r hr fun frames hlog hle ↦ ?_
      have := hmany frames hlog.walk
      simp [FrameIndex.empty, FrameIndex.count] at this
      omega
    rcases r with x | e | _
    · exact (hno x rfl).elim
    · exact hstuck _ (by simp)
    · exact hstuck _ (by simp)

/-- **The verdict of the integrity check** on a sealed segment. -/
theorem wp_checkSegment_iff {o : IntegrityOptions} {stats : IntegrityStats}
    (hu : Patient env o deadline) (hf : fs s.segPath = some f) (hlen : s.committedBytes ≤ int64Max)
    (hsealed : s.state = .sealed) (hfirst : s.firstSequence ≠ 0 ∧ s.firstSequence < 2 ^ 64)
    (hbudget : s.committedBytes ≤ u64Sub o.maxScanBytes stats.bytes) (hstats : stats.Fits)
    {Q : Exit Error Unit → Files → IntegrityStats → Prop}
    (hok : ∀ frames stats', LogOf c s f.data frames → Confirms s frames →
      Counted stats frames stats' → Q (.ok ()) fs stats')
    (hbad : ∀ r stats', r ≠ .ok () → (∀ frames, LogOf c s f.data frames → ¬ Confirms s frames) →
      Q r fs stats') :
    wp (checkSegment c s o deadline) env Q ⟨fs, n, stats⟩ := by
  have hcalm : ∀ {P : Prop}, ¬ env.Calm → P := fun h ↦ absurd hu.1.1 h
  have hseq : u64Sub s.firstSequence 1 = s.firstSequence - 1 :=
    u64Sub_of_le hfirst.2 (pos_of_ne_zero hfirst.1)
  -- every failure before the frames shows that the file holds no log
  have hfail {e : Error} {m : IntegrityStats} (h : ∀ frames, ¬ LogOf c s f.data frames) :
      Q (.fail e) fs m :=
    hbad _ m (by simp) fun frames hlog ↦ (h frames hlog).elim
  unfold checkSegment
  refine wp_bind (wp_get.2 fun n ↦ ?_)
  refine wp_require_of (by simp [hbudget]) fun n ↦ ?_
  refine wp_bind (wp_allocOr (fun n ↦ ?_) hcalm)
  refine wp_bind (wp_call (fun n ↦ ?_) hcalm hcalm hcalm)
  refine wp_bind (wp_files.2 fun n ↦ ?_)
  simp only [id, hf, Option.elim_some]
  refine wp_require_of (by simp) fun n ↦ ?_
  refine wp_bind (wp_preadAll_cases (w := ⟨fs, _, stats⟩) hf (fun n ↦ ?_)
    (fun hshort e ↦ ?_) hcalm hcalm)
  swap
  · refine hfail fun frames hlog ↦ hshort ⟨by decide, ?_⟩
    rw [zero_add]
    exact header_le_of_segmentDecode hlog.header
  refine wp_bind (wp_modify.2 fun n ↦ ?_)
  cases hdec : segmentDecode (slice f.data 0 segmentHeaderBytes) with
  | error e =>
    refine wp_bind (wp_rethrow.2 (hfail fun frames hlog ↦ ?_))
    rw [hlog.header] at hdec
    cases hdec
  | ok h =>
  refine wp_bind (wp_rethrow.2 fun n ↦ ?_)
  refine wp_bind (wp_require (fun hheader n ↦ ?_) fun hheader ↦ hfail fun frames hlog ↦ ?_)
  swap
  · rw [hlog.header] at hdec
    cases hdec
    simp at hheader
  have hheader' : h = s.header c := by simpa using hheader
  refine wp_bind (wp_call (fun n ↦ ?_) hcalm hcalm hcalm)
  refine wp_bind (wp_require (fun hsize n ↦ ?_) fun hsize ↦ hfail fun frames hlog ↦ ?_)
  swap
  · simp [hsealed, hlog.size] at hsize
  have hsize' : f.data.length = s.committedBytes := by
    simp only [hsealed, Bool.and_eq_true, Bool.or_eq_true, decide_eq_true_eq] at hsize
    exact hsize.2.resolve_left (by simp)
  refine wp_bind (wp_dictionaryNew_fresh _ (fun hbytes n ↦ ?_)
    (fun e _ hover ↦ hfail fun frames hlog ↦ hover hlog.budget) fun _ _ ↦ hcalm)
  have hstats' : IntegrityStats.Fits
      { stats with bytes := u64 (stats.bytes + segmentHeaderBytes) } := hstats
  rw [hseq]
  refine wp_bind (wp_checkLoop_walk hu hf hsize' (hsize' ▸ hlen) (by dsimp only; omega) le_rfl hstats'
    (fun frames y stats' hwalk hrange hlast htime hcount ↦ ?_) fun r stats' hno hall ↦ ?_)
  · have hlog : LogOf c s f.data frames := ⟨hsize', hheader' ▸ hdec, hbytes, hwalk⟩
    intro n
    refine wp_bind (wp_require (fun hend n ↦ ?_) fun hend ↦ ?_)
    · simp only [Bool.and_eq_true, decide_eq_true_eq] at hend
      exact hok frames _ hlog ⟨hrange, hend.1.symm.trans hlast, hend.2.symm.trans htime⟩
        ⟨hcount.frames, hcount.rows⟩
    · refine hbad _ _ (by simp) fun frames' hlog' hconf ↦ ?_
      cases hlog.unique hlog'
      have h1 := hlast.trans hconf.last.symm
      have h2 := htime.trans hconf.lastTime.symm
      simp [h1, h2] at hend
  · have hstuck (r : Exit Error Unit) (hr : r ≠ .ok ()) : Q r fs stats' :=
      hbad r stats' hr fun frames hlog hconf ↦ hall frames hlog.walk hconf.range
    rcases r with y | e | _
    · exact (hno y rfl).elim
    · exact hstuck _ (by simp)
    · exact hstuck _ (by simp)

/-- **The integrity check and recovery agree** on every sealed segment with rows, whatever its file
holds, provided no call fails, the budgets suffice and there are not too many frames for an index: the
check succeeds if and only if the forced scan does, and it counts the frames and rows of the rebuilt
index. -/
theorem checkSegment_iff_rebuildIndexData {o : IntegrityOptions} {stats : IntegrityStats} {mem : μ}
    {p q deadline' n' : ℕ} (hrecord : s.acceptable p q = true)
    (hsealed : s.state = .sealed) (hrows : s.lastSequence ≠ 0) (hfirst : s.firstSequence < 2 ^ 64)
    (hf : fs s.segPath = some f)
    (hcount : ∀ frames, LogOf c s f.data frames → frames.length ≤ maxIndexEntries)
    (hu : Patient env o deadline) (hu' : Undisturbed env deadline')
    (hbudget : s.committedBytes ≤ u64Sub o.maxScanBytes stats.bytes) (hstats : stats.Fits) :
    ((checkSegment c s o deadline env ⟨fs, n, stats⟩).1 = .ok () ↔
      ∃ index d, (rebuildIndexData c s deadline' env ⟨fs, n', mem⟩).1 = .ok (index, d)) ∧
    ∀ index d, (rebuildIndexData c s deadline' env ⟨fs, n', mem⟩).1 = .ok (index, d) →
      (checkSegment c s o deadline env ⟨fs, n, stats⟩).2.mem.frames =
        u64 (stats.frames + index.count) ∧
      (checkSegment c s o deadline env ⟨fs, n, stats⟩).2.mem.rows =
        u64 (stats.rows + (index.entries.map IndexEntry.rowCount).sum) := by
  unfold SegmentMeta.acceptable at hrecord
  simp only [Bool.and_eq_true, Bool.or_eq_true, decide_eq_true_eq, ne_eq] at hrecord
  have hfirst' : s.firstSequence ≠ 0 := by tauto
  have hlen : s.committedBytes ≤ int64Max := by tauto
  have hlast : s.firstSequence ≤ s.lastSequence := by tauto
  have hcheck : wp (checkSegment c s o deadline) env (fun r _ stats' ↦
      (∃ frames, LogOf c s f.data frames ∧ Confirms s frames ∧ r = .ok () ∧
        Counted stats frames stats') ∨
      r ≠ .ok () ∧ ∀ frames, LogOf c s f.data frames → ¬ Confirms s frames) ⟨fs, n, stats⟩ :=
    wp_checkSegment_iff hu hf hlen hsealed ⟨hfirst', hfirst⟩ hbudget hstats
      (fun frames _ hlog hconf hcount ↦ Or.inl ⟨frames, hlog, hconf, rfl, hcount⟩)
      fun _ _ hr hbad ↦ Or.inr ⟨hr, hbad⟩
  have hrebuild : wp (rebuildIndexData c s deadline') env (fun r _ _ ↦
      (∃ frames index d, LogOf c s f.data frames ∧ Summarizes s frames ∧ r = .ok (index, d) ∧
        index.entries.map IndexEntry.rowCount = frames.map Frame.rowCount) ∨
      (∀ a, r ≠ .ok a) ∧ ∀ frames, LogOf c s f.data frames → frames.length ≤ maxIndexEntries →
        ¬ Summarizes s frames) ⟨fs, n', mem⟩ :=
    wp_rebuildIndexData_iff hu' hf hlen (by simp [hsealed]) ⟨hfirst', hfirst⟩
      (fun frames index d hlog hsum hrows ↦ Or.inl ⟨frames, index, d, hlog, hsum, rfl, hrows⟩)
      fun _ hr hbad ↦ Or.inr ⟨hr, hbad⟩
  rcases hcheck with ⟨frames, hlog, hconf, hok, hcounted⟩ | ⟨hno, hbad⟩
  · have hsum := (hlog.confirms_iff hfirst' hlast).1 hconf
    rcases hrebuild with ⟨frames', index, d, hlog', -, hok', hentries⟩ | ⟨-, hbad'⟩
    · cases hlog.unique hlog'
      refine ⟨⟨fun _ ↦ ⟨index, d, hok'⟩, fun _ ↦ hok⟩, fun index' d' hok'' ↦ ?_⟩
      rw [hok'] at hok''
      cases hok''
      have hlength := congrArg List.length hentries
      rw [List.length_map, List.length_map] at hlength
      rw [hentries, FrameIndex.count, hlength]
      exact ⟨hcounted.frames, hcounted.rows⟩
    · exact (hbad' frames hlog (hcount frames hlog) hsum).elim
  · rcases hrebuild with ⟨frames', index, d, hlog', hsum, hok', -⟩ | ⟨hno', -⟩
    · exact (hbad frames' hlog' ((hlog'.confirms_iff hfirst' hlast).2 hsum)).elim
    · exact ⟨⟨fun h ↦ (hno h).elim, fun ⟨index, d, h⟩ ↦ (hno' _ h).elim⟩,
        fun index d h ↦ (hno' _ h).elim⟩

end Verdicts

/-- The record of a sealed segment with one row, at time 7. -/
def hitRecord : SegmentMeta where
  id := 1
  dayStart := 0
  firstSequence := 1
  lastSequence := 1
  minTime := 7
  maxTime := 7
  committedBytes := 240
  state := .sealed

/-- The frame of that segment. -/
def hitFrame : Frame where
  schemaHash := hits.schema.fingerprint
  firstSequence := 1
  minTime := 7
  maxTime := 7
  rowCount := 1
  rowWidth := 16
  dictionaryCount := 0
  dictionary := []
  rows := [7, 0, 0, 0, 0, 0, 0, 0, 5, 0, 0, 0, 0, 0, 0, 0]

/-- The file of that segment. -/
def hitFile : File where
  data := (hitRecord.header hits).parts.flatten ++
    ofNatLE 4 (crc32c (hitRecord.header hits).parts.flatten) ++ hitFrame.image 112
  synced := 240

theorem checkSegment_iff_rebuildIndexData_hit :
    (checkSegment hits hitRecord integrityOptionsDefault 1 (Env.still Path Dir)
      ⟨Prog.setFile hitRecord.segPath (some hitFile) fun _ ↦ none, 0, ⟨0, 0, 0, 0⟩⟩).1 = .ok () ∧
    ∃ index d, (rebuildIndexData hits hitRecord 1 (Env.still Path Dir)
      ⟨Prog.setFile hitRecord.segPath (some hitFile) fun _ ↦ none, 0, ()⟩).1 = .ok (index, d) := by
  have hlen : hitFile.data.length ≤ maxIndexEntries := by decide +kernel
  have hcheck : (checkSegment hits hitRecord integrityOptionsDefault 1 (Env.still Path Dir)
      ⟨Prog.setFile hitRecord.segPath (some hitFile) fun _ ↦ none, 0, ⟨0, 0, 0, 0⟩⟩).1 = .ok () := by
    decide +kernel
  have hcalm : Undisturbed (Env.still Path Dir) 1 := ⟨Env.calm_still Path Dir, fun _ ↦ Nat.one_pos⟩
  refine ⟨hcheck, (checkSegment_iff_rebuildIndexData (p := 0) (q := 2) (by decide) rfl
    (by decide) (by decide) (Prog.setFile_self _ _ _) (fun frames hlog ↦ ?_) ⟨hcalm, fun _ ↦ rfl⟩ hcalm
    (by decide) ⟨by decide, by decide⟩).1.1 hcheck⟩
  exact hlog.walk.length_le.trans ((Nat.sub_le _ _).trans hlen)

end WebAnalyticsDb
