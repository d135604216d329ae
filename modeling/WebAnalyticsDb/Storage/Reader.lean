import WebAnalyticsDb.Storage.Definitions
import WebAnalyticsDb.Storage.Segments

/-!
# Index readers that repair themselves

A reader of a sealed segment uses the derived index file. Where that is missing, stale or damaged, the
frames of the segment are read instead: `repair_reader` of `storage/index.c` rebuilds the index and the
dictionary in memory and tries to install the file again.

`indexDictionary` hands the dictionary of the segment out, from the file or from such a repair. Whoever
keeps it charges its size to a budget, so what matters here is that every dictionary a reader can hand
out stays **within its own limit** (`Dictionary.Within`), on whatever files and in whatever environment.
That is one invariant of the dictionary (`Dictionary.Rep`), carried through the scan of a segment.
-/

namespace WebAnalyticsDb

open Bytes

variable {c : Config} {μ : Type}

/-! ### Repairing and opening -/

/-- The size of a checkpoint of the dictionary, as `repair_reader` computes it. -/
def Dictionary.checkpointBytes (d : Dictionary) : ℕ :=
  ((d.symbols.map fun s ↦ 12 + s.data.length).sum + 7) / 8 * 8

/-- The reader of the rebuilt data. An index without entries has no array, so such a reader goes on as
one without memory. -/
def IndexReader.repairedWith (r : IndexReader) (index : FrameIndex) (d : Dictionary) : IndexReader :=
  { r with
    fd := none
    memory := if index.entries = [] then none else some index.entries
    count := index.entries.length
    rebuiltDictionary := some d
    repaired := true
    dictionaryBytes := d.checkpointBytes
    dictionaryCount := d.count
    dictionaryCrc := 0 }

/-- The outcomes of installing the rebuilt file that the reader does without. -/
def Status.isTolerated (code : Status) : Bool := code = .io || code = .indeterminate || code = .nomem

/-- `repair_reader`. -/
def repairReader (c : Config) : Io IndexReader Unit := do
  let r ← Prog.get
  require (r.segment.committedBytes ≤ r.rebuildBudget) .limit "index rebuild exceeds scan byte budget"
  let (index, d) ← rebuildIndexData c r.segment r.deadline
  let r := { r with
    rebuiltBytes := u64 (r.rebuiltBytes + r.segment.committedBytes)
    rebuildBudget := r.rebuildBudget - r.segment.committedBytes }
  Prog.modify fun _ ↦ r
  match ← Prog.attempt (indexSave c r.segment index (some d)) with
  | .ok () => Prog.modify fun _ ↦ r.repairedWith index d
  | .error e =>
    if e.code.isTolerated then Prog.modify fun _ ↦ r.repairedWith index d
    else Prog.fail e

/-- `wadb_index_open_bounded`. -/
def indexOpenBounded (c : Config) (s : SegmentMeta) (budget deadline : ℕ) : Io IndexReader Unit := do
  let status ← Prog.attempt (openRaw c s)
  Prog.modify fun r ↦ { r with rebuildBudget := budget, deadline := deadline }
  match status with
  | .ok () => pure ()
  | .error e => if e.code = .nomem ∨ e.code = .limit then Prog.fail e else repairReader c

/-! ### Handing the dictionary out -/

/-- Read the checkpoint; without a file there is nothing to read. -/
def readCheckpoint : Io IndexReader Bytes := do
  let r ← Prog.get
  if r.fd = none ∧ r.dictionaryBytes = 0 then pure []
  else readerPread r.dictionaryOffset r.dictionaryBytes

/-- `wadb_index_dictionary`, up to the repair. -/
def readDictionary (c : Config) : Io IndexReader Dictionary := do
  let r ← Prog.get
  match r.memory with
  | some _ =>
    match r.rebuiltDictionary with
    | none => wadbFail .invalid "transient dictionary already transferred"
    | some d =>
      Prog.modify fun r ↦ { r with rebuiltDictionary := none }
      pure d
  | none =>
    allocOr "dictionary checkpoint buffer"
    let status ← Prog.attempt readCheckpoint
    Prog.modify fun r ↦ { r with
      ioBytes := r.ioBytes + r.dictionaryBytes
      dictionaryIoBytes := r.dictionaryIoBytes + r.dictionaryBytes }
    let bytes ← Prog.rethrow status
    require (crc32c bytes = r.dictionaryCrc) .corrupt "dictionary checkpoint checksum mismatch"
    let d ← dictionaryNew c.schema c.options.dictionaryLimitBytes
    let (applied, d) ← Prog.within d (dictionaryApply bytes r.dictionaryCount)
    Prog.rethrow applied
    pure d

/-- `wadb_index_dictionary`. A reader repairs itself once. -/
def indexDictionary (c : Config) : Io IndexReader Dictionary := do
  match ← Prog.attempt (readDictionary c) with
  | .ok d => pure d
  | .error e =>
    let r ← Prog.get
    if (e.code = .corrupt ∨ e.code = .io) ∧ r.repaired = false then
      repairReader c
      readDictionary c
    else Prog.fail e

/-! ### Positions -/

/-- `wadb_index_get`. A reader of a file repairs itself once. -/
def indexGet (c : Config) (position : ℕ) : Io IndexReader IndexEntry := do
  match ← Prog.attempt (getRaw c position) with
  | .ok v => pure v
  | .error e =>
    let r ← Prog.get
    if (e.code = .corrupt ∨ e.code = .io) ∧ r.memory = none ∧ r.repaired = false then
      repairReader c
      getRaw c position
    else Prog.fail e

/-- The frame ends before the range. -/
def IndexEntry.passes (v : IndexEntry) (time : ℤ) (sequence : ℕ) : Bool :=
  v.maxTime < time || v.lastSequence ≤ sequence

/-- The loop of `wadb_index_lower_bound`; `fuel` bounds its rounds. -/
def lowerBoundLoop (c : Config) (time : ℤ) (sequence : ℕ) : ℕ → ℕ → ℕ → Io IndexReader ℕ
  | 0, lo, _ => pure lo
  | fuel + 1, lo, hi =>
    if lo < hi then do
      let v ← indexGet c (lo + (hi - lo) / 2)
      if v.passes time sequence then lowerBoundLoop c time sequence fuel (lo + (hi - lo) / 2 + 1) hi
      else lowerBoundLoop c time sequence fuel lo (lo + (hi - lo) / 2)
    else pure lo

/-- `wadb_index_lower_bound`: the first frame that does not end before the range. -/
def indexLowerBound (c : Config) (time : ℤ) (sequence : ℕ) : Io IndexReader ℕ := do
  let r ← Prog.get
  lowerBoundLoop c time sequence r.count 0 r.count

/-! ### Dictionaries stay within their limit -/

/-- **A dictionary of the table within its limit.** -/
structure Dictionary.Within (c : Config) (d : Dictionary) : Prop where
  schema : d.schema = c.schema
  limit : d.limit = c.options.dictionaryLimitBytes
  rep : ∃ S, d.Rep S

theorem Dictionary.Within.allocatedBytes_le {d : Dictionary} (h : d.Within c) :
    d.allocatedBytes ≤ c.options.dictionaryLimitBytes := by
  obtain ⟨S, hrep⟩ := h.rep
  exact h.limit ▸ hrep.budget

section Within

variable {d : Dictionary} {S : Symbols} {env : Env Path Dir} {fs : Files} {n : ℕ}

theorem yields_dictionaryNew (c : Config) :
    (dictionaryNew c.schema c.options.dictionaryLimitBytes : Io μ Dictionary).Yields
      (Dictionary.Within c) := by
  rintro env ⟨fs, n, m⟩
  refine wp_dictionaryNew c.schema c.dictionaryLimit_bounds.2 (fun d hrep _ hschema hlimit _ ↦ ?_)
    (fun e _ _ ↦ ?_) fun e _ _ ↦ ?_
  · rintro a ha
    cases ha
    exact ⟨hschema, hlimit, [], hrep⟩
  · exact nofun
  · exact nofun

/-- **Applying a section** leaves a dictionary within its limit. -/
theorem wp_dictionaryApply_within (h : d.Within c) (image : Bytes) (k : ℕ) :
    wp (dictionaryApply image k) env (fun _ _ d' ↦ d'.Within c) ⟨fs, n, d⟩ := by
  obtain ⟨hschema, hlimit, S, hrep⟩ := h
  have hwithin {d' : Dictionary} {T : Symbols} (hs : d'.schema = d.schema) (hl : d'.limit = d.limit)
      (hsound : d'.Sound T) : d'.Within c :=
    ⟨hs.trans hschema, hl.trans hlimit, T, hsound, by rw [hl]; exact hrep.limit_le⟩
  refine (wp_dictionaryApply_any hrep.toSound image k).mono ?_
  rintro (_ | e | _) fs' d' ⟨hs, hl, hpost⟩
  · obtain ⟨T, hT⟩ := hpost
    exact hwithin hs hl hT
  · exact hwithin hs hl hpost
  · exact hpost.elim

/-- The same, for a program that applies a section to a dictionary of its own. -/
theorem yields_within_apply (h : d.Within c) (image : Bytes) (k : ℕ) :
    (Prog.within d (dictionaryApply image k) : Io μ _).Yields fun r ↦ r.2.Within c :=
  .within fun _ _ _ ↦ (wp_dictionaryApply_within h image k).mono fun _ _ _ hd ↦
    ⟨fun _ _ ↦ hd, fun _ _ ↦ hd⟩

/-! ### The scan of a segment -/

variable {deadline fileBytes : ℕ} {s : SegmentMeta}

theorem yields_scanFrame {x : Scan} (hx : x.dictionary.Within c) :
    (scanFrame c s fileBytes deadline x : Io μ _).Yields
      fun r ↦ ∀ x', r = some x' → x'.dictionary.Within c := by
  have hnone : (pure none : Io μ (Option Scan)).Yields
      fun r ↦ ∀ x', r = some x' → x'.dictionary.Within c := .pure fun x' hx' ↦ by cases hx'
  unfold scanFrame
  refine .after fun now ↦ .after fun _ ↦ ?_
  split
  · exact hnone
  refine .after fun head ↦ .after fun ⟨_, total⟩ ↦ ?_
  dsimp only
  split
  · exact hnone
  refine .after fun _ ↦ .after fun p ↦ .after fun f ↦ .after fun _ ↦ ?_
  refine (yields_within_apply hx _ _).bind fun ⟨applied, d⟩ hd ↦ ?_
  refine .after fun _ ↦ .after fun _ ↦ .after fun index ↦ .pure fun x' hx' ↦ ?_
  cases hx'
  exact hd

theorem yields_scanLoop {fuel : ℕ} {x : Scan} (hx : x.dictionary.Within c) :
    (scanLoop c s fileBytes deadline fuel x : Io μ _).Yields fun x' ↦ x'.dictionary.Within c := by
  induction fuel generalizing x with
  | zero =>
    unfold scanLoop
    split
    · exact .die
    · exact .pure hx
  | succ fuel ih =>
    unfold scanLoop
    split
    · refine (yields_scanFrame hx).bind fun r hr ↦ ?_
      cases r with
      | none => exact .after fun _ ↦ .pure hx
      | some x' => exact ih (hr x' rfl)
    · exact .pure hx

theorem yields_scanSegment {force : Bool} {lastSequence : ℕ} {lastTime : ℤ} :
    (scanSegment c s force deadline fileBytes lastSequence lastTime : Io μ _).Yields
      fun r ↦ ∀ k, r.kept = some k → k.1.Within c := by
  have hnone {r : Recovered} (hr : r.kept = none) : ∀ k, r.kept = some k → k.1.Within c := by
    intro k hk
    rw [hr] at hk
    cases hk
  unfold scanSegment
  refine (yields_dictionaryNew c).bind fun d hd ↦ ?_
  refine (yields_scanLoop hd).bind fun x hx ↦ .after fun _ ↦ ?_
  dsimp only
  split
  · refine .pure fun k hk ↦ ?_
    cases hk
    exact hx
  · refine .after fun saved ↦ ?_
    split
    · exact .pure (hnone rfl)
    · split
      · exact .pure (hnone rfl)
      · exact .fail _

/-- **The dictionary of rebuilt data is within its limit.** -/
theorem yields_rebuildIndexData :
    (rebuildIndexData c s deadline : Io μ _).Yields fun r ↦ r.2.Within c := by
  have hrecover : (recoverSegment c s true deadline (u64Sub s.firstSequence 1) s.minTime :
      Io μ _).Yields fun r ↦ ∀ k, r.kept = some k → k.1.Within c := by
    unfold recoverSegment
    refine .after fun ⟨fileBytes, h⟩ ↦ .after fun _ ↦ ?_
    rw [if_neg (by simp)]
    exact yields_scanSegment
  unfold rebuildIndexData
  refine .after fun _ ↦ hrecover.bind fun r hr ↦ ?_
  split
  · exact .die
  next d index hkept => exact .pure (hr _ hkept)

end Within

/-! ### What a reader keeps -/

theorem preserves_require {I : μ → Prop} {b : Bool} {code : Status} {message : String} :
    (require b code message : Io μ Unit).Preserves I :=
  .ensure _ _

theorem preserves_allocOr {I : μ → Prop} (message : String) : (allocOr message : Io μ Unit).Preserves I :=
  .bind .alloc fun _ ↦ .ensure _ _

theorem preserves_preadAll {I : μ → Prop} (p : Path) (off k : ℕ) :
    (preadAll p off k : Io μ Bytes).Preserves I := by
  unfold preadAll
  refine .bind preserves_require fun _ ↦ ?_
  split
  · exact .pure _
  · exact .bind (.call _ _ _) fun _ ↦ .bind preserves_require fun _ ↦ .bind .files fun _ ↦
      .bind preserves_require fun _ ↦ .pure _

variable {I : IndexReader → Prop}

theorem preserves_readerPread (off k : ℕ) : (readerPread off k).Preserves I := by
  unfold readerPread
  refine .bind .get fun r ↦ ?_
  split
  · exact .fail _
  · exact preserves_preadAll _ _ _

/-- The segment of a reader, and that it has rebuilt nothing. -/
def IndexReader.Plain (s : SegmentMeta) (r : IndexReader) : Prop :=
  r.segment = s ∧ r.rebuiltDictionary = none

/-- A property of readers that does not depend on the page in use, nor on what a header says. -/
structure IndexReader.Lasting (I : IndexReader → Prop) : Prop where
  page : ∀ r page bytes number, I r → I { r with page := page, ioBytes := bytes, pageNumber := number }
  file : ∀ r fd bytes, I r → I { r with fd := fd, ioBytes := bytes }
  header : ∀ r p, I r → I (r.withHeader p)

theorem IndexReader.lasting_plain (s : SegmentMeta) : Lasting (Plain s) :=
  ⟨fun _ _ _ _ h ↦ h, fun _ _ _ h ↦ h, fun _ _ h ↦ h⟩

theorem preserves_getRaw (hI : IndexReader.Lasting I) (position : ℕ) :
    (getRaw c position).Preserves I := by
  unfold getRaw
  refine .bind .get fun r ↦ .bind preserves_require fun _ ↦ ?_
  split
  · split
    · exact .die
    · exact .pure _
  · -- the page is read first, if it is another one
    dsimp only
    split
    · exact .bind (preserves_readerPread _ _) fun _ ↦ .bind (.modify fun r hr ↦ hI.page r _ _ _ hr)
        fun _ ↦ .bind .get fun r ↦ .rethrow _
    · exact .bind .get fun r ↦ .rethrow _

theorem preserves_openRawChecks (hI : IndexReader.Lasting I) (s : SegmentMeta) :
    (openRawChecks c s).Preserves I := by
  unfold openRawChecks
  refine .bind (preserves_readerPread _ _) fun p ↦ .bind (.modify fun r hr ↦ hI.file r _ _ hr) fun _ ↦
    .bind (.call _ _ _) fun stat ↦ .bind preserves_require fun _ ↦ .bind .files fun fs ↦
    .bind preserves_require fun _ ↦ .bind (.modify fun r hr ↦ hI.header r _ hr) fun _ ↦ ?_
  unfold checkEndpoints
  refine .bind .get fun r ↦ ?_
  split
  · exact .pure _
  · exact .bind (preserves_getRaw hI _) fun _ ↦ .bind (preserves_getRaw hI _) fun _ ↦
      preserves_require

/-- **Opening** a reader starts with a fresh one, whether it works or not. -/
theorem wp_openRaw_lasting {env : Env Path Dir} {w : World Path IndexReader}
    {s : SegmentMeta} (hI : IndexReader.Lasting I) (hfresh : I (.fresh s)) :
    wp (openRaw c s) env (fun _ _ r ↦ I r) w := by
  unfold openRaw
  refine wp_bind (wp_modify.2 fun n ↦ ?_)
  refine (?_ : Prog.Preserves _ I) env _ hfresh
  refine .bind (preserves_allocOr _) fun _ ↦ .bind (.call _ _ _) fun _ ↦
    .bind preserves_require fun _ ↦ .bind .files fun _ ↦ .bind preserves_require
    fun _ ↦ .bind (.modify fun r hr ↦ hI.file r _ _ hr) fun _ ↦
    .bind (.attempt (preserves_openRawChecks hI s)) fun status ↦ ?_
  split
  · exact .pure _
  · exact .bind (.modify fun r hr ↦ hI.file r _ _ hr) fun _ ↦ .fail _

theorem wp_openRaw_plain {env : Env Path Dir} {w : World Path IndexReader} {s : SegmentMeta} :
    wp (openRaw c s) env (fun _ _ r ↦ r.Plain s) w :=
  wp_openRaw_lasting (IndexReader.lasting_plain s) ⟨rfl, rfl⟩

/-- A reader of the segment `s` whose rebuilt dictionary, if it has one, is within its limit. -/
structure IndexReader.Keeps (c : Config) (s : SegmentMeta) (r : IndexReader) : Prop where
  segment : r.segment = s
  rebuilt : ∀ d, r.rebuiltDictionary = some d → d.Within c

section Readers

variable {env : Env Path Dir} {fs : Files} {n : ℕ} {r : IndexReader} {s : SegmentMeta}

/-- **Repairing** a reader resets its checksum. -/
theorem wp_repairReader :
    wp (repairReader c) env
      (fun e _ r' ↦ ∀ a, e = .ok a → r'.Keeps c r.segment ∧ r'.dictionaryCrc = 0) ⟨fs, n, r⟩ := by
  have hrepaired {x : IndexReader} {index : FrameIndex} {d : Dictionary} (hd : d.Within c)
      (hx : x.segment = r.segment) :
      (x.repairedWith index d).Keeps c r.segment ∧ (x.repairedWith index d).dictionaryCrc = 0 :=
    ⟨⟨hx, fun d' hd' ↦ by cases hd'; exact hd⟩, rfl⟩
  unfold repairReader
  refine wp_bind (wp_get.2 fun n ↦ ?_)
  refine wp_bind (wp_require (fun _ n ↦ ?_) fun _ a ha ↦ by cases ha)
  refine wp_bind ((yields_rebuildIndexData env _).mono ?_)
  rintro (⟨index, d⟩ | e | _) fs' m hbuilt
  · have hd : d.Within c := hbuilt _ rfl
    intro n
    refine wp_bind (wp_modify.2 fun n ↦ ?_)
    refine wp_bind (.of_forall ?_)
    rintro ((_ | e) | e | _) fs' m
    · intro n
      dsimp only
      split
      · exact fun _ _ ↦ hrepaired hd rfl
      · exact nofun
    · exact fun n _ _ ↦ hrepaired hd rfl
    · exact nofun
    · exact nofun
  · exact nofun
  · exact nofun

/-- **An opened reader** has the segment it was opened for. -/
theorem wp_indexOpenBounded {w : World Path IndexReader} {budget deadline : ℕ} :
    wp (indexOpenBounded c s budget deadline) env
      (fun e _ r' ↦ ∀ a, e = .ok a → r'.Keeps c s) w := by
  unfold indexOpenBounded
  refine wp_bind (wp_attempt.2 (wp_openRaw_plain.mono ?_))
  rintro (_ | e | _) fs r ⟨hsegment, hrebuilt⟩
  · intro n
    refine wp_bind (wp_modify.2 fun n _ _ ↦ ⟨hsegment, fun d hd ↦ ?_⟩)
    dsimp only at hd
    rw [hrebuilt] at hd
    cases hd
  · intro n
    refine wp_bind (wp_modify.2 fun n ↦ ?_)
    dsimp only
    split
    · exact nofun
    · refine wp_repairReader.mono fun e _ r' hr' a ha ↦ ?_
      exact hsegment ▸ (hr' a ha).1
  · exact nofun

theorem preserves_dictionaryNew {I : μ → Prop} (schema : Schema) (limit : ℕ) :
    (dictionaryNew schema limit : Io μ Dictionary).Preserves I := by
  unfold dictionaryNew
  exact .bind preserves_require fun _ ↦ .bind (preserves_allocOr _) fun _ ↦
    .bind (preserves_allocOr _) fun _ ↦ .pure _

theorem preserves_readCheckpoint {I : IndexReader → Prop} : readCheckpoint.Preserves I := by
  unfold readCheckpoint
  refine .bind .get fun r ↦ ?_
  split
  · exact .pure _
  · exact preserves_readerPread _ _

/-- Without a repair the reader stays what it is. -/
theorem wp_readDictionary (h : r.Keeps c s) :
    wp (readDictionary c) env (fun e _ r' ↦ (r'.Keeps c s ∧ r'.dictionaryCrc = r.dictionaryCrc) ∧
      ∀ d, e = .ok d → d.Within c) ⟨fs, n, r⟩ := by
  unfold readDictionary
  refine wp_bind (wp_get.2 fun n ↦ ?_)
  split
  · split
    · refine ⟨⟨h, rfl⟩, fun d hd ↦ ?_⟩
      cases hd
    next d hd =>
      refine wp_bind (wp_modify.2 fun n ↦ ⟨⟨⟨h.segment, fun d' hd' ↦ ?_⟩, rfl⟩, fun d' hd' ↦ ?_⟩)
      · cases hd'
      · cases hd'
        exact h.rebuilt d hd
  · -- what the reader keeps, and what it returns, one after the other
    refine Prog.wp.and ((?_ : Prog.Preserves _ fun r' : IndexReader ↦
        r'.Keeps c s ∧ r'.dictionaryCrc = r.dictionaryCrc) env _ ⟨h, rfl⟩)
      ((?_ : Prog.Yields _ (Dictionary.Within c)) env _)
    · exact .bind (preserves_allocOr _) fun _ ↦ .bind (.attempt preserves_readCheckpoint) fun _ ↦
        .bind (.modify fun r' hr' ↦ ⟨⟨hr'.1.segment, hr'.1.rebuilt⟩, hr'.2⟩) fun _ ↦
        .bind (.rethrow _) fun _ ↦ .bind preserves_require fun _ ↦
        .bind (preserves_dictionaryNew _ _) fun _ ↦ .bind (.within _ _) fun _ ↦
        .bind (.rethrow _) fun _ ↦ .pure _
    · exact .after fun _ ↦ .after fun _ ↦ .after fun _ ↦ .after fun _ ↦ .after fun _ ↦
        (yields_dictionaryNew c).bind fun d hd ↦ (yields_within_apply hd _ _).bind fun _ hd' ↦
        .after fun _ ↦ .pure hd'

/-- **The dictionary that a reader hands out** is within its limit; the reader still has its segment, and
its checksum unless it was repaired. -/
theorem wp_indexDictionary (h : r.Keeps c s) :
    wp (indexDictionary c) env (fun e _ r' ↦ ∀ d, e = .ok d → d.Within c ∧ r'.Keeps c s ∧
      (r'.dictionaryCrc = r.dictionaryCrc ∨ r'.dictionaryCrc = 0)) ⟨fs, n, r⟩ := by
  unfold indexDictionary
  refine wp_bind (wp_attempt.2 ((wp_readDictionary h).mono ?_))
  rintro (d | e | _) fs r₁ ⟨⟨hkeeps, hcrc⟩, hd⟩
  · intro n d' hd'
    cases hd'
    exact ⟨hd d rfl, hkeeps, .inl hcrc⟩
  · intro n
    refine wp_bind (wp_get.2 fun n ↦ ?_)
    split
    · refine wp_bind (wp_repairReader.mono ?_)
      rintro (_ | e | _) fs r₂ hrepaired
      · obtain ⟨hkeeps₂, hzero⟩ := hrepaired _ rfl
        refine fun n ↦ (wp_readDictionary hkeeps₂).mono fun e _ r₃ ⟨⟨hkeeps₃, hcrc₃⟩, hd⟩ d hok ↦ ?_
        exact ⟨hd d hok, hkeeps.segment ▸ hkeeps₃, .inr (hcrc₃.trans hzero)⟩
      · exact nofun
      · exact nofun
    · exact nofun
  · exact nofun

end Readers

end WebAnalyticsDb
