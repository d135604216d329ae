import WebAnalyticsDb.Ledger.Retention
import WebAnalyticsDb.Ledger.Scan

/-!
# Recovery

What opening a table does with the files of a log. The segments are read one after the other, and every
check that recovery makes holds for the log on disk, with one exception: the watermarks in the manifest
are those behind the last retired segment, so a segment that is not retired and precedes a retired one
does not continue them. `Log.Clean` excludes that, and the recovery of an undisturbed table succeeds
exactly if its log is clean.

* **Retired segments are not read.** Their records count, their files may be gone.
* **Only the last segment changes.** An interrupted append is cut off; the index of a sealed segment may
  be written again with the same contents.
-/

namespace WebAnalyticsDb

open Bytes List

variable {c : Config} {μ : Type}

/-! ### One segment -/

section Segment

variable {s : LogSegment c} {seq : ℕ} {time : ℤ} {env : Env Path Dir} {fs : Files}
  {n deadline : ℕ} {m : SegmentMeta} {f : File} {mem : μ} {tail : Bytes} {b : Bool}

theorem LogSegment.Ok.checkpointOk (h : s.Ok seq time) :
    CheckpointOk (definitions [] s.symbols) s.symbols.length :=
  checkpointOk_of_minAlloc (h.symbols_ok.2.2.trans c.dictionaryLimit_bounds.2)

/-- The file of a segment has the size that its record says. -/
theorem RecordOf.size (hm : RecordOf m s b) (hr : s.retired = false)
    (hdata : f.data = s.image ++ tail) (hsealed : b = false → tail = []) :
    segmentHeaderBytes ≤ f.data.length ∧ (m.state = .active ∨ f.data.length = m.committedBytes) ∧
      m.committedBytes ≤ f.data.length := by
  have hlen : f.data.length = s.size + tail.length := by
    rw [hdata, length_append, LogSegment.length_image]
  have hbytes := hm.bytes
  refine ⟨?_, ?_, by omega⟩
  · rw [hlen, LogSegment.size]
    omega
  · cases b with
    | true => exact .inl (hm.state.trans (LogSegment.state_of_not_retired hr))
    | false =>
      rw [hlen, hsealed rfl, hm.exact rfl]
      exact .inr rfl

/-- The watermarks behind a segment, by its record. -/
theorem LogSegment.Ok.marks (h : s.Ok seq time) (hne : s.entries ≠ []) :
    s.last = seq + s.count ∧ s.maxTime = timeThrough time s.groups :=
  ⟨h.last_eq_add hne, LogSegment.maxTime_eq time hne⟩

/-- **Recovering a segment** that continues the table. -/
theorem wp_recoverSegment (hm : RecordOf m s b) (hr : s.retired = false) (hs : s.Ok seq time)
    (hf : fs s.segPath = some f) (hdata : f.data = s.image ++ tail) (htorn : Torn c tail)
    (hsealed : b = false → tail = [] ∧ SealedAt fs s)
    {Q : Exit Error Recovered → Files → μ → Prop}
    (hkeep : b = true → ∀ d index fs', d.Rep s.symbols → d.schema = c.schema →
      d.limit = c.options.dictionaryLimitBytes → index.entries = s.index → Cut s tail fs fs' →
      Q (.ok ⟨s.summary b, seq + s.count, timeThrough time s.groups, some (d, index)⟩) fs' mem)
    (hread : b = false → ∀ fs', Reindexed s fs fs' →
      Q (.ok ⟨s.summary b, seq + s.count, timeThrough time s.groups, none⟩) fs' mem)
    (hno : ¬ Undisturbed env deadline → ∀ err fs',
      Trimmed s tail fs fs' ∨ b = false ∧ Reindexed s fs fs' → Q (.fail err) fs' mem)
    (hkill : ¬ Undisturbed env deadline → ∀ fs',
      Trimmed s tail fs fs' ∨ b = false ∧ Reindexed s fs fs' → Q .killed fs' mem) :
    wp (recoverSegment c m false deadline seq time) env Q ⟨fs, n, mem⟩ := by
  have hsame : Trimmed s tail fs fs ∨ b = false ∧ Reindexed s fs fs := .inl (.inl rfl)
  have hsize := hm.size hr hdata fun hb ↦ (hsealed hb).1
  rw [← hm.segPath] at hf
  unfold recoverSegment
  refine wp_bind (wp_openSegment hf (absurd hsize) (fun h _ hdec n ↦ ?_)
    (fun e hdec ↦ ?_) (fun h e ↦ hno (disturbed h) e fs hsame) fun h ↦ hkill (disturbed h) fs hsame)
  swap
  · rw [hdata, hs.segmentDecode_image] at hdec
    cases hdec
  rw [hdata, hs.segmentDecode_image] at hdec
  cases hdec
  have hmax : seq ≠ uint64Max := by
    have hlt := hs.first_lt
    rw [hs.first] at hlt
    unfold uint64Max
    omega
  refine wp_require_of (by simp [headerMatches, hm.header, hmax, hm.first, hs.first]) fun n ↦ ?_
  rw [hm.segPath] at hf
  have hscan (n : ℕ) : wp (scanSegment c m false deadline f.data.length seq time) env Q
      ⟨fs, n, mem⟩ :=
    wp_scanSegment hm hr hs hf hdata htorn (fun hb ↦ (hsealed hb).1)
      (fun hb ↦ hkeep (hb.resolve_right (by simp))) (fun hb _ ↦ hread hb) hno hkill
  have hstate := hm.state.trans (LogSegment.state_of_not_retired hr)
  cases b with
  | true =>
    rw [if_neg (by simp [hstate])]
    exact hscan _
  | false =>
    rw [if_pos (by simp [hstate])]
    obtain ⟨-, -, g, hg, hderived⟩ := hsealed rfl
    obtain rfl := hm.exact rfl
    refine wp_bind (Prog.wp_within.2 (wp_openRaw (hs.fits (b := false)) hs.entriesOk
      hs.checkpointOk hg hderived (fun r _ _ _ n ↦ ?_) (fun h r _ e he n ↦ ?_)
      fun h _ ↦ hkill (disturbed h) fs hsame))
    · -- the index is intact, and the record is all there is to know
      have hdone := hread rfl fs (.inl (.refl fs))
      dsimp only
      by_cases hne : s.entries = []
      · rw [if_pos (show (s.summary false).lastSequence = 0 from hs.last_eq_zero.2 hne)]
        have hgroups := LogSegment.groups_eq_nil.2 hne
        rw [hs.count_eq_zero.2 hne, hgroups, timeThrough_nil, Nat.add_zero] at hdone
        exact hdone
      · rw [if_neg (show ¬ (s.summary false).lastSequence = 0 from
          fun h0 ↦ hne (hs.last_eq_zero.1 h0))]
        obtain ⟨hlast, hmax⟩ := hs.marks hne
        rw [← hlast, ← hmax] at hdone
        refine wp_bind (wp_require (fun _ n ↦ hdone) fun hbad ↦ ?_)
        exact absurd (hs.times hne).1 (of_decide_eq_false hbad)
    · dsimp only
      split
      · exact hno (disturbed h) e fs hsame
      · exact hscan _

/-- **A segment that does not continue the table** is refused. -/
theorem wp_recoverSegment_mismatch (hm : RecordOf m s b) (hr : s.retired = false)
    (hs : s.Ok seq time) (hf : fs s.segPath = some f) (hdata : f.data = s.image ++ tail)
    (htorn : Torn c tail) (hsealed : b = false → tail = []) {lastSequence : ℕ} {lastTime : ℤ}
    (hseq : lastSequence ≠ seq) {Q : Exit Error Recovered → Files → μ → Prop}
    (hno : ∀ err, Q (.fail err) fs mem)
    (hkill : ¬ env.Calm → Q .killed fs mem) :
    wp (recoverSegment c m false deadline lastSequence lastTime) env Q ⟨fs, n, mem⟩ := by
  have hsize := hm.size hr hdata hsealed
  rw [← hm.segPath] at hf
  unfold recoverSegment
  refine wp_bind (wp_openSegment hf (absurd hsize) (fun h _ hdec n ↦ ?_)
    (fun e _ ↦ hno e) (fun _ e ↦ hno e) hkill)
  refine wp_bind (wp_require (fun hmatch n ↦ ?_) fun _ ↦ hno _)
  simp only [headerMatches, hm.first, hs.first, Bool.and_eq_true, decide_eq_true_eq] at hmatch
  omega

end Segment

/-! ### What recovery does to the files -/

/-- What was covered by a sync of a segment's rows stays so. -/
def Covered (L : Log c) (fs fs' : Files) : Prop :=
  ∀ s ∈ L, s.retired = false → ∀ f', fs' s.segPath = some f' →
    ∃ f, fs s.segPath = some f ∧ min f.synced s.size ≤ f'.synced

/-- **What recovery may do to the files of the log**: cut off an interrupted append, and write indexes
again. -/
structure Repaired (P L : Log c) (tail : Bytes) (fs : Files) (tail' : Bytes) (fs' : Files) :
    Prop where
  disk : OnDisk fs' P L tail'
  tail_eq : tail' = tail ∨ tail' = []
  covered : Covered L fs fs'

section Files

variable {P L A : Log c} {s : LogSegment c} {tail tail' tail'' : Bytes} {fs fs' fs'' : Files}

theorem Covered.of_same (h : ∀ s ∈ L, s.retired = false → fs' s.segPath = fs s.segPath) :
    Covered L fs fs' :=
  fun s hs hr f' hf' ↦ ⟨f', by rw [← h s hs hr, hf'], min_le_left _ _⟩

theorem Covered.trans (h : Covered L fs fs') (h' : Covered L fs' fs'') : Covered L fs fs'' := by
  intro s hs hr f'' hf''
  obtain ⟨f', hf', hle'⟩ := h' s hs hr f'' hf''
  obtain ⟨f, hf, hle⟩ := h s hs hr f' hf'
  exact ⟨f, hf, (le_min hle (min_le_right _ _)).trans hle'⟩

theorem Covered.synced (h : Covered L fs fs') (hsync : Synced fs L) : Synced fs' L := by
  intro s hs hr f' hf'
  obtain ⟨f, hf, hle⟩ := h s hs hr f' hf'
  exact (le_min (hsync s hs hr f hf) le_rfl).trans hle

theorem OnDisk.repaired (h : OnDisk fs P L tail) : Repaired P L tail fs tail fs :=
  ⟨h, .inl rfl, .of_same fun _ _ _ ↦ rfl⟩

theorem Repaired.trans (h : Repaired P L tail fs tail' fs') (h' : Repaired P L tail' fs' tail'' fs'') :
    Repaired P L tail fs tail'' fs'' where
  disk := h'.disk
  tail_eq := by
    rcases h'.tail_eq with h₁ | h₁
    · rw [h₁]
      exact h.tail_eq
    · exact .inr h₁
  covered := h.covered.trans h'.covered

/-- Writing the index of a segment again changes nothing. -/
theorem OnDisk.reindexed (h : OnDisk fs P L tail) (hs : s ∈ L) (hidx : Reindexed s fs fs') :
    Repaired P L tail fs tail fs' := by
  rcases hidx with ha | hrep
  · exact ⟨h.of_agree ha, .inl rfl, .of_same fun a _ _ ↦ ha _ (segPath_ne_tmp a)⟩
  have hseg (a : LogSegment c) : fs' a.segPath = fs a.segPath :=
    hrep.2 _ (segPath_ne_idxPath _ _) (segPath_ne_tmp a)
  refine ⟨⟨h.ok, h.okP, h.recorded.congr (hrep.2 _ Path.noConfusion fun _ ↦ Path.noConfusion), h.lag,
    fun a ha har ↦ ?_, fun a ha har ↦ ?_, h.torn⟩, .inl rfl, .of_same fun a _ _ ↦ hseg a⟩
  · obtain ⟨hfile, hderived⟩ := h.sealed a ha har
    refine ⟨by rwa [hseg a], ?_⟩
    by_cases hid : a.id = s.id
    · obtain rfl := h.ok.chain.eq_of_id (mem_of_mem_dropLast ha) hs hid
      exact ⟨_, hrep.1, rfl⟩
    · rwa [hrep.2 _ (idxPath_ne hid) (idxPath_ne_tmp a)]
  · rw [hseg a]
    exact h.active a ha har

/-- Cutting off an interrupted append. -/
theorem OnDisk.trimmed {k : ℕ} (h : OnDisk fs P (A ++ [s]) tail) {f : File}
    (hf : fs s.segPath = some f) (hk : min f.synced s.size ≤ k)
    (hrep : Replaced s.segPath ⟨s.image, k⟩ fs fs') :
    Repaired P (A ++ [s]) tail fs [] fs' := by
  refine ⟨h.last_replaced hrep (.inl rfl) h.ok h.lag (fun _ ↦ ⟨_, hrep.1, by simp⟩) (.inl rfl),
    .inr rfl, fun a ha har f' hf' ↦ ?_⟩
  rcases mem_append.1 ha with ha | ha
  · exact ⟨f', by rw [← (hrep.other (.inl rfl) (h.ok.id_ne_last ha)).1, hf'], min_le_left _ _⟩
  · obtain rfl := mem_singleton.1 ha
    rw [hrep.1] at hf'
    cases hf'
    exact ⟨f, hf, hk⟩

theorem OnDisk.of_trimmed (h : OnDisk fs P (A ++ [s]) tail) (ht : Trimmed s tail fs fs') :
    ∃ tail', Repaired P (A ++ [s]) tail fs tail' fs' := by
  rcases ht with rfl | ⟨-, f, k, hf, hk, hrep⟩
  · exact ⟨tail, h.repaired⟩
  · exact ⟨[], h.trimmed hf hk hrep⟩

/-- After a complete scan the file ends with its last frame, and is covered by a sync if something was
cut off. -/
theorem OnDisk.of_cut (h : OnDisk fs P (A ++ [s]) tail) {f : File} (hf : fs s.segPath = some f)
    (hcut : Cut s tail fs fs') : Repaired P (A ++ [s]) tail fs [] fs' ∧
      (tail ≠ [] → ∀ f', fs' s.segPath = some f' → s.size ≤ f'.synced) := by
  rcases hcut with ⟨rfl, rfl⟩ | ⟨-, hrep⟩
  · exact ⟨h.repaired, fun hne ↦ absurd rfl hne⟩
  · refine ⟨h.trimmed hf (min_le_right _ _) hrep, fun _ f' hf' ↦ ?_⟩
    rw [hrep.1] at hf'
    cases hf'
    exact le_rfl

end Files

/-! ### The records of a log -/

/-- **A log that recovery accepts**: no segment that is not retired precedes a retired one. -/
def Log.Clean (L : Log c) : Prop := L.Pairwise fun a b ↦ b.retired = true → a.retired = true

/-- The records from which the segments of a log are recovered. -/
def RecordsOf : Log c → List SegmentMeta → Prop
  | [], ms => ms = []
  | s :: L, ms => ∃ m ms', ms = m :: ms' ∧ RecordOf m s L.isEmpty ∧
      (s.retired = true → m = s.summary L.isEmpty) ∧ RecordsOf L ms'

section Records

variable {P L A B : Log c} {s : LogSegment c}

theorem recordOf_summary (s : LogSegment c) (b : Bool) : RecordOf (s.summary b) s b :=
  ⟨rfl, rfl, rfl, rfl, le_rfl, le_rfl, fun hb ↦ by rw [hb]⟩

theorem recordsOf_summaries (L : Log c) : RecordsOf L L.summaries := by
  induction L with
  | nil => rfl
  | cons s L ih => exact ⟨_, _, rfl, recordOf_summary s _, fun _ ↦ rfl, ih⟩

/-- The record of an active segment stays one when groups follow. -/
theorem recordOf_appended (s : LogSegment c) (es : List (Entry c)) :
    RecordOf (s.summary true) ({ s with entries := s.entries ++ es } : LogSegment c) true := by
  have hsize := (s.prefix_image es).length_le
  rw [LogSegment.length_image, LogSegment.length_image] at hsize
  have hcount : ({ s with entries := s.entries ++ es } : LogSegment c).count =
      s.count + rowTotal (es.map Entry.group) := by
    simp [LogSegment.count, LogSegment.groups]
  refine ⟨rfl, rfl, rfl, rfl, hsize, ?_, fun h ↦ by cases h⟩
  simp only [LogSegment.summary, LogSegment.last]
  split
  · exact Nat.zero_le _
  next hne =>
    rw [if_neg (by simp [hne]), hcount]
    omega

/-- **The manifest has a record for every segment**, also when it lags behind. -/
theorem Lag.recordsOf (h : Lag P L) : RecordsOf L P.summaries := by
  cases h with
  | refl => exact recordsOf_summaries _
  | appended A s es hs =>
    induction A with
    | nil => exact ⟨_, _, rfl, recordOf_appended s es, fun hr ↦ by simp [hs] at hr, rfl⟩
    | cons a A ih =>
      have hne (x : LogSegment c) : (A ++ [x]).isEmpty = false := by simp
      rw [cons_append]
      refine ⟨a.summary false, _, ?_, ?_, fun _ ↦ ?_, ih⟩
      · rw [cons_append, Log.summaries, hne]
      · rw [hne]
        exact recordOf_summary a false
      · rw [hne]

theorem Lag.next_eq (h : Lag P L) : P.next = L.next ∧ P.preserved = L.preserved := by
  cases h with
  | refl => exact ⟨rfl, rfl⟩
  | appended A s es hs =>
    refine ⟨by simp [Log.next], ?_⟩
    rw [Log.preserved_rotate A hs,
      Log.preserved_rotate A (s := { s with entries := s.entries ++ es }) hs]

theorem Log.summaries_append_cons (A : Log c) (s : LogSegment c) (B : Log c) :
    Log.summaries (A ++ s :: B) = A.map (·.summary false) ++ s.summary B.isEmpty :: B.summaries := by
  induction A with
  | nil => rfl
  | cons a A ih =>
    have hne : (A ++ s :: B).isEmpty = false := by simp
    rw [cons_append, Log.summaries, ih, hne]
    rfl

/-- The records of the first segments, and one more. -/
theorem Log.take_summaries (A : Log c) (s : LogSegment c) (B : Log c) :
    (Log.summaries (A ++ s :: B)).take (A ++ [s]).length =
      (Log.summaries (A ++ s :: B)).take A.length ++ [s.summary B.isEmpty] := by
  have hlen : (A.map (·.summary false)).length = A.length := length_map _
  rw [Log.summaries_append_cons, length_append, length_singleton, ← hlen,
    take_append_of_le_length le_rfl, take_length, take_length_add_append]
  simp

end Records

/-! ### The segments of a table -/

/-- **The handle while its segments are recovered**: those of `A` have been, those of `B` have not, and
`ms` are their records. -/
structure Recovering (L A B : Log c) (ms : List SegmentMeta) (t : Table c) : Prop where
  split : L = A ++ B
  segments : t.segments = L.summaries.take A.length ++ ms
  records : RecordsOf B ms
  clean : A.Clean
  waiting : (∃ b ∈ B, b.retired = true) →
    (∀ a ∈ A, a.retired = true) ∧ (t.lastSequence, t.lastTime) = L.preserved
  marks : (∀ b ∈ B, b.retired = false) → (t.lastSequence, t.lastTime) = (A.total, A.time)
  readable : t.readableSegments = A.visibleFrom 0
  capacity : t.readableSegments.length ≤ t.readableCapacity
  tallied : ({ t with segments := L.summaries.take A.length } : Table c).Tallied
  next : t.nextSegmentId = L.next
  preserved : (t.preservedSequence, t.preservedTime) = L.preserved
  retentionUs : t.retentionUs ≤ int64Max
  generation : 0 < t.manifestGeneration ∧ t.manifestGeneration < 2 ^ 64
  readers : t.readers = 0
  frozen : t.frozen = false
  pending : t.pendingRetention = false → ∀ a ∈ A, a.retired = false
  writing : B = [] → ∀ s ∈ A.getLast?, s.retired = false → t.activeFd = some s.segPath ∧
    t.index.entries = s.index ∧ Holds c t.dictionary s.symbols

section Loop

variable {P L A B : Log c} {s : LogSegment c} {m : SegmentMeta} {ms : List SegmentMeta} {t : Table c}

theorem Log.length_take_summaries (h : L = A ++ B) : (L.summaries.take A.length).length = A.length := by
  rw [length_take, Log.length_summaries, h, length_append]
  omega

theorem Log.Clean.concat (h : A.Clean) (hs : s.retired = true → ∀ a ∈ A, a.retired = true) :
    Log.Clean (A ++ [s]) :=
  pairwise_append.2 ⟨h, pairwise_singleton _ _, fun a ha b hb hbr ↦
    hs (by rwa [← mem_singleton.1 hb]) a ha⟩

/-- **A retired segment is skipped.** -/
theorem Recovering.skip (h : Recovering L A (s :: B) (m :: ms) t) (hok : L.Ok)
    (hr : s.retired = true) : Recovering L (A ++ [s]) B ms
      { t with pendingRetention := true, retiredSegments := u64 (t.retiredSegments + 1) } := by
  obtain ⟨m', ms', heq, -, hexact, hrest⟩ := h.records
  cases heq
  have hm := hexact hr
  obtain ⟨hall, hmarks⟩ := h.waiting ⟨s, mem_cons_self .., hr⟩
  have hsplit := h.split
  have htake : L.summaries.take (A ++ [s]).length = L.summaries.take A.length ++ [m] := by
    rw [hsplit, Log.take_summaries, hm]
  have hstate : m.state = .retired := by
    rw [hm]
    exact LogSegment.state_eq_retired.2 hr
  exact
    { split := by rw [hsplit, append_assoc]; rfl
      segments := by
        rw [htake, append_assoc]
        exact h.segments
      records := hrest
      clean := h.clean.concat fun _ ↦ hall
      waiting := fun _ ↦ ⟨fun a ha ↦ (mem_append.1 ha).elim (hall a) fun ha ↦ by
        rwa [mem_singleton.1 ha], hmarks⟩
      marks := fun hB ↦ by
        have hpres := Log.Chain.preserved_eq (hsplit ▸ hok.chain) hr hB
        rw [← hsplit] at hpres
        exact hmarks.trans hpres
      readable := by
        rw [Log.visibleFrom_concat]
        simpa [LogSegment.visible, hr] using h.readable
      capacity := h.capacity
      tallied := by
        obtain ⟨h1, h2, h3, h4⟩ := h.tallied
        rw [htake]
        refine ⟨?_, ?_, ?_, ?_⟩
        · simpa [SegmentMeta.retained, hstate] using h1
        · simpa [SegmentMeta.retained, hstate] using h2
        · simpa [SegmentMeta.retained, hstate] using h3
        · refine u64_add_congr h4 ?_
          simp [hstate]
      next := h.next
      preserved := h.preserved
      retentionUs := h.retentionUs
      generation := h.generation
      readers := h.readers
      frozen := h.frozen
      pending := fun hp ↦ by cases hp
      writing := fun _ a ha har ↦ by
        rw [getLast?_concat] at ha
        cases ha
        rw [hr] at har
        cases har }

theorem Log.marks_concat (A : Log c) (s : LogSegment c) :
    (Log.total (A ++ [s]), Log.time (A ++ [s])) =
      (A.total + s.count, timeThrough A.time s.groups) := by
  simp [Log.time, timeThrough_append]

/-- The fields that recovering a segment leaves alone. -/
def Table.fixed (t : Table c) : ℕ × ℕ × ℤ × ℕ × ℕ × ℕ × Bool × Bool :=
  (t.nextSegmentId, t.preservedSequence, t.preservedTime, t.retentionUs, t.manifestGeneration,
    t.readers, t.frozen, t.pendingRetention)

/-- **A segment was read.** -/
theorem Recovering.read (h : Recovering L A (s :: B) (m :: ms) t) (hs : s.Ok A.total A.time)
    (hr : s.retired = false) (hB : ∀ b ∈ B, b.retired = false) {t' : Table c}
    (hsegments : t'.segments = t.segments.set A.length (s.summary B.isEmpty))
    (hmarks : (t'.lastSequence, t'.lastTime) = (A.total + s.count, timeThrough A.time s.groups))
    (hreadable : t'.readableSegments = t.readableSegments ++ if s.entries = [] then [] else [A.length])
    (hcapacity : t'.readableSegments.length ≤ t'.readableCapacity)
    (hcounters : (t'.retainedRows, t'.retainedBytes, t'.retainedSegments, t'.retiredSegments) =
      (u64 (t.retainedRows + s.count), u64 (t.retainedBytes + s.size), u64 (t.retainedSegments + 1),
        t.retiredSegments))
    (hfixed : t'.fixed = t.fixed)
    (hwriting : B = [] → t'.activeFd = some s.segPath ∧ t'.index.entries = s.index ∧
      Holds c t'.dictionary s.symbols) : Recovering L (A ++ [s]) B ms t' := by
  obtain ⟨m', ms', heq, -, -, hrest⟩ := h.records
  cases heq
  have hsplit := h.split
  have htake : L.summaries.take (A ++ [s]).length =
      L.summaries.take A.length ++ [s.summary B.isEmpty] := by
    rw [hsplit, Log.take_summaries]
  have hstate : (s.summary B.isEmpty).state ≠ .retired := by
    rw [LogSegment.summary, LogSegment.state_of_not_retired hr]
    split <;> simp
  simp only [Table.fixed, Prod.mk.injEq] at hfixed hcounters
  obtain ⟨f1, f2, f3, f4, f5, f6, f7, f8⟩ := hfixed
  obtain ⟨c1, c2, c3, c4⟩ := hcounters
  have hretained (g : SegmentMeta → ℕ) :
      (s.summary B.isEmpty).retained g = g (s.summary B.isEmpty) := if_neg hstate
  exact
    { split := by rw [hsplit, append_assoc]; rfl
      segments := by
        have hlen := Log.length_take_summaries hsplit
        rw [hsegments, h.segments, htake, set_append_right _ _ (by omega), hlen, Nat.sub_self,
          set_cons_zero, append_assoc]
        rfl
      records := hrest
      clean := h.clean.concat fun hr' ↦ by rw [hr] at hr'; cases hr'
      waiting := by
        rintro ⟨b, hb, hbr⟩
        rw [hB b hb] at hbr
        cases hbr
      marks := fun _ ↦ by
        rw [hmarks, Log.marks_concat]
      readable := by
        rw [hreadable, h.readable, Log.visibleFrom_concat]
        by_cases hne : s.entries = [] <;> simp [LogSegment.visible, hr, hne]
      capacity := hcapacity
      tallied := by
        obtain ⟨h1, h2, h3, h4⟩ := h.tallied
        rw [htake]
        refine ⟨c1.trans (u64_add_congr h1 ?_), c2.trans (u64_add_congr h2 ?_),
          c3.trans (u64_add_congr h3 ?_), c4.trans (h4.trans ?_)⟩
        · rw [retainedSum_append, retainedSum_cons, hretained, hs.rows_summary]
          rfl
        · rw [retainedSum_append, retainedSum_cons, hretained]
          rfl
        · rw [retainedSum_append, retainedSum_cons, hretained]
          rfl
        · simp [hstate]
      next := f1.trans h.next
      preserved := by rw [f2, f3, h.preserved]
      retentionUs := f4 ▸ h.retentionUs
      generation := f5 ▸ h.generation
      readers := f6.trans h.readers
      frozen := f7.trans h.frozen
      pending := fun hp a ha ↦ by
        rcases mem_append.1 ha with ha | ha
        · exact h.pending (f8.symm.trans hp) a ha
        · rwa [mem_singleton.1 ha]
      writing := fun hnil a ha _ ↦ by
        rw [getLast?_concat] at ha
        cases ha
        exact hwriting hnil }

/-- A segment that is not retired and precedes a retired one does not continue the watermarks. -/
theorem Log.Ok.preserved_ne (h : L.Ok) (hsplit : L = A ++ s :: B) (hB : ∃ b ∈ B, b.retired = true) :
    L.preserved.1 ≠ A.total := by
  obtain ⟨x, hx, hxr⟩ := hB
  obtain ⟨y, hy⟩ : ∃ y, (B.filter LogSegment.retired).getLast? = some y := by
    have hmem : x ∈ B.filter LogSegment.retired := mem_filter.2 ⟨hx, hxr⟩
    exact ⟨_, getLast?_eq_some_getLast (ne_nil_of_mem hmem)⟩
  obtain ⟨B₁, B₂, rfl, hyr, hB₂⟩ := Log.getLast?_filter hy
  have hL : L = (A ++ s :: B₁) ++ y :: B₂ := by rw [hsplit, append_assoc]; rfl
  obtain ⟨-, -, hyok, -⟩ := Log.chain_append.1 (hL ▸ h.chain)
  have hpos := (hyok.count_pos (hyok.retired hyr)).2.1
  rw [hL, Log.Chain.preserved_eq (hL ▸ h.chain) hyr hB₂]
  simp only [Log.total_append, Log.total_cons]
  omega

/-- The last segment is covered by a sync if an interrupted append was cut off. -/
def TailSynced (L : Log c) (tail : Bytes) (fs : Files) : Prop :=
  tail ≠ [] → ∀ s ∈ L.getLast?, s.retired = false → ∀ f, fs s.segPath = some f → s.size ≤ f.synced

/-- The outcomes of recovering the segments. -/
def RecoverPost (env : Env Path Dir) (P L : Log c) (tail : Bytes) (fs : Files) :
    Exit Error Unit → Files → Table c → Prop
  | .ok _, fs', t' => Recovering L L [] [] t' ∧ Repaired P L tail fs [] fs' ∧ TailSynced L tail fs'
  | .fail _, fs', _ => (∃ tail', Repaired P L tail fs tail' fs') ∧
      (Undisturbed env uint64Max → ¬ L.Clean)
  | .killed, fs', _ => (∃ tail', Repaired P L tail fs tail' fs') ∧ ¬ Undisturbed env uint64Max

/-- The files of the segment that is read next. -/
theorem OnDisk.next {fs : Files} {tail : Bytes} (h : OnDisk fs P L tail) (hsplit : L = A ++ s :: B)
    (hr : s.retired = false) : ∃ f rest, fs s.segPath = some f ∧ f.data = s.image ++ rest ∧
      Torn c rest ∧ (B.isEmpty = false → rest = [] ∧ SealedAt fs s) ∧ (B = [] → rest = tail) := by
  cases B with
  | nil =>
    obtain ⟨f, hf, hdata⟩ := h.active s (by rw [hsplit]; simp) hr
    exact ⟨f, tail, hf, hdata, h.torn, fun hb ↦ by simp at hb, fun _ ↦ rfl⟩
  | cons b B =>
    have hmem : s ∈ L.dropLast := by
      rw [hsplit, dropLast_append_of_ne_nil (by simp), dropLast_cons_cons]
      simp
    obtain ⟨⟨f, hf, hdata⟩, hidx⟩ := h.sealed s hmem hr
    exact ⟨f, [], hf, by rw [hdata, append_nil], .inl rfl,
      fun _ ↦ ⟨rfl, ⟨f, hf, hdata⟩, hidx⟩, fun hb ↦ by cases hb⟩

/-- Without an active segment there is nothing to cut off. -/
theorem OnDisk.drop_tail {fs : Files} {tail : Bytes} (h : OnDisk fs P L tail)
    (hlast : ∀ s ∈ L.getLast?, s.retired = true) : OnDisk fs P L [] :=
  ⟨h.ok, h.okP, h.recorded, h.lag, h.sealed,
    fun s hs hr ↦ absurd (hlast s hs) (by simp [hr]), .inl rfl⟩

/-- Before the segments `B` are read the tail is still there, unless there is nothing to read. -/
theorem Repaired.ready {fs₀ fs : Files} {tail : Bytes} (h : Repaired P L tail fs₀ tail fs)
    (hlast : B = [] → ∀ s ∈ L.getLast?, s.retired = true) :
    ∃ tail', Repaired P L tail fs₀ tail' fs ∧ (B ≠ [] → tail' = tail) ∧
      (B = [] → tail' = [] ∧ TailSynced L tail fs) := by
  by_cases hnil : B = []
  · refine ⟨[], ⟨h.disk.drop_tail (hlast hnil), .inr rfl, h.covered⟩, fun hne ↦ absurd hnil hne,
      fun _ ↦ ⟨rfl, fun _ s hs hr ↦ ?_⟩⟩
    rw [hlast hnil s hs] at hr
    cases hr
  · exact ⟨tail, h, fun _ ↦ rfl, fun hB ↦ absurd hB hnil⟩

variable {env : Env Path Dir}

/-- What `withRecovered` does to the handle. -/
theorem Table.withRecovered_fields (t : Table c) (i : ℕ) (r : Recovered) :
    (t.withRecovered i r).segments = t.segments.set i r.segment ∧
      (t.withRecovered i r).lastSequence = r.lastSequence ∧
      (t.withRecovered i r).lastTime = r.lastTime ∧
      (t.withRecovered i r).readableSegments = t.readableSegments ∧
      (t.withRecovered i r).readableCapacity = t.readableCapacity ∧
      (t.withRecovered i r).retainedRows = t.retainedRows ∧
      (t.withRecovered i r).retainedBytes = u64 (t.retainedBytes + r.segment.committedBytes) ∧
      (t.withRecovered i r).retainedSegments = u64 (t.retainedSegments + 1) ∧
      (t.withRecovered i r).retiredSegments = t.retiredSegments ∧
      (t.withRecovered i r).fixed = t.fixed := by
  unfold Table.withRecovered
  cases r.kept <;> exact ⟨rfl, rfl, rfl, rfl, rfl, rfl, rfl, rfl, rfl, rfl⟩

theorem Table.withRecovered_kept (t : Table c) (i : ℕ) (r : Recovered) {d : Dictionary}
    {index : FrameIndex} (h : r.kept = some (d, index)) :
    (t.withRecovered i r).activeFd = some r.segment.segPath ∧
      (t.withRecovered i r).index = index ∧ (t.withRecovered i r).dictionary = some d := by
  unfold Table.withRecovered
  rw [h]
  exact ⟨rfl, rfl, rfl⟩

/-- **The bookkeeping after a segment was read.** -/
theorem wp_recordRecovered {fs : Files} {n : ℕ} (h : Recovering L A (s :: B) (m :: ms) t)
    (hs : s.Ok A.total A.time) (hr : s.retired = false) (hB : ∀ b ∈ B, b.retired = false)
    (hlen : A.length < maxSegments) {r : Recovered} (hsegment : r.segment = s.summary B.isEmpty)
    (hmarks : (r.lastSequence, r.lastTime) = (A.total + s.count, timeThrough A.time s.groups))
    (hkept : B = [] → ∃ d index, r.kept = some (d, index) ∧ index.entries = s.index ∧
      Holds c (some d) s.symbols) {rest : Io (Table c) Unit}
    {Q : Exit Error Unit → Files → Table c → Prop}
    (hok : ∀ t' n, Recovering L (A ++ [s]) B ms t' → wp rest env Q ⟨fs, n, t'⟩)
    (hno : ¬ env.Calm → ∀ e t', Q (.fail e) fs t') :
    wp (do
      Prog.modify (·.withRecovered A.length r)
      if r.segment.lastSequence = 0 then rest
      else
        Prog.modify fun t ↦ { t with
          retainedRows := u64 (t.retainedRows +
            (r.segment.lastSequence - r.segment.firstSequence + 1)) }
        readableReserve
        Prog.modify fun t ↦ { t with readableSegments := t.readableSegments ++ [A.length] }
        rest) env Q ⟨fs, n, t⟩ := by
  obtain ⟨w1, w2, w3, w4, w5, w6, w7, w8, w9, w10⟩ := t.withRecovered_fields A.length r
  have hwriting (hnil : B = []) : (t.withRecovered A.length r).activeFd = some s.segPath ∧
      (t.withRecovered A.length r).index.entries = s.index ∧
      Holds c (t.withRecovered A.length r).dictionary s.symbols := by
    obtain ⟨d, index, hk, hindex, hd⟩ := hkept hnil
    obtain ⟨k1, k2, k3⟩ := t.withRecovered_kept A.length r hk
    rw [k1, k2, k3, hsegment]
    exact ⟨rfl, hindex, hd⟩
  have hvis : t.readableSegments.length ≤ A.length := by
    rw [h.readable]
    exact Log.length_visibleFrom_le 0 A
  refine wp_bind (wp_modify.2 fun n ↦ ?_)
  have hlast : r.segment.lastSequence = s.last := by rw [hsegment]; rfl
  rw [hsegment] at w1 w7
  by_cases hne : s.entries = []
  · rw [if_pos (hlast.trans (hs.last_eq_zero.2 hne))]
    refine hok _ _ (h.read hs hr hB w1 (by rw [w2, w3, hmarks]) ?_ ?_ ?_ w10 hwriting)
    · rw [w4, if_pos hne, append_nil]
    · rw [w4, w5]
      exact h.capacity
    · have hrows : t.retainedRows = u64 (t.retainedRows + s.count) := by
        have hlt : t.retainedRows < 2 ^ 64 := lt_of_eq_of_lt h.tallied.rows (u64_lt _)
        rw [hs.count_eq_zero.2 hne, Nat.add_zero, u64_of_lt hlt]
      rw [w6, w7, w8, w9, ← hrows]
      rfl
  · have hlast0 : r.segment.lastSequence ≠ 0 := by
      rw [hlast]
      exact fun h0 ↦ hne (hs.last_eq_zero.1 h0)
    rw [if_neg hlast0]
    refine wp_bind (wp_modify.2 fun n ↦ ?_)
    refine wp_bind (wp_readableReserve (fun k hk n ↦ ?_) fun e _ hwhy ↦ ?_)
    swap
    · rcases hwhy with ⟨-, hcalm⟩ | hfull
      · exact hno hcalm e _
      · have hcap := h.capacity
        simp only [w4, w5] at hfull
        have := hfull hcap
        omega
    refine wp_bind (wp_modify.2 fun n ↦ ?_)
    have hrows : r.segment.lastSequence - r.segment.firstSequence + 1 = s.count := by
      have := hs.rows_summary B.isEmpty
      rw [SegmentMeta.rows, ← hsegment, if_neg hlast0] at this
      exact this
    refine hok _ _ (h.read hs hr hB w1 (by rw [← hmarks, ← w2, ← w3]) ?_ ?_ ?_ w10 hwriting)
    · rw [w4, if_neg hne]
    · simp only [w4] at hk
      rw [length_append, w4]
      exact hk
    · rw [hrows, w6, w7, w8, w9]
      rfl

/-- **The segments are recovered one after the other.** The induction is on the segments that are left;
as long as there are any, the last one has not been touched. -/
theorem wp_recoverLoop {fs₀ fs : Files} {tail tail₁ : Bytes} {n : ℕ}
    (h : Recovering L A B ms t) (hrep : Repaired P L tail fs₀ tail₁ fs)
    (hbefore : B ≠ [] → tail₁ = tail) (hafter : B = [] → tail₁ = [] ∧ TailSynced L tail fs) :
    wp (recoverLoop A.length ms) env (RecoverPost env P L tail fs₀) ⟨fs, n, t⟩ := by
  have hok := hrep.disk.ok
  induction B generalizing A ms t fs tail₁ n with
  | nil =>
    have hms : ms = [] := h.records
    have hL : L = A := by rw [h.split, append_nil]
    subst hms
    obtain ⟨rfl, hsync⟩ := hafter rfl
    subst hL
    exact ⟨h, hrep, hsync⟩
  | cons s B ih =>
    obtain rfl := hbefore (by simp)
    obtain ⟨m, ms, rfl, hm, -, -⟩ := h.records
    have hsplit := h.split
    have hlast (hnil : B = []) : L = A ++ [s] := by rw [hsplit, hnil]
    have hmem : s ∈ L := by rw [hsplit]; simp
    have hlen : (A ++ [s]).length = A.length + 1 := by simp
    obtain ⟨-, -, hs, -⟩ := Log.chain_append.1 (hsplit ▸ hok.chain)
    rw [Nat.zero_add] at hs
    unfold recoverLoop
    cases hr : s.retired with
    | true =>
      have hstate : m.state = .retired := hm.state.trans (LogSegment.state_eq_retired.2 hr)
      rw [if_pos hstate]
      refine wp_bind (wp_modify.2 fun n ↦ ?_)
      obtain ⟨tail₂, hrep', hbefore', hafter'⟩ := hrep.ready (B := B) fun hnil a ha ↦ by
        rw [hlast hnil, getLast?_concat] at ha
        cases ha
        exact hr
      have := ih (h.skip hok hr) hrep' hbefore' hafter' (n := n)
      rwa [hlen] at this
    | false =>
      have hstate : m.state ≠ .retired := by
        rw [hm.state, LogSegment.state_of_not_retired hr]
        split <;> simp
      rw [if_neg hstate]
      refine wp_bind (wp_get.2 fun n ↦ ?_)
      obtain ⟨f, rest, hf, hdata, htorn, hsealed, hrest⟩ := hrep.disk.next hsplit hr
      by_cases hB : ∃ b ∈ B, b.retired = true
      · -- the watermarks are already behind the retired segment that follows
        obtain ⟨-, hmarks⟩ := h.waiting (hB.imp fun b hb ↦ ⟨mem_cons_of_mem s hb.1, hb.2⟩)
        have hne : t.lastSequence ≠ A.total := fun heq ↦
          hok.preserved_ne hsplit hB (by rw [← hmarks]; exact heq)
        refine wp_bind (wp_recoverSegment_mismatch hm hr hs hf hdata htorn
          (fun hb ↦ (hsealed hb).1) hne (fun err ↦ ⟨⟨_, hrep⟩, fun _ hclean ↦ ?_⟩)
          fun hcalm ↦ ⟨⟨_, hrep⟩, fun hu ↦ hcalm hu.1⟩)
        obtain ⟨b, hb, hbr⟩ := hB
        rw [hsplit] at hclean
        have := (pairwise_cons.1 (pairwise_append.1 hclean).2.1).1 b hb hbr
        rw [hr] at this
        cases this
      · have hB' : ∀ b ∈ B, b.retired = false := by
          intro b hb
          cases hbr : b.retired with
          | false => rfl
          | true => exact absurd ⟨b, hb, hbr⟩ hB
        obtain ⟨hseq, htime⟩ := Prod.ext_iff.1 (h.marks fun b hb ↦ by
          rcases mem_cons.1 hb with rfl | hb
          · exact hr
          · exact hB' b hb)
        simp only at hseq htime
        have hfiles {fs' : Files} (hfs : Trimmed s rest fs fs' ∨ B.isEmpty = false ∧
            Reindexed s fs fs') : ∃ tail', Repaired P L tail₁ fs₀ tail' fs' := by
          rcases hfs with htrim | ⟨-, hidx⟩
          · by_cases hnil : B = []
            · rw [hrest hnil] at htrim
              obtain ⟨tail', hrep'⟩ := (hlast hnil ▸ hrep.disk).of_trimmed htrim
              exact ⟨tail', hrep.trans (hlast hnil ▸ hrep')⟩
            · rw [(hsealed (by simpa using hnil)).1] at htrim
              rcases htrim with rfl | ⟨hne, -⟩
              · exact ⟨_, hrep⟩
              · exact absurd rfl hne
          · exact ⟨_, hrep.trans (hrep.disk.reindexed hmem hidx)⟩
        have hbound : A.length < maxSegments := by
          have := hok.length_le
          rw [hsplit, length_append, length_cons] at this
          omega
        rw [hseq, htime]
        refine wp_bind (wp_recoverSegment hm hr hs hf hdata htorn hsealed
          (fun hb d index fs' hd hschema hlimit hindex hcut n ↦ ?_) (fun hb fs' hidx n ↦ ?_)
          (fun hu err fs' hfs ↦ ⟨hfiles hfs, fun hu' ↦ absurd hu' hu⟩)
          fun hu fs' hfs ↦ ⟨hfiles hfs, hu⟩)
        · have hnil : B = [] := by simpa using hb
          rw [hrest hnil] at hcut
          obtain ⟨hrep', hsync⟩ := (hlast hnil ▸ hrep.disk).of_cut hf hcut
          refine wp_recordRecovered h hs hr hB' hbound rfl rfl
            (fun _ ↦ ⟨d, index, rfl, hindex, d, rfl, hd, hschema, hlimit⟩) (fun t' n hrec ↦ ?_)
            fun hcalm e t' ↦ ⟨⟨_, hrep.trans (hlast hnil ▸ hrep')⟩, fun hu ↦ absurd hu.1 hcalm⟩
          have := ih hrec (hrep.trans (hlast hnil ▸ hrep')) (fun hne ↦ absurd hnil hne) (n := n)
            fun _ ↦ ⟨rfl, fun htail a ha har ↦ by
              rw [hlast hnil, getLast?_concat] at ha
              cases ha
              exact hsync htail⟩
          rwa [hlen] at this
        · have hne : B ≠ [] := by simpa using hb
          have hrep' := hrep.trans (hrep.disk.reindexed hmem hidx)
          refine wp_recordRecovered h hs hr hB' hbound rfl rfl (fun hnil ↦ absurd hnil hne)
            (fun t' n hrec ↦ ?_) fun hcalm e t' ↦ ⟨⟨_, hrep'⟩, fun hu ↦ absurd hu.1 hcalm⟩
          have := ih hrec hrep' (fun _ ↦ rfl) (n := n) fun hnil ↦ absurd hnil hne
          rwa [hlen] at this

end Loop

/-! ### The table -/

section Open

variable {P L : Log c} {t : Table c} {env : Env Path Dir} {fs : Files} {tail : Bytes} {n : ℕ}

/-- The handle when its manifest was loaded. -/
theorem recovering_manifest (hdisk : OnDisk fs P L tail) {retentionUs generation : ℕ}
    (hret : retentionUs ≤ int64Max) (hgen : 0 < generation ∧ generation < 2 ^ 64) :
    Recovering L [] L P.summaries
      { (Table.zeroed : Table c).withManifest (P.manifest retentionUs generation) with
        lastSequence := P.preserved.1, lastTime := P.preserved.2 } := by
  obtain ⟨hnext, hpres⟩ := hdisk.lag.next_eq
  exact
    { split := rfl
      segments := rfl
      records := hdisk.lag.recordsOf
      clean := .nil
      waiting := fun _ ↦ ⟨by simp, hpres⟩
      marks := fun hnone ↦ by
        have := Log.preserved_of_none hnone
        rw [← hpres] at this
        exact this
      readable := rfl
      capacity := le_rfl
      tallied := ⟨rfl, rfl, rfl, rfl⟩
      next := hnext
      preserved := hpres
      retentionUs := hret
      generation := hgen
      readers := rfl
      frozen := rfl
      pending := fun _ a ha ↦ absurd ha not_mem_nil
      writing := fun _ a ha ↦ by cases ha }

/-- **The handle of a recovered table** is that of its log. -/
theorem Recovering.view (h : Recovering L L [] [] t) (hok : L.Ok) : View t L := by
  have hall : L.summaries.take L.length = L.summaries := by
    rw [← Log.length_summaries, take_length]
  obtain ⟨hseq, htime⟩ := Prod.ext_iff.1 (h.marks (by simp))
  obtain ⟨hpseq, hptime⟩ := Prod.ext_iff.1 h.preserved
  have htallied := h.tallied
  rw [hall] at htallied
  have hsegments : t.segments = L.summaries := by rw [h.segments, hall, append_nil]
  exact
    { ok := hok
      segments := hsegments
      next := h.next
      preservedSequence := hpseq
      preservedTime := hptime
      lastSequence := hseq
      lastTime := htime
      retentionUs := h.retentionUs
      generation := h.generation
      readable := h.readable
      fd := fun s hs hr ↦ (h.writing rfl s hs hr).1
      index := fun s hs hr ↦ (h.writing rfl s hs hr).2.1
      tallied := htallied.congr hsegments rfl
      dictionary := fun s hs hr ↦ (h.writing rfl s hs hr).2.2 }

/-- The outcomes of opening a table. -/
def OpenPost (env : Env Path Dir) (P L : Log c) (tail : Bytes) (fs : Files) :
    Exit Error Unit → Files → Table c → Prop
  | .ok _, fs', t' => L.Clean ∧ Live t' fs' L P L [] ∧ t'.frozen = false ∧ t'.readers = 0 ∧
      Covered L fs fs' ∧ TailSynced L tail fs' ∧ Settled t' fs' L
  | .fail _, fs', _ => (∃ tail', Repaired P L tail fs tail' fs') ∧
      (Undisturbed env uint64Max → ¬ L.Clean)
  | .killed, fs', _ => (∃ tail', Repaired P L tail fs tail' fs') ∧ ¬ Undisturbed env uint64Max

/-- Files of retired segments do not matter. -/
theorem Repaired.cleaned {tail' : Bytes} {fs' fs'' : Files} (h : Repaired P L tail fs tail' fs')
    (hclean : Cleaned L fs' fs'') : Repaired P L tail fs tail' fs'' := by
  have hsame : SameFiles L fs' fs'' :=
    hclean.sameFiles h.disk.ok fun b hb hr ↦ ⟨b, hb, hr, rfl, rfl⟩
  exact ⟨(h.disk.cleaned hclean).1, h.tail_eq,
    h.covered.trans (.of_same fun a ha har ↦ (hsame a ha har).1)⟩

/-- **Recovering a table** whose manifest was loaded. -/
theorem wp_storageRecover (hdisk : OnDisk fs P L tail) {retentionUs generation : ℕ}
    (hret : retentionUs ≤ int64Max) (hgen : 0 < generation ∧ generation < 2 ^ 64) :
    wp storageRecover env (fun e fs' t' ↦ OpenPost env P L tail fs e fs' t' ∧
      ∀ u, e = .ok u → t'.Roomy) ⟨fs, n, (Table.zeroed : Table c).withManifest (P.manifest retentionUs generation)⟩ := by
  unfold storageRecover
  refine wp_bind (wp_modify.2 fun n ↦ ?_)
  refine wp_bind (wp_get.2 fun n ↦ ?_)
  have hstart := recovering_manifest hdisk hret hgen
  obtain ⟨tail₁, hrep, hbefore, hafter⟩ := hdisk.repaired.ready (B := L) fun hL s hs ↦ by
    rw [hL] at hs
    cases hs
  refine wp_bind ((wp_recoverLoop hstart hrep hbefore hafter).mono ?_)
  rintro (_ | e | _) fs' t' hpost
  · obtain ⟨hrec, hrep, hsync⟩ := hpost
    intro n
    refine wp_bind (wp_modify.2 fun n ↦ ?_)
    refine wp_bind (wp_get.2 fun n ↦ ?_)
    have hview := hrec.view hdisk.ok
    obtain ⟨t₁, ht₁⟩ : ∃ t₁ : Table c, t₁ = { t' with
        publishedDictionaryBytes := (t'.dictionary.map (·.allocatedBytes)).getD 0 } := ⟨_, rfl⟩
    have hview₁ : View t₁ L := by
      subst ht₁
      exact ⟨hview.toHandle.congr rfl,
        hview.dictionary⟩
    have hlive : Live t₁ fs' L P L [] :=
      ⟨hview₁, hrep.disk, hrep.disk.backed, .refl L, fun _ ↦ ⟨rfl, rfl⟩⟩
    have hfrozen : t₁.frozen = false := by
      subst ht₁
      exact hrec.frozen
    have hreaders : t₁.readers = 0 := by
      subst ht₁
      exact hrec.readers
    have hroomy : t₁.Roomy := by
      subst ht₁
      exact hrec.capacity
    rw [← ht₁]
    split
    next hpending =>
      refine wp_bind (wp_retentionCleanup hview₁.toHandle
        (fun r fs'' t'' ht'' hclean _ hsettled n ↦ ?_) fun fs'' t'' hcalm hclean _ ↦ ?_)
      · have hrep'' := hrep.cleaned hclean
        have hsame : SameFiles L fs' fs'' :=
          hclean.sameFiles hdisk.ok fun b hb hr ↦ ⟨b, hb, hr, rfl, rfl⟩
        refine wp_pure.2 ⟨⟨hrec.clean, (hlive.cleaned ht'' hclean).1, ?_, ?_, hrep''.covered,
          fun htail s hs hr f hf ↦ ?_, hsettled hreaders hpending⟩, fun _ _ ↦ ?_⟩
        · obtain ⟨_, _, rfl⟩ := ht''
          exact hfrozen
        · obtain ⟨_, _, rfl⟩ := ht''
          exact hreaders
        · exact hsync htail s hs hr f ((hsame s (mem_of_getLast? hs) hr).1 ▸ hf)
        · obtain ⟨_, _, rfl⟩ := ht''
          exact hroomy
      · exact ⟨⟨⟨_, hrep.cleaned hclean⟩, fun hu ↦ hcalm hu.1⟩, nofun⟩
    next hpending =>
      -- without a retired segment there is nothing to remove
      have hnone : t₁.pendingRetention = false := by simpa using hpending
      refine ⟨⟨hrec.clean, hlive, hfrozen, hreaders, hrep.covered, hsync, .inl ⟨hnone, ?_⟩⟩,
        fun _ _ ↦ hroomy⟩
      intro a ha har
      subst ht₁
      rw [hrec.pending hnone a ha] at har
      cases har
  · exact ⟨hpost, nofun⟩
  · exact ⟨hpost, nofun⟩

/-- **Opening a table**, which has room for its readable segments. -/
theorem wp_openTable_roomy (hdisk : OnDisk fs P L tail) :
    wp openTable env (fun e fs' t' ↦ OpenPost env P L tail fs e fs' t' ∧
      ∀ u, e = .ok u → t'.Roomy) ⟨fs, n, (Table.zeroed : Table c)⟩ := by
  obtain ⟨f, retentionUs, generation, hfile, hdata, hret, hgen⟩ := hdisk.recorded
  have hsame : ∃ tail', Repaired P L tail fs tail' fs := ⟨_, hdisk.repaired⟩
  have hfail {fs' : Files} {t' : Table c} {e : Error}
      (hpost : (∃ tail', Repaired P L tail fs tail' fs') ∧ (Undisturbed env uint64Max → ¬ L.Clean))
      (n : ℕ) : wp (if e.code = .notFound then
        wadbFail .corrupt "catalog references missing table metadata" else Prog.fail e) env
        (fun e fs' t' ↦ OpenPost env P L tail fs e fs' t' ∧ ∀ u : Unit, e = .ok u → t'.Roomy)
        ⟨fs', n, t'⟩ := by
    split <;> exact ⟨hpost, nofun⟩
  unfold openTable
  refine wp_bind (wp_attempt.2 (wp_bind (wp_loadManifest hfile hdata
    (hdisk.okP.manifest_ok hret hgen) (fun n ↦ ?_)
    (fun hcalm e _ ↦ hfail ⟨hsame, fun hu ↦ absurd hu.1 hcalm⟩)
    fun hcalm ↦ ⟨⟨hsame, fun hu ↦ hcalm hu.1⟩, nofun⟩)))
  refine (wp_storageRecover hdisk hret hgen).mono ?_
  rintro (_ | e | _) fs' t' hpost
  · exact fun n ↦ hpost
  · exact hfail hpost.1
  · exact hpost

/-- **Opening a table.** In an undisturbed environment it succeeds if the log is clean, and only
then. -/
theorem wp_openTable (hdisk : OnDisk fs P L tail) :
    wp openTable env (OpenPost env P L tail fs) ⟨fs, n, (Table.zeroed : Table c)⟩ :=
  (wp_openTable_roomy hdisk).mono fun _ _ _ hpost ↦ hpost.1

end Open

end WebAnalyticsDb
