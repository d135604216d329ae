import WebAnalyticsDb.Ledger.Rotation

/-!
# Commit

What `wadb_commit_requests` does to the log, for every way it can end. A group becomes one frame behind
the last segment, possibly after a rotation. A definite error leaves the log as it was, up to an empty
segment; an uncertain one leaves the frame there or not, and the table read-only. Each walk also says
why the commit failed (`CommitCause`), for a group with the times of a clock that works.
-/

namespace WebAnalyticsDb

open Bytes List

variable {c : Config}

/-! ### The handle after a frame was published -/

section Handle

variable {t : Table c} {A : Log c} {s : LogSegment c} {e : Entry c}

/-- The state in which a frame may follow the last segment. -/
structure CanAppend (A : Log c) (s : LogSegment c) (g : Group c) : Prop where
  retired : s.retired = false
  frame : FrameOk s.symbols (s.first + s.count) g
  time : Log.time (A ++ [s]) ≤ groupMin g
  day : groupMin g / dayUs = s.day / dayUs
  count : s.entries.length < maxIndexEntries

theorem CanAppend.ok (h : CanAppend A s e.group) (hV : (A ++ [s]).Ok) : (A ++ [s.push e]).Ok := by
  obtain ⟨-, -, hok⟩ := Log.chain_concat.1 hV.chain
  rw [zero_add] at hok
  refine hV.append h.retired (hok.push h.frame ?_ h.day h.count)
  have := h.time
  rwa [Log.time, Log.groups_append, timeThrough_append, Log.groups_cons, Log.groups_nil,
    append_nil] at this

theorem Log.visibleFrom_concat (A : Log c) (s : LogSegment c) :
    Log.visibleFrom 0 (A ++ [s]) = Log.visibleFrom 0 A ++ if s.visible then [A.length] else [] := by
  rw [Log.visibleFrom_append, zero_add]
  simp only [Log.visibleFrom]

/-- **Publication**: the handle of the log with one more frame. -/
theorem Handle.publishFrame (h : Handle t (A ++ [s])) (hcan : CanAppend A s e.group) (n : ℕ) :
    Handle (t.publishFrame (s.summary true) (s.frameOf e.group) (s.frameOf e.group).bytes n)
      (A ++ [s.push e]) := by
  obtain ⟨-, -, hok⟩ := Log.chain_concat.1 h.ok.chain
  rw [zero_add] at hok
  have hlt := hcan.frame.last
  have hpos : groupCount e.group ≠ 0 := hcan.frame.sized.rowCount
  have hfirst := hok.first
  have hlast : u64 ((s.frameOf e.group).firstSequence + (s.frameOf e.group).rowCount - 1) =
      Log.total (A ++ [s.push e]) := by
    have hval : (s.frameOf e.group).firstSequence + (s.frameOf e.group).rowCount - 1 =
        s.first + s.count + groupCount e.group - 1 := rfl
    rw [hval, u64_of_lt (by omega), Log.total_append, Log.total_cons, Log.total_nil,
      LogSegment.count_push]
    omega
  exact
    { ok := hcan.ok h.ok
      segments := by
        simp only [Table.publishFrame, h.segments, Log.summaries_concat, dropLast_concat,
          Frame.length_bytes]
        rw [hok.extend_summary hcan.frame]
      next := by
        simp only [Table.publishFrame, h.next, Log.next, Log.lastId_concat]
        rfl
      preservedSequence := by
        simp only [Table.publishFrame, h.preservedSequence, Log.preserved_rotate A hcan.retired]
        rw [Log.preserved_rotate A (s := s.push e) hcan.retired]
      preservedTime := by
        simp only [Table.publishFrame, h.preservedTime, Log.preserved_rotate A hcan.retired]
        rw [Log.preserved_rotate A (s := s.push e) hcan.retired]
      lastSequence := hlast
      lastTime := by
        rw [Log.time, Log.groups_append, Log.groups_cons, LogSegment.groups_push, Log.groups_nil,
          append_nil, ← append_assoc, timeThrough_concat]
        rfl
      retentionUs := h.retentionUs
      generation := h.generation
      readable := by
        have hvisible : (s.push e).visible = true := by
          simp [LogSegment.visible, LogSegment.push, hcan.retired]
        rw [Log.visibleFrom_concat, hvisible, if_pos rfl]
        have hlen : t.segments.length - 1 = A.length := by
          rw [h.segments, Log.length_summaries, length_append]
          rfl
        have hread := h.readable
        rw [Log.visibleFrom_concat] at hread
        simp only [Table.publishFrame, LogSegment.summary, hread, hlen]
        by_cases hne : s.entries = []
        · rw [if_pos (hok.last_eq_zero.2 hne)]
          simp [LogSegment.visible, hne]
        · rw [if_neg fun h0 ↦ hne (hok.last_eq_zero.1 h0)]
          simp [LogSegment.visible, hne, hcan.retired]
      fd := by
        intro a ha _
        rw [getLast?_concat] at ha
        cases ha
        exact h.fd s (by simp) hcan.retired
      index := by
        intro a ha _
        rw [getLast?_concat] at ha
        cases ha
        simp only [Table.publishFrame, FrameIndex.push, h.index s (by simp) hcan.retired,
          LogSegment.index_push]
        rfl
      tallied := by
        refine h.tallied.publishFrame ?_ ?_ ?_
        · rw [h.segments, Log.getLast?_summaries, getLast?_concat]
          rfl
        · simp [LogSegment.summary, LogSegment.state, hcan.retired]
        · obtain ⟨-, -, hok'⟩ := Log.chain_concat.1 (hcan.ok h.ok).chain
          rw [Frame.length_bytes, hok.extend_summary hcan.frame, hok.rows_summary, hok'.rows_summary,
            LogSegment.count_push]
          rfl }

end Handle

/-! ### Writing a frame -/

section Rules

variable {env : Env Path Dir} {fs : Files} {n k : ℕ} {V A P : Log c} {t t' t₀ : Table c}
variable {s : LogSegment c} {g : Group c} {now : ℤ}

/-- **Writing a frame**: all of it and synchronized, or some of it. -/
theorem wp_writeFrame {μ : Type} {m : μ} {path : Path} {f : File} {p : Bytes}
    (hf : fs path = some f) {Q : Exit Error Unit → Files → μ → Prop}
    (hok : ∀ fs', Replaced path ⟨f.data ++ p, (f.data ++ p).length⟩ fs fs' → Q (.ok ()) fs' m)
    (hno : ¬ env.Calm → ∀ q fs' e, q <+: p → Replaced path ⟨f.data ++ q, f.synced⟩ fs fs' →
      Q (.fail e) fs' m)
    (hkill : ¬ env.Calm → ∀ q k fs', q <+: p → min f.synced f.data.length ≤ k →
      Replaced path ⟨f.data ++ q, k⟩ fs fs' → Q .killed fs' m) :
    wp (writeFrame (some path) p) env Q ⟨fs, n, m⟩ := by
  have happ (q : Bytes) := replaced_appendTo hf q
  have hpre (k : ℕ) : p.take k <+: p := take_prefix k p
  have hall : p <+: p := prefix_refl p
  unfold writeFrame
  refine wp_bind (wp_writeAll (fun n ↦ ?_) (fun hcalm k _ ↦ hno hcalm _ _ _ (hpre k) (happ _))
    fun hcalm k _ ↦ hkill hcalm _ _ _ (hpre k) (min_le_left _ _) (happ _))
  refine wp_syncFile (hok _ (happ p).syncTo) (fun hcalm ↦ hno hcalm _ _ _ hall (happ p))
    (fun hcalm ↦ hkill hcalm _ _ _ hall (min_le_left _ _) (happ p)) fun hcalm ↦ ?_
  refine hkill hcalm _ _ _ hall ?_ (happ p).syncTo
  simp only [length_append]
  omega

/-- A handle that differs in the capacity of its arrays only. -/
def Reserved (t t' : Table c) : Prop :=
  ∃ capacity readableCapacity, t' = { t with
    index := { t.index with capacity := capacity }, readableCapacity := readableCapacity }

theorem Reserved.refl (t : Table c) : Reserved t t := ⟨t.index.capacity, t.readableCapacity, rfl⟩

theorem Reserved.handle (h : Reserved t t') (ht : Handle t V) : Handle t' V := by
  obtain ⟨_, _, rfl⟩ := h
  exact ht.congr rfl

theorem Reserved.dictionary (h : Reserved t t') : t'.dictionary = t.dictionary := by
  obtain ⟨_, _, rfl⟩ := h
  rfl

theorem Reserved.readOnly (h : Reserved t t') : t'.readOnly = t.readOnly := by
  obtain ⟨_, _, rfl⟩ := h
  rfl

/-- Room in the directory of readable segments. The array grows as long as it is full when it does. -/
theorem wp_readableReserve {Q : Exit Error Unit → Files → Table c → Prop}
    (hok : ∀ k, t.readableSegments.length < k → Q (.ok ()) fs { t with readableCapacity := k })
    (hno : ∀ e : Error, e.code ≠ .indeterminate → (e.code = .nomem ∧ ¬ env.Calm ∨
      (t.readableSegments.length ≤ t.readableCapacity → maxSegments ≤ t.readableSegments.length)) →
      Q (.fail e) fs t) :
    wp readableReserve env Q ⟨fs, n, t⟩ := by
  unfold readableReserve
  refine wp_bind ?_
  simp only [wp_get, andThen]
  intro n
  split
  next hlt => exact hok t.readableCapacity hlt
  next hfull =>
    refine wp_bind (wp_require (fun hlt n ↦ ?_) fun hbad ↦ hno _ (by decide) (.inr fun hle ↦ ?_))
    swap
    · have hbad' := of_decide_eq_false hbad
      have hmax : maxSegments = 1000000 := rfl
      split at hbad' <;> omega
    refine wp_bind (wp_allocOr (fun n ↦ ?_) fun hcalm ↦ hno _ (by decide) (.inl ⟨rfl, hcalm⟩))
    exact wp_modify.2 (hok _ (of_decide_eq_true hlt))

/-- The directory of readable segments has room for what is in it. -/
def Table.Roomy (t : Table c) : Prop := t.readableSegments.length ≤ t.readableCapacity

theorem wp_reserveEntry (active : SegmentMeta) {Q : Exit Error Unit → Files → Table c → Prop}
    (hok : ∀ t', Reserved t t' → t.index.count < maxIndexEntries → (t.Roomy → t'.Roomy ∧
        (active.lastSequence = 0 → t'.readableSegments.length < t'.readableCapacity)) →
      Q (.ok ()) fs t')
    (hno : ∀ (e : Error) t', e.code ≠ .indeterminate → Reserved t t' → (t.Roomy → t'.Roomy ∧
        (t.index.count < maxIndexEntries →
          (active.lastSequence = 0 → t.readableSegments.length < maxSegments) → e.Fault env)) →
      Q (.fail e) fs t') :
    wp (reserveEntry active) env Q ⟨fs, n, t⟩ := by
  unfold reserveEntry
  refine wp_bind (wp_get.2 fun n ↦ ?_)
  refine wp_bind (wp_indexReserve (fun k hlt n ↦ ?_) fun e he hcase ↦
    hno e _ he (.refl t) fun hroomy ↦ ⟨hroomy, fun hcount _ ↦ ?_⟩)
  swap
  · rcases hcase with ⟨he, hcalm⟩ | hfull
    · exact .definite hcalm (.inr he)
    · exact absurd hfull (not_le.2 hcount)
  refine wp_bind (wp_modify.2 fun n ↦ ?_)
  split
  next hlast =>
    refine wp_readableReserve (fun k' hlt' ↦ hok _ ⟨k, k', rfl⟩ hlt fun _ ↦ ⟨hlt'.le, fun _ ↦ hlt'⟩)
      fun e he hcase ↦ hno e _ he ⟨k, t.readableCapacity, rfl⟩ fun hroomy ↦ ⟨hroomy, fun _ hroom ↦ ?_⟩
    rcases hcase with ⟨he, hcalm⟩ | hfull
    · exact .definite hcalm (.inr he)
    · exact absurd (hfull hroomy) (not_le.2 (hroom hlast))
  next hlast =>
    exact hok _ ⟨k, t.readableCapacity, rfl⟩ hlt fun hroomy ↦ ⟨hroomy, fun h ↦ absurd h hlast⟩

/-! ### Publication -/

/-- **An append that did not come to its end**: the frame is there or it is not. -/
def Interrupted (fs : Files) (P A : Log c) (s : LogSegment c) (e : Entry c) : Prop :=
  ∃ L tail, OnDisk fs P L tail ∧ (L = A ++ [s] ∨ L = A ++ [s.push e])

/-- A prefix of the frame behind the last segment. -/
theorem interrupted_of_isPrefix {fs' : Files} {e : Entry c}
    {q : Bytes} (hdisk : OnDisk fs P (A ++ [s]) []) (hcan : CanAppend A s e.group)
    (hq : q <+: (s.frameOf e.group).bytes) (hrep : Replaced s.segPath ⟨s.image ++ q, n⟩ fs fs') :
    Interrupted fs' P A s e := by
  by_cases hlen : q.length < (s.frameOf e.group).size
  · exact ⟨_, q, hdisk.interrupted hrep rfl (.inr ⟨_, _, _, hcan.frame, hlen, hq⟩), .inl rfl⟩
  · have hall : q = (s.frameOf e.group).bytes := by
      refine hq.eq_of_length_le ?_
      rw [Frame.length_bytes]
      omega
    rw [hall] at hrep
    exact ⟨_, [], hdisk.appended hcan.retired hrep rfl (hcan.ok hdisk.ok), .inr rfl⟩

/-- The outcomes of the end of both passes. -/
def PublishPost (t : Table c) (fs : Files) (P A : Log c) (s : LogSegment c) (e : Entry c) :
    Exit Error (List AppendReceipt) → Files → Table c → Prop
  | .ok rs, fs', t' => Grown (A ++ [s]) fs fs' ∧ OnDisk fs' P (A ++ [s.push e]) [] ∧
      (∀ f, fs' s.segPath = some f → (s.push e).size ≤ f.synced) ∧
      rs = receipts (s.first + s.count) e.group ∧ ∃ t₁, Reserved t t₁ ∧ t' = t₁.publishFrame
        (s.summary true) (s.frameOf e.group) (s.frameOf e.group).bytes e.group.length
  | .fail er, fs', t' => Grown (A ++ [s]) fs fs' ∧ ∃ t₁, Reserved t t₁ ∧
      (er.code ≠ .indeterminate ∧ fs' = fs ∧ t' = t₁ ∨
        er.code = .indeterminate ∧ t' = { t₁ with readOnly := true } ∧ Interrupted fs' P A s e)
  | .killed, fs', _ => Grown (A ++ [s]) fs fs' ∧ Interrupted fs' P A s e

/-- The outcomes of publishing `bytes` behind the segment `active`. -/
def PublishCause (env : Env Path Dir) (t : Table c) (active : SegmentMeta) (bytes : ℕ) :
    Exit Error (List AppendReceipt) → Files → Table c → Prop
  | .ok _, _, t' => ∃ m, t'.segments = t.segments.dropLast ++ [m] ∧
      m.committedBytes = active.committedBytes + bytes
  | .fail e, _, _ => e.Fault env
  | .killed, _, _ => ¬ env.Calm

/-- A segment without rows finds room in the directory. -/
theorem Handle.readable_lt (h : Handle t (A ++ [s]))
    (hlast : s.last = 0) : t.readableSegments.length < maxSegments := by
  obtain ⟨-, -, hok⟩ := Log.chain_concat.1 h.ok.chain
  have hvisible : s.visible = false := by simp [LogSegment.visible, hok.last_eq_zero.1 hlast]
  have hle := Log.length_visibleFrom_le 0 A
  have hlen := h.ok.length_le
  rw [h.readable, Log.visibleFrom_concat, hvisible]
  simp only [length_append, length_singleton] at hlen
  simp only [Bool.false_eq_true, if_false, append_nil]
  omega

/-- **Reserve, write, synchronize and publish.** -/
theorem wp_publish {e : Entry c} (ht : Handle t (A ++ [s])) (hdisk : OnDisk fs P (A ++ [s]) [])
    (hretired : s.retired = false)
    (hcan : s.entries.length < maxIndexEntries → CanAppend A s e.group) :
    wp (publish e.group (s.frameOf e.group) (s.frameOf e.group).bytes) env (fun er fs' t' ↦
      PublishPost t fs P A s e er fs' t' ∧ (t.Roomy → t'.Roomy ∧ (s.entries.length < maxIndexEntries →
        PublishCause env t (s.summary true) (s.frameOf e.group).bytes.length er fs' t')))
      ⟨fs, n, t⟩ := by
  obtain ⟨f, hf, hdata⟩ := hdisk.active s (by simp) hretired
  rw [append_nil] at hdata
  have hgrown {q : Bytes} {k : ℕ} {fs' : Files} (hk : min f.synced f.data.length ≤ k)
      (hrep : Replaced s.segPath ⟨f.data ++ q, k⟩ fs fs') : Grown (A ++ [s]) fs fs' :=
    .appended ht.ok hretired hf hrep (prefix_append _ _) hk
  have hindex : t.index.count = s.entries.length := by
    rw [FrameIndex.count, ht.index s (by simp) hretired, s.length_index]
  unfold publish
  refine wp_bind (wp_get.2 fun n ↦ ?_)
  simp only [ht.segments, Log.getLast?_summaries, getLast?_concat, Option.map_some]
  refine wp_bind (wp_reserveEntry _ (fun t₁ ht₁ hcount hroom n ↦ ?_) fun er t₁ her ht₁ hcause ↦
    ⟨⟨.refl _ fs, t₁, ht₁, .inl ⟨her, rfl, rfl⟩⟩, fun hroomy ↦ ⟨(hcause hroomy).1, fun hcount ↦
      (hcause hroomy).2 (hindex ▸ hcount) ht.readable_lt⟩⟩)
  have hcan := hcan (hindex ▸ hcount)
  rw [ht.fd s (by simp) hretired]
  refine wp_bind (wp_attempt.2 (wp_writeFrame hf (fun fs' hrep n ↦ ?_)
    (fun hcalm q fs' er hq hrep n ↦ ?_) fun hcalm q k fs' hq hk hrep ↦ ?_))
  · refine wp_bind (wp_modify.2 fun n ↦ wp_pure.2 ?_)
    have hg := hgrown (by simp) hrep
    rw [hdata] at hrep
    refine ⟨⟨hg, hdisk.appended hcan.retired hrep rfl (hcan.ok ht.ok), fun f' hf' ↦ ?_, rfl, t₁, ht₁,
      rfl⟩, fun hroomy ↦ ⟨?_, fun _ ↦ ⟨(s.summary true).extend (s.frameOf e.group) _, ?_, rfl⟩⟩⟩
    · have hf'' : fs' s.segPath = some f' := hf'
      rw [hrep.1] at hf''
      cases hf''
      rw [← LogSegment.length_image, LogSegment.image_push]
    · obtain ⟨hroomy', hlt⟩ := hroom hroomy
      -- the place that was reserved is taken
      simp only [Table.Roomy, Table.publishFrame]
      split
      next hzero =>
        have := hlt hzero
        rw [length_append, length_singleton]
        omega
      next => exact hroomy'
    · obtain ⟨_, _, rfl⟩ := ht₁
      rfl
  · refine wp_bind (wp_modify.2 fun n ↦ Prog.wp_fail.2 ?_)
    have hg := hgrown (min_le_left _ _) hrep
    rw [hdata] at hrep
    exact ⟨⟨hg, t₁, ht₁, .inr ⟨rfl, rfl, interrupted_of_isPrefix hdisk hcan hq hrep⟩⟩,
      fun hroomy ↦ ⟨(hroom hroomy).1, fun _ ↦ ⟨hcalm, .inr (.inr rfl)⟩⟩⟩
  · have hg := hgrown hk hrep
    rw [hdata] at hrep
    exact ⟨⟨hg, interrupted_of_isPrefix hdisk hcan hq hrep⟩, fun hroomy ↦
      ⟨(hroom hroomy).1, fun _ ↦ hcalm⟩⟩

/-! ### Outcomes of a commit -/

/-- The log up to a new empty segment. -/
def Rotates (V W : Log c) : Prop := W = V ∨ ∃ now s, NewSegment V now s ∧ W = V ++ [s]

/-- The log with one more group, the one of call `k`. -/
def Appends (k : ℕ) (g : Group c) (W V : Log c) : Prop :=
  ∃ A s, W = A ++ [s] ∧ s.retired = false ∧ V = A ++ [s.push ⟨k, g⟩]

/-- The rows that are published or recorded are covered by a sync. -/
def Durable (fs : Files) (V P : Log c) : Prop := Synced fs V ∧ Synced fs P

/-- **What only a publication changes** in the handle. -/
structure Quiet (t t' : Table c) : Prop where
  lastSequence : t'.lastSequence = t.lastSequence
  lastTime : t'.lastTime = t.lastTime
  preservedSequence : t'.preservedSequence = t.preservedSequence
  preservedTime : t'.preservedTime = t.preservedTime
  retentionUs : t'.retentionUs = t.retentionUs
  readers : t'.readers = t.readers
  pendingRetention : t'.pendingRetention = t.pendingRetention
  maintenanceStatus : t'.maintenanceStatus = t.maintenanceStatus
  committedFrames : t'.committedFrames = t.committedFrames
  appendRequests : t'.appendRequests = t.appendRequests
  retainedRows : t'.retainedRows = t.retainedRows
  retiredSegments : t'.retiredSegments = t.retiredSegments
  readableSegments : t'.readableSegments = t.readableSegments
  db : t'.db = t.db

theorem Quiet.refl (t : Table c) : Quiet t t := by constructor <;> rfl

theorem Quiet.trans {t'' : Table c} (h : Quiet t t') (h' : Quiet t' t'') : Quiet t t'' := by
  cases h
  cases h'
  constructor <;> simp only [*]

theorem Reserved.quiet (h : Reserved t t') : Quiet t t' := by
  obtain ⟨_, _, rfl⟩ := h
  constructor <;> rfl

theorem Quiet.rollback (t : Table c) (mark : ℕ) : Quiet t (t.rollback mark) := by constructor <;> rfl

/-- Readers, and what is left to clean up, are as before. -/
structure Unmoved (t t' : Table c) : Prop where
  readers : t'.readers = t.readers
  pendingRetention : t'.pendingRetention = t.pendingRetention
  maintenanceStatus : t'.maintenanceStatus = t.maintenanceStatus

theorem Quiet.unmoved (h : Quiet t t') : Unmoved t t' :=
  ⟨h.readers, h.pendingRetention, h.maintenanceStatus⟩

/-- A publication does not change whether the table refuses changes. -/
theorem Table.frozen_publishFrame (t : Table c) (m : SegmentMeta) (f : Frame) (p : Bytes) (n : ℕ) :
    (t.publishFrame m f p n).frozen = t.frozen := by
  have hdb : (t.db.countCommit f p.length n).readOnly = t.db.readOnly := by
    unfold Db.countCommit
    simp only
    split <;> rfl
  rw [Table.frozen, Table.frozen, Table.publishFrame, hdb]

/-- **The database has counted the group** as one frame behind the log `V`. -/
def GroupCounted (g : Group c) (V : Log c) (db db' : Db c) : Prop :=
  ∃ f bytes, db' = db.countCommit f bytes g.length ∧ f.firstSequence = V.total + 1 ∧
    f.rowCount = groupCount g ∧ f.maxTime = groupMax g

/-- **The outcomes of committing a group** as call `k`, from a handle that knows the log on disk.

* Success: the group is at the end of the log, possibly behind a new segment.
* A definite error: nothing has happened, except possibly for a new empty segment.
* An uncertain one: the view is as after a definite error, and the log on disk may have the group or the
  new segment. The table is read-only, unless there was an active segment (whose index could not be
  saved for certain).
* The process was terminated: the log on disk may have the new segment, and then the group. -/
def CommitPost (k : ℕ) (g : Group c) (t : Table c) (fs : Files) (V P : Log c) :
    Exit Error (List AppendReceipt) → Files → Table c → Prop
  | .ok rs, fs', t' => Grown V fs fs' ∧ ∃ W V' P', Rotates V W ∧ Appends k g W V' ∧
      Live t' fs' V' P' V' [] ∧ (Durable fs V P → Durable fs' V' P') ∧
      rs = receipts (V.total + 1) g ∧ t'.frozen = t.frozen ∧ Unmoved t t' ∧ GroupCounted g V t.db t'.db
  | .fail e, fs', t' => Grown V fs fs' ∧ Quiet t t' ∧ ∃ W P' L tail, Rotates V W ∧
      Live t' fs' W P' L tail ∧ (Durable fs V P → Durable fs' W P') ∧
      (e.code ≠ .indeterminate → L = W ∧ tail = [] ∧ t'.readOnly = t.readOnly) ∧
      (e.code = .indeterminate → (Rotates W L ∨ Appends k g W L) ∧
        (t'.readOnly = true ∨ t'.readOnly = t.readOnly ∧ L = W ∧ tail = [] ∧ t.active?.isSome = true))
  | .killed, fs', _ => Grown V fs fs' ∧ ∃ W P' L tail, Rotates V W ∧ OnDisk fs' P' L tail ∧
      (L = W ∨ Appends k g W L) ∧ (Durable fs V P → Synced fs' P')

/-- **The state when a frame is about to be published**: the segment is there, and the dictionary has
the symbols of the group already. -/
structure Staged (g : Group c) (t : Table c) (fs : Files) (V P : Log c) (A : Log c)
    (s : LogSegment c) (P₁ : Log c) (t₁ : Table c) (fs₁ : Files) : Prop where
  rotates : Rotates V (A ++ [s])
  handle : Handle t₁ (A ++ [s])
  dictionary : Holds c t₁.dictionary (symbolsAfter s.symbols g)
  disk : OnDisk fs₁ P₁ (A ++ [s]) []
  grown : Grown V fs fs₁
  durable : Durable fs V P → Durable fs₁ (A ++ [s]) P₁
  quiet : Quiet t t₁
  readOnly : t₁.readOnly = t.readOnly
  retired : s.retired = false
  first : s.first + s.count = V.total + 1
  append : s.entries.length < maxIndexEntries → CanAppend A s g

theorem Staged.grown_trans {t₁ : Table c} {fs₁ fs₂ : Files} {P₁ : Log c}
    (h : Staged g t fs V P A s P₁ t₁ fs₁) (hg : Grown (A ++ [s]) fs₁ fs₂) :
    Grown V fs fs₂ := by
  refine h.grown.trans ?_
  rcases h.rotates with hW | ⟨now, s', -, hW⟩
  · rwa [← hW]
  · rw [hW] at hg
    exact hg.of_concat

theorem frozen_eq (hquiet : Quiet t t') (hro : t'.readOnly = t.readOnly) : t'.frozen = t.frozen := by
  rw [Table.frozen, Table.frozen, hquiet.db, hro]

/-- **Publication, and rolling back when it fails.** -/
theorem wp_publishOrRollback {t₁ : Table c} {fs₁ : Files}
    {P₁ : Log c} (h : Staged g t fs V P A s P₁ t₁ fs₁) :
    wp (publishOrRollback s.symbols.length g (s.frameOf g) (s.frameOf g).bytes) env
      (fun e fs' t' ↦ CommitPost k g t fs V P e fs' t' ∧ (t₁.Roomy → t'.Roomy ∧
        (s.entries.length < maxIndexEntries →
          PublishCause env t₁ (s.summary true) (s.frameOf g).bytes.length e fs' t')))
      ⟨fs₁, n, t₁⟩ := by
  have hrolled {t₂ : Table c} (hd : t₂.dictionary = t₁.dictionary) :
      Holds c (t₂.rollback s.symbols.length).dictionary s.symbols := by
    have := h.dictionary
    rw [symbolsAfter_eq] at this
    rw [Table.rollback, hd]
    exact this.rollback
  have hsynced {fs' : Files} (hg : Grown (A ++ [s]) fs₁ fs') (hD : Durable fs V P) :
      Synced fs' P₁ :=
    hg.synced h.disk.lag.extends h.disk.backed_recorded (h.durable hD).2
  unfold publishOrRollback
  refine wp_bind (wp_attempt.2 ((wp_publish (e := ⟨k, g⟩) h.handle h.disk h.retired
    h.append).mono ?_))
  rintro (rs | e | _) fs' t' ⟨hpost, hcause⟩
  · obtain ⟨hg, hd, hsync, rfl, t₂, ht₂, rfl⟩ := hpost
    refine fun n ↦ wp_pure.2 ⟨?_, hcause⟩
    refine ⟨h.grown_trans hg, A ++ [s], A ++ [s.push ⟨k, g⟩], P₁, h.rotates,
      ⟨A, s, rfl, h.retired, rfl⟩, ?_, fun hD ↦ ⟨?_, hsynced hg hD⟩, by rw [h.first], ?_, ?_, ?_⟩
    · have hcan := h.append (by
        obtain ⟨-, -, hok⟩ := Log.chain_concat.1 hd.ok.chain
        have := hok.count
        simp only [LogSegment.push, length_append, length_singleton] at this
        omega)
      refine ⟨⟨(ht₂.handle h.handle).publishFrame hcan _, fun a ha _ ↦ ?_⟩, hd, hd.backed, .refl _,
        fun _ ↦ ⟨rfl, rfl⟩⟩
      rw [getLast?_concat] at ha
      cases ha
      rw [LogSegment.symbols_push]
      have hdict : (t₂.publishFrame (s.summary true) (s.frameOf g) (s.frameOf g).bytes
        g.length).dictionary = t₁.dictionary := ht₂.dictionary
      exact hdict ▸ h.dictionary
    · refine synced_concat.2 ⟨?_, fun _ ↦ hsync⟩
      exact hg.synced_front (synced_concat.1 (h.durable hD).1).1
    · rw [Table.frozen_publishFrame, frozen_eq ht₂.quiet ht₂.readOnly, frozen_eq h.quiet h.readOnly]
    · obtain ⟨hreaders, hpending, hstatus⟩ := (h.quiet.trans ht₂.quiet).unmoved
      exact ⟨hreaders, hpending, hstatus⟩
    · rw [← (h.quiet.trans ht₂.quiet).db]
      exact ⟨s.frameOf g, _, rfl, h.first, rfl, rfl⟩
  · obtain ⟨hg, t₂, ht₂, hcase⟩ := hpost
    refine fun n ↦ wp_bind (wp_modify.2 fun n ↦ Prog.wp_fail.2 ⟨?_, hcause⟩)
    have hback := hg.backed (.refl _) h.disk.backed
    have hdur (hD : Durable fs V P) : Durable fs' (A ++ [s]) P₁ :=
      ⟨hg.synced (.refl _) h.disk.backed (h.durable hD).1, hsynced hg hD⟩
    have hquiet : Quiet t t₂ := h.quiet.trans ht₂.quiet
    have hhandle := ht₂.handle h.handle
    have hdict : ∀ a ∈ (A ++ [s]).getLast?, a.retired = false →
        Holds c (t₂.rollback s.symbols.length).dictionary a.symbols := by
      intro a ha _
      rw [getLast?_concat] at ha
      cases ha
      exact hrolled ht₂.dictionary
    rcases hcase with ⟨he, rfl, rfl⟩ | ⟨he, rfl, L, tail, hd, hL⟩
    · refine ⟨h.grown_trans hg, hquiet.trans (.rollback _ _), A ++ [s], P₁, A ++ [s], [], h.rotates,
        ⟨⟨hhandle.congr rfl, hdict⟩,
          h.disk, h.disk.backed, .refl _, fun _ ↦ ⟨rfl, rfl⟩⟩, hdur,
        fun _ ↦ ⟨rfl, rfl, ht₂.readOnly.trans h.readOnly⟩, fun hind ↦ absurd hind he⟩
    · refine ⟨h.grown_trans hg, hquiet.trans ?_, A ++ [s], P₁, L, tail, h.rotates,
        ⟨⟨hhandle.congr rfl, hdict⟩, hd, hback, ?_,
          fun hfrozen ↦ ?_⟩, hdur, fun hne ↦ absurd he hne, fun _ ↦ ⟨?_, .inl rfl⟩⟩
      · constructor <;> rfl
      · rcases hL with rfl | rfl
        · exact .refl _
        · exact .append A s _
      · simp [Table.frozen, Table.rollback] at hfrozen
      · rcases hL with rfl | rfl
        · exact .inl (.inl rfl)
        · exact .inr ⟨A, s, rfl, h.retired, rfl⟩
  · obtain ⟨hg, L, tail, hd, hL⟩ := hpost
    refine ⟨?_, hcause⟩
    refine ⟨h.grown_trans hg, A ++ [s], P₁, L, tail, h.rotates, hd, ?_, hsynced hg⟩
    rcases hL with rfl | rfl
    · exact .inl rfl
    · exact .inr ⟨A, s, rfl, h.retired, rfl⟩

/-! ### The two passes -/

theorem LogSegment.total_new (h : NewSegment V now s) :
    Log.total (V ++ [s]) = V.total ∧ Log.time (V ++ [s]) = V.time ∧ s.count = 0 ∧ s.symbols = [] ∧
      s.index = [] ∧ s.visible = false := by
  have hgroups := LogSegment.groups_eq_nil.2 h.entries
  have hcount : s.count = 0 := by rw [LogSegment.count, hgroups, rowTotal_nil]
  refine ⟨by simp [hcount], ?_, hcount, ?_, ?_, ?_⟩
  · rw [Log.time, Log.groups_append, Log.groups_cons, hgroups]
    simp [Log.time]
  · rw [LogSegment.symbols, hgroups]
    rfl
  · rw [LogSegment.index, LogSegment.frames, hgroups]
    rfl
  · simp [LogSegment.visible, h.entries]

/-- The handle after a rotation. -/
theorem Handle.installActive (h : Handle t V)
    (hs : NewSegment V now s) (hgen : t.manifestGeneration ≠ uint64Max) :
    Handle (t.installActive (t.stageActive (s.summary true)) (s.summary true)) (V ++ [s]) := by
  obtain ⟨htotal, htime, -, -, hindex, hvisible⟩ := LogSegment.total_new hs
  exact
    { ok := hs.ok
      segments := by
        rw [Log.summaries_rotate, ← h.segments]
        rfl
      next := by
        rw [Log.next, Log.lastId_concat]
        rfl
      preservedSequence := by
        rw [Log.preserved_rotate V hs.retired]
        exact h.preservedSequence
      preservedTime := by
        rw [Log.preserved_rotate V hs.retired]
        exact h.preservedTime
      lastSequence := htotal ▸ h.lastSequence
      lastTime := htime ▸ h.lastTime
      retentionUs := h.retentionUs
      generation := by
        have := h.generation.2
        unfold uint64Max at hgen
        simp only [Table.installActive, Table.stageActive]
        omega
      readable := by
        rw [Log.visibleFrom_concat, hvisible, if_neg Bool.false_ne_true, append_nil]
        exact h.readable
      fd := by
        intro a ha _
        rw [getLast?_concat] at ha
        cases ha
        rfl
      index := by
        intro a ha _
        rw [getLast?_concat] at ha
        cases ha
        rw [hindex]
        rfl
      tallied := h.tallied.installActive (by simp [LogSegment.summary, LogSegment.state, hs.retired])
        (by simp [LogSegment.summary, LogSegment.last, hs.entries])
        (by simp [LogSegment.summary, LogSegment.size, LogSegment.frames, LogSegment.groups,
          hs.entries, framesFrom, framesSize]) }

/-- A group that the writer may commit behind the log `V`. -/
structure Committable (V : Log c) (g : Group c) : Prop where
  nonneg : 0 ≤ groupMin g
  time : V.time ≤ groupMin g
  total : V.total + groupCount g ≤ uint64Max
  pos : 0 < groupCount g

/-- The state of a pass: the handle of the log on disk, which differs from the one before the commit in
its dictionary only. -/
structure Pass (t₀ t : Table c) (fs : Files) (V P : Log c) : Prop where
  view : View t V
  disk : OnDisk fs P V []
  quiet : Quiet t₀ t
  readOnly : t.readOnly = t₀.readOnly
  active : t.active? = t₀.active?

/-- A pass that fails without having changed anything. -/
theorem Pass.fail (h : Pass t₀ t fs V P) {e : Error} (he : e.code ≠ .indeterminate) :
    CommitPost k g t₀ fs V P (.fail e) fs t :=
  ⟨.refl V fs, h.quiet, V, P, V, [], .inl rfl,
    ⟨h.view, h.disk, h.disk.backed, .refl V, fun _ ↦ ⟨rfl, rfl⟩⟩, id,
    fun _ ↦ ⟨rfl, rfl, h.readOnly⟩, fun hind ↦ absurd hind he⟩

/-- Durability through a rotation. -/
theorem Installed.durable {fs' : Files}
    (h : Installed fs' V now s) (hg : Grown V fs fs') (hb : Backed fs V) (hD : Durable fs V P) :
    Synced fs' V ∧ Synced fs' (V ++ [s]) := by
  have hV := hg.synced (.refl V) hb hD.1
  exact ⟨hV, synced_concat.2 ⟨hV, fun _ ↦ h.synced⟩⟩

/-- **Why a group is not committed**, and what the segments are like when it is: a group that went to a
segment with rows has left it within its target. -/
def CommitCause (env : Env Path Dir) (g : Group c) (t : Table c) :
    Exit Error (List AppendReceipt) → Files → Table c → Prop
  | .ok _, _, t' => t'.segments.length = t.segments.length →
      ∀ m ∈ t.segments.getLast?, m.lastSequence ≠ 0 →
        ∀ m' ∈ t'.segments.getLast?, m'.committedBytes ≤ c.options.segmentTargetBytes
  | .fail e, _, _ => e.Fault env ∨ e.Exhaustion ∨ e.code = .limit ∧ ¬ FitsBehind [] g
  | .killed, _, _ => ¬ env.Calm

/-- What the size checks have left of a group. -/
structure Measured (g : Group c) : Prop where
  orderly : Orderly g
  ne_nil : g ≠ []
  rows : groupCount g * c.schema.rowWidth ≤ maxFrameBytes - 96

/-- **The pass with a new segment.** -/
theorem wp_commitFresh (h : Pass t₀ t fs V P) (hg : Committable V g)
    (hrows : groupCount g * c.schema.rowWidth ≤ maxFrameBytes - 96) :
    wp (commitFresh ⟨V.total + 1, groupMin g, groupMax g, groupCount g,
      groupCount g * c.schema.rowWidth⟩ g) env (fun e fs' t' ↦ CommitPost k g t₀ fs V P e fs' t' ∧
        (t.Roomy → (e ≠ .killed → t'.Roomy) ∧ (Measured g → CommitCause env g t e fs' t')))
      ⟨fs, n, t⟩ := by
  have hfail {e : Error} (he : e.code ≠ .indeterminate)
      (hcause : Measured g → e.Fault env ∨ e.Exhaustion ∨ e.code = .limit ∧ ¬ FitsBehind [] g) :
      CommitPost k g t₀ fs V P (.fail e) fs t ∧ (t.Roomy →
        (Exit.fail (α := List AppendReceipt) e ≠ .killed → t.Roomy) ∧
          (Measured g → CommitCause env g t (.fail e) fs t)) :=
    ⟨h.fail he, fun hroomy ↦ ⟨fun _ ↦ hroomy, hcause⟩⟩
  have htotal := hg.total
  have hpos := hg.pos
  have hu : uint64Max = 2 ^ 64 - 1 := rfl
  unfold commitFresh
  refine wp_bind (wp_dictionaryNew c.schema c.dictionaryLimit_bounds.2
    (fun d hd htight hschema hlimit hbudget n ↦ ?_)
    (fun e he hlt ↦ hfail (by rw [he]; decide) fun _ ↦ .inr (.inr ⟨he, fun hfits ↦ ?_⟩))
    fun e he hcalm ↦ hfail (by rw [he]; decide) fun _ ↦ .inl (.definite hcalm (.inr he)))
  swap
  · have hmono := minAlloc_mono c.schema [] (symbolsAfter [] g)
    have := hfits.budget
    rw [nil_append] at hmono
    omega
  have hroom : V.total + 1 + groupCount g ≤ 2 ^ 64 := by omega
  refine wp_bind (Prog.wp_within.2
    ((wp_prepareFrame hd hschema hlimit (Nat.succ_ne_zero _) hroom hrows).mono ?_))
  rintro (⟨f, p⟩ | e | _) fs' d' ⟨hpost, hcause⟩
  rotate_left
  · obtain ⟨rfl, -, -, -, he⟩ := hpost
    refine fun n ↦ wp_bind (wp_rethrow.2 (hfail he fun hm ↦ ?_))
    rcases hcause hm.orderly hm.ne_nil e rfl with ⟨he, hcalm⟩ | ⟨he, hno⟩
    · exact .inl (.definite hcalm (.inr he))
    · exact .inr (.inr ⟨he, hno htight⟩)
  · exact hpost.elim
  obtain ⟨rfl, hd', hschema', hlimit', hfp, hframe⟩ := hpost
  cases hfp
  intro n
  refine wp_bind (wp_rethrow.2 fun n ↦ ?_)
  have hmin : groupMin g < 2 ^ 63 := by
    have hle : groupMin g ≤ groupMax g := hframe.sized.maxTime
    exact hle.trans_lt (groupMax_bounds g).2
  refine wp_bind ((wp_createActive h.view h.disk fun hlen ↦
    ⟨hg.nonneg, hmin, by omega, hbudget, hlen⟩).mono ?_)
  rintro (_ | e | _) fs₁ t₁ ⟨hpost, hcause⟩
  · obtain ⟨hgrown, hgen, s, hs, rfl⟩ := hpost
    obtain ⟨-, htime, hcount, hsymbols, -, -⟩ := LogSegment.total_new hs.new
    intro n
    refine wp_bind (wp_modify.2 fun n ↦ ?_)
    have hframe' : FrameOk s.symbols (s.first + s.count) g := by
      rw [hsymbols, hcount, hs.new.first]
      exact hframe
    have hfp : groupFrame [] (V.total + 1) g = s.frameOf g := by
      rw [LogSegment.frameOf, hsymbols, hcount, hs.new.first, add_zero]
    have hmark : 0 = s.symbols.length := by rw [hsymbols]; rfl
    rw [hfp, hmark]
    have hhandle : Handle { t.installActive (t.stageActive (s.summary true)) (s.summary true) with
        dictionary := some d' } (V ++ [s]) :=
      (h.view.toHandle.installActive hs.new hgen).congr rfl
    refine (wp_publishOrRollback ⟨.inr ⟨_, s, hs.new, rfl⟩, hhandle, ?_, hs.disk, hgrown, fun hD ↦ ?_,
      ?_, h.readOnly, hs.new.retired, ?_, fun hlen ↦ ⟨hs.new.retired, hframe', ?_, ?_, hlen⟩⟩).mono
      fun e fs₂ t₂ hpost ↦ ⟨hpost.1, fun hroomy ↦ ⟨fun _ ↦ (hpost.2 hroomy).1, fun _ ↦ ?_⟩⟩
    rotate_right
    · have hcause := (hpost.2 hroomy).2 (by simp [hs.new.entries, maxIndexEntries])
      rcases e with rs | e | _
      · obtain ⟨m, hsegments, -⟩ := hcause
        intro hlen
        -- there is one more segment than before
        rw [hsegments, length_append, length_dropLast, hhandle.segments, h.view.segments,
          Log.length_summaries, Log.length_summaries, length_append] at hlen
        simp at hlen
      · exact .inl hcause
      · exact hcause
    · refine ⟨d', rfl, ?_, hschema'.trans hschema, hlimit'.trans hlimit⟩
      rw [hsymbols]
      exact hd'
    · obtain ⟨-, hW⟩ := hs.durable hgrown h.disk.backed hD
      exact ⟨hW, hW⟩
    · exact h.quiet.trans (by constructor <;> rfl)
    · rw [hcount, hs.new.first, add_zero]
    · rw [htime]
      exact hg.time
    · rw [hs.new.day]
      have := hg.nonneg
      unfold dayUs
      omega
  · obtain ⟨hgrown, hcase⟩ := hpost
    have hback := hgrown.backed (.refl V) h.disk.backed
    refine ⟨?_, fun hroomy ↦ ⟨fun _ ↦ ?_, fun _ ↦ hcause.imp_right .inl⟩⟩
    swap
    · rcases hcase with ⟨rfl, -⟩ | ⟨rfl, -⟩ <;> exact hroomy
    rcases hcase with ⟨rfl, hdisk, hind⟩ | ⟨rfl, hind, s, hs⟩
    · refine ⟨hgrown, h.quiet, V, P, V, [], .inl rfl,
        ⟨h.view, hdisk, hback, .refl V, fun _ ↦ ⟨rfl, rfl⟩⟩, fun hD ↦ ⟨?_, ?_⟩,
        fun _ ↦ ⟨rfl, rfl, h.readOnly⟩, fun hi ↦ ⟨.inl (.inl rfl),
          .inr ⟨h.readOnly, rfl, rfl, by rw [← h.active]; exact hind hi⟩⟩⟩
      · exact hgrown.synced (.refl V) h.disk.backed hD.1
      · exact hgrown.synced h.disk.lag.extends h.disk.backed_recorded hD.2
    · refine ⟨hgrown, h.quiet.trans (by constructor <;> rfl), V, V ++ [s], V ++ [s], [], .inl rfl,
        ⟨⟨h.view.toHandle.congr rfl,
          h.view.dictionary⟩, hs.disk, hback, .rotate V s, fun hfrozen ↦ ?_⟩,
        fun hD ↦ hs.durable hgrown h.disk.backed hD, fun hne ↦ absurd hind hne,
        fun _ ↦ ⟨.inl (.inr ⟨_, s, hs.new, rfl⟩), .inl rfl⟩⟩
      simp [Table.frozen] at hfrozen
  · obtain ⟨hgrown, hcase⟩ := hpost
    refine ⟨?_, fun _ ↦ ⟨fun he ↦ absurd rfl he, fun _ ↦ hcause⟩⟩
    rcases hcase with hdisk | ⟨s, hs⟩
    · exact ⟨hgrown, V, P, V, [], .inl rfl, hdisk, .inl rfl, fun hD ↦
        hgrown.synced h.disk.lag.extends h.disk.backed_recorded hD.2⟩
    · exact ⟨hgrown, V ++ [s], V ++ [s], V ++ [s], [], .inr ⟨_, s, hs.new, rfl⟩, hs.disk,
        .inl rfl, fun hD ↦ (hs.durable hgrown h.disk.backed hD).2⟩

/-- A pass whose symbols are taken back. -/
theorem Pass.rolledBack
    (h : Pass t₀ t fs (A ++ [s]) P) {d : Dictionary} {U : Symbols} (hd : d.Rep (s.symbols ++ U))
    (hschema : d.schema = c.schema) (hlimit : d.limit = c.options.dictionaryLimitBytes) :
    Pass t₀ ({ t with dictionary := some d }.rollback s.symbols.length) fs (A ++ [s]) P where
  view := by
    refine ⟨h.view.toHandle.congr rfl, fun a ha _ ↦ ?_⟩
    rw [getLast?_concat] at ha
    cases ha
    exact Holds.rollback (T := U) ⟨d, rfl, hd, hschema, hlimit⟩
  disk := h.disk
  quiet := h.quiet.trans (by constructor <;> rfl)
  readOnly := h.readOnly
  active := h.active

/-- **The pass in the active segment.** -/
theorem wp_commitActive (h : Pass t t fs (A ++ [s]) P) (hg : Committable (A ++ [s]) g)
    (hrows : groupCount g * c.schema.rowWidth ≤ maxFrameBytes - 96)
    (hs : s.retired = false) (hday : s.day = groupMin g - groupMin g % dayUs)
    (hcount : s.entries.length < maxIndexEntries) :
    wp (commitActive ⟨Log.total (A ++ [s]) + 1, groupMin g, groupMax g, groupCount g,
      groupCount g * c.schema.rowWidth⟩ (s.summary true) g) env (fun e fs' t' ↦
        CommitPost k g t fs (A ++ [s]) P e fs' t' ∧
          (t.Roomy → (e ≠ .killed → t'.Roomy) ∧ (Measured g → CommitCause env g t e fs' t')))
      ⟨fs, n, t⟩ := by
  have htotal := hg.total
  have hu : uint64Max = 2 ^ 64 - 1 := rfl
  obtain ⟨-, -, hsok⟩ := Log.chain_concat.1 h.view.ok.chain
  have hfirst : s.first + s.count = Log.total (A ++ [s]) + 1 := by
    rw [Log.total_append, Log.total_cons, Log.total_nil, hsok.first]
    omega
  obtain ⟨d, hdict, hd, hschema, hlimit⟩ := h.view.dictionary s (by simp) hs
  unfold commitActive
  refine wp_bind (wp_get.2 fun n ↦ ?_)
  simp only [hdict]
  have hroom : Log.total (A ++ [s]) + 1 + groupCount g ≤ 2 ^ 64 := by omega
  refine wp_bind (Prog.wp_within.2
    ((wp_prepareFrame hd hschema hlimit (Nat.succ_ne_zero _) hroom hrows).mono ?_))
  rintro (⟨f, p⟩ | e | _) fs' d' ⟨hpost, hcause⟩
  rotate_left
  · obtain ⟨rfl, ⟨U, hU⟩, hschema', hlimit', he⟩ := hpost
    have hpass := h.rolledBack hU (hschema'.trans hschema) (hlimit'.trans hlimit)
    intro n
    refine wp_bind (wp_modify.2 fun n ↦ ?_)
    refine wp_bind (wp_modify.2 fun n ↦ ?_)
    rw [hd.count_eq]
    split
    · exact wp_commitFresh hpass hg hrows
    next hne =>
      refine Prog.wp_fail.2 ⟨hpass.fail he, fun hroomy ↦ ⟨fun _ ↦ hroomy, fun hm ↦ ?_⟩⟩
      rcases hcause hm.orderly hm.ne_nil e rfl with ⟨he, hcalm⟩ | ⟨he, -⟩
      · exact .inl (.definite hcalm (.inr he))
      · exact absurd he hne
  · exact hpost.elim
  obtain ⟨rfl, hd', hschema', hlimit', hfp, hframe⟩ := hpost
  cases hfp
  intro n
  refine wp_bind (wp_modify.2 fun n ↦ ?_)
  simp only [hd.count_eq]
  split
  · refine wp_bind (wp_modify.2 fun n ↦ ?_)
    refine wp_commitFresh (h.rolledBack (U := (symbolsAfter s.symbols g).drop s.symbols.length) ?_
      (hschema'.trans hschema) (hlimit'.trans hlimit)) hg hrows
    rwa [← symbolsAfter_eq]
  next hfits =>
    have hfp : groupFrame s.symbols (Log.total (A ++ [s]) + 1) g = s.frameOf g := by
      rw [LogSegment.frameOf, hfirst]
    rw [hfp]
    have hhandle : Handle { t with dictionary := some d' } (A ++ [s]) :=
      h.view.toHandle.congr rfl
    refine (wp_publishOrRollback (t := t) ⟨.inl rfl, hhandle,
      ⟨d', rfl, hd', hschema'.trans hschema, hlimit'.trans hlimit⟩, h.disk, .refl _ _, id,
      (by constructor <;> rfl), rfl, hs, hfirst,
      fun hlen ↦ ⟨hs, by rwa [hfirst], hg.time, ?_, hlen⟩⟩).mono
      fun e fs₂ t₂ hpost ↦ ⟨hpost.1, fun hroomy ↦ ⟨fun _ ↦ (hpost.2 hroomy).1, fun _ ↦ ?_⟩⟩
    · rw [hday]
      have := hg.nonneg
      unfold dayUs
      omega
    · have hcause := (hpost.2 hroomy).2 hcount
      rcases e with rs | e | _
      · obtain ⟨m, hsegments, hbytes⟩ := hcause
        intro _ m₀ hm₀ hrows m' hm'
        rw [hsegments, getLast?_concat] at hm'
        cases hm'
        rw [h.view.segments, Log.getLast?_summaries, getLast?_concat] at hm₀
        cases hm₀
        simp only [tooLarge, Bool.and_eq_true, Bool.or_eq_true, decide_eq_true_eq, not_and, not_or,
          not_le, not_lt] at hfits
        have := hfits hrows
        rw [hfp] at this
        omega
      · exact .inl hcause
      · exact hcause

/-- A group whose size cannot be computed is too large. -/
theorem groupTotals_eq_none {total : ℕ × ℕ} (h : groupTotals total g = none) :
    uint64Max < total.1 + groupCount g ∨ uint64Max < total.2 + groupCount g * c.schema.rowWidth := by
  induction g generalizing total with
  | nil => cases h
  | cons r g ih =>
    obtain ⟨rows, bytes⟩ := total
    rw [groupCount_cons, add_mul]
    unfold groupTotals at h
    split at h
    next rows' bytes' hrows hbytes =>
      unfold addSize at hrows hbytes
      split at hrows <;> cases hrows
      split at hbytes <;> cases hbytes
      have := ih h
      simp only [AppendRequest.rowBytes] at this ⊢
      omega
    next hnone =>
      unfold addSize at hnone
      by_cases hrows : rows > uint64Max - r.rowCount
      · exact .inl (by simp only; omega)
      · by_cases hbytes : bytes > uint64Max - r.rowBytes
        · exact .inr (by simp only [AppendRequest.rowBytes] at hbytes ⊢; omega)
        · exact absurd (if_neg hbytes) (hnone _ _ (if_neg hrows))

/-- **Committing a group**, and why it fails. The directory of readable segments stays roomy. A table that refuses changes is left alone. A group that was
stamped with a negative time, because the clock had failed, is refused. -/
theorem wp_commitRequests_causes {L : Log c} {tail : Bytes} (h : Live t fs V P L tail)
    (htime : 0 ≤ groupMin g → V.time ≤ groupMin g) :
    wp (commitRequests g) env (fun e fs' t' ↦
      (t.frozen = true ∧ fs' = fs ∧ t' = t ∧ (∃ er : Error, e = .fail er ∧ er.code ≠ .indeterminate) ∨
        t.frozen = false ∧ CommitPost k g t fs V P e fs' t') ∧
      (t.Roomy → (e ≠ .killed → t'.Roomy) ∧
        (t.frozen = false → Orderly g → g ≠ [] → CommitCause env g t e fs' t'))) ⟨fs, n, t⟩ := by
  have hmax : maxFrameBytes = 1048576 := rfl
  have hu : uint64Max = 2 ^ 64 - 1 := rfl
  have hu' : uint32Max = 2 ^ 32 - 1 := rfl
  -- before anything is done
  have hfail {e : Error} (he : e.code ≠ .indeterminate) (hcause : t.frozen = false → Orderly g →
        g ≠ [] → e.Fault env ∨ e.Exhaustion ∨ e.code = .limit ∧ ¬ FitsBehind [] g) :
      (t.frozen = true ∧ fs = fs ∧ t = t ∧
          (∃ er : Error, (.fail e : Exit Error (List AppendReceipt)) = .fail er ∧
            er.code ≠ .indeterminate) ∨
        t.frozen = false ∧ CommitPost k g t fs V P (.fail e) fs t) ∧
      (t.Roomy → (Exit.fail (α := List AppendReceipt) e ≠ .killed → t.Roomy) ∧
        (t.frozen = false → Orderly g → g ≠ [] → CommitCause env g t (.fail e) fs t)) := by
    refine ⟨?_, fun hroomy ↦ ⟨fun _ ↦ hroomy, hcause⟩⟩
    cases hfrozen : t.frozen with
    | true => exact .inl ⟨rfl, rfl, rfl, e, rfl, he⟩
    | false =>
      obtain ⟨rfl, rfl⟩ := h.current hfrozen
      exact .inr ⟨rfl, Pass.fail ⟨h.view, h.disk, .refl t, rfl, rfl⟩ he⟩
  have hcountLe : groupCount g ≤ groupCount g * c.schema.rowWidth :=
    Nat.le_mul_of_pos_right _ c.layout.rowWidth_pos
  have hlarge (m : String) (hlt : maxFrameBytes - 96 < groupCount g * c.schema.rowWidth) :=
    hfail (e := ⟨.limit, m⟩) nofun fun _ _ _ ↦ .inr (.inr ⟨rfl, fun hfits ↦ by
      have := hfits.size
      omega⟩)
  unfold commitRequests
  cases htotals : groupTotals (0, 0) g with
  | none =>
    refine hlarge _ ?_
    have := groupTotals_eq_none htotals
    simp only at this
    omega
  | some totals =>
    obtain ⟨rowCount, rowBytes⟩ := totals
    obtain ⟨hcount, hbytes⟩ := groupTotals_eq htotals
    rw [zero_add] at hcount hbytes
    subst hcount hbytes
    by_cases hne : g = []
    · subst hne
      exact hfail (by decide) fun _ _ hne ↦ absurd rfl hne
    have hhead : g.head? = some (g.head hne) := head?_eq_some_head hne
    have hlast : g.getLast? = some (g.getLast hne) := getLast?_eq_some_getLast hne
    have hmin : groupMin g = (g.head hne).ingestionTime := by rw [groupMin, hhead]; rfl
    have hmax' : groupMax g = (g.getLast hne).ingestionTime := by rw [groupMax, hlast]; rfl
    simp only [hhead, hlast]
    refine wp_bind (wp_require (fun hsize n ↦ ?_) fun hno ↦ hlarge _ ?_)
    swap
    · rw [Bool.and_eq_false_iff, decide_eq_false_iff_not, decide_eq_false_iff_not] at hno
      omega
    simp only [Bool.and_eq_true, decide_eq_true_eq] at hsize
    refine wp_bind (wp_require (fun hclock n ↦ ?_) fun hno ↦ hfail (by decide) fun _ hg _ ↦ ?_)
    swap
    · have hclock := hg.clock hne
      rw [hmin, hmax', hno] at hclock
      cases hclock
    refine wp_bind (wp_allocOr (fun n ↦ ?_) fun hcalm ↦ hfail (by decide) fun _ _ _ ↦
      .inl (.nomem hcalm _))
    refine wp_bind (wp_get.2 fun n ↦ ?_)
    refine wp_bind (wp_require (fun hfrozen n ↦ ?_) fun hno ↦ hfail (by decide) fun hfrozen _ _ ↦
      by simp [hfrozen] at hno)
    refine wp_bind (wp_require (fun hroom n ↦ ?_) fun _ ↦ hfail (by decide) fun _ _ _ ↦
      .inr (.inl (.inl rfl)))
    have hfrozen' : t.frozen = false := by simpa using hfrozen
    obtain ⟨rfl, rfl⟩ := h.current hfrozen'
    have hroom' := of_decide_eq_true hroom
    simp only [groupClock, Bool.and_eq_true, decide_eq_true_eq] at hclock
    rw [h.view.lastSequence] at hroom'
    have hpos := groupCount_pos hne
    have hcommit : Committable V g :=
      ⟨hmin ▸ hclock.1.1, htime (hmin ▸ hclock.1.1), by omega, hpos⟩
    have hpass : Pass t t fs V P := ⟨h.view, h.disk, .refl t, rfl, rfl⟩
    rw [← hmin, ← hmax', h.view.lastSequence, u64_of_lt (by omega)]
    refine Prog.wp.mono (Q := fun e fs' t' ↦ CommitPost k g t fs V P e fs' t' ∧
      (t.Roomy → (e ≠ .killed → t'.Roomy) ∧ (Measured g → CommitCause env g t e fs' t'))) ?_
      fun e fs' t' hpost ↦ ⟨.inr ⟨hfrozen', hpost.1⟩, fun hroomy ↦ ⟨(hpost.2 hroomy).1,
        fun _ hg hne ↦ (hpost.2 hroomy).2 ⟨hg, hne, hsize.1⟩⟩⟩
    cases hactive : t.active? with
    | none => exact wp_commitFresh hpass hcommit hsize.1
    | some active =>
      simp only
      split
      · exact wp_commitFresh hpass hcommit hsize.1
      next hfresh =>
        obtain ⟨A, s, rfl, hs, rfl⟩ := h.view.active?_some hactive
        simp only [Table.needsFresh, hactive, Bool.or_eq_true, decide_eq_true_eq, not_or, not_not,
          not_le] at hfresh
        obtain ⟨hday, hindex⟩ := hfresh
        rw [FrameIndex.count, h.view.index s (by simp) hs, s.length_index] at hindex
        exact wp_commitActive hpass hcommit hsize.1 hs hday hindex

/-- **Committing a group.** -/
theorem wp_commitRequests {L : Log c}
    {tail : Bytes} (h : Live t fs V P L tail) (htime : 0 ≤ groupMin g → V.time ≤ groupMin g) :
    wp (commitRequests g) env (fun e fs' t' ↦
      t.frozen = true ∧ fs' = fs ∧ t' = t ∧ (∃ er : Error, e = .fail er ∧ er.code ≠ .indeterminate) ∨
        t.frozen = false ∧ CommitPost k g t fs V P e fs' t') ⟨fs, n, t⟩ :=
  (wp_commitRequests_causes h htime).mono fun _ _ _ hpost ↦ hpost.1

/-- A table that refuses changes, or a clock that has failed: the group is refused. -/
theorem wp_commitRequests_refused (h : t.frozen = true ∨ groupMin g < 0) :
    wp (commitRequests g) env (fun e fs' t' ↦ fs' = fs ∧ t' = t ∧ ∃ er : Error, e = .fail er ∧
      (er.code = .limit ∨ er.code = .io ∨ er.code = .nomem ∨ er.code = .readOnly)) ⟨fs, n, t⟩ := by
  have hfail {e : Error} (he : e.code = .limit ∨ e.code = .io ∨ e.code = .nomem ∨ e.code = .readOnly) :
      fs = fs ∧ t = t ∧ ∃ er : Error, (.fail e : Exit Error (List AppendReceipt)) = .fail er ∧
        (er.code = .limit ∨ er.code = .io ∨ er.code = .nomem ∨ er.code = .readOnly) :=
    ⟨rfl, rfl, e, rfl, he⟩
  unfold commitRequests
  cases groupTotals (0, 0) g with
  | none => exact hfail (by simp)
  | some totals =>
    obtain ⟨rowCount, rowBytes⟩ := totals
    cases hhead : g.head? with
    | none => exact hfail (by simp)
    | some first =>
      cases hlast : g.getLast? with
      | none => exact hfail (by simp)
      | some last =>
        have hmin : groupMin g = first.ingestionTime := by rw [groupMin, hhead]; rfl
        simp only
        refine wp_bind (wp_require (fun _ n ↦ ?_) fun _ ↦ hfail (by simp))
        refine wp_bind (wp_require (fun hclock n ↦ ?_) fun _ ↦ hfail (by simp))
        refine wp_bind (wp_allocOr (fun n ↦ ?_) fun _ ↦ hfail (by simp))
        refine wp_bind (wp_get.2 fun n ↦ ?_)
        refine wp_bind (wp_require (fun hfrozen n ↦ ?_) fun _ ↦ hfail (by simp))
        simp only [groupClock, Bool.and_eq_true, decide_eq_true_eq] at hclock
        rcases h with h | h
        · rw [h] at hfrozen
          cases hfrozen
        · omega

end Rules

end WebAnalyticsDb
