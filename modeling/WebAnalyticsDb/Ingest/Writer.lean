import Mathlib.Algebra.BigOperators.Group.List.Basic
import Mathlib.Data.List.Perm.Basic
import WebAnalyticsDb.Foundation.Machine
import WebAnalyticsDb.System.Site

/-!
# The ingestion queue

`ingest/writer.c`: producers reserve memory, stage their rows and put a request into the queue of the
database; one writer takes requests out of it in batches, commits them and wakes the producers.

* **A call is a number.** `admitted` counts the calls that passed the argument checks and found the
  database open, and gives each its number. From then on the call is in exactly one place: staging its
  rows, in the queue, with the writer, or answered.
* **Splitting is a stack.** `commit_group` commits a batch in one frame, or its halves one after the other
  if that is too large. The writer's phase has the groups that are still to be committed, first one first,
  and the requests that have their answer already.
* **What is committed is committed to a site.** The writer runs `wadb_commit_requests` on the table as it
  then is; `Ingest.site` has all tables, and other calls change them in between.
-/

namespace WebAnalyticsDb

open List

/-! ### Calls -/

section Calls

variable {c : Config}

/-- The arguments of `wadb_append_batch`. -/
structure Batch (c : Config) where
  values : List (List Value)
  /-- Every row has a value per user field. -/
  shape : ∀ v ∈ values, v.length = c.schema.userFields.length

/-- A batch that passed the argument checks. -/
structure Preparation (c : Config) extends Batch c where
  startedNs : ℕ
  nonempty : values ≠ []
  fits : values.length * c.schema.rowWidth ≤ maxFrameBytes - 96

theorem mulSize_eq_some {a b n : ℕ} (h : mulSize a b = some n) : n = a * b := by
  unfold mulSize at h
  split at h
  · cases h
  · exact (Option.some.inj h).symm

/-- The argument checks of `wadb_append_batch`. -/
def Batch.check (b : Batch c) (startedNs : ℕ) : Except Error (Preparation c) :=
  if hcount : b.values = [] ∨ uint32Max < b.values.length then
    .error ⟨.invalid, "table and nonempty row batch required"⟩
  else
    match hsize : mulSize b.values.length c.schema.rowWidth with
    | none => .error ⟨.limit, "append exceeds frame limit"⟩
    | some rowBytes =>
      if hfits : maxFrameBytes - 96 < rowBytes then .error ⟨.limit, "append exceeds frame limit"⟩
      else .ok ⟨b, startedNs, fun h ↦ hcount (Or.inl h), mulSize_eq_some hsize ▸ Nat.le_of_not_lt hfits⟩

/-- `row_bytes`. -/
def Preparation.rowBytes (p : Preparation c) : ℕ := p.values.length * c.schema.rowWidth

/-- `charge`. -/
def Preparation.charge (p : Preparation c) : ℕ := p.rowBytes + AppendRequest.sizeof

/-- The staging loop: every row is encoded. -/
def encodeRows (c : Config) : List (List Value) → Except Error (List Bytes)
  | [] => .ok []
  | v :: values =>
    match encodeRow c.schema v 0 (some validateSymbol) with
    | .error e => .error e
    | .ok row =>
      match encodeRows c values with
      | .error e => .error e
      | .ok rows => .ok (row :: rows)

/-- The rows are the encodings of the values. -/
theorem encodeRows_eq_ok {values : List (List Value)} {rows : List Bytes}
    (h : encodeRows c values = .ok rows) :
    List.Forall₂ (fun v row ↦ encodeRow c.schema v 0 (some validateSymbol) = .ok row) values rows := by
  induction values generalizing rows with
  | nil =>
    cases h
    exact .nil
  | cons v values ih =>
    rw [encodeRows] at h
    split at h
    · cases h
    next row hrow =>
      split at h
      · cases h
      next rest hrest =>
        cases h
        exact .cons hrow (ih hrest)

/-- Staging: a buffer, the rows, and a condition to wait for. -/
def Preparation.stage (p : Preparation c) (alloc condition : Bool) (submittedNs : ℕ) :
    Except Error (AppendRequest c) :=
  if alloc then
    match h : encodeRows c p.values with
    | .error e => .error e
    | .ok rows =>
      if condition then .ok
        { values := p.values
          rows := rows
          submittedNs := submittedNs
          startedNs := p.startedNs
          ingestionTime := 0
          time_bounds := by decide
          nonempty := p.nonempty
          shape := p.shape
          encoded := encodeRows_eq_ok h
          fits := p.fits }
      else .error ⟨.io, "append completion condition"⟩
  else .error ⟨.nomem, "append staging buffer"⟩

/-- A staged request has the rows of the batch. -/
theorem Preparation.values_stage {p : Preparation c} {alloc condition : Bool} {submittedNs : ℕ}
    {r : AppendRequest c} (h : p.stage alloc condition submittedNs = .ok r) : r.values = p.values := by
  unfold stage at h
  split at h
  · split at h
    · cases h
    · split at h
      · cases h
        rfl
      · cases h
  · cases h

/-- A request with the number of its call. -/
structure Ticket (c : Config) where
  call : ℕ
  request : AppendRequest c

/-- The request with the timestamp the writer assigned. -/
def Ticket.stamp (x : Ticket c) (time : ℤ) : Ticket c := ⟨x.call, x.request.stamp time⟩

/-- What a call has reserved. -/
def Ticket.reservation (x : Ticket c) : ℕ × ℕ := (x.call, x.request.charge)

end Calls

/-- The answer of a call that was not cancelled. -/
inductive CallOutcome
  /-- It did not come into the queue. -/
  | rejected (e : Error)
  /-- The writer has answered. -/
  | answered (r : Except Error AppendReceipt)

/-! ### Producers and the writer -/

section Machine

variable {κ : Type}

/-- A call that stages its rows. -/
structure Staging (C : Catalogue κ) where
  call : ℕ
  table : κ
  batch : Preparation (C.table table)

/-- A request in the queue. -/
structure Queued (C : Catalogue κ) where
  table : κ
  ticket : Ticket (C.table table)

/-- `writer_main`. -/
inductive WriterPhase (C : Catalogue κ)
  | waiting
  /-- Committing requests of one table: the groups to commit, and what is done. -/
  | committing (i : κ) (groups : List (List (Ticket (C.table i))))
      (done : List (Ticket (C.table i) × Except Error AppendReceipt))
  | ended

/-- **Producers, queue and writer of a database.** `writer_started` falls only after `stopping` was set,
so that `stopping` says what both do. -/
structure Ingest (C : Catalogue κ) where
  site : (i : κ) → Site (C.table i)
  stopping : Bool
  queueBytes : ℕ
  readyBytes : ℕ
  rejectedAppends : ℕ
  failedAppends : ℕ
  appendRequests : ℕ
  clockAdjustments : ℕ
  staging : List (Staging C)
  queue : List (Queued C)
  writer : WriterPhase C
  /-- The process was terminated. -/
  dead : Bool
  admitted : ℕ
  outcomes : List (ℕ × CallOutcome)

/-- What can happen. -/
inductive IngestMove (C : Catalogue κ)
  /-- `wadb_append_batch` up to its reservation. -/
  | call (i : κ) (b : Batch (C.table i)) (startedNs : ℕ)
  /-- Its staging, and its request is enqueued or given up. -/
  | stage (k : ℕ) (alloc condition : Bool) (submittedNs : ℕ)
  /-- The writer forms a batch, with these readings of the clock. -/
  | dequeue (clock : ℕ → ℤ)
  /-- It commits the next group. -/
  | commit (env : Env Path Dir)
  /-- It answers the requests of the batch. -/
  | complete
  /-- `wadb_writer_stop`. -/
  | stop
  /-- The writer returns. -/
  | exit
  /-- Another call on a table. -/
  | other (i : κ) (env : Env Path Dir) (a : Action (C.table i))

/-- What the loop that forms a batch remembers. -/
structure Intake where
  count : ℕ
  bytes : ℕ
  previous : ℤ
  day : ℤ

/-- What was taken out of the queue, what is left, and how often the clock was adjusted. -/
structure Formed (C : Catalogue κ) (i : κ) where
  taken : List (Ticket (C.table i))
  rest : List (Queued C)
  adjustments : ℕ

variable [DecidableEq κ] {C : Catalogue κ}

/-- `previous` if the clock went back, and whether it did. -/
def adjust (previous now : ℤ) : ℤ × ℕ :=
  if 0 ≤ now ∧ now < previous then (previous, 1) else (now, 0)

/-- **The loop that forms a batch** of requests of the table `i`. -/
def formBatch (i : κ) (clock : ℕ → ℤ) : Intake → List (Queued C) → Formed C i
  | _, [] => ⟨[], [], 0⟩
  | w, ⟨j, x⟩ :: queue =>
    if h : j = i then
      if 64 ≤ w.count ∨ w.count ≠ 0 ∧ (C.options.batchTargetBytes ≤ w.bytes ∨
          maxFrameBytes - 96 - w.bytes < x.request.rowBytes) then
        ⟨[], ⟨j, x⟩ :: queue, 0⟩
      else
        -- the clock is read once per request, also for one that stays in the queue
        let (now, adjustments) := adjust w.previous (i64OfBits (i64Bits (clock w.count)))
        if w.count ≠ 0 ∧ (now < 0 ∨ now / dayUs ≠ w.day) then ⟨[], ⟨j, x⟩ :: queue, adjustments⟩
        else if now < 0 then ⟨[h ▸ x.stamp now], queue, adjustments⟩
        else
          let b := formBatch i clock
            ⟨w.count + 1, w.bytes + x.request.rowBytes, now, now / dayUs⟩ queue
          ⟨(h ▸ x.stamp now) :: b.taken, b.rest, adjustments + b.adjustments⟩
    else ⟨[], ⟨j, x⟩ :: queue, 0⟩

namespace Ingest

/-- The handle of a table has the last time. -/
def lastTime (s : Ingest C) (i : κ) : ℤ := ((s.site i).process.map Table.lastTime).getD 0

/-- Count the requests that have failed. -/
def countFailed {c : Config} (n : ℕ) (done : List (Ticket c × Except Error AppendReceipt)) : ℕ :=
  done.foldl (fun n x ↦ if x.2.isOk then n else u64 (n + 1)) n

/-- The writer commits a group: its requests have an answer, or the group is split. -/
def commitGroup (s : Ingest C) (env : Env Path Dir) (i : κ) (g : List (Ticket (C.table i)))
    (groups : List (List (Ticket (C.table i))))
    (done : List (Ticket (C.table i) × Except Error AppendReceipt)) : Ingest C :=
  match (s.site i).process with
  | none => s
  | some t =>
    let r := (s.site i).run env t (commitRequests (g.map Ticket.request))
    let site := (s.site i).serve env t (.commit (g.map Ticket.request))
    let s := { s with site := Function.update s.site i site }
    match r.1 with
    | .killed => { s with dead := true }
    | .ok receipts => { s with
        appendRequests := u64 (s.appendRequests + g.length)
        writer := .committing i groups (done ++ g.zip (receipts.map .ok)) }
    | .fail e =>
      if e.code = .limit ∧ 1 < g.length then
        let half := g.length / 2
        { s with writer := .committing i (g.take half :: g.drop half :: groups) done }
      else { s with writer := .committing i groups (done ++ g.map fun x ↦ (x, .error e)) }

/-- One step of a process that runs. -/
def act (s : Ingest C) : IngestMove C → Ingest C
  | .call i b startedNs =>
    match b.check startedNs with
    | .error _ => s
    | .ok p =>
      if s.stopping then s
      else if u64Sub C.options.queueLimitBytes s.queueBytes < p.charge then
        { s with
          rejectedAppends := u64 (s.rejectedAppends + 1)
          admitted := s.admitted + 1
          outcomes := (s.admitted, .rejected ⟨.backpressure, "ingestion queue byte limit reached"⟩) ::
            s.outcomes }
      else
        { s with
          queueBytes := u64 (s.queueBytes + p.charge)
          admitted := s.admitted + 1
          staging := ⟨s.admitted, i, p⟩ :: s.staging }
  | .stage k alloc condition submittedNs =>
    match s.staging[k]? with
    | none => s
    | some x =>
      match x.batch.stage alloc condition submittedNs with
      | .ok r =>
        { s with
          staging := s.staging.eraseIdx k
          queue := s.queue ++ [⟨x.table, x.call, r⟩]
          readyBytes := u64 (s.readyBytes + r.rowBytes) }
      | .error e =>
        { s with
          staging := s.staging.eraseIdx k
          queueBytes := u64Sub s.queueBytes x.batch.charge
          rejectedAppends := u64 (s.rejectedAppends + 1)
          outcomes := (x.call, .rejected e) :: s.outcomes }
  | .dequeue clock =>
    match s.writer, s.queue with
    | .waiting, x :: queue =>
      let b := formBatch x.table clock ⟨0, 0, s.lastTime x.table, -1⟩ (x :: queue)
      { s with
        queue := b.rest
        readyBytes := b.taken.foldl (fun n y ↦ u64Sub n y.request.rowBytes) s.readyBytes
        clockAdjustments := u64 (s.clockAdjustments + b.adjustments)
        writer := .committing x.table [b.taken] [] }
    | _, _ => s
  | .commit env =>
    match s.writer with
    | .committing i (g :: groups) done => s.commitGroup env i g groups done
    | _ => s
  | .complete =>
    match s.writer with
    | .committing _ [] done =>
      { s with
        queueBytes := done.foldl (fun n x ↦ u64Sub n x.1.request.charge) s.queueBytes
        failedAppends := countFailed s.failedAppends done
        writer := .waiting
        outcomes := done.map (fun x ↦ (x.1.call, .answered x.2)) ++ s.outcomes }
    | _ => s
  | .stop => { s with stopping := true }
  | .exit =>
    match s.writer, s.queue with
    | .waiting, [] => if s.stopping then { s with writer := .ended } else s
    | _, _ => s
  | .other i env a =>
    match (s.site i).process with
    | none => s
    | some t =>
      if a.besides then
        let site := (s.site i).serve env t a
        { s with site := Function.update s.site i site, dead := site.process.isNone }
      else s

/-- One step. -/
def next (s : Ingest C) (move : IngestMove C) : Ingest C := if s.dead then s else s.act move

/-- A database that was just opened. -/
def initial (site : (i : κ) → Site (C.table i)) : Ingest C :=
  ⟨site, false, 0, 0, 0, 0, 0, 0, [], [], .waiting, false, 0, []⟩

/-- **Any order of the critical sections of producers and writer**, on tables that were opened. -/
def machine (C : Catalogue κ) : Machine (Ingest C) (IngestMove C) where
  init s := ∃ site : (i : κ) → Site (C.table i), (∀ i, Reach (site i) ∧ (site i).process.isSome) ∧
    s = initial site
  step s move s' := s' = s.next move

end Ingest

end Machine

/-! ### What is reserved -/

section Reserved

variable {κ : Type} {C : Catalogue κ}

/-- `row_bytes` of a request in the queue. -/
def Queued.rowBytes (q : Queued C) : ℕ := q.ticket.request.rowBytes

def Queued.reservation (q : Queued C) : ℕ × ℕ := q.ticket.reservation

def Staging.reservation (x : Staging C) : ℕ × ℕ := (x.call, x.batch.charge)

/-- The reservations with the writer. -/
def WriterPhase.reserved : WriterPhase C → List (ℕ × ℕ)
  | .committing _ groups done => (done.map Prod.fst ++ groups.flatten).map Ticket.reservation
  | .waiting | .ended => []

/-- How many requests the writer has committed and not yet answered. -/
def WriterPhase.committed : WriterPhase C → ℕ
  | .committing _ _ done => done.countP fun x ↦ x.2.isOk
  | .waiting | .ended => 0

/-- **The reservations of calls in progress**: their numbers and charges. -/
def Ingest.reserved (s : Ingest C) : List (ℕ × ℕ) :=
  s.staging.map Staging.reservation ++ (s.queue.map Queued.reservation ++ s.writer.reserved)

namespace CallOutcome

def isRejected : CallOutcome → Bool
  | .rejected _ => true
  | .answered _ => false

def isFailed : CallOutcome → Bool
  | .rejected _ => false
  | .answered r => !r.isOk

def isCommitted : CallOutcome → Bool
  | .rejected _ => false
  | .answered r => r.isOk

end CallOutcome

/-- **The invariant of the queue.** -/
structure Ingest.Inv (s : Ingest C) : Prop where
  bytes_eq : s.queueBytes = (s.reserved.map Prod.snd).sum
  bytes_le : s.queueBytes ≤ C.options.queueLimitBytes
  ready_eq : s.readyBytes = (s.queue.map Queued.rowBytes).sum
  custody : (s.reserved.map Prod.fst ++ s.outcomes.map Prod.fst).Perm (List.range s.admitted)
  rejected : s.rejectedAppends = u64 (s.outcomes.countP fun x ↦ x.2.isRejected)
  failed : s.failedAppends = u64 (s.outcomes.countP fun x ↦ x.2.isFailed)
  committed : s.appendRequests =
    u64 (s.outcomes.countP (fun x ↦ x.2.isCommitted) + s.writer.committed)

/-! ### Loops -/

/-- Giving back one size after the other. -/
theorem foldl_u64Sub {α : Type} {f : α → ℕ} {l : List α} {n m : ℕ} (hn : n < 2 ^ 64)
    (h : n = (l.map f).sum + m) : l.foldl (fun n x ↦ u64Sub n (f x)) n = m := by
  induction l generalizing n with
  | nil => simpa using h
  | cons x l ih =>
    rw [map_cons, sum_cons] at h
    rw [foldl_cons, u64Sub_of_le hn (by omega)]
    exact ih (by omega) (by omega)

theorem Ingest.countFailed_eq {c : Config} (n : ℕ) (done : List (Ticket c × Except Error AppendReceipt)) :
    countFailed (u64 n) done = u64 (n + done.countP fun x ↦ !x.2.isOk) := by
  induction done generalizing n with
  | nil => rfl
  | cons x done ih =>
    rw [countFailed, foldl_cons, countP_cons]
    cases x.2.isOk with
    | true => exact ih n
    | false =>
      rw [if_neg (by decide), u64_add_left]
      exact (ih (n + 1)).trans (congrArg u64 (by simp; omega))

section Forming

variable [DecidableEq κ]

/-- **A batch is the front of the queue**, with timestamps. -/
theorem formBatch_front (i : κ) (clock : ℕ → ℤ) (w : Intake) (queue : List (Queued C)) :
    let b := formBatch i clock w queue
    queue.map Queued.reservation =
        b.taken.map Ticket.reservation ++ b.rest.map Queued.reservation ∧
      (queue.map Queued.rowBytes).sum =
        (b.taken.map fun x ↦ x.request.rowBytes).sum + (b.rest.map Queued.rowBytes).sum := by
  induction queue generalizing w with
  | nil => exact ⟨rfl, rfl⟩
  | cons q queue ih =>
    obtain ⟨j, x⟩ := q
    have hstop : (⟨j, x⟩ :: queue : List (Queued C)).map Queued.reservation = [] ++ _ ∧
        ((⟨j, x⟩ :: queue : List (Queued C)).map Queued.rowBytes).sum = 0 + _ :=
      ⟨rfl, (zero_add _).symm⟩
    dsimp only
    rw [formBatch]
    by_cases hj : j = i
    · subst hj
      rw [dif_pos rfl]
      split
      · exact hstop
      · dsimp only
        split
        · exact hstop
        · split
          · refine ⟨rfl, ?_⟩
            simp only [map_cons, sum_cons, map_nil, sum_nil]
            rfl
          · obtain ⟨hreserved, hready⟩ := ih ⟨w.count + 1, w.bytes + x.request.rowBytes, _, _⟩
            refine ⟨?_, ?_⟩
            · rw [map_cons, map_cons, cons_append, hreserved]
              rfl
            · rw [map_cons, sum_cons, hready, map_cons, sum_cons, Nat.add_assoc]
              rfl
    · rw [dif_neg hj]
      exact hstop

end Forming

end Reserved

/-! ### A commit has a receipt for every request -/

section Receipts

variable {c : Config}

theorem length_receipts (n : ℕ) (g : Group c) : (receipts n g).length = g.length := by
  induction g generalizing n with
  | nil => rfl
  | cons r g ih => rw [receipts, length_cons, length_cons, ih]

theorem yields_publishOrRollback (mark : ℕ) (g : Group c) (f : Frame) (p : Bytes) :
    (publishOrRollback mark g f p).Yields fun rs ↦ rs.length = g.length := by
  have hpublish : (publish g f p).Yields fun rs ↦ rs.length = g.length := by
    unfold publish
    refine .after fun t ↦ ?_
    split
    · exact .die
    · refine .after fun _ ↦ .after fun r ↦ ?_
      cases r with
      | error e => exact .after fun _ ↦ .fail _
      | ok _ => exact .after fun _ ↦ .pure (length_receipts _ g)
  unfold publishOrRollback
  have hattempt : (Prog.attempt (publish g f p)).Yields fun r ↦
      ∀ rs, r = .ok rs → rs.length = g.length := by
    refine fun env w ↦ wp_attempt.2 ((hpublish env w).mono ?_)
    rintro (rs | e | _) fs m hrs r hr
    · cases hr
      rintro _ ⟨⟩
      exact hrs rs rfl
    · cases hr
      rintro _ ⟨⟩
    · cases hr
  refine hattempt.bind fun r hr ↦ ?_
  cases r with
  | ok rs => exact .pure (hr rs rfl)
  | error e => exact .after fun _ ↦ .fail e

/-- **A group that is committed has as many receipts as requests.** -/
theorem yields_commitRequests (g : Group c) :
    (commitRequests g).Yields fun rs ↦ rs.length = g.length := by
  have hfresh (f : GroupFrame) : (commitFresh f g).Yields fun rs ↦ rs.length = g.length := by
    unfold commitFresh
    exact .after fun _ ↦ .after fun _ ↦ .after fun _ ↦ .after fun _ ↦ .after fun _ ↦
      yields_publishOrRollback _ g _ _
  have hactive (f : GroupFrame) (active : SegmentMeta) :
      (commitActive f active g).Yields fun rs ↦ rs.length = g.length := by
    unfold commitActive
    refine .after fun t ↦ ?_
    split
    · exact .die
    · refine .after fun r ↦ .after fun _ ↦ ?_
      split
      · refine .after fun _ ↦ ?_
        split
        · exact hfresh f
        · exact .fail _
      · split
        · exact .after fun _ ↦ hfresh f
        · exact yields_publishOrRollback _ g _ _
  unfold commitRequests
  split
  · exact .fail _
  · exact .fail _
  · exact .fail _
  · refine .after fun _ ↦ .after fun _ ↦ .after fun _ ↦ .after fun t ↦ .after fun _ ↦ .after fun _ ↦ ?_
    split
    · exact hfresh _
    · split
      · exact hfresh _
      · exact hactive _ _

end Receipts

/-! ### The steps -/

namespace Ingest

section Steps

variable {κ : Type} {C : Catalogue κ} {s s' : Ingest C}

/-- **A step that only moves reservations.** -/
theorem Inv.moved (h : s.Inv) (hreserved : s.reserved.Perm s'.reserved)
    (hready : s'.readyBytes = (s'.queue.map Queued.rowBytes).sum)
    (hcounters : s'.queueBytes = s.queueBytes ∧ s'.rejectedAppends = s.rejectedAppends ∧
      s'.failedAppends = s.failedAppends)
    (hcommitted : s'.appendRequests =
      u64 (s'.outcomes.countP (fun x ↦ x.2.isCommitted) + s'.writer.committed))
    (hcalls : s'.admitted = s.admitted ∧ s'.outcomes = s.outcomes) : s'.Inv where
  bytes_eq := by
    rw [hcounters.1, h.bytes_eq]
    exact (hreserved.map Prod.snd).sum_eq
  bytes_le := hcounters.1 ▸ h.bytes_le
  ready_eq := hready
  custody := by
    rw [hcalls.1, hcalls.2]
    exact ((hreserved.symm.map Prod.fst).append_right _).trans h.custody
  rejected := by rw [hcounters.2.1, hcalls.2, h.rejected]
  failed := by rw [hcounters.2.2, hcalls.2, h.failed]
  committed := hcommitted

/-- What is in the queue is reserved. -/
theorem Inv.ready_le (h : s.Inv) : s.readyBytes ≤ s.queueBytes := by
  have hle : (s.queue.map Queued.rowBytes).sum ≤ ((s.queue.map Queued.reservation).map Prod.snd).sum := by
    rw [map_map]
    exact sum_le_sum fun q _ ↦ Nat.le_add_right _ _
  rw [h.ready_eq, h.bytes_eq, reserved]
  simp only [map_append, sum_append]
  omega

theorem Inv.bytes_lt (h : s.Inv) : s.queueBytes < 2 ^ 64 := h.bytes_le.trans_lt C.queueFits

/-- **A call is rejected at once.** -/
theorem Inv.refused (h : s.Inv) (e : Error) :
    Inv { s with
      rejectedAppends := u64 (s.rejectedAppends + 1)
      admitted := s.admitted + 1
      outcomes := (s.admitted, .rejected e) :: s.outcomes } where
  bytes_eq := h.bytes_eq
  bytes_le := h.bytes_le
  ready_eq := h.ready_eq
  custody := by
    rw [range_succ, map_cons]
    exact (perm_middle.trans (h.custody.cons _)).trans (perm_append_singleton _ _).symm
  rejected := by
    rw [countP_cons_of_pos rfl]
    exact u64_add_congr h.rejected rfl
  failed := by
    rw [countP_cons_of_neg Bool.false_ne_true]
    exact h.failed
  committed := by
    rw [countP_cons_of_neg Bool.false_ne_true]
    exact h.committed

variable {x : Staging C} {k : ℕ}

/-- **A call reserves memory.** -/
theorem Inv.reserve (h : s.Inv) (hcall : x.call = s.admitted)
    (hfits : ¬ u64Sub C.options.queueLimitBytes s.queueBytes < x.batch.charge) :
    Inv { s with
      queueBytes := u64 (s.queueBytes + x.batch.charge)
      admitted := s.admitted + 1
      staging := x :: s.staging } := by
  have hlimit := C.queueFits
  have hle := h.bytes_le
  rw [u64Sub_of_le hlimit hle] at hfits
  have hsum : u64 (s.queueBytes + x.batch.charge) = s.queueBytes + x.batch.charge :=
    u64_of_lt (by omega)
  refine ⟨?_, ?_, h.ready_eq, ?_, h.rejected, h.failed, h.committed⟩
  · dsimp only
    rw [hsum, h.bytes_eq, Nat.add_comm]
    rfl
  · dsimp only
    omega
  · rw [range_succ]
    show (x.call :: (s.reserved.map Prod.fst ++ s.outcomes.map Prod.fst)).Perm _
    rw [hcall]
    exact (h.custody.cons _).trans (perm_append_singleton _ _).symm

/-- A call that stages its rows is one of those that have reserved. -/
theorem reserved_staging (hx : s.staging[k]? = some x) :
    s.reserved.Perm (x.reservation :: ((s.staging.eraseIdx k).map Staging.reservation ++
      (s.queue.map Queued.reservation ++ s.writer.reserved))) := by
  obtain ⟨hk, rfl⟩ := List.getElem?_eq_some_iff.1 hx
  exact ((getElem_cons_eraseIdx_perm hk).symm.map Staging.reservation).append_right _

/-- **A request comes into the queue.** -/
theorem Inv.enqueued (h : s.Inv) (hx : s.staging[k]? = some x)
    {r : AppendRequest (C.table x.table)} (hr : r.values = x.batch.values) :
    Inv { s with
      staging := s.staging.eraseIdx k
      queue := s.queue ++ [⟨x.table, x.call, r⟩]
      readyBytes := u64 (s.readyBytes + r.rowBytes) } := by
  have hbytes : r.rowBytes = x.batch.rowBytes := by
    rw [AppendRequest.rowBytes, AppendRequest.rowCount, hr]
    rfl
  have hreservation : (⟨x.table, x.call, r⟩ : Queued C).reservation = x.reservation := by
    show (x.call, r.rowBytes + AppendRequest.sizeof) = (x.call, x.batch.charge)
    rw [hbytes]
    rfl
  have hperm := reserved_staging hx
  -- the rows of the queue and of this call are all reserved
  have hlt : s.readyBytes + r.rowBytes < 2 ^ 64 := by
    have hready : (s.queue.map Queued.rowBytes).sum ≤
        ((s.queue.map Queued.reservation).map Prod.snd).sum := by
      rw [map_map]
      exact sum_le_sum fun q _ ↦ Nat.le_add_right _ _
    have hsum := (hperm.map Prod.snd).sum_eq
    rw [← h.bytes_eq] at hsum
    have hlt := h.bytes_lt
    have hcharge : r.rowBytes ≤ x.reservation.2 := by
      rw [hbytes]
      exact Nat.le_add_right _ _
    simp only [map_cons, map_append, sum_cons, sum_append] at hsum
    rw [h.ready_eq]
    omega
  refine h.moved ?_ ?_ ⟨rfl, rfl, rfl⟩ h.committed ⟨rfl, rfl⟩
  · refine hperm.trans ?_
    simp only [reserved, map_append, map_cons, map_nil, hreservation]
    refine perm_middle.symm.trans (List.Perm.append_left _ ?_)
    rw [append_assoc]
    exact perm_middle.symm
  · dsimp only
    rw [u64_of_lt hlt, h.ready_eq, map_append, sum_append]
    rfl

/-- **A request is given up.** -/
theorem Inv.abandoned (h : s.Inv) (hx : s.staging[k]? = some x) (e : Error) : Inv { s with
      staging := s.staging.eraseIdx k
      queueBytes := u64Sub s.queueBytes x.batch.charge
      rejectedAppends := u64 (s.rejectedAppends + 1)
      outcomes := (x.call, .rejected e) :: s.outcomes } := by
  have hperm := reserved_staging hx
  have hsum := (hperm.map Prod.snd).sum_eq
  rw [← h.bytes_eq, map_cons, sum_cons] at hsum
  have hcharge : x.reservation.2 = x.batch.charge := rfl
  have hsub : u64Sub s.queueBytes x.batch.charge = s.queueBytes - x.batch.charge :=
    u64Sub_of_le h.bytes_lt (by omega)
  refine ⟨?_, ?_, h.ready_eq, ?_, ?_, ?_, ?_⟩
  · rw [reserved]
    dsimp only
    omega
  · have := h.bytes_le
    dsimp only
    omega
  · refine List.Perm.trans ?_ h.custody
    rw [map_cons]
    refine perm_middle.trans ?_
    exact (hperm.symm.map Prod.fst).append_right _
  · rw [countP_cons_of_pos rfl]
    exact u64_add_congr h.rejected rfl
  · rw [countP_cons_of_neg Bool.false_ne_true]
    exact h.failed
  · rw [countP_cons_of_neg Bool.false_ne_true]
    exact h.committed

/-- **The writer has answered.** -/
theorem Inv.completed (h : s.Inv) {i : κ} {done : List (Ticket (C.table i) × Except Error AppendReceipt)}
    (hw : s.writer = .committing i [] done) :
    Inv { s with
      queueBytes := done.foldl (fun n x ↦ u64Sub n x.1.request.charge) s.queueBytes
      failedAppends := countFailed s.failedAppends done
      writer := .waiting
      outcomes := done.map (fun x ↦ (x.1.call, .answered x.2)) ++ s.outcomes } := by
  have hreserved : s.reserved = s.staging.map Staging.reservation ++ (s.queue.map Queued.reservation ++
      done.map fun x ↦ x.1.reservation) := by
    rw [reserved, hw]
    simp [WriterPhase.reserved, Function.comp_def]
  have hbytes : s.queueBytes = (done.map fun x ↦ x.1.request.charge).sum +
      ((s.staging.map Staging.reservation ++ s.queue.map Queued.reservation).map Prod.snd).sum := by
    rw [h.bytes_eq, hreserved]
    simp only [map_append, sum_append, map_map, Function.comp_def, Ticket.reservation]
    omega
  have hgiven := foldl_u64Sub h.bytes_lt hbytes
  refine ⟨?_, ?_, h.ready_eq, ?_, ?_, ?_, ?_⟩
  · dsimp only
    rw [hgiven, reserved]
    simp only [WriterPhase.reserved, append_nil]
  · have := h.bytes_le
    dsimp only
    rw [hgiven]
    omega
  · refine List.Perm.trans ?_ h.custody
    rw [hreserved]
    simp only [reserved, WriterPhase.reserved, append_nil, map_append, map_map,
      Function.comp_def, Ticket.reservation, append_assoc, List.Perm.refl]
  · rw [countP_append, countP_map]
    have hnone : done.countP ((fun x : ℕ × CallOutcome ↦ x.2.isRejected) ∘
        fun x ↦ (x.1.call, .answered x.2)) = 0 :=
      countP_eq_zero.2 fun x _ ↦ Bool.false_ne_true
    rw [hnone, zero_add]
    exact h.rejected
  · dsimp only
    rw [h.failed, countFailed_eq, countP_append, countP_map, Nat.add_comm]
    rfl
  · have hcommitted := h.committed
    rw [hw] at hcommitted
    rw [countP_append, countP_map]
    exact hcommitted.trans (congrArg u64 (Nat.add_comm _ _))

variable [DecidableEq κ]

/-- **The writer forms a batch.** -/
theorem Inv.dequeued (h : s.Inv) (hw : s.writer = .waiting) (i : κ) (clock : ℕ → ℤ) (w : Intake) (n : ℕ) :
    Inv { s with
      queue := (formBatch i clock w s.queue).rest
      readyBytes := (formBatch i clock w s.queue).taken.foldl
        (fun n y ↦ u64Sub n y.request.rowBytes) s.readyBytes
      clockAdjustments := n
      writer := .committing i [(formBatch i clock w s.queue).taken] [] } := by
  obtain ⟨hreserved, hready⟩ := formBatch_front i clock w s.queue
  refine h.moved ?_ ?_ ⟨rfl, rfl, rfl⟩ ?_ ⟨rfl, rfl⟩
  · rw [reserved, reserved, hw, hreserved]
    refine List.Perm.append_left _ ?_
    simp only [WriterPhase.reserved, append_nil, map_nil, nil_append, flatten_cons,
      flatten_nil]
    exact perm_append_comm
  · exact foldl_u64Sub (h.ready_le.trans_lt h.bytes_lt) (h.ready_eq.trans hready)
  · have hcommitted := h.committed
    rwa [hw] at hcommitted

/-- **The writer commits a group**, or splits it. -/
theorem Inv.commitGroup (h : s.Inv) (env : Env Path Dir) {i : κ} {g : List (Ticket (C.table i))}
    {groups : List (List (Ticket (C.table i)))}
    {done : List (Ticket (C.table i) × Except Error AppendReceipt)}
    (hw : s.writer = .committing i (g :: groups) done) :
    (s.commitGroup env i g groups done).Inv := by
  have hcommitted := h.committed
  rw [hw] at hcommitted
  -- the writer has the same requests as before
  have hkeep {s' : Ingest C} {groups' : List (List (Ticket (C.table i)))}
      {done' : List (Ticket (C.table i) × Except Error AppendReceipt)}
      (hw' : s'.writer = .committing i groups' done') (hlists : s'.staging = s.staging ∧ s'.queue = s.queue)
      (htickets : done'.map Prod.fst ++ groups'.flatten =
        done.map Prod.fst ++ (g :: groups).flatten) : s.reserved.Perm s'.reserved := by
    rw [reserved, reserved, hw, hw', hlists.1, hlists.2]
    simp only [WriterPhase.reserved]
    rw [htickets]
  unfold Ingest.commitGroup
  split
  · exact h
  next t ht =>
    have hyields := (yields_commitRequests (g.map Ticket.request)) env ⟨(s.site i).files, 0, t⟩
    dsimp only
    split
    · exact h.moved (.refl _) h.ready_eq ⟨rfl, rfl, rfl⟩ h.committed ⟨rfl, rfl⟩
    next receipts hok =>
      have hlen : receipts.length = g.length := by
        have hmap : (g.map Ticket.request).length = g.length := length_map _
        rw [← hmap]
        exact hyields receipts hok
      refine h.moved (hkeep rfl ⟨rfl, rfl⟩ ?_) h.ready_eq ⟨rfl, rfl, rfl⟩ ?_ ⟨rfl, rfl⟩
      · rw [map_append, map_fst_zip (by rw [length_map, hlen]), append_assoc]
        rfl
      · have hall : (g.zip (receipts.map Except.ok)).countP
            (fun x : Ticket (C.table i) × Except Error AppendReceipt ↦ x.2.isOk) = g.length := by
          rw [countP_eq_length.2, length_zip, length_map, hlen, min_self]
          intro x hx
          obtain ⟨r, -, hr⟩ := mem_map.1 (of_mem_zip hx).2
          rw [← hr]
          rfl
        simp only [WriterPhase.committed] at hcommitted ⊢
        rw [countP_append, hall, ← Nat.add_assoc]
        exact u64_add_congr hcommitted rfl
    next e hfail =>
      split
      · refine h.moved (hkeep rfl ⟨rfl, rfl⟩ ?_) h.ready_eq ⟨rfl, rfl, rfl⟩ hcommitted ⟨rfl, rfl⟩
        simp only [flatten_cons, ← append_assoc, take_append_drop]
      · refine h.moved (hkeep rfl ⟨rfl, rfl⟩ ?_) h.ready_eq ⟨rfl, rfl, rfl⟩ ?_ ⟨rfl, rfl⟩
        · simp [Function.comp_def]
        · have hnone : (g.map fun x ↦ (x, (.error e : Except Error AppendReceipt))).countP
              (fun x ↦ x.2.isOk) = 0 := by
            refine countP_eq_zero.2 fun x hx ↦ ?_
            obtain ⟨y, -, rfl⟩ := mem_map.1 hx
            exact Bool.false_ne_true
          simp only [WriterPhase.committed] at hcommitted ⊢
          rw [countP_append, hnone, add_zero]
          exact hcommitted

theorem Inv.next (h : s.Inv) (move : IngestMove C) : (s.next move).Inv := by
  unfold Ingest.next
  split
  · exact h
  cases move with
  | call i b startedNs =>
    simp only [act]
    split
    · exact h
    next p hp =>
      split
      · exact h
      · split
        · exact h.refused _
        next hfits => exact h.reserve (x := ⟨s.admitted, i, p⟩) rfl hfits
  | stage k alloc condition submittedNs =>
    simp only [act]
    split
    · exact h
    next x hx =>
      split
      next r hr => exact h.enqueued hx (Preparation.values_stage hr)
      next e _ => exact h.abandoned hx e
  | dequeue clock =>
    simp only [act]
    split
    next x queue hw hq =>
      rw [← hq]
      exact h.dequeued hw x.table clock ⟨0, 0, s.lastTime x.table, -1⟩ _
    next => exact h
  | commit env =>
    simp only [act]
    split
    next i g groups done hw => exact h.commitGroup env hw
    next => exact h
  | complete =>
    simp only [act]
    split
    next i done hw => exact h.completed hw
    next => exact h
  | stop => exact ⟨h.bytes_eq, h.bytes_le, h.ready_eq, h.custody, h.rejected, h.failed, h.committed⟩
  | exit =>
    simp only [act]
    split
    next hw hq =>
      split
      · have hcommitted := h.committed
        rw [hw] at hcommitted
        refine h.moved ?_ h.ready_eq ⟨rfl, rfl, rfl⟩ hcommitted ⟨rfl, rfl⟩
        rw [reserved, reserved, hw]
        exact .refl _
      · exact h
    next => exact h
  | other i env a =>
    simp only [act]
    split
    · exact h
    · split
      · exact ⟨h.bytes_eq, h.bytes_le, h.ready_eq, h.custody, h.rejected, h.failed, h.committed⟩
      · exact h

theorem inv_of_reach (h : (machine C).Reach s) : s.Inv := by
  refine h.invariant ?_ ?_
  · rintro s ⟨site, -, rfl⟩
    exact ⟨rfl, zero_le, rfl, .refl _, rfl, rfl, rfl⟩
  · rintro s move s' - hs rfl
    exact hs.next move

/-- Every outcome is counted once. -/
theorem length_outcomes (outcomes : List (ℕ × CallOutcome)) : outcomes.length =
    outcomes.countP (fun x ↦ x.2.isCommitted) + outcomes.countP (fun x ↦ x.2.isFailed) +
      outcomes.countP (fun x ↦ x.2.isRejected) := by
  induction outcomes with
  | nil => rfl
  | cons x outcomes ih =>
    have hone : (if x.2.isCommitted then 1 else 0) + (if x.2.isFailed then 1 else 0) +
        (if x.2.isRejected then 1 else 0) = 1 := by
      rcases x with ⟨n, e | r | r⟩ <;> rfl
    simp only [length_cons, countP_cons]
    omega

/-- **Admission is accounted for exactly.** In every reachable state `queue_bytes` is what the calls
between their reservation and their answer are charged, within the limit, and `ready_bytes` is what is in
the queue. When no call is in progress both are zero, and the three counters together count the calls that
passed the argument checks and were not cancelled; the counters have 64 bits. -/
theorem admission_exact (h : (machine C).Reach s) :
    s.queueBytes = (s.reserved.map Prod.snd).sum ∧ s.queueBytes ≤ C.options.queueLimitBytes ∧
      s.readyBytes = (s.queue.map Queued.rowBytes).sum ∧ s.readyBytes ≤ s.queueBytes ∧
      (s.reserved = [] → s.queueBytes = 0 ∧ s.readyBytes = 0 ∧
        u64 (s.appendRequests + s.failedAppends + s.rejectedAppends) = u64 s.admitted ∧
        (s.admitted < 2 ^ 64 →
          s.appendRequests + s.failedAppends + s.rejectedAppends = s.admitted)) := by
  have hinv := inv_of_reach h
  refine ⟨hinv.bytes_eq, hinv.bytes_le, hinv.ready_eq, hinv.ready_le, fun hnone ↦ ?_⟩
  have hbytes : s.queueBytes = 0 := by rw [hinv.bytes_eq, hnone]; rfl
  have hidle : s.writer.committed = 0 := by
    have hwriter := (List.append_eq_nil_iff.1 (List.append_eq_nil_iff.1 hnone).2).2
    cases hw : s.writer with
    | waiting => rfl
    | ended => rfl
    | committing i groups done =>
      rw [hw] at hwriter
      have hdone : done = [] :=
        List.map_eq_nil_iff.1 (List.append_eq_nil_iff.1 (List.map_eq_nil_iff.1 hwriter)).1
      rw [hdone]
      rfl
  have hlength : s.outcomes.length = s.admitted := by
    have hcustody := hinv.custody.length_eq
    rw [hnone] at hcustody
    simpa using hcustody
  have hcount := (length_outcomes s.outcomes).symm.trans hlength
  have hrejected := hinv.rejected
  have hfailed := hinv.failed
  have hcommitted := hinv.committed
  rw [hidle, Nat.add_zero] at hcommitted
  refine ⟨hbytes, Nat.le_zero.1 (hbytes ▸ hinv.ready_le), ?_, fun hlt ↦ ?_⟩
  · rw [hcommitted, hfailed, hrejected, ← hcount]
    unfold u64
    omega
  · rw [hcommitted, hfailed, hrejected, u64_of_lt (by omega), u64_of_lt (by omega), u64_of_lt (by omega),
      hcount]

end Steps

/-! ### The counter of the table -/

/-! ### One request is committed and one is given up -/

/-- A batch with one row. -/
def oneHit : Batch hits := ⟨[[.ofNat 7]], by decide⟩

def oneOfTwo : List (IngestMove hitsCatalogue) :=
  [.call () oneHit 0, .call () oneHit 0, .stage 0 true true 0, .stage 0 false true 0,
    .dequeue fun _ ↦ 5, .commit (.still Path Dir), .complete]

/-- The run from a table that was just created. -/
def afterOneOfTwo : Ingest hitsCatalogue :=
  oneOfTwo.foldl next (initial fun _ ↦ Site.created hits 0)

theorem admission_exact_oneOfTwo :
    afterOneOfTwo.reserved = [] ∧ afterOneOfTwo.appendRequests = 1 ∧
      afterOneOfTwo.appendRequests + afterOneOfTwo.failedAppends + afterOneOfTwo.rejectedAppends = 2 := by
  have hinit : (machine hitsCatalogue).init (initial fun _ ↦ Site.created hits 0) :=
    ⟨_, fun _ ↦ ⟨.created 0 (by decide), rfl⟩, rfl⟩
  have hreach : (machine hitsCatalogue).Reach afterOneOfTwo :=
    .foldl (fun _ _ ↦ rfl) (.init hinit) _
  have hnone : afterOneOfTwo.reserved = [] := by decide +kernel
  have hadmitted : afterOneOfTwo.admitted = 2 := by decide +kernel
  refine ⟨hnone, by decide +kernel, ?_⟩
  rw [← hadmitted]
  refine ((admission_exact hreach).2.2.2.2 hnone).2.2.2 ?_
  rw [hadmitted]
  decide

end Ingest

end WebAnalyticsDb
