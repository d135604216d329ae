import WebAnalyticsDb.Core.Notifications
import WebAnalyticsDb.Ledger.Recovery
import WebAnalyticsDb.Query.Snapshot

/-!
# The life of a table

A **site** is the directory of a table together with the process that serves it, if there is one. It
starts as `wadb_create_table` leaves it, and then anything can happen: groups are committed, the policy
is changed and applied, readers come and go, the process ends at any point of any of these and the table
is opened again. `Reach` is what can be reached in this way, with any environment for every step.

* **The history is part of the state.** `attempts` lists the calls of `wadb_commit_requests` with their
  answers. `Explains` relates it to a log: what was acknowledged is there, what was refused is not, and
  everything that is there was asked for once.
* **One invariant.** `Site.At` says that the files are those of a log that the history explains and that
  the process, if there is one, serves it. It holds in every state that can be reached (`Reach.at`);
  the theorems on tables are read off it.
-/

namespace WebAnalyticsDb

open Bytes List

variable {c : Config}

/-! ### Sites -/

/-- A call of `wadb_commit_requests` and its answer; there is none if the process ended first. -/
structure Attempt (c : Config) where
  group : Group c
  answer : Option (Except Error (List AppendReceipt))

/-- **A table directory and the process that serves it.** -/
structure Site (c : Config) where
  files : Files
  process : Option (Table c)
  /-- The snapshots that readers hold. -/
  snapshots : List Snapshot
  attempts : List (Attempt c)

/-- The files of a table that was just created. -/
def createdFiles (c : Config) (retentionUs : ℕ) : Files :=
  let image := (Table.created retentionUs : Table c).manifest.image c.id
  Function.update (fun _ ↦ none) .manifest (some ⟨image, image.length⟩)

@[simp] theorem createdFiles_manifest (c : Config) (retentionUs : ℕ) :
    createdFiles c retentionUs .manifest =
      some ⟨(Table.created retentionUs : Table c).manifest.image c.id,
        ((Table.created retentionUs : Table c).manifest.image c.id).length⟩ := by
  simp [createdFiles]

/-- The site of a table that was just created. -/
def Site.created (c : Config) (retentionUs : ℕ) : Site c where
  files := createdFiles c retentionUs
  process := some (.created retentionUs)
  snapshots := []
  attempts := []

/-- What can happen to a site. -/
inductive Action (c : Config)
  | commit (g : Group c)
  | setRetention (duration : ℕ)
  | retentionApply (now : ℤ)
  | acquire (o : Option ScanOptions)
  | release (i : ℕ)
  | crash
  | reopen

/-- A call on a table besides those of the writer. -/
def Action.besides : Action c → Bool
  | .setRetention _ | .retentionApply _ | .acquire _ | .release _ => true
  | .commit _ | .crash | .reopen => false

/-- The answer that a caller gets. -/
def answerOf {α : Type} : Exit Error α → Option (Except Error α)
  | .ok a => some (.ok a)
  | .fail e => some (.error e)
  | .killed => none

namespace Site

/-- The site after a program of the process has ended. -/
def after {α : Type} (s : Site c) (r : Exit Error α × World Path (Table c)) : Site c :=
  match r.1 with
  | .killed => { s with files := r.2.fs, process := none, snapshots := [] }
  | _ => { s with files := r.2.fs, process := some r.2.mem }

/-- One program of the process `t`. -/
def run {α : Type} (s : Site c) (env : Env Path Dir) (t : Table c) (p : Io (Table c) α) :
    Exit Error α × World Path (Table c) :=
  p env ⟨s.files, 0, t⟩

/-- An action of the process `t`. -/
def serve (env : Env Path Dir) (s : Site c) (t : Table c) : Action c → Site c
  | .commit g =>
    let r := s.run env t (commitRequests g)
    { s.after r with attempts := s.attempts ++ [⟨g, answerOf r.1⟩] }
  | .setRetention duration => s.after (s.run env t (setRetention duration))
  | .retentionApply now => s.after (s.run env t (retentionApply now))
  | .acquire o =>
    let r := s.run env t (snapshotAcquire o)
    match r.1 with
    | .ok S => { s.after r with snapshots := s.snapshots ++ [S] }
    | _ => s.after r
  | .release i =>
    match s.snapshots[i]? with
    | none => s
    | some S =>
      let r := s.run env t (snapshotRelease S)
      match r.1 with
      | .killed => s.after r
      | _ => { s.after r with snapshots := s.snapshots.eraseIdx i }
  | .crash => { s with process := none, snapshots := [] }
  | .reopen => s

/-- One step. Without a process only opening the table does something. -/
def step (env : Env Path Dir) (s : Site c) (a : Action c) : Site c :=
  match s.process, a with
  | some t, a => s.serve env t a
  | none, .reopen =>
    let r : Exit Error Unit × World Path (Table c) := openTable env ⟨s.files, 0, .zeroed⟩
    match r.1 with
    | .ok _ => { s with files := r.2.fs, process := some r.2.mem }
    | _ => { s with files := r.2.fs }
  | none, _ => s

/-- The writer stamps no request with a time before the last row of the table, unless the clock has
failed; then the time is negative. -/
def Admits (s : Site c) : Action c → Prop
  | .commit g => ∀ t ∈ s.process, 0 ≤ groupMin g → t.lastTime ≤ groupMin g
  | _ => True

end Site

/-- **What can be reached** from the creation of a table. -/
inductive Reach : Site c → Prop
  | created (retentionUs : ℕ) (h : retentionUs ≤ int64Max) : Reach (.created c retentionUs)
  | step {s : Site c} (h : Reach s) (env : Env Path Dir) (a : Action c) (ha : s.Admits a) :
      Reach (s.step env a)

/-! ### The history of a log -/

/-- The groups of a log with the calls that committed them. -/
def Log.entries (L : Log c) : List (Entry c) := L.flatMap LogSegment.entries

/-- A call that may have committed its group: it was not refused. -/
def Attempt.possible (a : Attempt c) : Prop :=
  ∀ e, a.answer = some (.error e) → e.code = .indeterminate

/-- **The history `H` explains the log `L`**: every group of `L` was asked for, by a call that was not
refused, and the calls are in order; every acknowledged group is there, at the place that its receipts
say. -/
structure Explains (H : List (Attempt c)) (L : Log c) : Prop where
  increasing : L.entries.Pairwise (·.call < ·.call)
  attempted : ∀ e ∈ L.entries, ∃ a, H[e.call]? = some a ∧ a.group = e.group ∧ a.possible
  acknowledged : ∀ k a rs, H[k]? = some a → a.answer = some (.ok rs) → ∃ A B,
    L.entries = A ++ ⟨k, a.group⟩ :: B ∧
      rs = receipts (rowTotal (A.map Entry.group) + 1) a.group

namespace Log

theorem entries_concat (L : Log c) (s : LogSegment c) : entries (L ++ [s]) = entries L ++ s.entries := by
  simp [entries]

theorem map_group_entries (L : Log c) : L.entries.map Entry.group = L.groups :=
  map_flatMap

theorem entries_retire (L : Log c) (cutoff : ℤ) : (L.retire cutoff).entries = L.entries := by
  simp only [entries, retire, flatMap_map]
  rfl

end Log

variable {V W : Log c}

theorem Rotates.entries (h : Rotates V W) : W.entries = V.entries := by
  rcases h with rfl | ⟨now, s, hs, rfl⟩
  · rfl
  · rw [Log.entries_concat, hs.entries, append_nil]

theorem Appends.entries {k : ℕ} {g : Group c} (h : Appends k g W V) :
    V.entries = W.entries ++ [⟨k, g⟩] := by
  obtain ⟨A, s, rfl, -, rfl⟩ := h
  rw [Log.entries_concat, Log.entries_concat, append_assoc]
  rfl

theorem Retires.entries {cutoff : ℤ} (h : Retires cutoff V W) : W.entries = V.entries := by
  rcases h with rfl | rfl
  · rfl
  · exact V.entries_retire cutoff

namespace Explains

variable {H : List (Attempt c)} {L L' : Log c} {a : Attempt c} {g : Group c}

theorem nil : Explains ([] : List (Attempt c)) [] where
  increasing := .nil
  attempted _ he := absurd he not_mem_nil
  acknowledged k a rs hk := by simp at hk

theorem congr (h : Explains H L) (heq : L'.entries = L.entries) : Explains H L' where
  increasing := heq ▸ h.increasing
  attempted := heq ▸ h.attempted
  acknowledged := heq ▸ h.acknowledged

theorem call_lt (h : Explains H L) {e : Entry c} (he : e ∈ L.entries) : e.call < H.length := by
  obtain ⟨a, ha, -⟩ := h.attempted e he
  exact (List.getElem?_eq_some_iff.1 ha).1

/-- A call that committed nothing. -/
theorem skip (h : Explains H L) (ha : ∀ rs, a.answer ≠ some (.ok rs)) : Explains (H ++ [a]) L where
  increasing := h.increasing
  attempted e he := by
    rw [getElem?_append_left (h.call_lt he)]
    exact h.attempted e he
  acknowledged k b rs hk hb := by
    by_cases hlt : k < H.length
    · rw [getElem?_append_left hlt] at hk
      exact h.acknowledged k b rs hk hb
    · rw [getElem?_append_right (by omega)] at hk
      obtain rfl := mem_singleton.1 (mem_of_getElem? hk)
      exact absurd hb (ha rs)

/-- A call that committed its group. -/
theorem append (h : Explains H L) (hL : L'.entries = L.entries ++ [⟨H.length, a.group⟩])
    (hpossible : a.possible)
    (ha : ∀ rs, a.answer = some (.ok rs) → rs = receipts (L.total + 1) a.group) :
    Explains (H ++ [a]) L' where
  increasing := by
    rw [hL, pairwise_append]
    refine ⟨h.increasing, pairwise_singleton _ _, fun e he e' he' ↦ ?_⟩
    rw [mem_singleton.1 he']
    exact h.call_lt he
  attempted e he := by
    rw [hL] at he
    rcases mem_append.1 he with he | he
    · rw [getElem?_append_left (h.call_lt he)]
      exact h.attempted e he
    · rw [mem_singleton.1 he]
      exact ⟨a, by simp, rfl, hpossible⟩
  acknowledged k b rs hk hb := by
    rw [hL]
    by_cases hlt : k < H.length
    · rw [getElem?_append_left hlt] at hk
      obtain ⟨A, B, hAB, hrs⟩ := h.acknowledged k b rs hk hb
      exact ⟨A, B ++ [⟨H.length, a.group⟩], by rw [hAB, append_assoc]; rfl, hrs⟩
    · rw [getElem?_append_right (by omega)] at hk
      have hz : k - H.length = 0 := by simpa using (List.getElem?_eq_some_iff.1 hk).1
      obtain rfl : k = H.length := by omega
      obtain rfl := mem_singleton.1 (mem_of_getElem? hk)
      refine ⟨L.entries, [], rfl, ?_⟩
      rw [L.map_group_entries]
      exact ha rs hb

end Explains

/-! ### The invariant -/

/-- The snapshot is one of a process that knew the log `W`. -/
def Snapshot.TakenOf (S : Snapshot) (W : Log c) : Prop := ∃ (t : Table c) (o : Option ScanOptions),
  View t W ∧ S = t.snapshot o

/-- **The process `t` serves the log `V`**, and what its readers know is still there. -/
structure Site.Serves (s : Site c) (t : Table c) (V P L : Log c) (tail : Bytes) : Prop where
  live : Live t s.files V P L tail
  known : Explains s.attempts V
  readers : t.readers = s.snapshots.length
  pinned : ∀ S ∈ s.snapshots, ∃ W, Extends W V ∧ Backed s.files W ∧ S.TakenOf W

/-- **The invariant of a site.** The files are those of the log `L`, of which the manifest records `P`;
behind the last segment they have the bytes `tail`. -/
structure Site.At (s : Site c) (P L : Log c) (tail : Bytes) : Prop where
  disk : OnDisk s.files P L tail
  explains : Explains s.attempts L
  serves : ∀ t, s.process = some t → ∃ V, s.Serves t V P L tail
  unserved : s.process = none → s.snapshots = []

/-! ### Readers -/

section Readers

variable {env : Env Path Dir} {t : Table c} {fs : Files} {n : ℕ} {V P L : Log c} {tail : Bytes}

theorem Live.pin (h : Live t fs V P L tail) (S : Snapshot) : Live (t.pin S) fs V P L tail :=
  ⟨⟨h.view.toHandle.congr rfl, h.view.dictionary⟩,
    h.disk, h.backed, h.ext, h.current⟩

theorem Live.unpin (h : Live t fs V P L tail) (S : Snapshot) : Live (t.unpin S) fs V P L tail :=
  ⟨⟨h.view.toHandle.congr rfl, h.view.dictionary⟩,
    h.disk, h.backed, h.ext, h.current⟩

/-- The outcomes of releasing a snapshot. Files may disappear only if it was the last one. -/
def ReleasePost (t : Table c) (fs : Files) (V P L : Log c) (tail : Bytes) :
    Exit Error Unit → Files → Table c → Prop
  | .ok _, fs', t' => Live t' fs' V P L tail ∧ t'.readers = t.readers - 1 ∧ t'.frozen = t.frozen ∧
      (t.readers - 1 ≠ 0 → fs' = fs) ∧ (Durable fs V P → Durable fs' V P) ∧
      t'.db.monitor = t.db.monitor
  | .fail _, _, _ => False
  | .killed, fs', _ => OnDisk fs' P L tail ∧ (Durable fs V P → Synced fs' P)

/-- **Releasing a snapshot.** -/
theorem wp_snapshotRelease (h : Live t fs V P L tail) (S : Snapshot) :
    wp (snapshotRelease S) env (ReleasePost t fs V P L tail) ⟨fs, n, t⟩ := by
  unfold snapshotRelease
  refine wp_bind (wp_modify.2 fun n ↦ ?_)
  refine wp_bind (wp_get.2 fun n ↦ ?_)
  have hlive := h.unpin S
  split
  · refine wp_bind (wp_retentionCleanup hlive.view.toHandle (fun r fs' t' ht' hclean hnone _ n ↦ ?_)
      fun fs' t' _ hclean _ ↦ ?_)
    · obtain ⟨hlive', hdur⟩ := hlive.cleaned ht' hclean
      refine wp_pure.2 ⟨hlive', ?_, ?_, hnone, hdur, ?_⟩ <;> (obtain ⟨_, _, rfl⟩ := ht'; rfl)
    · have hup : CleanedUp (t.unpin S) (t.unpin S) := ⟨_, _, rfl⟩
      obtain ⟨hlive', hdur⟩ := hlive.cleaned hup hclean
      exact ⟨hlive'.disk, fun hD ↦ (hdur hD).2⟩
  · exact wp_pure.2 ⟨hlive, rfl, rfl, fun _ ↦ rfl, id, rfl⟩

end Readers

/-! ### Steps -/

theorem Rotates.extends (h : Rotates V W) : Extends V W := by
  rcases h with rfl | ⟨now, s, -, rfl⟩
  · exact .refl _
  · exact .rotate V s

theorem Appends.extends {k : ℕ} {g : Group c} (h : Appends k g W V) : Extends W V := by
  obtain ⟨A, s, rfl, -, rfl⟩ := h
  exact .append A s _

theorem Retires.extends {cutoff : ℤ} (h : Retires cutoff V W) : Extends V W := by
  rcases h with rfl | rfl
  · exact .refl _
  · exact .retire V cutoff

/-- The event of a commit continues the sequence numbers of the table. -/
structure CommitEvent.Continues (e : CommitEvent) (t t' : Table c) : Prop where
  tableId : e.tableId = c.id
  firstSequence : e.firstSequence = t.lastSequence + 1
  lastSequence : e.lastSequence = t'.lastSequence

/-- The call publishes nothing, or one event. -/
def Notifies (t t' : Table c) : Prop :=
  t'.db.monitor = t.db.monitor ∧ t'.lastSequence = t.lastSequence ∨
    ∃ e : CommitEvent, t'.db.monitor = t.db.monitor.publish e ∧ e.Continues t t'

namespace Notifies

variable {t t' : Table c} {V' : Log c} {g : Group c}

theorem of_db (hdb : t'.db = t.db) (hlast : t'.lastSequence = t.lastSequence) : Notifies t t' :=
  .inl ⟨by rw [hdb], hlast⟩

/-- The frame of a commit starts behind the last row, and the table ends where the frame does. -/
theorem commit {k : ℕ} (hview : View t V) (hrot : Rotates V W) (happ : Appends k g W V')
    (hview' : View t' V') (hcount : GroupCounted g V t.db t'.db) : Notifies t t' := by
  obtain ⟨f, bytes, hdb, hfirst, hrows, -⟩ := hcount
  have htotal : V'.total = V.total + groupCount g := by
    obtain ⟨A, x, rfl, -, rfl⟩ := happ
    rcases hrot with hW | ⟨now, y, hy, hW⟩
    · rw [← hW]
      simp [Nat.add_assoc]
    · have := (LogSegment.total_new hy).1
      rw [← hW] at this
      rw [← this]
      simp [Nat.add_assoc]
  have hlt := hview'.ok.chain.total_lt (by decide)
  refine .inr ⟨_, by rw [hdb]; exact t.db.monitor_countCommit f bytes g.length, rfl, ?_, ?_⟩
  · rw [hfirst, hview.lastSequence]
  · show u64 (f.firstSequence + f.rowCount - 1) = _
    rw [hfirst, hrows, hview'.lastSequence, htotal, u64_of_lt] <;> omega

end Notifies

namespace Site

section Steps

variable {env : Env Path Dir} {s : Site c} {t t' : Table c} {fs' : Files} {V V' P P' L L' : Log c}
  {tail tail' : Bytes} {H : List (Attempt c)}

/-- What readers know is still there when the log has grown. -/
theorem Serves.pinned_grown (h : s.Serves t V P L tail) (hg : t.readers ≠ 0 → Grown V s.files fs')
    (hext : Extends V V') : ∀ S ∈ s.snapshots, ∃ W, Extends W V' ∧ Backed fs' W ∧ S.TakenOf W := by
  intro S hS
  obtain ⟨W, hW, hbacked, htaken⟩ := h.pinned S hS
  have hreaders : t.readers ≠ 0 := by
    rw [h.readers]
    exact (length_pos_of_mem hS).ne'
  exact ⟨W, hW.trans hext, (hg hreaders).backed hW hbacked, htaken⟩

/-- A site with a process. -/
theorem Serves.at (h : s.Serves t V P L tail) (hp : s.process = some t)
    (hL : Explains s.attempts L) : s.At P L tail where
  disk := h.live.disk
  explains := hL
  serves t' ht' := by
    cases hp.symm.trans ht'
    exact ⟨V, h⟩
  unserved hn := by cases hp.symm.trans hn

/-- A site without one. -/
theorem At.dead (hdisk : OnDisk fs' P L tail) (hL : Explains H L) :
    Site.At ⟨fs', none, [], H⟩ P L tail where
  disk := hdisk
  explains := hL
  serves _ ht := by cases ht
  unserved _ := rfl

/-- **What a call of the process `t` can lead to**, when it knows the log `V` and the manifest records `P`:
the process goes on, or it has ended. -/
inductive Leads (s : Site c) (t : Table c) (V P : Log c) : Site c → Prop
  | alive {s' : Site c} {t' : Table c} {V' P' L' : Log c} {tail' : Bytes}
      (process : s'.process = some t') (serves : s'.Serves t' V' P' L' tail')
      (explains : Explains s'.attempts L')
      (durable : Durable s.files V P → Durable s'.files V' P')
      (frozen : t.frozen = true → t'.frozen = true) (notifies : Notifies t t') : Leads s t V P s'
  | dead {fs' : Files} {P' L' : Log c} {tail' : Bytes} {H : List (Attempt c)}
      (disk : OnDisk fs' P' L' tail') (explains : Explains H L')
      (synced : Durable s.files V P → Synced fs' P') : Leads s t V P ⟨fs', none, [], H⟩

theorem Leads.at {s' : Site c} (h : s.Leads t V P s') : ∃ P' L' tail', s'.At P' L' tail' := by
  cases h with
  | alive hp hserves hL => exact ⟨_, _, _, hserves.at hp hL⟩
  | dead hdisk hL => exact ⟨_, _, _, .dead hdisk hL⟩

/-- **A table that refuses changes goes on refusing them**, and what a call does to the ring. -/
theorem Leads.table {s' : Site c} (h : s.Leads t V P s') (ht' : s'.process = some t') :
    (t.frozen = true → t'.frozen = true) ∧ Notifies t t' := by
  cases h with
  | alive hp _ _ _ hfrozen hnotifies =>
    cases hp.symm.trans ht'
    exact ⟨hfrozen, hnotifies⟩
  | dead => cases ht'

section

variable (h : s.Serves t V P L tail)
include h

/-- The process goes on. -/
theorem Serves.next (hlive : Live t' fs' V' P' L' tail')
    (hreaders : t'.readers = t.readers) (hg : t.readers ≠ 0 → Grown V s.files fs')
    (hext : Extends V V') (hV : Explains H V') (hL : Explains H L')
    (hdur : Durable s.files V P → Durable fs' V' P') (hfrozen : t.frozen = true → t'.frozen = true)
    (hnotifies : Notifies t t') : s.Leads t V P ⟨fs', some t', s.snapshots, H⟩ :=
  .alive rfl ⟨hlive, hV, hreaders.trans h.readers, h.pinned_grown hg hext⟩ hL hdur hfrozen hnotifies

/-- The process goes on as it was. -/
theorem Serves.stay (hV : Explains H V) (hL : Explains H L) :
    s.Leads t V P ⟨s.files, some t, s.snapshots, H⟩ :=
  h.next h.live rfl (fun _ ↦ .refl V _) (.refl V) hV hL id id (.inl ⟨rfl, rfl⟩)

/-- **Committing a group.** -/
theorem Serves.commit (hL : Explains s.attempts L) {g : Group c}
    (htime : 0 ≤ groupMin g → t.lastTime ≤ groupMin g) :
    s.Leads t V P (s.serve env t (.commit g)) := by
  have hwp : wp (commitRequests g) env _ ⟨s.files, 0, t⟩ := wp_commitRequests
    (k := s.attempts.length) h.live
    (by rwa [← h.live.view.lastTime])
  refine hwp.elim (F := fun r ↦ s.Leads t V P
    { s.after r with attempts := s.attempts ++ [⟨g, answerOf r.1⟩] }) ?_
  have hno {α : Prop} (hopen : t.frozen = false) (hfrozen : t.frozen = true) : α :=
    absurd (hopen.symm.trans hfrozen) nofun
  rintro (rs | e | _) ⟨fs', n', t'⟩ hwp
  · rcases hwp with ⟨-, -, -, e, he, -⟩ |
      ⟨hopen, hg, W, V', P', hrot, happ, hlive, hdur, hrs, -, hr, hcount⟩
    · cases he
    · have hentries : V'.entries = V.entries ++ [⟨s.attempts.length, g⟩] :=
        happ.entries.trans (by rw [hrot.entries])
      have hV' : Explains (s.attempts ++ [⟨g, some (.ok rs)⟩]) V' :=
        h.known.append hentries (fun e he ↦ by cases he) fun rs' hrs' ↦ by cases hrs'; exact hrs
      exact h.next hlive hr.readers (fun _ ↦ hg) (hrot.extends.trans happ.extends) hV' hV' hdur
        (hno hopen) (.commit h.live.view hrot happ hlive.view hcount)
  · rcases hwp with ⟨-, hfs, hmem, -⟩ | ⟨hopen, hg, hquiet, W, P', L', tail', hrot, hlive, hdur, hdef, hind⟩
    · dsimp only at hfs hmem
      subst hfs hmem
      exact h.stay (h.known.skip fun rs hrs ↦ by cases hrs) (hL.skip fun rs hrs ↦ by cases hrs)
    · have hW : Explains (s.attempts ++ [⟨g, some (.error e)⟩]) W :=
        (h.known.congr hrot.entries).skip fun rs hrs ↦ by cases hrs
      refine h.next hlive hquiet.readers (fun _ ↦ hg) hrot.extends hW ?_ hdur (hno hopen)
        (.of_db hquiet.db hquiet.lastSequence)
      by_cases he : e.code = .indeterminate
      · rcases (hind he).1 with hrot' | happ
        · exact hW.congr hrot'.entries
        · exact (h.known.congr hrot.entries).append happ.entries
            (fun e' he' ↦ by cases he'; exact he) fun rs hrs ↦ by cases hrs
      · rw [(hdef he).1]
        exact hW
  · rcases hwp with ⟨-, -, -, e, he, -⟩ | ⟨-, -, W, P', L', tail', hrot, hdisk, hcase, hsync⟩
    · cases he
    · refine .dead hdisk ?_ hsync
      rcases hcase with rfl | happ
      · exact (h.known.congr hrot.entries).skip fun rs hrs ↦ by cases hrs
      · exact (h.known.congr hrot.entries).append happ.entries (fun e he ↦ by cases he)
          fun rs hrs ↦ by cases hrs

/-- **Setting the policy.** -/
theorem Serves.setRetention (hL : Explains s.attempts L) (duration : ℕ) :
    s.Leads t V P (s.serve env t (.setRetention duration)) := by
  have hwp : wp (WebAnalyticsDb.setRetention duration) env _ ⟨s.files, 0, t⟩ :=
    wp_setRetention h.live duration
  refine hwp.elim (F := fun r ↦ s.Leads t V P (s.after r)) ?_
  rintro (_ | e | _) w hwp
  · obtain ⟨hg, hopen, -, hr, hdb, P', hlive, hdur⟩ := hwp
    exact h.next hlive hr.readers (fun _ ↦ hg) (.refl V) h.known hL hdur
      (fun hfrozen ↦ absurd (hopen.symm.trans hfrozen) nofun)
      (.of_db hdb (hlive.view.lastSequence.trans h.live.view.lastSequence.symm))
  · obtain ⟨hg, hmem, P', hlive, hdur⟩ := hwp
    refine h.next hlive ?_ (fun _ ↦ hg) (.refl V) h.known hL hdur ?_ ?_ <;>
      rcases hmem with hmem | ⟨hmem, -⟩ <;> rw [hmem]
    · exact id
    · exact fun _ ↦ by simp [Table.frozen]
    all_goals exact .inl ⟨rfl, rfl⟩
  · obtain ⟨-, P', hdisk, hsync⟩ := hwp
    exact .dead hdisk hL hsync

/-- **Applying the policy.** -/
theorem Serves.retentionApply (hL : Explains s.attempts L) (now : ℤ) :
    s.Leads t V P (s.serve env t (.retentionApply now)) := by
  have hwp : wp (WebAnalyticsDb.retentionApply now) env _ ⟨s.files, 0, t⟩ :=
    wp_retentionApply h.live now
  refine hwp.elim (F := fun r ↦ s.Leads t V P (s.after r)) ?_
  rintro (_ | e | _) ⟨fs', n', t'⟩ hwp
  · obtain ⟨hg, hr, hfrozen, hdb, -, V', P', L', hV', hL', hlive, hdur, -⟩ := hwp
    refine h.next hlive hr hg hV'.extends (h.known.congr hV'.entries) (hL.congr hL'.entries) hdur
      hfrozen (.of_db hdb ?_)
    rw [hlive.view.lastSequence, h.live.view.lastSequence]
    rcases hV' with rfl | rfl
    · rfl
    · exact V.total_retire _
  · obtain ⟨hfs, hmem⟩ := hwp
    dsimp only at hfs hmem
    subst hfs hmem
    exact h.stay h.known hL
  · obtain ⟨-, P', L', hL', hdisk, hsync⟩ := hwp
    exact .dead hdisk (hL.congr hL'.entries) hsync

/-- **Taking a snapshot.** -/
theorem Serves.acquire (hL : Explains s.attempts L)
    (o : Option ScanOptions) : s.Leads t V P (s.serve env t (.acquire o)) := by
  have hwp : wp (snapshotAcquire o) env (fun e fs' t' ↦ fs' = s.files ∧
      ((e = .ok (t.snapshot o) ∧ t' = t.pin (t.snapshot o)) ∨ (∃ er, e = .fail er) ∧ t' = t))
      ⟨s.files, 0, t⟩ :=
    wp_snapshotAcquire o (fun _ ↦ ⟨rfl, .inl ⟨rfl, rfl⟩⟩) fun e ↦ ⟨rfl, .inr ⟨⟨e, rfl⟩, rfl⟩⟩
  refine hwp.elim (F := fun r ↦ s.Leads t V P (match r.1 with
    | .ok S => { s.after r with snapshots := s.snapshots ++ [S] }
    | _ => s.after r)) ?_
  rintro _ ⟨fs', n', t'⟩ ⟨hfs, ⟨rfl, hmem⟩ | ⟨⟨e, rfl⟩, hmem⟩⟩ <;> dsimp only at hfs hmem <;> subst hfs hmem
  · refine .alive rfl ⟨h.live.pin _, h.known, ?_, fun S hS ↦ ?_⟩ hL id id (.inl ⟨rfl, rfl⟩)
    · rw [length_append, length_singleton, ← h.readers]
      rfl
    · rcases mem_append.1 hS with hS | hS
      · exact h.pinned S hS
      · rw [mem_singleton.1 hS]
        exact ⟨V, .refl V, h.live.backed, t, o, h.live.view, rfl⟩
  · exact h.stay h.known hL

/-- **Releasing a snapshot.** -/
theorem Serves.release (hL : Explains s.attempts L)
    (hp : s.process = some t) (i : ℕ) : s.Leads t V P (s.serve env t (.release i)) := by
  simp only [serve]
  cases hi : s.snapshots[i]? with
  | none => exact .alive hp h hL id id (.inl ⟨rfl, rfl⟩)
  | some S =>
    have hlt := (List.getElem?_eq_some_iff.1 hi).1
    have hlen : (s.snapshots.eraseIdx i).length = t.readers - 1 := by
      rw [length_eraseIdx_of_lt hlt, h.readers]
    have hwp : wp (snapshotRelease S) env _ ⟨s.files, 0, t⟩ := wp_snapshotRelease h.live S
    refine hwp.elim (F := fun r ↦ s.Leads t V P (match r.1 with
      | .killed => s.after r
      | _ => { s.after r with snapshots := s.snapshots.eraseIdx i })) ?_
    rintro (_ | e | _) ⟨fs', n', t'⟩ hwp
    · obtain ⟨hlive, hr, hfrozen, hfs, hdur, hmonitor⟩ := hwp
      refine .alive rfl ⟨hlive, h.known, hr.trans hlen.symm, fun S' hS' ↦ ?_⟩ hL hdur hfrozen.trans
        (.inl ⟨hmonitor, hlive.view.lastSequence.trans h.live.view.lastSequence.symm⟩)
      have hne : t.readers - 1 ≠ 0 := by
        rw [← hlen]
        exact (length_pos_of_mem hS').ne'
      obtain rfl : fs' = s.files := hfs hne
      exact h.pinned S' (mem_of_mem_eraseIdx hS')
    · exact hwp.elim
    · exact .dead hwp.1 hL hwp.2

/-- **What a call leads to.** -/
theorem Serves.leads (hp : s.process = some t)
    (hL : Explains s.attempts L) {a : Action c} (ha : s.Admits a) (env : Env Path Dir) :
    s.Leads t V P (s.serve env t a) := by
  cases a with
  | commit g => exact h.commit hL (ha t hp)
  | setRetention duration => exact h.setRetention hL duration
  | retentionApply now => exact h.retentionApply hL now
  | acquire o => exact h.acquire hL o
  | release i => exact h.release hL hp i
  | crash => exact .dead h.live.disk hL And.right
  | reopen => exact .alive hp h hL id id (.inl ⟨rfl, rfl⟩)

end

/-- A step of a site with a process is a call. -/
theorem step_serve (hp : s.process = some t) (env : Env Path Dir) (a : Action c) :
    s.step env a = s.serve env t a := by
  unfold step
  rw [hp]

/-- Without a process only opening the table does something. -/
theorem step_idle (hp : s.process = none) (env : Env Path Dir) {a : Action c} (ha : a ≠ .reopen) :
    s.step env a = s := by
  unfold step
  rw [hp]
  cases a with
  | reopen => exact absurd rfl ha
  | _ => rfl

/-- **Opening the table**, by what the program leaves. -/
theorem step_reopen {Q : Exit Error Unit → Files → Table c → Prop} (hp : s.process = none)
    (env : Env Path Dir) (hwp : wp openTable env Q ⟨s.files, 0, .zeroed⟩) :
    (∃ fs' t', Q (.ok ()) fs' t' ∧ s.step env .reopen = { s with files := fs', process := some t' }) ∨
      ∃ e fs' t', (∀ u, e ≠ .ok u) ∧ Q e fs' t' ∧
        s.step env .reopen = { s with files := fs', process := none } := by
  unfold step
  rw [hp]
  unfold wp at hwp
  dsimp only
  revert hwp
  generalize openTable env (⟨s.files, 0, .zeroed⟩ : World Path (Table c)) = r
  rcases r with ⟨_ | e | _, fs', n', t'⟩ <;> intro hpost
  · exact .inl ⟨fs', t', hpost, rfl⟩
  · exact .inr ⟨.fail e, fs', t', nofun, hpost, rfl⟩
  · exact .inr ⟨.killed, fs', t', nofun, hpost, rfl⟩

/-- **Opening the table** goes on with the log of the files. What was covered still is, and so is what
is left of a tail. -/
theorem At.reopen (h : s.At P L tail) (hp : s.process = none) (env : Env Path Dir) :
    ∃ tail', (s.step env .reopen).At P L tail' ∧ Covered L s.files (s.step env .reopen).files ∧
      ∀ t, (s.step env .reopen).process = some t →
        (s.step env .reopen).Serves t L P L tail' ∧ TailSynced L tail (s.step env .reopen).files := by
  have hsnap := h.unserved hp
  rcases step_reopen hp env (wp_openTable h.disk) with
    ⟨fs', t', hpost, heq⟩ | ⟨e, fs', t', he, hpost, heq⟩ <;> rw [heq]
  · obtain ⟨-, hlive, -, hreaders, hcovered, htail, -⟩ := hpost
    have hserves : Serves { s with files := fs', process := some t' } t' L P L [] := by
      refine ⟨hlive, h.explains, ?_, ?_⟩ <;> simp only [hsnap]
      · exact hreaders
      · exact nofun
    refine ⟨[], hserves.at rfl h.explains, hcovered, fun t ht ↦ ?_⟩
    cases ht
    exact ⟨hserves, htail⟩
  · have hrep : ∃ tail', Repaired P L tail s.files tail' fs' := by
      cases e with
      | ok u => exact absurd rfl (he u)
      | fail e => exact hpost.1
      | killed => exact hpost.1
    obtain ⟨tail', hrep⟩ := hrep
    exact ⟨tail', ⟨hrep.disk, h.explains, fun _ ht ↦ (by cases ht), fun _ ↦ hsnap⟩, hrep.covered,
      fun _ ht ↦ by cases ht⟩

/-- **The invariant is kept by every step.** -/
theorem At.step (h : s.At P L tail) {a : Action c} (ha : s.Admits a) (env : Env Path Dir) :
    ∃ P' L' tail', (s.step env a).At P' L' tail' := by
  cases hp : s.process with
  | none =>
    by_cases hreopen : a = .reopen
    · obtain ⟨tail', h', -⟩ := h.reopen hp env
      exact ⟨P, L, tail', hreopen ▸ h'⟩
    · exact ⟨P, L, tail, by rwa [step_idle hp env hreopen]⟩
  | some t =>
    obtain ⟨V, hserves⟩ := h.serves t hp
    rw [step_serve hp]
    exact (hserves.leads hp h.explains ha env).at

end Steps

/-! ### Creation -/

section Creation

variable {retentionUs : ℕ}

/-- The handle of a new table is that of the empty log. -/
theorem view_created (h : retentionUs ≤ int64Max) : View (Table.created retentionUs : Table c) [] where
  ok := ⟨trivial, zero_le, .nil⟩
  segments := rfl
  next := rfl
  preservedSequence := rfl
  preservedTime := rfl
  lastSequence := rfl
  lastTime := rfl
  retentionUs := h
  generation := ⟨Nat.one_pos, Nat.one_lt_two_pow (by decide)⟩
  readable := rfl
  fd _ hs := by cases hs
  index _ hs := by cases hs
  tallied := ⟨rfl, rfl, rfl, rfl⟩
  dictionary _ hs := by cases hs

/-- The files of a new table are those of the empty log. -/
theorem onDisk_created (h : retentionUs ≤ int64Max) {fs : Files} {f : File} (hfile : fs .manifest = some f)
    (hdata : f.data = (Table.created retentionUs : Table c).manifest.image c.id) :
    OnDisk fs ([] : Log c) [] [] := by
  have hview := view_created (c := c) h
  refine ⟨hview.ok, hview.ok, ?_, .refl _, nofun, nofun, .inl rfl⟩
  refine ⟨f, retentionUs, 1, hfile, ?_, h, Nat.one_pos, by decide⟩
  exact hdata.trans (congrArg (Manifest.image · c.id) hview.manifest_eq)

/-- **The invariant holds when the table has been created.** -/
theorem at_new (h : retentionUs ≤ int64Max) {fs : Files} {f : File} (hfile : fs .manifest = some f)
    (hdata : f.data = (Table.created retentionUs : Table c).manifest.image c.id) :
    Site.At (c := c) ⟨fs, some (.created retentionUs), [], []⟩ [] [] [] := by
  have hdisk := onDisk_created h hfile hdata
  refine ⟨hdisk, .nil, fun t ht ↦ ?_, fun hn ↦ by cases hn⟩
  cases ht
  exact ⟨[], ⟨view_created h, hdisk, hdisk.backed, .refl _, fun _ ↦ ⟨rfl, rfl⟩⟩, .nil, rfl, nofun⟩

theorem at_created (h : retentionUs ≤ int64Max) : (Site.created c retentionUs).At [] [] [] :=
  at_new h (createdFiles_manifest c retentionUs) rfl

end Creation

end Site

/-- **The invariant holds in every state that can be reached.** -/
theorem Reach.at {s : Site c} (h : Reach s) : ∃ P L tail, s.At P L tail := by
  induction h with
  | created retentionUs h => exact ⟨_, _, _, Site.at_created h⟩
  | step _ env a ha ih =>
    obtain ⟨P, L, tail, hat⟩ := ih
    exact hat.step ha env

end WebAnalyticsDb
