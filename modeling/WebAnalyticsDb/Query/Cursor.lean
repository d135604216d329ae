import Mathlib.Algebra.BigOperators.Group.List.Basic
import Mathlib.Data.List.Nodup
import Mathlib.Data.List.Perm.Basic
import WebAnalyticsDb.Foundation.Machine
import WebAnalyticsDb.Query.Snapshot

/-!
# Cursors and the budget of snapshots

Scans, queries and cursors hold snapshots, which count against `max_readers` and `snapshot_limit_bytes` of
the database: `query/snapshot.c` and `query/cursor.c`. A cursor keeps its snapshot from page to page, in a
list of the database. It may be finished by its last page, by an error, by `wadb_cursor_close` or by
`wadb_cursor_expire`; each of them first takes it out of the list, under the mutex, and destroys it
afterwards.

* **Who has what.** A snapshot is with a scan, with a cursor that is being opened, with one in the list, or
  with one that was taken out and is about to be destroyed. The state has one list for each, and
  `ReaderPool.live` is all of them.
* **Moving is a permutation.** Most steps only move something from one list to another, so what is counted
  is stated about lists up to order, and `(custody s).Perm (List.range s.created)` says that every cursor
  that was ever made is in one place, once.
* **A busy cursor stays in the list** until the call that uses it is done; the calls in progress are part
  of the state.
-/

namespace WebAnalyticsDb

open List

/-- A snapshot, as far as it is accounted for. -/
structure SnapshotRef (κ : Type) where
  table : κ
  charge : ℕ
deriving DecidableEq, Repr

/-- `wadb_cursor_state`; `serial` stands for its address. -/
structure Cursor (κ : Type) where
  serial : ℕ
  id : ℕ
  deadline : ℕ
  after : ℕ
  remainingBytes : ℕ
  busy : Bool
  snapshot : SnapshotRef κ
deriving DecidableEq, Repr

/-- `sizeof(cursor)`. -/
def sizeofCursor : ℕ := 120

/-- A call of `wadb_cursor_next` in progress: the cursor, and the number it was found by. -/
structure CursorUse where
  serial : ℕ
  id : ℕ
deriving DecidableEq, Repr

/-- The counters and the cursors of a database, and the callers. -/
structure ReaderPool (κ : Type) where
  readers : κ → ℕ
  readerCount : ℕ
  snapshotBytes : ℕ
  nextCursorId : ℕ
  cursors : List (Cursor κ)
  /-- What scans and queries hold. -/
  scans : List (SnapshotRef κ)
  /-- Cursors with a snapshot that are not yet in the list. -/
  opening : List (Cursor κ)
  /-- Cursors that were taken out of the list, or never came there. -/
  doomed : List (Cursor κ)
  /-- Pages that are being read. -/
  uses : List CursorUse
  /-- How many cursors were made, and which were destroyed. -/
  created : ℕ
  destroyed : List ℕ

/-- What can happen. -/
inductive ReaderMove {κ : Type} (C : Catalogue κ)
  /-- A scan or a query acquires a snapshot of a table as it is then. -/
  | acquire (i : κ) (t : Table (C.table i)) (o : Option ScanOptions) (alloc : Bool)
  | release (k : ℕ)
  /-- A cursor is made; the plan compiles or not, and a snapshot is acquired. -/
  | openCursor (i : κ) (t : Table (C.table i)) (o : Option ScanOptions) (compiled alloc : Bool)
  /-- It enters the list, or is refused. -/
  | insert (k planBytes now ttlMs after maxScanBytes : ℕ)
  | expire (now : ℕ)
  | beginNext (id : ℕ)
  /-- The page was read: it was the last one or has failed, or there are more. -/
  | endNext (k : ℕ) (finished : Bool) (lastSequence bytesScanned : ℕ)
  | close (id : ℕ)
  | destroy (k : ℕ)

namespace ReaderPool

variable {κ : Type}

/-- `find`: the first cursor with the number. -/
def find (s : ReaderPool κ) (id : ℕ) : Option (Cursor κ) := s.cursors.find? fun p ↦ p.id = id

/-- Change a cursor in the list. -/
def touch (serial : ℕ) (f : Cursor κ → Cursor κ) (cursors : List (Cursor κ)) : List (Cursor κ) :=
  cursors.map fun q ↦ if q.serial = serial then f q else q

/-- The snapshot of a table as `wadb_snapshot_acquire` charges it. -/
def snapshotRef {C : Catalogue κ} (i : κ) (t : Table (C.table i)) (o : Option ScanOptions) :
    SnapshotRef κ :=
  ⟨i, (t.snapshot o).charge⟩

variable [DecidableEq κ]

/-- The accounting of `wadb_snapshot_acquire`. -/
def enroll (s : ReaderPool κ) (o : Options) (x : SnapshotRef κ) : Option (ReaderPool κ) :=
  if o.maxReaders ≤ s.readerCount ∨ u64Sub o.snapshotLimitBytes s.snapshotBytes < x.charge then none
  else some { s with
    readers := Function.update s.readers x.table (s.readers x.table + 1)
    readerCount := s.readerCount + 1
    snapshotBytes := u64 (s.snapshotBytes + x.charge) }

/-- The accounting of `wadb_snapshot_release`. -/
def retreat (s : ReaderPool κ) (x : SnapshotRef κ) : ReaderPool κ :=
  { s with
    readers := Function.update s.readers x.table (u64Sub (s.readers x.table) 1)
    readerCount := u64Sub s.readerCount 1
    snapshotBytes := u64Sub s.snapshotBytes x.charge }

/-- One step; a move that is not possible changes nothing. -/
def next (C : Catalogue κ) (s : ReaderPool κ) : ReaderMove C → ReaderPool κ
  | .acquire i t o alloc =>
    match s.enroll C.options (snapshotRef i t o) with
    | some s' => if alloc then { s' with scans := snapshotRef i t o :: s.scans } else s
    | none => s
  | .release k =>
    match s.scans[k]? with
    | some x => { s.retreat x with scans := s.scans.eraseIdx k }
    | none => s
  -- without a snapshot the cursor is destroyed at once, and there is nothing to release
  | .openCursor i t o compiled alloc =>
    let p : Cursor κ := ⟨s.created, 0, 0, 0, 0, false, snapshotRef i t o⟩
    let refused := { s with created := s.created + 1, destroyed := s.created :: s.destroyed }
    match s.enroll C.options p.snapshot with
    | some s' =>
      if compiled && alloc then { s' with created := s.created + 1, opening := p :: s.opening }
      else refused
    | none => refused
  | .insert k planBytes now ttlMs after maxScanBytes =>
    match s.opening[k]? with
    | none => s
    | some p =>
      let charge := planBytes + sizeofCursor
      let s := { s with opening := s.opening.eraseIdx k }
      if s.nextCursorId = uint64Max ∨ u64Sub C.options.snapshotLimitBytes s.snapshotBytes < charge then
        { s with doomed := p :: s.doomed }
      else
        { s with
          snapshotBytes := u64 (s.snapshotBytes + charge)
          nextCursorId := s.nextCursorId + 1
          cursors := { p with
            id := s.nextCursorId + 1
            deadline := u64 (now + ttlMs * 1000000)
            after := after
            remainingBytes := maxScanBytes
            snapshot := { p.snapshot with charge := p.snapshot.charge + charge } } :: s.cursors }
  | .expire now =>
    { s with
      cursors := s.cursors.filter fun p ↦ !(!p.busy && p.deadline ≤ now)
      doomed := s.cursors.filter (fun p ↦ !p.busy && p.deadline ≤ now) ++ s.doomed }
  | .beginNext id =>
    match s.find id with
    | some p =>
      if p.busy then s
      else { s with
        cursors := touch p.serial (fun q ↦ { q with busy := true }) s.cursors
        uses := ⟨p.serial, id⟩ :: s.uses }
    | none => s
  | .endNext k finished lastSequence bytesScanned =>
    match s.uses[k]? with
    | none => s
    | some u =>
      let s := { s with uses := s.uses.eraseIdx k }
      match s.find u.id with
      | none => s
      | some p =>
        if finished then { s with cursors := s.cursors.erase p, doomed := p :: s.doomed }
        else { s with cursors := touch p.serial (fun q ↦ { q with
          after := lastSequence
          remainingBytes := u64Sub q.remainingBytes bytesScanned
          busy := false }) s.cursors }
  | .close id =>
    match s.find id with
    | some p => if p.busy then s else { s with cursors := s.cursors.erase p, doomed := p :: s.doomed }
    | none => s
  | .destroy k =>
    match s.doomed[k]? with
    | some p => { s.retreat p.snapshot with
        doomed := s.doomed.eraseIdx k
        destroyed := p.serial :: s.destroyed }
    | none => s

/-- A database that was just opened. -/
def initial : ReaderPool κ := ⟨fun _ ↦ 0, 0, 0, 0, [], [], [], [], [], 0, []⟩

/-- **Any order of the critical sections of scans, queries and cursors.** -/
def machine (C : Catalogue κ) : Machine (ReaderPool κ) (ReaderMove C) where
  init s := s = initial
  step s move s' := s' = s.next C move

end ReaderPool

/-! ### The counters -/

/-- A database has a bounded number of readers. -/
theorem Catalogue.maxReaders_le {κ : Type} (C : Catalogue κ) (i : κ) : C.options.maxReaders ≤ 1024 := by
  have h := (C.table i).accepted
  rw [C.shared i] at h
  simp only [Options.acceptable, Bool.and_eq_true, decide_eq_true_eq] at h
  tauto

section Balance

variable {κ : Type} [DecidableEq κ] {C : Catalogue κ} {readers : κ → ℕ} {count bytes : ℕ}
  {l l' : List (SnapshotRef κ)} {x : SnapshotRef κ} {s s' : ReaderPool κ}

/-- **The counters say what is live**, within the limits. -/
structure Balanced (C : Catalogue κ) (readers : κ → ℕ) (count bytes : ℕ) (l : List (SnapshotRef κ)) :
    Prop where
  count_eq : count = l.length
  count_le : count ≤ C.options.maxReaders
  readers_eq : ∀ i, readers i = l.countP fun x ↦ x.table = i
  bytes_eq : bytes = (l.map SnapshotRef.charge).sum
  bytes_le : bytes ≤ C.options.snapshotLimitBytes

/-- The order does not matter. -/
theorem Balanced.perm (h : Balanced C readers count bytes l) (hl : l.Perm l') :
    Balanced C readers count bytes l' where
  count_eq := h.count_eq.trans hl.length_eq
  count_le := h.count_le
  readers_eq i := (h.readers_eq i).trans (hl.countP_eq _)
  bytes_eq := h.bytes_eq.trans (hl.map _).sum_eq
  bytes_le := h.bytes_le

namespace ReaderPool

/-- A snapshot is admitted if it fits. -/
theorem enroll_eq_some (h : s.enroll C.options x = some s') :
    s.readerCount < C.options.maxReaders ∧
      x.charge ≤ u64Sub C.options.snapshotLimitBytes s.snapshotBytes ∧
      s' = { s with
        readers := Function.update s.readers x.table (s.readers x.table + 1)
        readerCount := s.readerCount + 1
        snapshotBytes := u64 (s.snapshotBytes + x.charge) } := by
  unfold enroll at h
  split at h
  · cases h
  next hfits =>
    push Not at hfits
    exact ⟨hfits.1, hfits.2, (Option.some.inj h).symm⟩

end ReaderPool

/-- **One more snapshot.** -/
theorem Balanced.enroll (h : Balanced C s.readers s.readerCount s.snapshotBytes l)
    (hs : s.enroll C.options x = some s') :
    Balanced C s'.readers s'.readerCount s'.snapshotBytes (x :: l) := by
  obtain ⟨hcount, hcharge, rfl⟩ := ReaderPool.enroll_eq_some hs
  have hfits := C.snapshotFits
  have hle := h.bytes_le
  rw [u64Sub_of_le hfits hle] at hcharge
  have hsum : u64 (s.snapshotBytes + x.charge) = s.snapshotBytes + x.charge := u64_of_lt (by omega)
  refine ⟨?_, hcount, fun i ↦ ?_, ?_, ?_⟩
  · rw [length_cons, ← h.count_eq]
  · rw [countP_cons, ← h.readers_eq]
    by_cases hi : x.table = i
    · subst hi
      simp
    · simp [hi, Function.update_of_ne (Ne.symm hi)]
  · dsimp only
    rw [hsum, map_cons, sum_cons, ← h.bytes_eq, Nat.add_comm]
  · dsimp only
    omega

/-- **One snapshot less.** -/
theorem Balanced.retreat (h : Balanced C s.readers s.readerCount s.snapshotBytes (x :: l)) :
    Balanced C (s.retreat x).readers (s.retreat x).readerCount (s.retreat x).snapshotBytes l := by
  have hcount := h.count_eq
  have hle := h.count_le
  have hmax := C.maxReaders_le x.table
  have hbytes := h.bytes_eq
  have hbound := h.bytes_le
  have hfits := C.snapshotFits
  have hreaders (i : κ) := h.readers_eq i
  simp only [length_cons] at hcount
  simp only [map_cons, sum_cons] at hbytes
  simp only [countP_cons] at hreaders
  have hless : s.readers x.table ≤ s.readerCount := by
    rw [h.count_eq, h.readers_eq]
    exact countP_le_length
  have hone : s.readers x.table = l.countP (fun y ↦ y.table = x.table) + 1 := by
    simpa using hreaders x.table
  have hcount' : u64Sub s.readerCount 1 = s.readerCount - 1 := u64Sub_of_le (by omega) (by omega)
  have hreaders' : u64Sub (s.readers x.table) 1 = s.readers x.table - 1 :=
    u64Sub_of_le (by omega) (by omega)
  have hbytes' : u64Sub s.snapshotBytes x.charge = s.snapshotBytes - x.charge :=
    u64Sub_of_le (by omega) (by omega)
  unfold ReaderPool.retreat
  refine ⟨?_, ?_, fun i ↦ ?_, ?_, ?_⟩
  · dsimp only
    omega
  · dsimp only
    omega
  · dsimp only
    by_cases hi : x.table = i
    · subst hi
      rw [Function.update_self, hreaders', hone, Nat.add_sub_cancel]
    · rw [Function.update_of_ne (Ne.symm hi), hreaders i]
      simp [hi]
  · dsimp only
    omega
  · dsimp only
    omega

/-- **A snapshot is charged more.** -/
theorem Balanced.raise (h : Balanced C readers count bytes (x :: l)) {charge : ℕ}
    (hcharge : charge ≤ u64Sub C.options.snapshotLimitBytes bytes) :
    Balanced C readers count (u64 (bytes + charge)) ({ x with charge := x.charge + charge } :: l) := by
  have hfits := C.snapshotFits
  have hle := h.bytes_le
  have hbytes := h.bytes_eq
  rw [u64Sub_of_le hfits hle] at hcharge
  have hsum : u64 (bytes + charge) = bytes + charge := u64_of_lt (by omega)
  refine ⟨h.count_eq, h.count_le, fun i ↦ ?_, ?_, by omega⟩
  · rw [h.readers_eq i, countP_cons, countP_cons]
  · rw [hsum, hbytes]
    simp only [map_cons, sum_cons]
    omega

end Balance

/-! ### Who has what -/

namespace ReaderPool

section Custody

variable {κ : Type} {s s' : ReaderPool κ}

/-- The cursors with a snapshot. -/
def held (s : ReaderPool κ) : List (Cursor κ) := s.opening ++ (s.cursors ++ s.doomed)

/-- **The live snapshots.** -/
def live (s : ReaderPool κ) : List (SnapshotRef κ) := s.scans ++ s.held.map Cursor.snapshot

/-- Where the cursors are that were ever made: with a snapshot, or destroyed. -/
def custody (s : ReaderPool κ) : List ℕ := s.held.map Cursor.serial ++ s.destroyed

/-- The numbers in the list, and the cursors in use. -/
structure Kept (uses : List CursorUse) (nextCursorId : ℕ) (cursors : List (Cursor κ)) : Prop where
  ids : (cursors.map Cursor.id).Nodup
  ids_le : ∀ p ∈ cursors, p.id ≤ nextCursorId
  uses_nodup : (uses.map CursorUse.serial).Nodup
  used : ∀ u ∈ uses, ∃ p ∈ cursors, p.serial = u.serial ∧ p.id = u.id ∧ p.busy = true

variable {p : Cursor κ} {uses : List CursorUse} {k : ℕ}

/-- A number finds the cursor that has it. -/
theorem Kept.find_eq (h : Kept uses s.nextCursorId s.cursors) {id : ℕ}
    (hp : s.find id = some p) : p ∈ s.cursors ∧ p.id = id ∧
      ∀ q ∈ s.cursors, q.id = id → q = p := by
  have hmem := mem_of_find?_eq_some hp
  have hid : p.id = id := by simpa using find?_some hp
  exact ⟨hmem, hid, fun q hq hqid ↦ inj_on_of_nodup_map h.ids hq hmem (hqid.trans hid.symm)⟩

/-- A page that is done leaves the other ones. -/
theorem Kept.ne_of_mem_eraseIdx {n : ℕ} {cursors : List (Cursor κ)}
    (h : Kept uses n cursors) {u : CursorUse} (hu : uses[k]? = some u) :
    ∀ u' ∈ uses.eraseIdx k, u'.serial ≠ u.serial := by
  obtain ⟨hk, rfl⟩ := List.getElem?_eq_some_iff.1 hu
  have hnodup := (((getElem_cons_eraseIdx_perm hk).map CursorUse.serial).nodup_iff).2 h.uses_nodup
  rw [map_cons, nodup_cons] at hnodup
  exact fun u' hu' heq ↦ hnodup.1 (heq ▸ mem_map_of_mem hu')

theorem map_touch {β : Type} {g : Cursor κ → β} {f : Cursor κ → Cursor κ} (hf : ∀ q, g (f q) = g q)
    (serial : ℕ) (cursors : List (Cursor κ)) : (touch serial f cursors).map g = cursors.map g := by
  rw [touch, map_map]
  refine map_congr_left fun q _ ↦ ?_
  dsimp only [Function.comp]
  split
  · exact hf q
  · rfl

variable [DecidableEq κ] {C : Catalogue κ}

/-- The invariant. -/
structure Inv (C : Catalogue κ) (s : ReaderPool κ) : Prop where
  balanced : Balanced C s.readers s.readerCount s.snapshotBytes s.live
  custody : s.custody.Perm (List.range s.created)
  kept : Kept s.uses s.nextCursorId s.cursors

/-- Cursors in the list have addresses of their own. -/
theorem Inv.serials (h : s.Inv C) : (s.cursors.map Cursor.serial).Nodup := by
  have hall : s.custody.Nodup := h.custody.nodup_iff.2 nodup_range
  have hheld : (s.held.map Cursor.serial).Nodup := (nodup_append.1 hall).1
  refine hheld.sublist (List.Sublist.map _ ?_)
  exact (sublist_append_left _ _).trans (sublist_append_right _ _)

/-- **A step that only moves cursors**, or changes what is not accounted for. -/
theorem Inv.moved (h : s.Inv C) (hcounters : s'.readers = s.readers ∧ s'.readerCount = s.readerCount ∧
      s'.snapshotBytes = s.snapshotBytes ∧ s'.scans = s.scans)
    (hmade : s'.created = s.created ∧ s'.destroyed = s.destroyed)
    (hsnapshots : (s.held.map Cursor.snapshot).Perm (s'.held.map Cursor.snapshot))
    (hserials : (s.held.map Cursor.serial).Perm (s'.held.map Cursor.serial))
    (hkept : Kept s'.uses s'.nextCursorId s'.cursors) : s'.Inv C where
  balanced := by
    obtain ⟨hreaders, hcount, hbytes, hscans⟩ := hcounters
    rw [hreaders, hcount, hbytes]
    refine h.balanced.perm ?_
    rw [live, live, hscans]
    exact hsnapshots.append_left _
  custody := by
    rw [ReaderPool.custody, hmade.1, hmade.2]
    exact (hserials.symm.append_right _).trans h.custody
  kept := hkept

/-- A cursor is taken out of the list. -/
theorem held_unlink (hp : p ∈ s.cursors) :
    s.held.Perm (s.opening ++ (s.cursors.erase p ++ p :: s.doomed)) := by
  refine List.Perm.append_left _ ?_
  refine ((perm_cons_erase hp).append_right _).trans ?_
  exact perm_middle.symm

/-- The list without a cursor that nobody uses any more. -/
theorem Kept.erase {uses' : List CursorUse} (h : Kept uses s.nextCursorId s.cursors)
    (huses : uses'.Sublist uses) (hfree : ∀ u ∈ uses', u.serial ≠ p.serial) :
    Kept uses' s.nextCursorId (s.cursors.erase p) where
  ids := h.ids.sublist (erase_sublist.map _)
  ids_le q hq := h.ids_le q (mem_of_mem_erase hq)
  uses_nodup := h.uses_nodup.sublist (huses.map _)
  used u hu := by
    obtain ⟨q, hq, hserial, hrest⟩ := h.used u (huses.subset hu)
    refine ⟨q, (mem_erase_of_ne ?_).2 hq, hserial, hrest⟩
    rintro rfl
    exact hfree u hu hserial.symm

section

variable (h : s.Inv C)
include h

/-- **A step that changes a cursor in the list.** -/
theorem Inv.touched {serial : ℕ} {f : Cursor κ → Cursor κ}
    (hsnapshot : ∀ q, (f q).snapshot = q.snapshot) (hserial : ∀ q, (f q).serial = q.serial)
    (hid : ∀ q, (f q).id = q.id) (huses : (uses.map CursorUse.serial).Nodup)
    (hused : ∀ u ∈ uses, ∃ p ∈ touch serial f s.cursors,
      p.serial = u.serial ∧ p.id = u.id ∧ p.busy = true) :
    Inv C { s with cursors := touch serial f s.cursors, uses := uses } := by
  refine h.moved ⟨rfl, rfl, rfl, rfl⟩ ⟨rfl, rfl⟩ ?_ ?_ ⟨?_, fun p hp ↦ ?_, huses, hused⟩
  · simp only [held, map_append, map_touch hsnapshot, List.Perm.refl]
  · simp only [held, map_append, map_touch hserial, List.Perm.refl]
  · dsimp only
    rw [map_touch hid]
    exact h.kept.ids
  · obtain ⟨q, hq, rfl⟩ := mem_map.1 hp
    split
    · rw [hid]
      exact h.kept.ids_le q hq
    · exact h.kept.ids_le q hq

/-! ### The steps -/

/-- **A cursor without a snapshot** is made and destroyed. -/
theorem Inv.refused :
    Inv C { s with created := s.created + 1, destroyed := s.created :: s.destroyed } where
  balanced := h.balanced
  custody := by
    rw [ReaderPool.custody, range_succ]
    exact (perm_middle.trans (h.custody.cons _)).trans (perm_append_singleton _ _).symm
  kept := h.kept

/-- **A cursor gets its snapshot.** -/
theorem Inv.opened (hserial : p.serial = s.created) (hs : s.enroll C.options p.snapshot = some s') :
    Inv C { s' with created := s.created + 1, opening := p :: s.opening } := by
  have hbalanced := h.balanced.enroll hs
  obtain ⟨-, -, rfl⟩ := enroll_eq_some hs
  refine ⟨hbalanced.perm ?_, ?_, h.kept⟩
  · exact perm_middle.symm
  · rw [ReaderPool.custody, range_succ]
    show (p.serial :: s.custody).Perm _
    rw [hserial]
    exact (h.custody.cons _).trans (perm_append_singleton _ _).symm

/-- **A scan has its snapshot.** -/
theorem Inv.acquired {x : SnapshotRef κ} (hs : s.enroll C.options x = some s') :
    Inv C { s' with scans := x :: s.scans } := by
  have hbalanced := h.balanced.enroll hs
  obtain ⟨-, -, rfl⟩ := enroll_eq_some hs
  exact ⟨hbalanced, h.custody, h.kept⟩

/-- **A scan is done.** -/
theorem Inv.released {x : SnapshotRef κ} (hx : s.scans[k]? = some x) :
    Inv C { s.retreat x with scans := s.scans.eraseIdx k } := by
  obtain ⟨hk, rfl⟩ := List.getElem?_eq_some_iff.1 hx
  refine ⟨Balanced.retreat (h.balanced.perm ?_), h.custody, h.kept⟩
  exact (getElem_cons_eraseIdx_perm hk).symm.append_right _

/-- **A cursor is destroyed.** -/
theorem Inv.destroyed (hp : s.doomed[k]? = some p) : Inv C { s.retreat p.snapshot with
      doomed := s.doomed.eraseIdx k, destroyed := p.serial :: s.destroyed } := by
  obtain ⟨hk, rfl⟩ := List.getElem?_eq_some_iff.1 hp
  have hheld : s.held.Perm (s.doomed[k] :: (s.opening ++ (s.cursors ++ s.doomed.eraseIdx k))) := by
    have hdoomed := (getElem_cons_eraseIdx_perm hk).symm
    refine ((hdoomed.append_left _).append_left _).trans ?_
    rw [← append_assoc, ← append_assoc]
    exact perm_middle
  refine ⟨Balanced.retreat (h.balanced.perm ?_), ?_, h.kept⟩
  · exact ((hheld.map _).append_left _).trans perm_middle
  · refine .trans ?_ h.custody
    exact perm_middle.trans ((hheld.map Cursor.serial).append_right s.destroyed).symm

/-- **A cursor enters the list**, or it does not. -/
theorem Inv.inserted (k planBytes now ttlMs after maxScanBytes : ℕ) :
    (s.next C (.insert k planBytes now ttlMs after maxScanBytes)).Inv C := by
  simp only [ReaderPool.next]
  split
  · exact h
  next p hp =>
  obtain ⟨hk, rfl⟩ := List.getElem?_eq_some_iff.1 hp
  have hopening := (getElem_cons_eraseIdx_perm hk).symm
  have hheld : s.held.Perm (s.opening[k] :: (s.opening.eraseIdx k ++ (s.cursors ++ s.doomed))) :=
    hopening.append_right _
  split
  · -- refused: it is destroyed next
    have hmoved : s.held.Perm (s.opening.eraseIdx k ++ (s.cursors ++ s.opening[k] :: s.doomed)) := by
      refine hheld.trans (perm_middle.symm.trans (List.Perm.append_left _ ?_))
      exact perm_middle.symm
    exact h.moved ⟨rfl, rfl, rfl, rfl⟩ ⟨rfl, rfl⟩ (hmoved.map _) (hmoved.map _) h.kept
  next hfits =>
    push Not at hfits
    refine ⟨?_, ?_, ?_, fun q hq ↦ ?_, h.kept.uses_nodup, fun u hu ↦ ?_⟩
    · have hbalanced := h.balanced.perm (((hheld.map Cursor.snapshot).append_left _).trans
        perm_middle)
      refine (hbalanced.raise hfits.2).perm ?_
      refine perm_middle.symm.trans (List.Perm.append_left _ ?_)
      simp only [ReaderPool.held, map_append, map_cons]
      exact perm_middle.symm
    · refine .trans ?_ h.custody
      refine List.Perm.append_right _ (.trans ?_ (hheld.map Cursor.serial).symm)
      simp only [ReaderPool.held, map_append, map_cons]
      exact perm_middle
    · rw [map_cons, nodup_cons]
      refine ⟨fun hmem ↦ ?_, h.kept.ids⟩
      obtain ⟨q, hq, hid⟩ := mem_map.1 hmem
      have hle := h.kept.ids_le q hq
      dsimp only at hid
      omega
    · rcases mem_cons.1 hq with rfl | hq
      · exact le_rfl
      · exact (h.kept.ids_le q hq).trans (Nat.le_succ _)
    · obtain ⟨q, hq, hrest⟩ := h.kept.used u hu
      exact ⟨q, mem_cons_of_mem _ hq, hrest⟩

/-- **Cursors expire**, but not those in use. -/
theorem Inv.expired (now : ℕ) : (s.next C (.expire now)).Inv C := by
  simp only [ReaderPool.next]
  have hsub := filter_sublist (l := s.cursors) (p := fun p ↦ !(!p.busy && p.deadline ≤ now))
  have hmoved : s.held.Perm (s.opening ++ (s.cursors.filter (fun p ↦ !(!p.busy && p.deadline ≤ now)) ++
      (s.cursors.filter (fun p ↦ !p.busy && p.deadline ≤ now) ++ s.doomed))) := by
    refine List.Perm.append_left _ ?_
    rw [← append_assoc]
    refine List.Perm.append_right _ (.symm (perm_append_comm.trans ?_))
    simpa using filter_append_perm (fun p : Cursor κ ↦ !p.busy && p.deadline ≤ now) s.cursors
  refine h.moved ⟨rfl, rfl, rfl, rfl⟩ ⟨rfl, rfl⟩ (hmoved.map _) (hmoved.map _)
    ⟨h.kept.ids.sublist (hsub.map _), fun p hp ↦ h.kept.ids_le p (hsub.subset hp), h.kept.uses_nodup,
      fun u hu ↦ ?_⟩
  obtain ⟨p, hp, hserial, hid, hbusy⟩ := h.kept.used u hu
  exact ⟨p, mem_filter.2 ⟨hp, by simp [hbusy]⟩, hserial, hid, hbusy⟩

/-- A cursor that is not busy is not used. -/
theorem Inv.not_used (hp : p ∈ s.cursors) (hfree : p.busy = false) :
    ∀ u ∈ s.uses, u.serial ≠ p.serial := by
  intro u hu heq
  obtain ⟨q, hq, hserial, -, hbusy⟩ := h.kept.used u hu
  obtain rfl := inj_on_of_nodup_map h.serials hq hp (hserial.trans heq)
  rw [hfree] at hbusy
  cases hbusy

/-- **A cursor is closed**, unless it is in use. -/
theorem Inv.closed (id : ℕ) : (s.next C (.close id)).Inv C := by
  simp only [ReaderPool.next]
  split
  next p hp =>
    obtain ⟨hmem, -, -⟩ := h.kept.find_eq hp
    split
    · exact h
    next hfree =>
      have hmoved := held_unlink hmem
      exact h.moved ⟨rfl, rfl, rfl, rfl⟩ ⟨rfl, rfl⟩ (hmoved.map _) (hmoved.map _)
        (h.kept.erase (.refl _) (h.not_used hmem (by simpa using hfree)))
  next => exact h

/-- **A page begins.** -/
theorem Inv.begun (id : ℕ) : (s.next C (.beginNext id)).Inv C := by
  simp only [ReaderPool.next]
  split
  next p hp =>
    obtain ⟨hmem, hid, -⟩ := h.kept.find_eq hp
    split
    · exact h
    next hfree =>
      have hunused := h.not_used hmem (by simpa using hfree)
      refine h.touched (fun _ ↦ rfl) (fun _ ↦ rfl) (fun _ ↦ rfl) ?_ fun u hu ↦ ?_
      · rw [map_cons, nodup_cons]
        refine ⟨fun hin ↦ ?_, h.kept.uses_nodup⟩
        obtain ⟨u, hu, heq⟩ := mem_map.1 hin
        exact hunused u hu heq
      · rcases mem_cons.1 hu with rfl | hu
        · refine ⟨_, mem_map_of_mem hmem, ?_⟩
          rw [if_pos rfl]
          exact ⟨rfl, hid, rfl⟩
        · obtain ⟨q, hq, hserial, hqid, hbusy⟩ := h.kept.used u hu
          refine ⟨_, mem_map_of_mem hq, ?_⟩
          split
          · exact ⟨hserial, hqid, rfl⟩
          · exact ⟨hserial, hqid, hbusy⟩
  next => exact h

/-- **A page ends**: the cursor is still there. -/
theorem Inv.ended (k : ℕ) (finished : Bool) (lastSequence bytesScanned : ℕ) :
    (s.next C (.endNext k finished lastSequence bytesScanned)).Inv C := by
  simp only [ReaderPool.next]
  split
  · exact h
  next u hu =>
  have hothers := h.kept.ne_of_mem_eraseIdx hu
  have hsub : (s.uses.eraseIdx k).Sublist s.uses := eraseIdx_sublist _ _
  obtain ⟨q, hq, hserial, hid, -⟩ := h.kept.used u (mem_of_getElem? hu)
  split
  next hnone =>
    -- the cursor in use is in the list
    have := find?_eq_none.1 hnone q hq
    simp [hid] at this
  next p hp =>
    obtain ⟨hmem, -, honly⟩ := h.kept.find_eq (s := { s with uses := s.uses.eraseIdx k }) hp
    obtain rfl := honly q hq hid
    have hfree : ∀ u' ∈ s.uses.eraseIdx k, u'.serial ≠ q.serial := fun u' hu' ↦
      hserial ▸ hothers u' hu'
    split
    · have hmoved := held_unlink hmem
      exact h.moved ⟨rfl, rfl, rfl, rfl⟩ ⟨rfl, rfl⟩ (hmoved.map _) (hmoved.map _) (h.kept.erase hsub hfree)
    · refine h.touched (fun _ ↦ rfl) (fun _ ↦ rfl) (fun _ ↦ rfl) (h.kept.uses_nodup.sublist (hsub.map _))
        fun u' hu' ↦ ?_
      obtain ⟨q', hq', hserial', hrest⟩ := h.kept.used u' (hsub.subset hu')
      refine ⟨_, mem_map_of_mem hq', ?_⟩
      rw [if_neg (fun heq ↦ hfree u' hu' (hserial'.symm.trans heq))]
      exact ⟨hserial', hrest⟩

theorem Inv.next (move : ReaderMove C) : (s.next C move).Inv C := by
  cases move with
  | acquire i t o alloc =>
    simp only [ReaderPool.next]
    split
    next s' hs =>
      split
      · exact h.acquired hs
      · exact h
    next => exact h
  | release k =>
    simp only [ReaderPool.next]
    split
    next x hx => exact h.released hx
    next => exact h
  | openCursor i t o compiled alloc =>
    simp only [ReaderPool.next]
    split
    next s' hs =>
      split
      · exact h.opened rfl hs
      · exact h.refused
    next => exact h.refused
  | insert k planBytes now ttlMs after maxScanBytes =>
    exact h.inserted k planBytes now ttlMs after maxScanBytes
  | expire now => exact h.expired now
  | beginNext id => exact h.begun id
  | endNext k finished lastSequence bytesScanned => exact h.ended k finished lastSequence bytesScanned
  | close id => exact h.closed id
  | destroy k =>
    simp only [ReaderPool.next]
    split
    next p hp => exact h.destroyed hp
    next => exact h

end

theorem inv_of_reach (h : (machine C).Reach s) : s.Inv C := by
  refine h.invariant ?_ ?_
  · rintro s rfl
    exact ⟨⟨rfl, zero_le, fun _ ↦ rfl, rfl, zero_le⟩, .refl _, nodup_nil,
      fun p hp ↦ (by cases hp), nodup_nil, fun u hu ↦ (by cases hu)⟩
  · rintro s move s' - hs rfl
    exact hs.next move

/-- **A cursor in use is not there to be destroyed.** -/
theorem Inv.not_destroyed (h : s.Inv C) {u : CursorUse} (hu : u ∈ s.uses) :
    u.serial ∉ s.doomed.map Cursor.serial ∧ u.serial ∉ s.destroyed := by
  obtain ⟨p, hp, hserial, -⟩ := h.kept.used u hu
  have hmem : u.serial ∈ s.cursors.map Cursor.serial := hserial ▸ mem_map_of_mem hp
  have hall : s.custody.Nodup := h.custody.nodup_iff.2 nodup_range
  simp only [ReaderPool.custody, held, map_append, append_assoc] at hall
  have hrest := (nodup_append.1 hall).2.1
  have hapart := (nodup_append.1 hrest).2.2 _ hmem
  constructor
  · exact fun hdoomed ↦ hapart _ (mem_append_left _ hdoomed) rfl
  · exact fun hdestroyed ↦ hapart _ (mem_append_right _ hdestroyed) rfl

/-- Closing a cursor and expiring some leave the pages that are being read. -/
theorem uses_next (move : ReaderMove C) (hmove : (∃ id, move = .close id) ∨ ∃ now, move = .expire now) :
    (s.next C move).uses = s.uses := by
  rcases hmove with ⟨id, rfl⟩ | ⟨now, rfl⟩
  · simp only [ReaderPool.next]
    split
    · split <;> rfl
    · rfl
  · rfl

/-- **Snapshots and cursors are released exactly once.** In every reachable state the readers of the
database and of each table are the live snapshots, at most `max_readers`; the bytes are what the live
snapshots are charged, within the limit; every cursor that was ever made is in one place, once: with a
call that opens it, in the list, taken out, or destroyed; and a cursor in use is in the list, busy, and
neither `wadb_cursor_close` nor `wadb_cursor_expire` changes that. -/
theorem readers_balanced (h : (machine C).Reach s) :
    s.readerCount = s.live.length ∧ s.readerCount ≤ C.options.maxReaders ∧
      (∀ i, s.readers i = s.live.countP fun x ↦ x.table = i) ∧
      s.snapshotBytes = (s.live.map SnapshotRef.charge).sum ∧
      s.snapshotBytes ≤ C.options.snapshotLimitBytes ∧
      s.custody.Perm (List.range s.created) ∧
      ∀ u ∈ s.uses, u.serial ∉ s.doomed.map Cursor.serial ∧ u.serial ∉ s.destroyed ∧
        ∀ move, ((∃ id, move = .close id) ∨ ∃ now, move = .expire now) →
          ∃ p ∈ (s.next C move).cursors, p.serial = u.serial ∧ p.id = u.id ∧ p.busy = true := by
  have hinv := inv_of_reach h
  refine ⟨hinv.balanced.count_eq, hinv.balanced.count_le, hinv.balanced.readers_eq,
    hinv.balanced.bytes_eq, hinv.balanced.bytes_le, hinv.custody, fun u hu ↦ ?_⟩
  obtain ⟨hdoomed, hdestroyed⟩ := hinv.not_destroyed hu
  refine ⟨hdoomed, hdestroyed, fun move hmove ↦ (hinv.next move).kept.used u ?_⟩
  rwa [uses_next move hmove]

/-- A page is being read while its cursor is closed and expired, and it is the last one. -/
def lastPage : List (ReaderMove hitsCatalogue) :=
  [.openCursor () (.created 0) none true true, .insert 0 64 0 1000 0 4096, .acquire () (.created 0) none true,
    .beginNext 1, .close 1, .expire (2 ^ 60), .endNext 0 true 0 0, .destroy 0]

/-- The cursor is destroyed once, and the snapshot of a scan is left. -/
theorem readers_balanced_lastPage :
    (lastPage.foldl (next hitsCatalogue) initial).destroyed = [0] ∧
      (lastPage.foldl (next hitsCatalogue) initial).readerCount =
        (lastPage.foldl (next hitsCatalogue) initial).live.length ∧
      (lastPage.foldl (next hitsCatalogue) initial).readerCount = 1 := by
  have hreach : (machine hitsCatalogue).Reach (lastPage.foldl (next hitsCatalogue) initial) :=
    .foldl (fun _ _ ↦ rfl) (.init rfl) _
  exact ⟨by decide +kernel, (readers_balanced hreach).1, by decide +kernel⟩

end Custody

/-! ### The snapshots of a table -/

section Snapshots

variable {κ : Type} [DecidableEq κ] {C : Catalogue κ} {s : ReaderPool κ} {i : κ} {t : Table (C.table i)}

/-- The pool has the counters of a handle. -/
structure Agrees (s : ReaderPool κ) (t : Table (C.table i)) : Prop where
  readers : s.readers i = t.readers
  readerCount : s.readerCount = t.db.readerCount
  snapshotBytes : s.snapshotBytes = t.db.snapshotBytes

/-- **Acquiring** a snapshot of a table is admitting it. -/
theorem Agrees.acquire (h : s.Agrees t) {l : List (SnapshotRef κ)}
    (hb : Balanced C s.readers s.readerCount s.snapshotBytes l) (o : Option ScanOptions)
    {env : Env Path Dir} {fs : Files} {n : ℕ} :
    wp (snapshotAcquire o) env (fun e _ t' ↦ ∀ x, e = .ok x → x = t.snapshot o ∧
      ∃ s', s.enroll C.options (snapshotRef i t o) = some s' ∧ s'.Agrees t') ⟨fs, n, t⟩ := by
  have hle := hb.bytes_le
  have hfits := C.snapshotFits
  refine wp_snapshotAcquire o (fun hok x hx ↦ ?_) fun _ x hx ↦ by cases hx
  cases hx
  rw [C.shared i, ← h.readerCount, ← h.snapshotBytes] at hok
  have hroom : (t.snapshot o).charge ≤ u64Sub C.options.snapshotLimitBytes s.snapshotBytes := by
    rw [u64Sub_of_le hfits hle]
    exact hok.2
  have hsum : u64 (s.snapshotBytes + (t.snapshot o).charge) =
      s.snapshotBytes + (t.snapshot o).charge := u64_of_lt (by omega)
  refine ⟨rfl, _, if_neg (not_or.2 ⟨Nat.not_le_of_lt hok.1, Nat.not_lt_of_le hroom⟩), ?_, ?_, ?_⟩
  · show Function.update s.readers i (s.readers i + 1) i = t.readers + 1
    rw [Function.update_self, h.readers]
  · show s.readerCount + 1 = t.db.readerCount + 1
    rw [h.readerCount]
  · show u64 (s.snapshotBytes + (t.snapshot o).charge) = t.db.snapshotBytes + (t.snapshot o).charge
    rw [hsum, h.snapshotBytes]

/-- **Releasing** it is giving it back. -/
theorem Agrees.release (h : s.Agrees t) {l : List (SnapshotRef κ)} {S : Snapshot}
    (hb : Balanced C s.readers s.readerCount s.snapshotBytes (⟨i, S.charge⟩ :: l)) :
    (s.retreat ⟨i, S.charge⟩).Agrees (t.unpin S) := by
  have hbound := hb.bytes_le
  have hfits := C.snapshotFits
  have hcount := hb.count_le
  have hmax := C.maxReaders_le i
  have hpos : 0 < s.readers i ∧ 0 < s.readerCount ∧ s.readers i ≤ s.readerCount := by
    rw [hb.readers_eq, hb.count_eq]
    exact ⟨by simp, by simp, countP_le_length⟩
  have hcharge : S.charge ≤ s.snapshotBytes := by
    rw [hb.bytes_eq]
    simp
  refine ⟨?_, ?_, ?_⟩
  · show Function.update s.readers i (u64Sub (s.readers i) 1) i = t.readers - 1
    rw [Function.update_self, u64Sub_of_le (by omega) (by omega), h.readers]
  · show u64Sub s.readerCount 1 = t.db.readerCount - 1
    rw [u64Sub_of_le (by omega) (by omega), h.readerCount]
  · show u64Sub s.snapshotBytes S.charge = t.db.snapshotBytes - S.charge
    rw [u64Sub_of_le (by omega) hcharge, h.snapshotBytes]

end Snapshots

end ReaderPool

end WebAnalyticsDb
