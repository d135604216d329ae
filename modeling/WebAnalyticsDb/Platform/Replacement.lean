import WebAnalyticsDb.Foundation.Disk
import WebAnalyticsDb.Foundation.Machine
import WebAnalyticsDb.Platform.Files

/-!
# Replacing a file on a disk that loses power

`wadb_atomic_file` once more, call by call on a disk whose entries and data are durable only after a
synchronization. The power may fail in any state that is reached, which includes those between two writes
and those before and after each call.

* **One step per call and answer.** Interrupted calls are made again, writes may be short, and every call
  may fail; `Replacing.Step` has one constructor for each case.
* **Old or new.** Before the rename, the entry and the file it leads to are as they were. The rename brings
  in a file that is complete and synchronized, so an entry that comes back and one that stays are both
  whole (`Replacing.Inv`).
* **The same function.** Every run of `atomicFile`, whatever the environment answers, ends in a state of
  this machine with the same visible files and the same status (`wp_atomicFile_reach`).
-/

namespace WebAnalyticsDb

open Bytes List

/-! ### The calls -/

/-- Where `wadb_atomic_file` is. -/
inductive Phase
  | allocate
  | create
  /-- In `wadb_write_all`, with `written` bytes of the temporary file written. -/
  | write (i written : ℕ)
  | sync (i : ℕ)
  /-- Before `close`, with the status so far. -/
  | close (status : Option Status)
  | rename
  | syncDirectory
  | unlink (status : Status)
  /-- Returned; `none` is `WADB_OK`. -/
  | done (status : Option Status)
deriving DecidableEq, Repr

/-- The disk and the function that is working on it. -/
structure Replacing where
  disk : Disk Path
  phase : Phase

namespace Replacing

/-- What the system answers to a call. -/
inductive Answer
  | ok
  | fail
  | interrupted
  /-- The inode of a new file. -/
  | created (i : ℕ)
  /-- The number of bytes written. -/
  | wrote (k : ℕ)

/-- **One step of `wadb_atomic_file`.** -/
inductive Step (p : Path) (data : Bytes) : Replacing → Answer → Replacing → Prop
  | longPath {d} : Step p data ⟨d, .allocate⟩ .fail ⟨d, .done (some .limit)⟩
  | allocate {d} : Step p data ⟨d, .allocate⟩ .ok ⟨d, .create⟩
  | allocateFail {d} : Step p data ⟨d, .allocate⟩ .fail ⟨d, .done (some .nomem)⟩
  | create {d i} (h : d.Fresh i) :
      Step p data ⟨d, .create⟩ (.created i) ⟨d.create (.tmp p) i, .write i 0⟩
  | createFail {d} : Step p data ⟨d, .create⟩ .fail ⟨d, .done (some .io)⟩
  | write {d i n k} (hpos : 0 < k) (h : n + k ≤ data.length) :
      Step p data ⟨d, .write i n⟩ (.wrote k) ⟨d.append i (slice data n k), .write i (n + k)⟩
  | writeInterrupted {d i n} (h : n < data.length) :
      Step p data ⟨d, .write i n⟩ .interrupted ⟨d, .write i n⟩
  | writeFail {d i n} (h : n < data.length) :
      Step p data ⟨d, .write i n⟩ .fail ⟨d, .close (some .io)⟩
  | written {d i} : Step p data ⟨d, .write i data.length⟩ .ok ⟨d, .sync i⟩
  | sync {d i} : Step p data ⟨d, .sync i⟩ .ok ⟨d.sync i, .close none⟩
  | syncInterrupted {d i} : Step p data ⟨d, .sync i⟩ .interrupted ⟨d, .sync i⟩
  | syncFail {d i} : Step p data ⟨d, .sync i⟩ .fail ⟨d, .close (some .io)⟩
  | close {d} : Step p data ⟨d, .close none⟩ .ok ⟨d, .rename⟩
  | closeFail {d} : Step p data ⟨d, .close none⟩ .fail ⟨d, .unlink .io⟩
  | closeFailed {d status a} : Step p data ⟨d, .close (some status)⟩ a ⟨d, .unlink status⟩
  | rename {d} : Step p data ⟨d, .rename⟩ .ok ⟨d.rename (.tmp p) p, .syncDirectory⟩
  | renameFail {d} : Step p data ⟨d, .rename⟩ .fail ⟨d, .unlink .io⟩
  | syncDirectory {d} : Step p data ⟨d, .syncDirectory⟩ .ok
      ⟨d.syncEntries fun q ↦ q.parent = p.parent, .done none⟩
  | syncDirectoryInterrupted {d} :
      Step p data ⟨d, .syncDirectory⟩ .interrupted ⟨d, .syncDirectory⟩
  | syncDirectoryFail {d} : Step p data ⟨d, .syncDirectory⟩ .fail ⟨d, .unlink .indeterminate⟩
  | unlink {d status} : Step p data ⟨d, .unlink status⟩ .ok
      ⟨d.setEntry (.tmp p) none, .done (some status)⟩
  | unlinkFail {d status} : Step p data ⟨d, .unlink status⟩ .fail ⟨d, .done (some status)⟩

/-- `wadb_atomic_file`, called on the disk `d₀`. -/
def machine (p : Path) (data : Bytes) (d₀ : Disk Path) : Machine Replacing Answer where
  init s := s = ⟨d₀, .allocate⟩
  step := Step p data

/-! ### Old or new -/

/-- Nothing has happened at the path. -/
structure Untouched (p : Path) (d₀ d : Disk Path) : Prop where
  entry : d.entry p = d₀.entry p
  kept : d.kept p = []
  old : ∀ j, d₀.entry p = some j → d.inode j = d₀.inode j

/-- Nothing has happened at the path, and the temporary file is `f`. -/
structure Staged (p : Path) (d₀ : Disk Path) (i : ℕ) (f : File) (d : Disk Path) : Prop
    extends Untouched p d₀ d where
  sole : d.Sole (.tmp p) i
  file : d.inode i = f

/-- The path leads to the new file, and only the entry from before can come back. -/
structure Replaced (p : Path) (data : Bytes) (d₀ d : Disk Path) : Prop where
  new : ∃ i, d.entry p = some i ∧ d.inode i = ⟨data, data.length⟩
  kept : ∀ e ∈ d.kept p, e = d₀.entry p
  old : ∀ j, d₀.entry p = some j → d.inode j = d₀.inode j

/-- **What holds at each call.** -/
def Inv (p : Path) (data : Bytes) (d₀ : Disk Path) (s : Replacing) : Prop :=
  match s.phase with
  | .allocate | .create => Untouched p d₀ s.disk
  | .write i n => n ≤ data.length ∧ Staged p d₀ i ⟨data.take n, 0⟩ s.disk
  | .sync i => Staged p d₀ i ⟨data, 0⟩ s.disk
  | .close none | .rename => ∃ i, Staged p d₀ i ⟨data, data.length⟩ s.disk
  | .close (some status) => status ≠ .indeterminate ∧ Untouched p d₀ s.disk
  | .syncDirectory => Replaced p data d₀ s.disk
  | .unlink status | .done (some status) =>
    if status = .indeterminate then Replaced p data d₀ s.disk else Untouched p d₀ s.disk
  | .done none => Replaced p data d₀ s.disk ∧ s.disk.kept p = []

variable {p : Path} {data : Bytes} {d₀ d : Disk Path} {i : ℕ} {f : File}

theorem ne_tmp (p : Path) : p ≠ .tmp p := by
  induction p with
  | tmp p ih => exact fun h ↦ ih (Path.tmp.inj h)
  | _ => nofun

/-- Another file than that of the path is changed. -/
theorem Untouched.setInode (h : Untouched p d₀ d) (hi : d₀.entry p ≠ some i) :
    Untouched p d₀ (d.setInode i f) where
  entry := h.entry
  kept := h.kept
  old j hj := by
    have hne : j ≠ i := fun hji ↦ hi (hji ▸ hj)
    rw [Disk.inode_setInode_of_ne hne, h.old j hj]

/-- Another entry than that of the path is changed. -/
theorem Untouched.setEntry {q : Path} (h : Untouched p d₀ d) (hq : p ≠ q) (e : Option ℕ) :
    Untouched p d₀ (d.setEntry q e) where
  entry := by simpa [Disk.setEntry, hq] using h.entry
  kept := by simpa [Disk.setEntry, hq] using h.kept
  old := h.old

theorem Untouched.create (h : Untouched p d₀ d) (hi : d.Fresh i) :
    Staged p d₀ i ⟨[], 0⟩ (d.create (.tmp p) i) where
  toUntouched :=
    (h.setInode (by rw [← h.entry]; exact (hi p).1)).setEntry (ne_tmp p) _
  sole := Disk.sole_create hi _
  file := by simp [Disk.create, Disk.setEntry]

theorem Staged.ne (h : Staged p d₀ i f d) : d₀.entry p ≠ some i := by
  rw [← h.entry]
  exact fun hi ↦ ne_tmp p ((h.sole p).1 hi)

theorem Staged.setInode (h : Staged p d₀ i f d) (g : File) : Staged p d₀ i g (d.setInode i g) where
  toUntouched := h.toUntouched.setInode h.ne
  sole := h.sole
  file := Disk.inode_setInode_self i g d

theorem Staged.append {b : Bytes} (h : Staged p d₀ i f d) :
    Staged p d₀ i { f with data := f.data ++ b } (d.append i b) := by
  rw [Disk.append, h.file]
  exact h.setInode _

theorem Staged.sync (h : Staged p d₀ i f d) :
    Staged p d₀ i { f with synced := f.data.length } (d.sync i) := by
  rw [Disk.sync, h.file]
  exact h.setInode _

/-- **The rename** brings in the temporary file as it is. -/
theorem Staged.rename (h : Staged p d₀ i ⟨data, data.length⟩ d) :
    Replaced p data d₀ (d.rename (.tmp p) p) where
  new := by
    refine ⟨i, ?_, h.file⟩
    simp [Disk.rename, Disk.setEntry, ne_tmp p, (h.sole _).2 rfl]
  kept e he := by
    have hkept : (d.rename (.tmp p) p).kept p = [d.entry p] := by
      simp [Disk.rename, Disk.setEntry, ne_tmp p, h.kept]
    rw [hkept, mem_singleton, h.entry] at he
    exact he
  old := h.old

theorem Replaced.setEntry {q : Path} (h : Replaced p data d₀ d) (hq : p ≠ q) (e : Option ℕ) :
    Replaced p data d₀ (d.setEntry q e) where
  new := by simpa [Disk.setEntry, hq] using h.new
  kept := by simpa [Disk.setEntry, hq] using h.kept
  old := h.old

variable {s : Replacing} {c : Option Bytes}

/-- **Every step keeps it.** -/
theorem Inv.step {s' : Replacing} {a : Answer} (h : Inv p data d₀ s) (hs : Step p data s a s') :
    Inv p data d₀ s' := by
  cases hs with
  | longPath | allocate | allocateFail | createFail => exact h
  | create hfresh => exact ⟨zero_le, h.create hfresh⟩
  | @write d i n k hpos hle =>
    obtain ⟨-, hstaged⟩ := h
    have hgrown := hstaged.append (b := slice data n k)
    refine ⟨hle, ?_⟩
    rwa [show data.take n ++ slice data n k = data.take (n + k) from (take_add ..).symm] at hgrown
  | writeInterrupted _ => exact h
  | writeFail _ => exact ⟨by decide, h.2.toUntouched⟩
  | written =>
    obtain ⟨-, hstaged⟩ := h
    rwa [take_length] at hstaged
  | @sync d i => exact ⟨i, Staged.sync h⟩
  | syncInterrupted => exact h
  | syncFail => exact ⟨by decide, Staged.toUntouched h⟩
  | close => exact h
  | closeFail =>
    obtain ⟨i, hstaged⟩ := h
    exact hstaged.toUntouched
  | closeFailed =>
    obtain ⟨hdefinite, huntouched⟩ := h
    simpa only [Inv, if_neg hdefinite] using huntouched
  | rename =>
    obtain ⟨i, hstaged⟩ := h
    exact hstaged.rename
  | renameFail =>
    obtain ⟨i, hstaged⟩ := h
    exact hstaged.toUntouched
  | @syncDirectory d =>
    have hkept : (d.syncEntries fun q ↦ q.parent = p.parent).kept p = [] := by
      simp [Disk.syncEntries]
    exact ⟨⟨h.new, fun e he ↦ absurd he (by rw [hkept]; exact not_mem_nil), h.old⟩, hkept⟩
  | syncDirectoryInterrupted => exact h
  | syncDirectoryFail => exact h
  | @unlink d status =>
    by_cases hstatus : status = .indeterminate
    · simp only [Inv, hstatus, if_true] at h ⊢
      exact h.setEntry (ne_tmp p) none
    · simp only [Inv, hstatus, if_false] at h ⊢
      exact h.setEntry (ne_tmp p) none
  | unlinkFail => exact h

/-- **What holds in every state.** -/
theorem inv_of_reach (hp : d₀.kept p = []) (h : (machine p data d₀).Reach s) : Inv p data d₀ s := by
  refine h.invariant (fun s hs ↦ ?_) fun s a s' _ hs hstep ↦ hs.step hstep
  obtain rfl : s = ⟨d₀, .allocate⟩ := hs
  exact ⟨rfl, hp, fun _ _ ↦ rfl⟩

/-! ### After a crash -/

/-- A durable entry to a durable file. -/
theorem yields_entry (hp : d₀.Settled p) {d : Disk Path}
    (hold : ∀ j, d₀.entry p = some j → d.inode j = d₀.inode j)
    (h : d.Yields (d₀.entry p) c) : c = d₀.content p := by
  unfold Disk.content Disk.files
  cases he : d₀.entry p with
  | none =>
    rw [he] at h
    exact h
  | some j =>
    rw [he] at h
    obtain ⟨b, rfl, hb⟩ := h
    rw [hold j he] at hb
    rw [hb (hp.data j he)]
    rfl

theorem Untouched.afterCrash (h : Untouched p d₀ d) (hp : d₀.Settled p)
    (hc : d.AfterCrash p c) : c = d₀.content p := by
  obtain ⟨e, he, hyields⟩ := hc
  rw [h.kept, h.entry] at he
  obtain rfl := he.resolve_right not_mem_nil
  exact yields_entry hp h.old hyields

theorem Untouched.content (h : Untouched p d₀ d) : d.content p = d₀.content p := by
  unfold Disk.content Disk.files
  rw [h.entry]
  cases he : d₀.entry p with
  | none => rfl
  | some j => simp [h.old j he]

theorem Replaced.content (h : Replaced p data d₀ d) : d.content p = some data := by
  obtain ⟨i, he, hi⟩ := h.new
  simp [Disk.content, Disk.files, he, hi]

/-- The new file is whole. -/
theorem Replaced.yields (h : Replaced p data d₀ d) (hc : d.Yields (d.entry p) c) : c = some data := by
  obtain ⟨i, he, hi⟩ := h.new
  rw [he] at hc
  obtain ⟨b, rfl, hb⟩ := hc
  rw [hi] at hb
  rw [hb rfl]

theorem Replaced.afterCrash (h : Replaced p data d₀ d) (hp : d₀.Settled p)
    (hc : d.AfterCrash p c) : c = d₀.content p ∨ c = some data := by
  obtain ⟨e, rfl | he, hyields⟩ := hc
  · exact .inr (h.yields hyields)
  · rw [h.kept e he] at hyields
    exact .inl (yields_entry hp h.old hyields)

/-- At every call, the path is untouched or replaced. -/
theorem Inv.untouched_or_replaced (h : Inv p data d₀ s) :
    Untouched p d₀ s.disk ∨ Replaced p data d₀ s.disk := by
  obtain ⟨d, phase⟩ := s
  cases phase with
  | allocate | create => exact .inl h
  | write i n => exact .inl h.2.toUntouched
  | sync i => exact .inl (Staged.toUntouched h)
  | close status =>
    cases status with
    | none => exact .inl h.choose_spec.toUntouched
    | some status => exact .inl h.2
  | rename => exact .inl h.choose_spec.toUntouched
  | syncDirectory => exact .inr h
  | unlink status =>
    by_cases hstatus : status = .indeterminate
    · exact .inr (by simpa only [Inv, if_pos hstatus] using h)
    · exact .inl (by simpa only [Inv, if_neg hstatus] using h)
  | done status =>
    cases status with
    | none => exact .inr h.1
    | some status =>
      by_cases hstatus : status = .indeterminate
      · exact .inr (by simpa only [Inv, if_pos hstatus] using h)
      · exact .inl (by simpa only [Inv, if_neg hstatus] using h)

/-- **What the function promises** in a state: about a crash there, and about its status. -/
structure Promises (p : Path) (data : Bytes) (d₀ : Disk Path) (s : Replacing) : Prop where
  /-- After a crash, the path holds all of the old or all of the new content. -/
  whole : ∀ c, s.disk.AfterCrash p c → c = d₀.content p ∨ c = some data
  /-- Success means that the new content is visible and durable. -/
  durable : s.phase = .done none →
    s.disk.content p = some data ∧ ∀ c, s.disk.AfterCrash p c → c = some data
  /-- An indeterminate status means that the new content is visible. -/
  visible : s.phase = .done (some .indeterminate) → s.disk.content p = some data
  /-- Any other status means that the path still holds the old content, durably. -/
  unchanged : ∀ status, status ≠ .indeterminate → s.phase = .done (some status) →
    s.disk.content p = d₀.content p ∧ ∀ c, s.disk.AfterCrash p c → c = d₀.content p

theorem Inv.promises (h : Inv p data d₀ s) (hp : d₀.Settled p) : Promises p data d₀ s where
  whole c hc := by
    rcases h.untouched_or_replaced with hun | hre
    · exact .inl (hun.afterCrash hp hc)
    · exact hre.afterCrash hp hc
  durable hphase := by
    simp only [Inv, hphase] at h
    refine ⟨h.1.content, fun c ⟨e, he, hyields⟩ ↦ ?_⟩
    rw [h.2] at he
    obtain rfl := he.resolve_right not_mem_nil
    exact h.1.yields hyields
  visible hphase := by
    simp only [Inv, hphase, if_true] at h
    exact h.content
  unchanged status hstatus hphase := by
    simp only [Inv, hphase, if_neg hstatus] at h
    exact ⟨h.content, fun c hc ↦ h.afterCrash hp hc⟩

/-! ### The function and the machine -/

/-- The way a run of the function ends, as a phase. -/
def Ends (s : Replacing) : Exit Error Unit → Prop
  | .ok _ => s.phase = .done none
  | .fail e => s.phase = .done (some e.code)
  | .killed => True

variable {μ : Type} {env : Env Path Dir} {w : World Path μ}

/-- A state of the machine with these files. -/
def Shows (p : Path) (data : Bytes) (d₀ : Disk Path) (e : Exit Error Unit) (fs : Files) (_ : μ) : Prop :=
  ∃ s, (machine p data d₀).Reach s ∧ s.disk.files = fs ∧ s.Ends e

/-- The end of a failed attempt: the temporary file is removed, or stays. -/
theorem wp_unlink_reach {e : Error}
    (h : (machine p data d₀).Reach ⟨d, .unlink e.code⟩) (hfiles : d.files = w.fs) :
    wp (Prog.call false (.unlink (.tmp p)) (setFile (.tmp p) none) >>= fun _ ↦
      (Prog.fail e : Io μ Unit)) env (Shows p data d₀) w := by
  have hun : (d.setEntry (.tmp p) none).files = setFile (.tmp p) none w.fs := by
    rw [Disk.files_setEntry, hfiles]
    rfl
  exact wp_bind (wp_call (fun n ↦ ⟨_, h.step _ .unlink, hun, rfl⟩)
    (fun _ n ↦ ⟨_, h.step _ .unlinkFail, hfiles, rfl⟩) (fun _ ↦ ⟨_, h, hfiles, trivial⟩)
    fun _ ↦ ⟨_, h.step _ .unlink, hun, trivial⟩)

/-- Any part of the data may be written in one go. -/
theorem reach_write {k : ℕ} (h : (machine p data d₀).Reach ⟨d, .write i 0⟩) (hk : k ≤ data.length)
    (hsole : d.Sole (.tmp p) i) :
    ∃ d', (machine p data d₀).Reach ⟨d', .write i k⟩ ∧ d'.Sole (.tmp p) i ∧
      d'.files = appendTo (.tmp p) (data.take k) d.files := by
  rcases Nat.eq_zero_or_pos k with rfl | hpos
  · exact ⟨d, h, hsole, (Prog.appendTo_nil _ _).symm⟩
  · have hstep := h.step _ (.write hpos (by omega))
    rw [zero_add] at hstep
    refine ⟨_, hstep, hsole, ?_⟩
    rw [Disk.files_append hsole]
    simp [slice]

/-- The states in which `installTmp` may end: its errors leave the temporary file to be removed. -/
def Installs (p : Path) (data : Bytes) (d₀ : Disk Path) : Exit Error Unit → Files → μ → Prop
  | .ok _, fs, _ => ∃ d, (machine p data d₀).Reach ⟨d, .done none⟩ ∧ d.files = fs
  | .fail e, fs, _ => ∃ d, (machine p data d₀).Reach ⟨d, .unlink e.code⟩ ∧ d.files = fs
  | .killed, fs, _ => ∃ s, (machine p data d₀).Reach s ∧ s.disk.files = fs

theorem wp_installTmp_reach (h : (machine p data d₀).Reach ⟨d, .write i 0⟩)
    (hsole : d.Sole (.tmp p) i) (hfiles : d.files = w.fs) :
    wp (installTmp p data) env (Installs p data d₀) w := by
  -- the states that the run passes through, one after the other
  have hpart {k : ℕ} (hk : k ≤ data.length) : ∃ d', (machine p data d₀).Reach ⟨d', .write i k⟩ ∧
      d'.Sole (.tmp p) i ∧ d'.files = appendTo (.tmp p) (data.take k) w.fs := by
    rw [← hfiles]
    exact reach_write h hk hsole
  obtain ⟨d₁, hwritten, hsole₁, hfiles₁⟩ := hpart le_rfl
  rw [take_length] at hfiles₁
  have hsync := hwritten.step _ .written
  have hsynced := hsync.step _ .sync
  have hfiles₂ : (d₁.sync i).files = syncTo (.tmp p) (appendTo (.tmp p) data w.fs) := by
    rw [Disk.files_sync hsole₁, hfiles₁]
  have hclosed := hsynced.step _ .close
  have hrenamed := hclosed.step _ .rename
  have hfiles₃ : ((d₁.sync i).rename (.tmp p) p).files =
      renameTmp p (syncTo (.tmp p) (appendTo (.tmp p) data w.fs)) := by
    rw [Disk.files_rename, hfiles₂]
    rfl
  -- what is unfinished can be left with an error at the next call
  have hstop {fs₁ : Files} (hfs : Unfinished p data w.fs fs₁) :
      ∃ d' phase, (machine p data d₀).Reach ⟨d', phase⟩ ∧
        (machine p data d₀).Reach ⟨d', .unlink .io⟩ ∧ d'.files = fs₁ := by
    rcases hfs with ⟨k, hk, rfl⟩ | rfl
    · rcases hk.lt_or_eq with hlt | rfl
      · obtain ⟨d', hd, -, hfs⟩ := hpart hk
        exact ⟨d', _, hd, (hd.step _ (.writeFail hlt)).step _ (.closeFailed (a := .ok)), hfs⟩
      · rw [take_length]
        exact ⟨d₁, _, hsync, (hsync.step _ .syncFail).step _ (.closeFailed (a := .ok)), hfiles₁⟩
    · exact ⟨_, _, hsynced, hsynced.step _ .closeFail, hfiles₂⟩
  refine wp_installTmp_calls rfl ⟨_, hrenamed.step _ .syncDirectory, hfiles₃⟩ (fun _ fs₁ h e he ↦ ?_)
    (fun _ e he ↦ ?_) fun _ fs₁ h ↦ ?_
  · obtain ⟨d', -, -, hd, hfs⟩ := hstop h
    exact ⟨d', he ▸ hd, hfs⟩
  · have := hrenamed.step _ .syncDirectoryFail
    exact ⟨_, he ▸ this, hfiles₃⟩
  · rcases h with h | rfl
    · obtain ⟨d', phase, hd, -, hfs⟩ := hstop h
      exact ⟨_, hd, hfs⟩
    · exact ⟨_, hrenamed, hfiles₃⟩

/-- **Every run of the function is one of the machine.** -/
theorem wp_atomicFile_reach (hfresh : ∃ i, d₀.Fresh i) (hfiles : d₀.files = w.fs) :
    wp (atomicFile p data) env (Shows p data d₀) w := by
  have hstart : (machine p data d₀).Reach ⟨d₀, .allocate⟩ := .init rfl
  have hnomem := hstart.step _ .allocateFail
  have hcreate := hstart.step _ .allocate
  obtain ⟨i, hi⟩ := hfresh
  have hcreated := hcreate.step _ (.create hi)
  have hfiles' : (d₀.create (.tmp p) i).files = setFile (.tmp p) (some ⟨[], 0⟩) w.fs := by
    rw [Disk.files_create hi, hfiles]
  have hrefused (n : ℕ) (b : Bool) (hb : b = false) (rest : Unit → Io μ Unit) :
      wp (require b .nomem "metadata path allocation" >>= rest) env (Shows p data d₀)
        ⟨w.fs, n, w.mem⟩ :=
    wp_bind (wp_require (by simp [hb]) fun _ ↦ ⟨_, hnomem, hfiles, rfl⟩)
  unfold atomicFile
  refine wp_bind (wp_alloc (fun n ↦ ?_) fun _ n ↦ ?_)
  swap
  · exact wp_bind (wp_alloc (fun n ↦ hrefused n _ rfl _) fun _ n ↦ hrefused n _ rfl _)
  refine wp_bind (wp_alloc (fun n ↦ ?_) fun _ n ↦ hrefused n _ rfl _)
  refine wp_require_of rfl fun n ↦ ?_
  refine wp_callOr_bind (fun n ↦ ?_) (fun _ ↦ ⟨_, hcreate.step _ .createFail, hfiles, rfl⟩)
    (fun _ ↦ ⟨_, hcreate, hfiles, trivial⟩) fun _ ↦ ⟨_, hcreated, hfiles', trivial⟩
  refine wp_bind (wp_attempt.2
    ((wp_installTmp_reach hcreated (Disk.sole_create hi _) hfiles').mono ?_))
  rintro (_ | e | _) fs m h
  · obtain ⟨d, hd, hfs⟩ := h
    exact fun n ↦ ⟨_, hd, hfs, rfl⟩
  · obtain ⟨d, hd, hfs⟩ := h
    exact fun n ↦ wp_unlink_reach hd hfs
  · obtain ⟨s, hs, hfs⟩ := h
    exact ⟨s, hs, hfs, trivial⟩

/-- **Metadata is replaced atomically.** On a disk where the path is durable, with whatever the system
answers to each call and with a crash in any state: the promises hold; and a run of `atomicFile` that ends,
fails or is killed leaves the files of such a state, with its status. -/
theorem replacement_atomic (hp : d₀.Settled p) :
    (∀ s, (machine p data d₀).Reach s → Promises p data d₀ s) ∧
    ((∃ i, d₀.Fresh i) → ∀ (env : Env Path Dir) (w : World Path Unit), d₀.files = w.fs →
      Prog.wp (atomicFile p data) env (fun e fs _ ↦
        ∃ s, (machine p data d₀).Reach s ∧ s.disk.files = fs ∧ s.Ends e) w) :=
  ⟨fun _ hs ↦ (inv_of_reach hp.entry hs).promises hp,
    fun hfresh _ _ hfiles ↦ wp_atomicFile_reach hfresh hfiles⟩

/-- A disk with an old manifest. -/
def oldManifest : Disk Path where
  inode _ := ⟨[1], 1⟩
  entry p := if p = .manifest then some 0 else none
  kept _ := []

/-- The rename has been done and its directory not synchronized: the manifest is the old or the new one. -/
theorem oldManifest_atomic :
    ∃ d, (machine .manifest [2, 3] oldManifest).Reach ⟨d, .syncDirectory⟩ ∧
      ∀ c, d.AfterCrash .manifest c → c = some [1] ∨ c = some [2, 3] := by
  have hsettled : oldManifest.Settled .manifest := ⟨rfl, fun _ _ ↦ rfl⟩
  have hfresh : oldManifest.Fresh 1 := fun q ↦ by
    refine ⟨?_, List.not_mem_nil⟩
    simp only [oldManifest]
    split <;> nofun
  have hstart : (machine .manifest [2, 3] oldManifest).Reach ⟨oldManifest, .allocate⟩ := .init rfl
  have hwrite := (hstart.step _ .allocate).step _ (.create hfresh)
  have hwritten := hwrite.step _ (.write (n := 0) (k := 2) (by decide) (by decide))
  have hsynced := (hwritten.step _ .written).step _ .sync
  have hrenamed := (hsynced.step _ .close).step _ .rename
  exact ⟨_, hrenamed, (replacement_atomic hsettled).1 _ hrenamed |>.whole⟩

end Replacing

end WebAnalyticsDb
