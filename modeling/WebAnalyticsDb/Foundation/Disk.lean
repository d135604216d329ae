import WebAnalyticsDb.Foundation.Program

/-!
# Disks that lose power

A running system sees directory entries that lead to files. What is left after a crash is decided by two
kinds of synchronization, and neither replaces the other:

* **Data.** A file of which everything is synchronized keeps its bytes. Of any other file nothing is
  promised, not even a part.
* **Entries.** An entry that has changed since its directory was last synchronized may come back as any of
  those that it has been since, or stay. Synchronizing the directory leaves only the visible one.

Entries lead to numbered inodes, so that a file which is renamed is the same file, and an old entry still
leads to the old one.
-/

variable {π : Type}

/-- What may be read of a file after a crash. -/
def File.Survives (f : File) (b : Bytes) : Prop := f.synced = f.data.length → b = f.data

/-- **A disk**: the files, the visible entries, and the entries that a crash may bring back. -/
structure Disk (π : Type) where
  inode : ℕ → File
  entry : π → Option ℕ
  kept : π → List (Option ℕ)

namespace Disk

/-- The files a running system sees. -/
def files (d : Disk π) : π → Option File := fun q ↦ (d.entry q).map d.inode

/-- The bytes a running system sees. -/
def content (d : Disk π) (q : π) : Option Bytes := (d.files q).map File.data

/-- What an entry may lead to after a crash. -/
def Yields (d : Disk π) : Option ℕ → Option Bytes → Prop
  | none, c => c = none
  | some i, c => ∃ b, c = some b ∧ (d.inode i).Survives b

/-- **What may be found at a path after a crash.** -/
def AfterCrash (d : Disk π) (q : π) (c : Option Bytes) : Prop :=
  ∃ e, (e = d.entry q ∨ e ∈ d.kept q) ∧ d.Yields e c

/-- No entry leads to the inode, and none can come back that does. -/
def Fresh (d : Disk π) (i : ℕ) : Prop := ∀ q, d.entry q ≠ some i ∧ some i ∉ d.kept q

/-- The only entry that leads to the inode. -/
def Sole (d : Disk π) (q : π) (i : ℕ) : Prop := ∀ q', d.entry q' = some i ↔ q' = q

/-- A path with an entry that is durable, to a file that is. -/
structure Settled (d : Disk π) (q : π) : Prop where
  entry : d.kept q = []
  data : ∀ i, d.entry q = some i → (d.inode i).synced = (d.inode i).data.length

/-! ### Operations -/

/-- Change a file. -/
def setInode (i : ℕ) (f : File) (d : Disk π) : Disk π := { d with inode := Function.update d.inode i f }

/-- Append to a file. -/
def append (i : ℕ) (b : Bytes) (d : Disk π) : Disk π :=
  d.setInode i { d.inode i with data := (d.inode i).data ++ b }

/-- Synchronize a file. -/
def sync (i : ℕ) (d : Disk π) : Disk π :=
  d.setInode i { d.inode i with synced := (d.inode i).data.length }

section Entries

variable [DecidableEq π]

/-- Change an entry; the one before may come back. -/
def setEntry (q : π) (e : Option ℕ) (d : Disk π) : Disk π :=
  { d with
    entry := Function.update d.entry q e
    kept := Function.update d.kept q (d.entry q :: d.kept q) }

/-- Make a new, empty file. -/
def create (q : π) (i : ℕ) (d : Disk π) : Disk π := (d.setInode i ⟨[], 0⟩).setEntry q (some i)

/-- Give a file another name, in the place of what has it. -/
def rename (source target : π) (d : Disk π) : Disk π :=
  (d.setEntry target (d.entry source)).setEntry source none

end Entries

/-- Synchronize the entries of a directory. -/
def syncEntries (here : π → Bool) (d : Disk π) : Disk π :=
  { d with kept := fun q ↦ if here q then [] else d.kept q }

/-! ### What a running system sees of them -/

variable {d : Disk π} {q : π} {i : ℕ}

@[simp] theorem entry_setInode (i : ℕ) (f : File) (d : Disk π) : (d.setInode i f).entry = d.entry := rfl

@[simp] theorem kept_setInode (i : ℕ) (f : File) (d : Disk π) : (d.setInode i f).kept = d.kept := rfl

@[simp] theorem inode_setInode_self (i : ℕ) (f : File) (d : Disk π) : (d.setInode i f).inode i = f := by
  simp [setInode]

theorem inode_setInode_of_ne {j : ℕ} (h : j ≠ i) (f : File) (d : Disk π) :
    (d.setInode i f).inode j = d.inode j := by
  simp [setInode, h]

@[simp] theorem files_syncEntries (here : π → Bool) (d : Disk π) : (d.syncEntries here).files = d.files :=
  rfl

section Files

variable [DecidableEq π]

theorem files_setEntry (q : π) (e : Option ℕ) (d : Disk π) :
    (d.setEntry q e).files = Prog.setFile q (e.map d.inode) d.files := by
  funext q'
  by_cases h : q' = q
  · subst h
    simp [files, setEntry]
  · simp [files, setEntry, Prog.setFile_of_ne _ _ h, h]

/-- A file with one name is changed under that name. -/
theorem files_setInode (h : d.Sole q i) (f : File) :
    (d.setInode i f).files = Prog.setFile q (some f) d.files := by
  funext q'
  by_cases hq : q' = q
  · subst hq
    simp [files, (h q').2 rfl]
  · rw [Prog.setFile_of_ne _ _ hq]
    cases he : d.entry q' with
    | none => simp [files, he]
    | some j =>
      have hj : j ≠ i := fun hj ↦ hq ((h q').1 (hj ▸ he))
      simp [files, he, inode_setInode_of_ne hj]

theorem files_append (h : d.Sole q i) (b : Bytes) :
    (d.append i b).files = Prog.appendTo q b d.files := by
  have hq : d.files q = some (d.inode i) := by simp [files, (h q).2 rfl]
  rw [append, files_setInode h, Prog.appendTo, hq]
  rfl

theorem files_sync (h : d.Sole q i) : (d.sync i).files = Prog.syncTo q d.files := by
  have hq : d.files q = some (d.inode i) := by simp [files, (h q).2 rfl]
  rw [sync, files_setInode h, Prog.syncTo, hq]
  rfl

/-- A new file does not change the others. -/
theorem files_create (h : d.Fresh i) (q : π) :
    (d.create q i).files = Prog.setFile q (some ⟨[], 0⟩) d.files := by
  have hsame : (d.setInode i ⟨[], 0⟩).files = d.files := by
    funext q'
    cases he : d.entry q' with
    | none => simp [files, he]
    | some j =>
      have hj : j ≠ i := fun hj ↦ (h q').1 (hj ▸ he)
      simp [files, he, inode_setInode_of_ne hj]
  rw [create, files_setEntry, hsame]
  simp

theorem sole_create (h : d.Fresh i) (q : π) : (d.create q i).Sole q i := by
  intro q'
  by_cases hq : q' = q
  · simp [create, setEntry, hq]
  · simpa [create, setEntry, hq] using (h q').1

theorem files_rename (source target : π) (d : Disk π) :
    (d.rename source target).files =
      Prog.setFile source none (Prog.setFile target (d.files source) d.files) := by
  rw [rename, files_setEntry, files_setEntry]
  rfl

end Files

end Disk
