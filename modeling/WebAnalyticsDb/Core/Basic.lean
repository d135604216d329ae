import WebAnalyticsDb.Foundation.Program

/-!
# Statuses, limits, paths and programs

The vocabulary the engine's modules share: the statuses and the error record, the compiled-in
limits, the files of one table, and `Io`, the programs over those files.

* **One directory.** The paths are those of a single directory: that of a table, or that of the
  database, in which the tables have directories of their own. Partition directories are named by the
  day they cover and segment files by day and identifier, so a path is a constructor applied to those
  numbers; the rendering of dates and identifiers as text is injective and left out.
* **Errors** carry the status and the text. The operating system's error number is left out: no
  modelled function branches on one, apart from the cases that a missing or an existing file decides,
  which the model decides from the files.
* **Machine integers** are natural numbers and integers; `u64` marks every place where the engine
  adds 64-bit numbers that could wrap.
-/

namespace WebAnalyticsDb

/-! ### Statuses -/

/-- `wadb_status`, without `WADB_OK`: an operation that succeeds returns its value instead. -/
inductive Status
  | invalid
  | nomem
  | io
  | corrupt
  | version
  | exists
  | notFound
  | locked
  | schemaMismatch
  | backpressure
  | limit
  | indeterminate
  | expired
  | readOnly
  | cancelled
deriving DecidableEq, Repr

/-- `wadb_error`. -/
structure Error where
  /-- The status the call returns. -/
  code : Status
  /-- The text for the caller. -/
  message : String
deriving DecidableEq, Repr

/-! ### Limits -/

def maxFields : ℕ := 256
def nameCap : ℕ := 64
def maxRowBytes : ℕ := 16384
def maxFrameBytes : ℕ := 1024 * 1024
def maxStringBytes : ℕ := 65536
def maxSegments : ℕ := 1000000
def maxIndexEntries : ℕ := 65536
def segmentHeaderBytes : ℕ := 128
def frameHeaderBytes : ℕ := 80
def frameTrailerBytes : ℕ := 16
def indexHeaderBytes : ℕ := 128
def indexEntryBytes : ℕ := 64
def formatVersion : ℕ := 1
/-- Microseconds in a day. -/
def dayUs : ℤ := 86400000000
def int64Max : ℕ := 2 ^ 63 - 1
def uint64Max : ℕ := 2 ^ 64 - 1
def uint32Max : ℕ := 2 ^ 32 - 1

/-- Wrap to 64 bits. -/
def u64 (n : ℕ) : ℕ := n % 2 ^ 64

theorem u64_of_lt {n : ℕ} (h : n < 2 ^ 64) : u64 n = n := Nat.mod_eq_of_lt h

/-- Subtract in 64 bits. -/
def u64Sub (a b : ℕ) : ℕ := u64 (a + (2 ^ 64 - u64 b))

theorem u64Sub_of_le {a b : ℕ} (ha : a < 2 ^ 64) (h : b ≤ a) : u64Sub a b = a - b := by
  unfold u64Sub
  rw [u64_of_lt (h.trans_lt ha)]
  unfold u64
  omega

theorem u64_lt (n : ℕ) : u64 n < 2 ^ 64 := Nat.mod_lt _ (by decide)

/-- Wrap to 32 bits. -/
def u32 (n : ℕ) : ℕ := n % 2 ^ 32

theorem u32_of_lt {n : ℕ} (h : n < 2 ^ 32) : u32 n = n := Nat.mod_eq_of_lt h

/-! ### Files -/

/-- The files of a table directory: `manifest` and those of its segments; and those of the database:
`lock`, `catalog`, `tables` and the schema files, which only the functions of the database use. `tables`
is itself a directory, and like any directory it is a file that lists its entries. `tmp p` is the
temporary file that is renamed to `p`; its real name is unique to each attempt. -/
inductive Path
  | lock
  | catalog
  | tables
  | schema (table : ℕ)
  | manifest
  | seg (day : ℤ) (id : ℕ)
  | idx (day : ℤ) (id : ℕ)
  | tmp (p : Path)
deriving DecidableEq, Repr

/-- The directories of a table, its own and one per day; those of the database, its own, the one around
it, the one of all tables and that of one table in it. -/
inductive Dir
  | outer
  | database
  | tables
  | entry (id : ℕ)
  | table
  | partition (day : ℤ)
deriving DecidableEq, Repr

/-- The directory a file lies in. -/
def Path.parent : Path → Dir
  | .lock => .database
  | .catalog => .database
  | .tables => .database
  | .schema table => .entry table
  | .manifest => .table
  | .seg day _ => .partition day
  | .idx day _ => .partition day
  | .tmp p => p.parent

/-- The visible files of a directory. -/
abbrev Files : Type := Path → Option File

/-- Programs of the engine over a memory `μ`. -/
abbrev Io (μ α : Type) : Type := Prog Path Dir μ Error α

export Prog (wp wp_bind wp_pure wp_get wp_modify wp_rethrow wp_call wp_attempt wp_files wp_inside wp_within
  wp_alloc wp_ensure setFile setFile_self setFile_of_ne appendTo syncTo andThen Triple Steady)

/-- `return wadb_fail(e, code, …, message)`. -/
def wadbFail {μ α : Type} (code : Status) (message : String) : Io μ α :=
  Prog.fail ⟨code, message⟩

/-- `if (!c) return wadb_fail(e, code, …, message)`. -/
def require {μ : Type} (c : Bool) (code : Status) (message : String) : Io μ Unit :=
  Prog.ensure c ⟨code, message⟩

/-- An allocation whose failure returns `WADB_NOMEM`. -/
def allocOr {μ : Type} (message : String) : Io μ Unit := do
  let ok ← Prog.alloc
  require ok .nomem message

section Rules

variable {μ α : Type} {env : Env Path Dir} {w : World Path μ}

@[simp] theorem wp_wadbFail {code : Status} {message : String}
    {Q : Exit Error α → Files → μ → Prop} :
    wp (wadbFail code message : Io μ α) env Q w ↔ Q (.fail ⟨code, message⟩) w.fs w.mem :=
  Iff.rfl

theorem wp_require {c : Bool} {code : Status} {message : String}
    {Q : Exit Error Unit → Files → μ → Prop} (hok : c = true → Q (.ok ()) w.fs w.mem)
    (hno : c = false → Q (.fail ⟨code, message⟩) w.fs w.mem) :
    wp (require c code message) env Q w :=
  wp_ensure hok hno

/-- A check that holds. -/
theorem wp_require_of {c : Bool} {code : Status} {message : String} {rest : Unit → Io μ α}
    {Q : Exit Error α → Files → μ → Prop} (hc : c = true)
    (h : ∀ n, wp (rest ()) env Q ⟨w.fs, n, w.mem⟩) :
    wp (require c code message >>= rest) env Q w :=
  wp_bind (wp_require (fun _ ↦ h) fun hno ↦ by cases hc.symm.trans hno)

theorem wp_allocOr {message : String} {Q : Exit Error Unit → Files → μ → Prop}
    (hok : Q (.ok ()) w.fs w.mem)
    (hno : ¬ env.Calm → Q (.fail ⟨.nomem, message⟩) w.fs w.mem) :
    wp (allocOr message) env Q w := by
  refine wp_bind (wp_alloc ?_ ?_)
  · exact fun _ ↦ hok
  · exact fun hcalm _ ↦ hno hcalm

end Rules

end WebAnalyticsDb
