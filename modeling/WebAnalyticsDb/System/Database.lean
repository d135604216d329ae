import WebAnalyticsDb.Core.Database
import WebAnalyticsDb.System.Site

/-!
# The life of a database

A **base** is the directory of a database together with the process that has it open, if there is one.
Tables are created, used through their handles, the process ends at any point and the database is opened
again.

* **What a catalog lists is a list of records.** `Stored fs T` says that the files are those of a database
  with the tables `T`: the catalog lists them, each has its directory, its schema file and whatever else a
  table needs. Files of directories that are not listed do not matter.
* **What a table needs is a parameter.** `TableInvariant` is a pair of properties, of the files of a table
  without a process and with one. The creation of tables needs three things of it: it holds for a new
  table, it survives the end of the process, and it is what opening a table looks for. This file is about
  all invariants of this kind at once.
* **The process may be behind.** If the outcome of a creation is not known, the catalog may list one table
  more than the process knows, and then the database is read-only.
-/

namespace WebAnalyticsDb

open Bytes List

variable {S : Settings}

/-! ### Tables of a catalog -/

/-- A table of a catalog, with the call of `wadb_create_table` that made it. -/
structure Listed (S : Settings) where
  config : Config
  options_eq : config.options = S.1
  name : Bytes
  retentionUs : ℕ
  call : ℕ

/-- What is known about the files of a table, without a process and with one that holds the given
snapshots. -/
structure TableInvariant where
  disk : (c : Config) → ℕ → Files → Prop
  live : (c : Config) → ℕ → Files → Table c → List Snapshot → Prop

/-- The identifiers of the tables. -/
def idsOf (T : List (Listed S)) : List ℕ := T.map (·.config.id)

/-- The table directories that exist. -/
def entries (fs : DbFiles) : List ℕ := entriesOf (fs (none, .tables))

variable {K : TableInvariant}

/-- **The files of a database with the tables `T`.** -/
structure Stored (K : TableInvariant) (fs : DbFiles) (T : List (Listed S)) : Prop where
  tables : ∀ f, fs (none, .tables) = some f → f.data.length % 8 = 0
  catalog : ∀ f, fs (none, .catalog) = some f →
    ∃ next, f.data = (Catalog.mk (idsOf T) next).image ∧ (Catalog.mk (idsOf T) next).Ok S.1
  empty : fs (none, .catalog) = none → T = [] ∧ entries fs = []
  entry : ∀ x ∈ T, x.config.id ∈ entries fs
  schema : ∀ x ∈ T, ∃ f, fs (none, .schema x.config.id) = some f ∧
    f.data = schemaImage x.config.id x.name x.config.schema
  name : ∀ x ∈ T, identifier x.name = true
  names : (T.map (·.name)).Nodup
  disk : ∀ x ∈ T, K.disk x.config x.retentionUs (filesOf (some x.config.id) fs)

/-! ### Entries of a directory -/

section Entries

variable {fs fs' : DbFiles} {id : ℕ} {f : File}

theorem entriesOf_append (hlen : f.data.length % 8 = 0) (hid : id < 2 ^ 64) :
    entriesOf (some { f with data := f.data ++ ofNatLE 8 id }) = entriesOf (some f) ++ [id] := by
  obtain ⟨k, hk⟩ : ∃ k, f.data.length = 8 * k := ⟨f.data.length / 8, by omega⟩
  simp only [entriesOf, Option.elim_some, length_append, length_ofNatLE, hk]
  rw [show (8 * k + 8) / 8 = k + 1 by omega, show 8 * k / 8 = k by omega, range_succ,
    map_append, map_singleton]
  congr 1
  · refine map_congr_left fun i hi ↦ ?_
    have hi' := mem_range.1 hi
    rw [getLE, getLE, slice_append_left (by omega)]
  · rw [getLE_append_end (by omega) (by omega)]

/-- **A directory may have been added**, and nothing else has changed. -/
structure Widened (fs fs' : DbFiles) : Prop where
  same : ∀ q, q ≠ (none, .tables) → fs' q = fs q
  length : ∀ f, fs (none, .tables) = some f → ∃ f', fs' (none, .tables) = some f' ∧
    (f.data.length % 8 = 0 → f'.data.length % 8 = 0)
  subset : entries fs ⊆ entries fs'

/-- The files after a table directory was made. -/
def addEntry (id : ℕ) (fs : DbFiles) : DbFiles :=
  putFiles none (Prog.appendTo .tables (ofNatLE 8 id) (filesOf none fs)) fs

theorem addEntry_of_ne {q : Place × Path} (h : q ≠ (none, .tables)) : addEntry id fs q = fs q := by
  obtain ⟨i, p⟩ := q
  simp only [addEntry, putFiles]
  split
  next hi =>
    subst hi
    have hp : p ≠ .tables := fun hp ↦ h (by rw [hp])
    rw [appendTo, setFile_of_ne _ _ hp]
    rfl
  next => rfl

theorem addEntry_tables (hf : fs (none, .tables) = some f) :
    addEntry id fs (none, .tables) = some { f with data := f.data ++ ofNatLE 8 id } := by
  simp [addEntry, putFiles, appendTo, filesOf, hf]

theorem entries_addEntry (hf : fs (none, .tables) = some f) (hlen : f.data.length % 8 = 0)
    (hid : id < 2 ^ 64) : entries (addEntry id fs) = entries fs ++ [id] := by
  rw [entries, addEntry_tables hf, entriesOf_append hlen hid, entries, hf]

theorem widened_addEntry (hf : fs (none, .tables) = some f) (hlen : f.data.length % 8 = 0)
    (hid : id < 2 ^ 64) : Widened fs (addEntry id fs) where
  same _ := addEntry_of_ne
  length f' hf' := by
    rw [hf] at hf'
    cases hf'
    refine ⟨_, addEntry_tables hf, fun _ ↦ ?_⟩
    rw [length_append, length_ofNatLE]
    omega
  subset := by
    rw [entries_addEntry hf hlen hid]
    exact subset_append_left _ _

end Entries

/-! ### Only the files of listed tables matter -/

section Congr

variable {fs fs' : DbFiles} {T : List (Listed S)}

/-- The files that matter are the same. -/
theorem Stored.congr (h : Stored K fs T) (hcatalog : fs' (none, .catalog) = fs (none, .catalog))
    (htables : ∀ f, fs' (none, .tables) = some f → f.data.length % 8 = 0)
    (hsub : entries fs ⊆ entries fs') (hempty : fs (none, .catalog) = none → entries fs' = [])
    (hschema : ∀ x ∈ T, fs' (none, .schema x.config.id) = fs (none, .schema x.config.id))
    (hdisk : ∀ x ∈ T, K.disk x.config x.retentionUs (filesOf (some x.config.id) fs')) :
    Stored K fs' T where
  tables := htables
  catalog f hf := h.catalog f (hcatalog ▸ hf)
  empty hn := by
    rw [hcatalog] at hn
    exact ⟨(h.empty hn).1, hempty hn⟩
  entry x hx := hsub (h.entry x hx)
  schema x hx := by
    obtain ⟨f, hf, hdata⟩ := h.schema x hx
    exact ⟨f, (hschema x hx).trans hf, hdata⟩
  name := h.name
  names := h.names
  disk := hdisk

end Congr

/-! ### Rules for the files of a database -/

section Rules

variable {μ : Type} {env : Env (Place × Path) (Place × Dir)} {w : World (Place × Path) μ}
variable {i : Place} {Q : Exit Error Unit → DbFiles → μ → Prop} {message : String}

theorem not_calm_inside (h : ¬ (env.inside i).Calm) : ¬ env.Calm :=
  fun hcalm ↦ h (hcalm.inside i)

/-- The files of a place that is as it was. -/
theorem of_same_place {α : Type} {e : Exit Error α} {fs : DbFiles} {m : μ}
    {Q : Exit Error α → DbFiles → μ → Prop} (h : Q e fs m) : Q e (putFiles i (filesOf i fs) fs) m := by
  rwa [putFiles_filesOf]

/-- The same after a call has failed. -/
theorem of_calm_place {α : Type} {e : Exit Error α} {fs : DbFiles} {m : μ}
    {Q : Exit Error α → DbFiles → μ → Prop} (h : ¬ env.Calm → Q e fs m)
    (hcalm : ¬ (env.inside i).Calm) : Q e (putFiles i (filesOf i fs) fs) m :=
  of_same_place (h (not_calm_inside hcalm))

theorem wp_dbAllocOr
    (hok : Q (.ok ()) w.fs w.mem) (hno : ¬ env.Calm → Q (.fail ⟨.nomem, message⟩) w.fs w.mem) :
    wp (atDatabase (allocOr message)) env Q w :=
  Prog.wp_inside.2 (wp_allocOr (of_same_place hok) (of_calm_place hno))

theorem wp_dbRequire {b : Bool} {code : Status} (hok : b = true → Q (.ok ()) w.fs w.mem)
    (hno : b = false → Q (.fail ⟨code, message⟩) w.fs w.mem) :
    wp (atDatabase (require b code message)) env Q w :=
  Prog.wp_inside.2 (wp_require (fun hb ↦ of_same_place (hok hb)) fun hb ↦ of_same_place (hno hb))

theorem wp_dbFail {α : Type} {code : Status} {Q : Exit Error α → DbFiles → μ → Prop}
    (h : Q (.fail ⟨code, message⟩) w.fs w.mem) :
    wp (atDatabase (wadbFail code message : Io μ α)) env Q w :=
  Prog.wp_inside.2 (wp_wadbFail.2 (of_same_place h))

/-- A call that does not change files. -/
theorem wp_dbCall {retry : Bool} {c : Call Path Dir} {Q : Exit Error Bool → DbFiles → μ → Prop}
    (hok : Q (.ok true) w.fs w.mem) (hno : ¬ env.Calm → Q (.ok false) w.fs w.mem)
    (hkill : ¬ env.Calm → Q .killed w.fs w.mem) :
    wp (atDatabase (Prog.call retry c id : Io μ Bool)) env Q w := by
  have hkill' := of_calm_place (i := none) hkill
  exact Prog.wp_inside.2 (wp_call (of_same_place hok)
    (of_calm_place hno) hkill' hkill')

theorem wp_dbSyncDirectory {dir : Dir} (hok : Q (.ok ()) w.fs w.mem)
    (hno : ¬ env.Calm → Q (.fail ⟨.io, "cannot synchronize directory"⟩) w.fs w.mem)
    (hkill : ¬ env.Calm → Q .killed w.fs w.mem) :
    wp (atDatabase (syncDirectory dir : Io μ Unit)) env Q w :=
  Prog.wp_inside.2 (wp_syncDirectory (of_same_place hok)
    (of_calm_place hno)
    (of_calm_place hkill))

/-- Nothing but temporary files of the place `i` has changed. -/
structure Untouched (i : Place) (fs fs' : DbFiles) : Prop where
  same : ∀ p, (∀ q, p ≠ .tmp q) → fs' (i, p) = fs (i, p)
  elsewhere : ∀ j, j ≠ i → filesOf j fs' = filesOf j fs

/-- The file `p` of the place `i` was replaced, and nothing else but temporary files has changed. -/
structure Wrote (i : Place) (p : Path) (data : Bytes) (fs fs' : DbFiles) : Prop where
  file : fs' (i, p) = some ⟨data, data.length⟩
  same : ∀ p', p' ≠ p → (∀ q, p' ≠ .tmp q) → fs' (i, p') = fs (i, p')
  elsewhere : ∀ j, j ≠ i → filesOf j fs' = filesOf j fs

theorem untouched_of_agree {fs : DbFiles} {fs' : Files} (h : Agree (filesOf i fs) fs') :
    Untouched i fs (putFiles i fs' fs) where
  same p hp := (putFiles_self ..).trans (h p hp)
  elsewhere _ hj := filesOf_putFiles_of_ne hj fs' fs

theorem wrote_of_agree {p : Path} {data : Bytes} {fs : DbFiles} {fs' : Files}
    (hp : ∀ q, p ≠ .tmp q) (h : Agree (setFile p (some ⟨data, data.length⟩) (filesOf i fs)) fs') :
    Wrote i p data fs (putFiles i fs' fs) where
  file := (putFiles_self ..).trans ((h p hp).trans (setFile_self ..))
  same p' hne hp' := (putFiles_self ..).trans ((h p' hp').trans (setFile_of_ne _ _ hne))
  elsewhere _ hj := filesOf_putFiles_of_ne hj fs' fs

theorem installs_saveCatalog (k : Catalog) : Installs (saveCatalog k : Io μ Unit) .catalog k.image :=
  installs_allocated _ _ _

theorem installs_saveSchema (id : ℕ) (name : Bytes) (s : Schema) :
    Installs (saveSchema id name s : Io μ Unit) (.schema id) (schemaImage id name s) :=
  installs_allocated _ _ _

/-- **Installing a metadata file** of the place `i`. -/
theorem wp_dbInstall {prog : Io μ Unit} {p : Path} {data : Bytes}
    (hprog : Installs prog p data) (hp : ∀ q, p ≠ .tmp q)
    (hok : ∀ fs', Wrote i p data w.fs fs' → Q (.ok ()) fs' w.mem)
    (hno : ¬ env.Calm → ∀ fs', Untouched i w.fs fs' → ∀ e : Error, e.code ≠ .indeterminate →
      Q (.fail e) fs' w.mem)
    (hind : ¬ env.Calm → ∀ fs', Wrote i p data w.fs fs' → ∀ e : Error, e.code = .indeterminate →
      Q (.fail e) fs' w.mem)
    (hkill : ¬ env.Calm → ∀ fs', Untouched i w.fs fs' ∨ Wrote i p data w.fs fs' → Q .killed fs' w.mem) :
    wp (Prog.inside i prog) env Q w := by
  refine Prog.wp_inside.2 (hprog _ _ _ (fun fs' h ↦ hok _ (wrote_of_agree hp h))
    (fun hcalm fs' h e he ↦ hno (not_calm_inside hcalm) _ (untouched_of_agree h) e ?_)
    (fun hcalm fs' h ↦ hind (not_calm_inside hcalm) _ (wrote_of_agree hp h))
    fun hcalm fs' h ↦ hkill (not_calm_inside hcalm) _
      (h.imp untouched_of_agree fun h ↦ wrote_of_agree hp h))
  rcases he with he | he <;> rw [he] <;> decide

end Rules

/-! ### The process -/

/-- The open table `t` serves the table `x` of the catalog; readers hold the snapshots `snaps`. -/
def OpenTable.Serves (K : TableInvariant) (fs : DbFiles) (snaps : ℕ → List Snapshot) (t : OpenTable S)
    (x : Listed S) : Prop :=
  t.config = x.config ∧ t.name = x.name ∧
    K.live t.config x.retentionUs (filesOf (some t.config.id) fs) t.table (snaps t.config.id)

/-- **A process that has the tables `T` open.** -/
structure Running (K : TableInvariant) (fs : DbFiles) (db : Database S) (snaps : ℕ → List Snapshot)
    (T : List (Listed S)) : Prop where
  tables : List.Forall₂ (OpenTable.Serves K fs snaps) db.tables T
  ids : IdsOk db.nextTableId 0 (idsOf T)
  length_le : T.length ≤ S.1.maxTables
  frozen : db.readOnly = true → ∀ t ∈ db.tables, t.table.frozen = true
  unlisted : ∀ id, id ∉ idsOf T → snaps id = []
  catalog : (fs (none, .catalog)).isSome = true
  entries : (fs (none, .tables)).isSome = true

/-- What the creation of a table and the opening of the database need of an invariant. -/
structure TableInvariant.Lawful (K : TableInvariant) : Prop where
  created : ∀ {c : Config} {r : ℕ} {fs : Files} {f : File}, r ≤ int64Max → fs .manifest = some f →
    f.data = (Table.created r : Table c).manifest.image c.id → K.live c r fs (.created r) []
  ended : ∀ {c : Config} {r : ℕ} {fs : Files} {t : Table c} {snaps : List Snapshot},
    K.live c r fs t snaps → K.disk c r fs
  freeze : ∀ {c : Config} {r : ℕ} {fs : Files} {t : Table c} {snaps : List Snapshot},
    K.live c r fs t snaps → K.live c r fs { t with db := { t.db with readOnly := true } } snaps
  opened : ∀ {c : Config} {r : ℕ} {fs : Files} (env : Env Path Dir) (n : ℕ), K.disk c r fs →
    wp openTable env (fun e fs' t ↦ match e with
      | .ok _ => K.live c r fs' t [] ∧ t.frozen = false
      | _ => K.disk c r fs') ⟨fs, n, (.zeroed : Table c)⟩

section Forall₂

variable {α β γ : Type} {R R' : α → β → Prop} {l : List α} {l' : List β}

theorem map_eq_of_forall₂ {f : α → γ} {g : β → γ} (hfg : ∀ a b, R a b → f a = g b)
    (h : List.Forall₂ R l l') : l.map f = l'.map g := by
  induction h with
  | nil => rfl
  | cons hab _ ih => rw [map_cons, map_cons, hfg _ _ hab, ih]

theorem forall₂_imp_of_mem (h : List.Forall₂ R l l') (himp : ∀ a ∈ l, ∀ b ∈ l', R a b → R' a b) :
    List.Forall₂ R' l l' := by
  induction h with
  | nil => exact .nil
  | cons hab _ ih =>
    refine .cons (himp _ mem_cons_self _ mem_cons_self hab) (ih fun a ha b hb ↦ ?_)
    exact himp a (mem_cons_of_mem _ ha) b (mem_cons_of_mem _ hb)

end Forall₂

section Running

variable {fs fs' : DbFiles} {db db' : Database S} {snaps : ℕ → List Snapshot} {T : List (Listed S)}

theorem Running.ids_eq (h : Running K fs db snaps T) : db.ids = idsOf T :=
  map_eq_of_forall₂ (fun _ _ ht ↦ by rw [ht.1]) h.tables

theorem Running.names_eq (h : Running K fs db snaps T) :
    db.tables.map (·.name) = T.map (·.name) :=
  map_eq_of_forall₂ (fun _ _ ht ↦ ht.2.1) h.tables

theorem Running.length_eq (h : Running K fs db snaps T) : db.tables.length = T.length :=
  h.tables.length_eq

/-- Identifiers may have been taken. -/
structure Advanced (db db' : Database S) : Prop where
  tables : db'.tables = db.tables
  readOnly : db'.readOnly = db.readOnly
  le : db.nextTableId ≤ db'.nextTableId

theorem Advanced.refl (db : Database S) : Advanced db db := ⟨rfl, rfl, le_refl _⟩

variable {ids : List ℕ} {next previous : ℕ}

section

variable (h : IdsOk next previous ids)
include h

theorem IdsOk.mono {next' : ℕ} (hle : next ≤ next') : IdsOk next' previous ids := by
  induction ids generalizing previous with
  | nil => trivial
  | cons id ids ih =>
    obtain ⟨hprev, hlt, hrest⟩ := h
    exact ⟨hprev, hlt.trans_le hle, ih hrest⟩

theorem IdsOk.concat {id : ℕ} (hlt : ∀ i ∈ ids, i < id) (hprev : previous < id) (hid : id < next) :
    IdsOk next previous (ids ++ [id]) := by
  induction ids generalizing previous with
  | nil => exact ⟨hprev, hid, trivial⟩
  | cons a ids ih =>
    obtain ⟨h₁, h₂, h₃⟩ := h
    exact ⟨h₁, h₂, ih h₃ (fun i hi ↦ hlt i (mem_cons_of_mem _ hi)) (hlt a mem_cons_self)⟩

theorem IdsOk.lt {id : ℕ} (hid : id ∈ ids) : previous < id ∧ id < next := by
  induction ids generalizing previous with
  | nil => cases hid
  | cons a ids ih =>
    obtain ⟨h₁, h₂, h₃⟩ := h
    rcases mem_cons.1 hid with rfl | hid
    · exact ⟨h₁, h₂⟩
    · exact ⟨h₁.trans (ih h₃ hid).1, (ih h₃ hid).2⟩

theorem IdsOk.nodup : ids.Nodup := by
  induction ids generalizing previous with
  | nil => exact .nil
  | cons a ids ih =>
    obtain ⟨-, -, h₃⟩ := h
    exact nodup_cons.2 ⟨fun ha ↦ (h₃.lt ha).1.false, ih h₃⟩

end

/-- The process goes on with other files, as long as those of its tables are the same. -/
theorem Running.frame (h : Running K fs db snaps T) (hdb : Advanced db db')
    (hcatalog : (fs' (none, .catalog)).isSome = true) (hentries : (fs' (none, .tables)).isSome = true)
    (hsame : ∀ x ∈ T, filesOf (some x.config.id) fs' = filesOf (some x.config.id) fs) :
    Running K fs' db' snaps T where
  tables := by
    rw [hdb.tables]
    refine forall₂_imp_of_mem h.tables ?_
    rintro t - x hx ⟨hconfig, hname, hlive⟩
    refine ⟨hconfig, hname, ?_⟩
    have hfiles := hsame x hx
    rw [← hconfig] at hfiles
    rwa [hfiles]
  ids := h.ids.mono hdb.le
  length_le := h.length_le
  frozen := by
    rw [hdb.tables, hdb.readOnly]
    exact h.frozen
  unlisted := h.unlisted
  catalog := hcatalog
  entries := hentries

end Running

/-! ### Making a directory -/

section Directory

variable {env : Env (Place × Path) (Place × Dir)} {fs : DbFiles} {db : Database S}

/-- The outcomes of looking for a new directory. -/
def FreshPost (fs : DbFiles) (db : Database S) : Exit Error TableId → DbFiles → Database S → Prop
  | .ok id, fs', db' => Advanced db db' ∧ id.1 ∉ entries fs ∧ db.nextTableId ≤ id.1 ∧
      id.1 < db'.nextTableId ∧ fs' = addEntry id.1 fs
  | .fail e, fs', db' => Advanced db db' ∧ fs' = fs ∧ e.code ≠ .indeterminate
  | .killed, fs', _ => fs' = fs ∨ ∃ id, id ∉ entries fs ∧ id < 2 ^ 64 ∧ fs' = addEntry id fs

/-- **Making a directory.** -/
theorem wp_dbMkdirEntry {id : ℕ} {n : ℕ} {μ : Type} {m : μ} {Q : Exit Error Bool → DbFiles → μ → Prop}
    (hnew : id ∉ entries fs → Q (.ok true) (addEntry id fs) m)
    (hold : id ∈ entries fs → Q (.ok false) fs m)
    (hno : ¬ env.Calm → ∀ e : Error, e.code ≠ .indeterminate → Q (.fail e) fs m)
    (hkill : ¬ env.Calm → Q .killed fs m)
    (hkill' : ¬ env.Calm → id ∉ entries fs → Q .killed (addEntry id fs) m) :
    wp (atDatabase (mkdirEntry id)) env Q ⟨fs, n, m⟩ := by
  have hno' := of_calm_place (i := none) fun hcalm ↦ hno hcalm ⟨.io, "create table directory"⟩ (by decide)
  have hkill₀ := of_calm_place (i := none) hkill
  refine Prog.wp_inside.2 ?_
  by_cases hid : id ∈ entries fs
  · have hid' : id ∈ entriesOf (filesOf none fs .tables) := hid
    unfold mkdirEntry
    refine wp_bind (wp_files.2 fun n ↦ ?_)
    simp only [hid', decide_true, if_true]
    exact wp_callOr_bind (fun n ↦ wp_pure.2 (of_same_place (hold hid))) hno' hkill₀ hkill₀
  · have hid' : id ∉ entriesOf (filesOf none fs .tables) := hid
    unfold mkdirEntry
    refine wp_bind (wp_files.2 fun n ↦ ?_)
    simp only [hid', decide_false, if_false]
    exact wp_callOr_bind (fun n ↦ wp_pure.2 (hnew hid)) hno' hkill₀
      fun hcalm ↦ hkill' (not_calm_inside hcalm) hid

/-- **Looking for a new directory.** -/
theorem wp_freshDirectory (n k : ℕ) :
    wp (freshDirectory n) env (FreshPost fs db) ⟨fs, k, db⟩ := by
  have hlimit {db' : Database S} (hdb : Advanced db db') (message : String) :
      FreshPost fs db (.fail ⟨.limit, message⟩) fs db' :=
    ⟨hdb, rfl, Status.noConfusion⟩
  suffices h : ∀ db', Advanced db db' →
      wp (freshDirectory n) env (FreshPost fs db) ⟨fs, k, db'⟩ from h db (.refl db)
  induction n generalizing k with
  | zero => exact fun db' hdb ↦ wp_dbFail (hlimit hdb _)
  | succ n ih =>
    intro db' hdb
    unfold freshDirectory
    refine wp_bind (wp_get.2 fun k ↦ ?_)
    split
    · exact wp_dbFail (hlimit hdb _)
    next hmax =>
      have htaken : Advanced db (db'.takeId hmax) :=
        ⟨hdb.tables, hdb.readOnly, hdb.le.trans (Nat.le_succ _)⟩
      have hbound : db'.nextTableId < 2 ^ 64 := by
        have := db'.next_bounds.2
        unfold uint64Max at this
        omega
      refine wp_bind (wp_modify.2 fun k ↦ ?_)
      refine wp_bind (wp_dbAllocOr (fun k ↦ ?_) fun _ ↦ ⟨htaken, rfl, by decide⟩)
      refine wp_bind (wp_dbMkdirEntry (fun hnew k ↦ ?_) (fun _ k ↦ ?_)
        (fun _ e he ↦ ⟨htaken, rfl, he⟩) (fun _ ↦ .inl rfl)
        fun _ hnew ↦ .inr ⟨_, hnew, hbound, rfl⟩)
      · exact wp_pure.2 ⟨htaken, hnew, hdb.le, Nat.lt_succ_self _, rfl⟩
      · exact ih k _ htaken

end Directory

/-! ### Creating a table -/

section Create

variable {env : Env (Place × Path) (Place × Dir)} {fs fs' fs'' : DbFiles} {db db' : Database S}
  {snaps : ℕ → List Snapshot} {T : List (Listed S)} {id k r : ℕ} {x : StoredSchema}

/-- Nothing has changed that a database with tables of these identifiers needs. -/
structure Keeps (ids : List ℕ) (fs fs' : DbFiles) : Prop where
  catalog : fs' (none, .catalog) = fs (none, .catalog)
  tables : fs' (none, .tables) = fs (none, .tables)
  schema : ∀ id ∈ ids, fs' (none, .schema id) = fs (none, .schema id)
  files : ∀ id ∈ ids, filesOf (some id) fs' = filesOf (some id) fs

theorem Keeps.refl (ids : List ℕ) (fs : DbFiles) : Keeps ids fs fs :=
  ⟨rfl, rfl, fun _ _ ↦ rfl, fun _ _ ↦ rfl⟩

variable {ids : List ℕ}

theorem Keeps.trans (h : Keeps ids fs fs') (h' : Keeps ids fs' fs'') : Keeps ids fs fs'' where
  catalog := h'.catalog.trans h.catalog
  tables := h'.tables.trans h.tables
  schema i hi := (h'.schema i hi).trans (h.schema i hi)
  files i hi := (h'.files i hi).trans (h.files i hi)

/-- A file of the database that is not the catalog and not needed by a listed table. -/
theorem keeps_of_same (hsame : ∀ p : Path, p = .catalog ∨ p = .tables ∨ (∃ i ∈ ids, p = .schema i) →
      fs' (none, p) = fs (none, p))
    (hfiles : ∀ i ∈ ids, filesOf (some i) fs' = filesOf (some i) fs) : Keeps ids fs fs' where
  catalog := hsame _ (.inl rfl)
  tables := hsame _ (.inr (.inl rfl))
  schema i hi := hsame _ (.inr (.inr ⟨i, hi, rfl⟩))
  files := hfiles

theorem not_tmp_of_kept {p : Path}
    (h : p = .catalog ∨ p = .tables ∨ ∃ i ∈ ids, p = .schema i) (q : Path) : p ≠ .tmp q := by
  rcases h with rfl | rfl | ⟨i, -, rfl⟩ <;> exact Path.noConfusion

theorem Untouched.keeps_database (h : Untouched none fs fs') : Keeps ids fs fs' :=
  keeps_of_same (fun p hp ↦ h.same p (not_tmp_of_kept hp)) fun i _ ↦ h.elsewhere (some i) nofun

/-- Work in the directory of a table that is not listed. -/
theorem keeps_of_elsewhere (h : ∀ j, j ≠ some id → filesOf j fs' = filesOf j fs)
    (hid : id ∉ ids) : Keeps ids fs fs' := by
  refine keeps_of_same (fun p _ ↦ congrFun (h none nofun) p) fun i hi ↦ h (some i) ?_
  rintro ⟨⟩
  exact hid hi

theorem Wrote.keeps_schema {data : Bytes} (h : Wrote none (.schema id) data fs fs')
    (hid : id ∉ ids) : Keeps ids fs fs' := by
  refine keeps_of_same (fun p hp ↦ h.same p ?_ (not_tmp_of_kept hp)) fun i _ ↦ h.elsewhere _ nofun
  rcases hp with rfl | rfl | ⟨i, hi, rfl⟩
  · exact Path.noConfusion
  · exact Path.noConfusion
  · rintro ⟨⟩
    exact hid hi

theorem Stored.keeps (h : Stored K fs T) (hk : Keeps (idsOf T) fs fs') : Stored K fs' T := by
  have hentries : entries fs' = entries fs := by rw [entries, entries, hk.tables]
  refine h.congr hk.catalog (fun f hf ↦ h.tables f (hk.tables ▸ hf)) (by rw [hentries]; exact fun _ ↦ id)
    (fun hn ↦ hentries.trans (h.empty hn).2) (fun x hx ↦ hk.schema _ (mem_map_of_mem hx))
    fun x hx ↦ ?_
  rw [hk.files _ (mem_map_of_mem hx)]
  exact h.disk x hx

theorem Running.keeps (h : Running K fs db snaps T) (hk : Keeps (idsOf T) fs fs') :
    Running K fs' db snaps T :=
  h.frame (.refl db) (hk.catalog ▸ h.catalog) (hk.tables ▸ h.entries)
    fun _ hx ↦ hk.files _ (mem_map_of_mem hx)

/-- A directory was made. -/
theorem Stored.widened (h : Stored K fs T) (hrun : Running K fs db snaps T) (hid : id < 2 ^ 64) :
    Stored K (addEntry id fs) T := by
  obtain ⟨f, hf⟩ := Option.isSome_iff_exists.1 hrun.entries
  obtain ⟨k, hk⟩ := Option.isSome_iff_exists.1 hrun.catalog
  have hw := widened_addEntry hf (h.tables f hf) hid
  refine h.congr (hw.same _ (by simp)) (fun f' hf' ↦ ?_) hw.subset (fun hn ↦ ?_)
    (fun x _ ↦ hw.same _ (by simp)) fun x hx ↦ ?_
  · obtain ⟨f'', hf'', hlen⟩ := hw.length f hf
    rw [hf''] at hf'
    cases hf'
    exact hlen (h.tables f hf)
  · rw [hk] at hn
    cases hn
  · have hfiles : filesOf (some x.config.id) (addEntry id fs) = filesOf (some x.config.id) fs :=
      funext fun p ↦ hw.same _ (by simp)
    rw [hfiles]
    exact h.disk x hx

theorem Running.widened (h : Running K fs db snaps T) (hdb : Advanced db db') :
    Running K (addEntry id fs) db' snaps T := by
  obtain ⟨f, hf⟩ := Option.isSome_iff_exists.1 h.entries
  refine h.frame hdb ?_ ?_ fun x _ ↦ funext fun p ↦ addEntry_of_ne (by simp)
  · rw [addEntry_of_ne (by simp)]
    exact h.catalog
  · rw [addEntry_tables hf]
    rfl

/-- The table that a call `k` of `wadb_create_table` makes in the directory `id`. -/
def listedOf (id : TableId) (x : StoredSchema) (r k : ℕ) : Listed S where
  config := configOf S id x
  options_eq := options_configOf S id x
  name := x.name
  retentionUs := r
  call := k

theorem idsOf_concat (T : List (Listed S)) (y : Listed S) : idsOf (T ++ [y]) = idsOf T ++ [y.config.id] :=
  map_append

/-- The files of a database to which the call `k` may have added a table. -/
def MaybeAdded (K : TableInvariant) (fs : DbFiles) (T : List (Listed S)) (x : StoredSchema) (r k : ℕ)
    (fs' : DbFiles) : Prop :=
  Stored K fs' T ∨ ∃ id : TableId, id.1 ∉ entries fs ∧ Stored K fs' (T ++ [listedOf id x r k])

/-- The outcomes of the part of `wadb_create_table` that changes files. -/
def TableInstallPost (K : TableInvariant) (fs : DbFiles) (snaps : ℕ → List Snapshot) (T : List (Listed S))
    (x : StoredSchema) (r k : ℕ) : Exit Error (OpenTable S) → DbFiles → Database S → Prop
  | .ok t, fs', db' => ∃ id : TableId, id.1 ∉ entries fs ∧
      t = ⟨configOf S id x, options_configOf S id x, x.name, .created r⟩ ∧
      Stored K fs' (T ++ [listedOf id x r k]) ∧
      Running K fs' (db'.push t) snaps (T ++ [listedOf id x r k]) ∧ db'.readOnly = false
  | .fail e, fs', db' => Running K fs' db' snaps T ∧ db'.readOnly = false ∧ MaybeAdded K fs T x r k fs' ∧
      (e.code ≠ .indeterminate → Stored K fs' T)
  | .killed, fs', _ => MaybeAdded K fs T x r k fs'

/-- What is known when the catalog is about to be written. -/
structure Prepared (K : TableInvariant) (fs : DbFiles) (db : Database S) (snaps : ℕ → List Snapshot)
    (T : List (Listed S)) (id : TableId) (x : StoredSchema) (r : ℕ) : Prop where
  stored : Stored K fs T
  running : Running K fs db snaps T
  room : T.length < S.1.maxTables
  entry : id.1 ∈ entries fs
  next : ∀ i ∈ idsOf T, i < id.1
  lt : id.1 < db.nextTableId
  schema : ∃ f, fs (none, .schema id.1) = some f ∧ f.data = schemaImage id.1 x.name x.schema
  manifest : ∃ f, filesOf (some id.1) fs .manifest = some f ∧
    f.data = (Table.created r : Table (configOf S id x)).manifest.image id.1
  name : identifier x.name = true
  named : x.name ∉ T.map (·.name)

variable {tid : TableId}

theorem Settings.maxTables_le (S : Settings) : S.1.maxTables ≤ maxTables := by
  have h := S.2
  simp only [Options.acceptable, Bool.and_eq_true, decide_eq_true_eq] at h
  tauto

theorem Prepared.idsOk (h : Prepared K fs db snaps T tid x r) :
    IdsOk db.nextTableId 0 (idsOf (T ++ [listedOf tid x r k])) := by
  rw [idsOf_concat]
  exact h.running.ids.concat h.next tid.2.1 h.lt

theorem Prepared.catalog_ok (h : Prepared K fs db snaps T tid x r) : (db.catalogWith tid.1).Ok S.1 := by
  have hmax : S.1.maxTables ≤ maxTables := S.maxTables_le
  have hlen : (db.ids ++ [tid.1]).length = T.length + 1 := by
    rw [length_append, h.running.ids_eq, idsOf, length_map, length_singleton]
  have hroom := h.room
  refine ⟨⟨db.next_bounds.1, lt_of_le_of_lt db.next_bounds.2 (by decide)⟩, ?_, ?_, ?_⟩
  · exact hlen.trans_le (by omega)
  · exact hlen.trans_le (by omega)
  · have hids := h.idsOk (k := 0)
    rw [idsOf_concat, ← h.running.ids_eq] at hids
    exact hids

/-- **The catalog lists the new table.** -/
theorem Prepared.stored_added (hK : K.Lawful) (h : Prepared K fs db snaps T tid x r) (hr : r ≤ int64Max)
    (hw : Wrote none .catalog (db.catalogWith tid.1).image fs fs') :
    Stored K fs' (T ++ [listedOf tid x r k]) := by
  have hfiles (i : ℕ) : filesOf (some i) fs' = filesOf (some i) fs := hw.elsewhere _ nofun
  have hschema (i : ℕ) : fs' (none, .schema i) = fs (none, .schema i) :=
    hw.same _ Path.noConfusion fun _ ↦ Path.noConfusion
  have htables : fs' (none, .tables) = fs (none, .tables) :=
    hw.same _ Path.noConfusion fun _ ↦ Path.noConfusion
  have hentries : entries fs' = entries fs := by rw [entries, entries, htables]
  have hcatalog : db.catalogWith tid.1 =
      Catalog.mk (idsOf (T ++ [listedOf tid x r k])) db.nextTableId := by
    rw [idsOf_concat, Database.catalogWith, h.running.ids_eq]
    rfl
  constructor
  case tables => exact fun f hf ↦ h.stored.tables f (htables ▸ hf)
  case catalog =>
    intro f hf
    rw [hw.file] at hf
    cases hf
    exact ⟨db.nextTableId, by rw [← hcatalog], hcatalog ▸ h.catalog_ok⟩
  case empty =>
    intro hn
    rw [hw.file] at hn
    cases hn
  case names =>
    rw [map_append, nodup_append']
    refine ⟨h.stored.names, nodup_singleton _, ?_⟩
    rw [map_singleton, disjoint_singleton]
    exact h.named
  all_goals
    intro y hy
    rcases mem_append.1 hy with hy | hy
  · exact hentries ▸ h.stored.entry y hy
  · obtain rfl := mem_singleton.1 hy
    exact hentries ▸ h.entry
  · rw [hschema]
    exact h.stored.schema y hy
  · obtain rfl := mem_singleton.1 hy
    rw [hschema]
    exact h.schema
  · exact h.stored.name y hy
  · obtain rfl := mem_singleton.1 hy
    exact h.name
  · rw [hfiles]
    exact h.stored.disk y hy
  · obtain rfl := mem_singleton.1 hy
    obtain ⟨f, hf, hdata⟩ := h.manifest
    rw [hfiles]
    exact hK.ended (hK.created hr hf hdata)

/-- **The process has the new table open.** -/
theorem Prepared.running_added (hK : K.Lawful) (h : Prepared K fs db snaps T tid x r) (hr : r ≤ int64Max)
    (hw : Wrote none .catalog (db.catalogWith tid.1).image fs fs') (hro : db.readOnly = false) :
    Running K fs' (db.push ⟨configOf S tid x, rfl, x.name, .created r⟩) snaps
      (T ++ [listedOf tid x r k]) := by
  have hfiles (i : ℕ) : filesOf (some i) fs' = filesOf (some i) fs := hw.elsewhere _ nofun
  have htables : fs' (none, .tables) = fs (none, .tables) :=
    hw.same _ Path.noConfusion fun _ ↦ Path.noConfusion
  have hnew : tid.1 ∉ idsOf T := fun hmem ↦ (h.next _ hmem).false
  obtain ⟨f, hf, hdata⟩ := h.manifest
  have hold : Running K fs' db snaps T :=
    h.running.frame (.refl db) (by rw [hw.file]; rfl) (htables ▸ h.running.entries) fun y _ ↦ hfiles _
  refine ⟨rel_append hold.tables (.cons ⟨rfl, rfl, ?_⟩ .nil), h.idsOk, ?_, ?_, ?_, hold.catalog,
    hold.entries⟩
  · rw [hfiles]
    exact (h.running.unlisted tid.1 hnew).symm ▸ hK.created hr hf hdata
  · rw [length_append, length_singleton]
    exact h.room
  · intro hro'
    rw [Database.push, hro] at hro'
    cases hro'
  · intro i hi
    rw [idsOf_concat, mem_append, not_or] at hi
    exact h.running.unlisted i hi.1

/-- **The part of `wadb_create_table` that changes files.** -/
theorem wp_installTable (hK : K.Lawful) (hstored : Stored K fs T) (hrun : Running K fs db snaps T)
    (hro : db.readOnly = false) (hroom : T.length < S.1.maxTables) (hname : identifier x.name = true)
    (hnamed : x.name ∉ T.map (·.name)) (hr : r ≤ int64Max) (n : ℕ) :
    wp (installTable x r) env (TableInstallPost K fs snaps T x r k) ⟨fs, n, db⟩ := by
  unfold installTable
  refine wp_bind (wp_dbAllocOr (fun n ↦ ?_) fun _ ↦ ⟨hrun, hro, .inl hstored, fun _ ↦ hstored⟩)
  refine wp_bind (wp_get.2 fun n ↦ ?_)
  refine wp_bind ((wp_freshDirectory _ _).mono ?_)
  rintro (id | e | _) fs₁ db₁ hpost
  case fail =>
    obtain ⟨hadv, hfs, -⟩ := hpost
    dsimp only at hfs
    subst hfs
    have hrun₁ : Running K fs₁ db₁ snaps T :=
      hrun.frame hadv hrun.catalog hrun.entries fun _ _ ↦ rfl
    exact ⟨hrun₁, hadv.readOnly.trans hro, .inl hstored, fun _ ↦ hstored⟩
  case killed =>
    rcases hpost with rfl | ⟨id, -, hid, rfl⟩
    · exact .inl hstored
    · exact .inl (hstored.widened hrun hid)
  obtain ⟨hadv, hnew, hge, hlt, hfs⟩ := hpost
  dsimp only at hfs hnew hge hadv
  subst hfs
  have hid : id.1 < 2 ^ 64 := lt_of_lt_of_le id.2.2 (by decide)
  have hstored₁ : Stored K (addEntry id.1 fs) T := hstored.widened hrun hid
  have hrun₁ : Running K (addEntry id.1 fs) db₁ snaps T := hrun.widened hadv
  have hbelow : ∀ i ∈ idsOf T, i < id.1 := fun i hi ↦ (hrun.ids.lt hi).2.trans_le hge
  have hfresh : id.1 ∉ idsOf T := fun hmem ↦ (hbelow _ hmem).false
  have hro₁ : db₁.readOnly = false := hadv.readOnly.trans hro
  -- until the catalog is written nothing that is listed has changed
  have hstop {fs' : DbFiles} (hkeep : Keeps (idsOf T) (addEntry id.1 fs) fs') (e : Error) :
      TableInstallPost K fs snaps T x r k (.fail e) fs' db₁ :=
    ⟨hrun₁.keeps hkeep, hro₁, .inl (hstored₁.keeps hkeep), fun _ ↦ hstored₁.keeps hkeep⟩
  have hend {fs' : DbFiles} (hkeep : Keeps (idsOf T) (addEntry id.1 fs) fs') :
      TableInstallPost K fs snaps T x r k .killed fs' db₁ :=
    .inl (hstored₁.keeps hkeep)
  intro n
  refine wp_bind (wp_dbSyncDirectory (fun n ↦ ?_) (fun _ ↦ hstop (.refl _ _) _)
    fun _ ↦ hend (.refl _ _))
  refine wp_bind (wp_dbInstall (installs_saveSchema id.1 x.name x.schema)
    (fun _ ↦ Path.noConfusion) (fun fs₂ h₂ n ↦ ?_)
    (fun _ fs' h e _ ↦ hstop h.keeps_database e) (fun _ fs' h e _ ↦ hstop (h.keeps_schema hfresh) e)
    fun _ fs' h ↦ hend (h.elim (·.keeps_database) (·.keeps_schema hfresh)))
  have hkeep₂ : Keeps (idsOf T) (addEntry id.1 fs) fs₂ := h₂.keeps_schema hfresh
  have hmanifest : Installs (saveManifest (.created r : Table (configOf S id x)) : Io (Database S) Unit)
      .manifest _ := installs_saveManifest zero_le
  refine wp_bind (wp_dbInstall hmanifest (fun _ ↦ Path.noConfusion) (fun fs₃ h₃ n ↦ ?_)
    (fun _ fs' h e _ ↦ hstop (hkeep₂.trans (keeps_of_elsewhere h.elsewhere hfresh)) e)
    (fun _ fs' h e _ ↦ hstop (hkeep₂.trans (keeps_of_elsewhere h.elsewhere hfresh)) e)
    fun _ fs' h ↦ hend (hkeep₂.trans (keeps_of_elsewhere
      (h.elim (·.elsewhere) (·.elsewhere)) hfresh)))
  have hkeep₃ : Keeps (idsOf T) (addEntry id.1 fs) fs₃ :=
    hkeep₂.trans (keeps_of_elsewhere h₃.elsewhere hfresh)
  have hschema₃ : fs₃ (none, .schema id.1) = fs₂ (none, .schema id.1) :=
    congrFun (h₃.elsewhere none nofun) _
  have hentry : id.1 ∈ entries fs₃ := by
    obtain ⟨f, hf⟩ := Option.isSome_iff_exists.1 hrun.entries
    rw [entries, hkeep₃.tables]
    change id.1 ∈ entries (addEntry id.1 fs)
    rw [entries_addEntry hf (hstored.tables f hf) hid]
    exact mem_append_right _ (mem_singleton_self _)
  have hprep : Prepared K fs₃ db₁ snaps T id x r :=
    ⟨hstored₁.keeps hkeep₃, hrun₁.keeps hkeep₃, hroom, hentry, hbelow, hlt,
      ⟨_, hschema₃.trans h₂.file, rfl⟩, ⟨_, h₃.file, rfl⟩, hname, hnamed⟩
  have hadded {fs' : DbFiles} (h : Wrote none .catalog (db₁.catalogWith id.1).image fs₃ fs') :
      MaybeAdded K fs T x r k fs' :=
    .inr ⟨id, hnew, hprep.stored_added hK hr h⟩
  refine wp_bind (wp_get.2 fun n ↦ ?_)
  refine wp_bind (wp_dbInstall (installs_saveCatalog (db₁.catalogWith id.1))
    (fun _ ↦ Path.noConfusion) (fun fs₄ h₄ n ↦ wp_pure.2 ?_)
    (fun _ fs' h e _ ↦ hstop (hkeep₃.trans h.keeps_database) e) (fun _ fs' h e he ↦ ?_)
    fun _ fs' h ↦ ?_)
  · exact ⟨id, hnew, rfl, hprep.stored_added hK hr h₄, hprep.running_added hK hr h₄ hro₁, hro₁⟩
  · have hrun' : Running K fs' db₁ snaps T := hprep.running.frame (.refl _) (by rw [h.file]; rfl)
      (by rw [h.same _ Path.noConfusion fun _ ↦ Path.noConfusion]; exact hprep.running.entries)
      fun y _ ↦ h.elsewhere _ nofun
    exact ⟨hrun', hro₁, hadded h, fun hne ↦ absurd he hne⟩
  · rcases h with h | h
    · exact hend (hkeep₃.trans h.keeps_database)
    · exact hadded h

/-- The database refuses changes from now on. -/
theorem Running.freeze (hK : K.Lawful) (h : Running K fs db snaps T) : Running K fs db.freeze snaps T where
  tables := by
    rw [Database.freeze, List.forall₂_map_left_iff]
    exact h.tables.imp fun t y ht ↦ ⟨ht.1, ht.2.1, hK.freeze ht.2.2⟩
  ids := h.ids
  length_le := h.length_le
  frozen _ t ht := by
    obtain ⟨t, -, rfl⟩ := mem_map.1 ht
    simp [OpenTable.freeze, Table.frozen]
  unlisted := h.unlisted
  catalog := h.catalog
  entries := h.entries

variable {T' : List (Listed S)} {name : Bytes} {defs : List FieldDef}

/-- The outcomes of `wadb_create_table`. The catalog lists `T'`; the process knows `T`. -/
def CreatePost (K : TableInvariant) (fs : DbFiles) (db : Database S) (snaps : ℕ → List Snapshot)
    (T T' : List (Listed S)) (name : Bytes) (defs : List FieldDef) (r k : ℕ) :
    Exit Error ℕ → DbFiles → Database S → Prop
  | .ok i, fs', db' => db.readOnly = false ∧ db'.readOnly = false ∧ ∃ (x : StoredSchema) (id : TableId),
      x.name = name ∧ x.defs = defs ∧ id.1 = i ∧ id.1 ∉ entries fs ∧
      Stored K fs' (T ++ [listedOf id x r k]) ∧ Running K fs' db' snaps (T ++ [listedOf id x r k])
  | .fail e, fs', db' => Running K fs' db' snaps T ∧
      (e.code ≠ .indeterminate → db'.readOnly = db.readOnly ∧ Stored K fs' T') ∧
      (e.code = .indeterminate → db.readOnly = false ∧ db'.readOnly = true ∧
        ∃ x : StoredSchema, x.name = name ∧ x.defs = defs ∧ MaybeAdded K fs T x r k fs')
  | .killed, fs', _ => db.readOnly = false ∧
      ∃ x : StoredSchema, x.name = name ∧ x.defs = defs ∧ MaybeAdded K fs T x r k fs'

theorem Running.not_hasName (h : Running K fs db snaps T) (hname : db.hasName name = false) :
    name ∉ T.map (·.name) := by
  rw [← h.names_eq]
  intro hmem
  obtain ⟨t, ht, rfl⟩ := mem_map.1 hmem
  rw [Database.hasName, any_eq_false] at hname
  exact hname t ht (decide_eq_true rfl)

/-- **Creating a table.** -/
theorem wp_createTable (hK : K.Lawful) (hstored : Stored K fs T') (hrun : Running K fs db snaps T)
    (hT : db.readOnly = false → T' = T) (n : ℕ) :
    wp (createTable name defs r) env (CreatePost K fs db snaps T T' name defs r k) ⟨fs, n, db⟩ := by
  have hsame {e : Error} (he : e.code ≠ .indeterminate) :
      CreatePost K fs db snaps T T' name defs r k (.fail e) fs db :=
    ⟨hrun, fun _ ↦ ⟨rfl, hstored⟩, fun hind ↦ absurd hind he⟩
  unfold createTable
  refine wp_bind (wp_dbRequire (fun hvalid n ↦ ?_) fun _ ↦ hsame Status.noConfusion)
  refine wp_bind (wp_dbAllocOr (fun n ↦ ?_) fun _ ↦ hsame Status.noConfusion)
  split
  next e hbuild =>
    refine hsame ?_
    rcases schemaBuild_error hbuild with he | he <;> rw [he] <;> decide
  next s hbuild =>
    refine wp_bind (wp_get.2 fun n ↦ ?_)
    refine wp_bind (wp_dbRequire (fun hro n ↦ ?_) fun _ ↦ hsame Status.noConfusion)
    refine wp_bind (wp_dbRequire (fun hroom n ↦ ?_) fun _ ↦ hsame Status.noConfusion)
    refine wp_bind (wp_dbRequire (fun hnamed n ↦ ?_) fun _ ↦ hsame Status.noConfusion)
    simp only [Bool.and_eq_true, decide_eq_true_eq, Bool.not_eq_true'] at hvalid hro hroom hnamed
    obtain rfl := hT hro
    rw [hrun.length_eq] at hroom
    refine wp_bind (wp_attempt.2 ((wp_installTable (x := ⟨name, defs, s, hbuild⟩) (k := k) hK
      hstored hrun hro hroom hvalid.1 (hrun.not_hasName hnamed) hvalid.2 _).mono ?_))
    rintro (t | e | _) fs' db' hpost
    · obtain ⟨id, hnew, rfl, hstored', hrun', hro'⟩ := hpost
      intro n
      refine wp_bind (wp_modify.2 fun n ↦ wp_pure.2 ?_)
      exact ⟨hro, hro', _, id, rfl, rfl, rfl, hnew, hstored', hrun'⟩
    · obtain ⟨hrun', hro', hmaybe, hdef⟩ := hpost
      intro n
      dsimp only
      split
      next hind =>
        refine wp_bind (wp_modify.2 fun n ↦ ?_)
        exact ⟨hrun'.freeze hK, fun hne ↦ absurd hind hne, fun _ ↦ ⟨hro, rfl, _, rfl, rfl, hmaybe⟩⟩
      next hdefinite =>
        refine wp_bind (wp_pure.2 fun n ↦ ?_)
        exact ⟨hrun', fun _ ↦ ⟨hro'.trans hro.symm, hdef hdefinite⟩, fun hind ↦ absurd hind hdefinite⟩
    · exact ⟨hro, _, rfl, rfl, hpost⟩

end Create

end WebAnalyticsDb
