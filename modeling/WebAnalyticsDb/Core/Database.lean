import WebAnalyticsDb.Storage.Metadata
import WebAnalyticsDb.Storage.Segments

/-!
# The database

`core/database.c`: opening a database, which loads or initializes the catalog and opens every table it
lists, and creating a table.

* **Two kinds of places.** The database has its files, and every table has files of its own. A path is a
  place, `none` for the database and `some id` for a table, together with a path in it. The schema file
  lies in the directory of its table; but no function of a table uses it, so it is one of the files of
  the database.
* **A directory lists its entries.** The file `tables` of the database directory holds the identifiers of
  the table directories that exist, eight bytes each: it is what `mkdir` adds to, and what tells an
  existing directory from a new one.
* **Tables have different configurations.** An open table is its configuration together with a handle of
  that configuration.

The process-wide lock is a call that may be refused; the text of a path, and the limits on its length,
are left out.
-/

namespace WebAnalyticsDb

open Bytes

/-! ### State -/

/-- Where a file is: in the directory of the database, or in that of a table. -/
abbrev Place : Type := Option ℕ

/-- The files of a database. -/
abbrev DbFiles : Type := Place × Path → Option File

/-- Programs of the database over a memory `μ`. -/
abbrev DbIo (μ α : Type) : Type := Prog (Place × Path) (Place × Dir) μ Error α

variable {μ α : Type}

/-- Work in the directory of the database. -/
def atDatabase (p : Io μ α) : DbIo μ α := Prog.inside none p

/-- Work in the directory of a table. -/
def atTable (id : ℕ) (p : Io μ α) : DbIo μ α := Prog.inside (some id) p

/-- Options that `wadb_open` accepts. -/
abbrev Settings : Type := { o : Options // o.acceptable = true }

/-- An identifier that a table may have. -/
abbrev TableId : Type := { id : ℕ // 0 < id ∧ id < uint64Max }

/-- A table of an open database. -/
structure OpenTable (S : Settings) where
  config : Config
  options_eq : config.options = S.1
  name : Bytes
  table : Table config

/-- `wadb_db`, as far as it is about tables. -/
structure Database (S : Settings) where
  tables : List (OpenTable S)
  nextTableId : ℕ
  readOnly : Bool
  next_bounds : 0 < nextTableId ∧ nextTableId ≤ uint64Max

variable {S : Settings}

namespace Database

/-- The database before its catalog is loaded. -/
def initial : Database S := ⟨[], 1, false, by decide⟩

/-- The identifiers of the tables. -/
def ids (db : Database S) : List ℕ := db.tables.map (·.config.id)

/-- The catalog of the database. -/
def catalog (db : Database S) : Catalog := ⟨db.ids, db.nextTableId⟩

/-- The catalog with one more table. -/
def catalogWith (db : Database S) (id : ℕ) : Catalog := ⟨db.ids ++ [id], db.nextTableId⟩

/-- One more table. -/
def push (db : Database S) (t : OpenTable S) : Database S := { db with tables := db.tables ++ [t] }

/-- A table of that name is there. -/
def hasName (db : Database S) (name : Bytes) : Bool := db.tables.any (·.name = name)

/-- The database after the next identifier was taken. -/
def takeId (db : Database S) (h : db.nextTableId ≠ uint64Max) : Database S :=
  { db with
    nextTableId := db.nextTableId + 1
    next_bounds := ⟨Nat.succ_pos _, Nat.lt_of_le_of_ne db.next_bounds.2 h⟩ }

end Database

/-- The table whose database refuses changes. -/
def OpenTable.freeze (t : OpenTable S) : OpenTable S :=
  { t with table := { t.table with db := { t.table.db with readOnly := true } } }

/-- `db->read_only = true`: the tables see it too. -/
def Database.freeze (db : Database S) : Database S :=
  { db with tables := db.tables.map (·.freeze), readOnly := true }

/-! ### Metadata files -/

/-- `wadb_save_catalog`. -/
def saveCatalog (k : Catalog) : Io μ Unit := do
  allocOr "catalog allocation"
  allocOr "metadata path"
  atomicFile .catalog k.image

/-- `wadb_save_schema`. -/
def saveSchema (tableId : ℕ) (name : Bytes) (s : Schema) : Io μ Unit := do
  allocOr "schema allocation"
  allocOr "metadata path"
  atomicFile (.schema tableId) (schemaImage tableId name s)

/-- `wadb_load_schema`. -/
def loadSchema (tableId : ℕ) : Io μ StoredSchema := do
  allocOr "metadata path"
  let p ← readFile (.schema tableId) (132 + (maxFields - 1) * 80)
  Prog.rethrow (schemaRead tableId p)

/-! ### Opening -/

/-- The configuration of a table that is found with its schema. -/
def configOf (S : Settings) (id : TableId) (x : StoredSchema) : Config where
  id := id.1
  defs := x.defs
  schema := x.schema
  options := S.1
  id_bounds := id.2
  built := x.built
  accepted := S.2

theorem options_configOf (S : Settings) (id : TableId) (x : StoredSchema) :
    (configOf S id x).options = S.1 := rfl

/-- The body of the loop of `wadb_load_catalog`, up to the handle. -/
def loadFiles (S : Settings) (id : TableId) : DbIo (Database S) (OpenTable S) := do
  atDatabase (allocOr "table directory")
  let x ← atDatabase (loadSchema id.1)
  let (status, t) ← atTable id.1 (Prog.within (.zeroed : Table (configOf S id x)) openTable)
  Prog.rethrow status
  pure ⟨configOf S id x, rfl, x.name, t⟩

/-- The body of the loop of `wadb_load_catalog`. -/
def loadTable (S : Settings) (id : TableId) : DbIo (Database S) Unit := do
  atDatabase (allocOr "table allocation")
  match ← Prog.attempt (loadFiles S id) with
  | .error e =>
    if e.code = .notFound then atDatabase (wadbFail .corrupt "catalog references missing table metadata")
    else Prog.fail e
  | .ok t =>
    let db ← Prog.get
    atDatabase (require (!db.hasName t.name) .corrupt "duplicate table name in catalog")
    Prog.modify (·.push t)

theorem tableId_bounds {id previous : ℕ} {next : NextId} (h : ¬ (id ≤ previous ∨ next.1 ≤ id)) :
    0 < id ∧ id < uint64Max := by
  have := next.2.2
  unfold uint64Max
  omega

/-- The loop of `wadb_load_catalog`, with the number of records left. -/
def loadTables (S : Settings) (next : NextId) : ℕ → ℕ → Bytes → DbIo (Database S) Unit
  | 0, _, _ => pure ()
  | n + 1, previous, p =>
    if h : getLE 8 p 0 ≤ previous ∨ next.1 ≤ getLE 8 p 0 then
      atDatabase (wadbFail .corrupt "invalid catalog records")
    else do
      loadTable S ⟨getLE 8 p 0, tableId_bounds h⟩
      loadTables S next n (getLE 8 p 0) (p.drop 8)

/-- `wadb_load_catalog`. -/
def loadCatalog (S : Settings) : DbIo (Database S) Unit := do
  atDatabase (allocOr "metadata path")
  let p ← atDatabase (readFile .catalog (36 + maxTables * 8))
  let (count, next) ← Prog.rethrow (catalogHeader S.1 p)
  atDatabase (allocOr "tables path")
  loadTables S next count 0 (p.drop 32)
  Prog.modify fun db ↦
    { db with nextTableId := next.1, next_bounds := ⟨next.2.1, Nat.le_pred_of_lt next.2.2⟩ }

/-- The entries of a directory. -/
def entriesOf (f : Option File) : List ℕ :=
  let data := f.elim [] File.data
  (List.range (data.length / 8)).map fun i ↦ getLE 8 data (8 * i)

/-- The file is there, empty if it was not before. -/
def ensureFile (p : Path) (fs : Files) : Files :=
  if (fs p).isSome then fs else Prog.setFile p (some ⟨[], 0⟩) fs

/-- `wadb_mkdir` on the directory of the tables. -/
def mkdirTables : Io μ Unit := do
  let ok ← Prog.call false (.mkdir .tables) (ensureFile .tables)
  require ok .io "cannot create directory"

/-- The entries of the directory of the tables, as `wadb_open` reads them when there is no catalog. -/
def inspectTables : Io μ (List ℕ) := do
  let path ← Prog.alloc
  let ok ← Prog.call false (.list .tables) id
  require (path && ok) .io "inspect tables before initializing catalog"
  let fs ← Prog.files
  pure (entriesOf (fs .tables))

/-- The first catalog is written only where there is no table directory yet. -/
def initializeCatalog : DbIo (Database S) Unit := do
  let listed ← atDatabase inspectTables
  atDatabase (require listed.isEmpty .corrupt "catalog missing from nonempty database")
  let db ← Prog.get
  atDatabase (saveCatalog db.catalog)

/-- `wadb_writer_start`. -/
def writerStart : Io μ Unit := do
  let condition ← Prog.call false .spawn id
  require condition .io "initialize writer condition"
  let thread ← Prog.call false .spawn id
  require thread .io "start writer thread"

/-- `wadb_open`, on options that are accepted. -/
def openDatabase : DbIo (Database S) Unit := do
  atDatabase (mkdir .database)
  atDatabase (allocOr "allocate database")
  atDatabase (allocOr "initialize database")
  atDatabase (allocOr "directory path")
  atDatabase (syncDirectory .outer)
  atDatabase (allocOr "lock path")
  let opened ← atDatabase (Prog.call false (.create .lock) (ensureFile .lock))
  atDatabase (require opened .io "open database lock")
  let locked ← atDatabase (Prog.call false (.lock .lock) id)
  atDatabase (require locked .locked "database is already open by another owner")
  atDatabase (allocOr "tables path")
  atDatabase mkdirTables
  atDatabase (syncDirectory .database)
  match ← Prog.attempt (loadCatalog S) with
  | .ok () => pure ()
  | .error e => if e.code = .notFound then initializeCatalog else Prog.fail e
  atDatabase writerStart

/-! ### Creating a table -/

/-- `mkdir` on the directory of a table: whether it is new. -/
def mkdirEntry (id : ℕ) : Io μ Bool := do
  let fs ← Prog.files
  let known := id ∈ entriesOf (fs .tables)
  let ok ← Prog.call false (.mkdir (.entry id))
    fun fs ↦ if known then fs else Prog.appendTo .tables (ofNatLE 8 id) fs
  require ok .io "create table directory"
  pure (!known)

/-- The loop of `wadb_create_table`: identifiers are tried until one has no directory yet. `n` is the
number of identifiers that are left. -/
def freshDirectory : ℕ → DbIo (Database S) TableId
  | 0 => atDatabase (wadbFail .limit "table IDs exhausted")
  | n + 1 => do
    let db ← Prog.get
    if h : db.nextTableId = uint64Max then atDatabase (wadbFail .limit "table IDs exhausted")
    else
      Prog.modify fun _ ↦ db.takeId h
      atDatabase (allocOr "table directory path")
      let created ← atDatabase (mkdirEntry db.nextTableId)
      if created then
        pure ⟨db.nextTableId, db.next_bounds.1, Nat.lt_of_le_of_ne db.next_bounds.2 h⟩
      else freshDirectory n

/-- The part of `wadb_create_table` that changes files. -/
def installTable (x : StoredSchema) (retentionUs : ℕ) : DbIo (Database S) (OpenTable S) := do
  atDatabase (allocOr "table path")
  let db ← Prog.get
  let id ← freshDirectory (uint64Max - db.nextTableId)
  atDatabase (syncDirectory .tables)
  atDatabase (saveSchema id.1 x.name x.schema)
  let t : Table (configOf S id x) := .created retentionUs
  atTable id.1 (saveManifest t)
  let db ← Prog.get
  atDatabase (saveCatalog (db.catalogWith id.1))
  pure ⟨configOf S id x, rfl, x.name, t⟩

/-- `wadb_create_table`: the identifier of the new table. -/
def createTable (name : Bytes) (defs : List FieldDef) (retentionUs : ℕ) : DbIo (Database S) ℕ := do
  atDatabase (require (identifier name && retentionUs ≤ int64Max) .invalid
    "invalid table name or retention")
  atDatabase (allocOr "allocate table")
  match hbuild : schemaBuild defs with
  | .error e => Prog.fail e
  | .ok s =>
    let db ← Prog.get
    atDatabase (require (!db.readOnly) .readOnly "database metadata requires recovery")
    atDatabase (require (db.tables.length < S.1.maxTables) .limit "table limit reached")
    atDatabase (require (!db.hasName name) .exists ("table already exists: " ++ showName name))
    match ← Prog.attempt (installTable ⟨name, defs, s, hbuild⟩ retentionUs) with
    | .error e =>
      if e.code = .indeterminate then Prog.modify (·.freeze) else pure ()
      Prog.fail e
    | .ok t =>
      Prog.modify (·.push t)
      pure t.config.id

end WebAnalyticsDb
