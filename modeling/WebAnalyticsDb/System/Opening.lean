import WebAnalyticsDb.System.Database

/-!
# Opening a database

What `wadb_open` does with the files of a database. The catalog is read, and every table that it lists is
found again under its name, with its schema and with whatever the invariant of tables says about its
files.

* **One table changes only its own directory.** A step of the loop opens one table; the tables before it
  are open already and those after it are as they were (`Stored.opened_table`).
* **Failures are the environment's.** If nothing is disturbed and tables can be opened, so can the
  database (`wp_openDatabase`).
-/

namespace WebAnalyticsDb

open Bytes List

variable {S : Settings} {K : TableInvariant} {env : Env (Place × Path) (Place × Dir)}
  {fs fs' : DbFiles} {db : Database S} {T : List (Listed S)} {y : Listed S}

/-- Tables that satisfy the invariant can be opened. -/
def TableInvariant.Opens (K : TableInvariant) (env : Env (Place × Path) (Place × Dir)) : Prop :=
  ∀ (id : ℕ) (c : Config) (r : ℕ) (fs : Files) (n : ℕ), K.disk c r fs →
    wp openTable (env.inside (some id)) (fun e _ _ ↦ e = .ok ()) ⟨fs, n, (.zeroed : Table c)⟩

/-- Nothing is disturbed and tables can be opened. -/
def Smooth (K : TableInvariant) (env : Env (Place × Path) (Place × Dir)) : Prop :=
  env.Calm ∧ K.Opens env

theorem not_smooth (h : ¬ env.Calm) : ¬ Smooth K env := fun hs ↦ h hs.1

/-! ### The files of one table -/

theorem putFiles_database (id : ℕ) (fs₁ : Files) (fs : DbFiles) (p : Path) :
    putFiles (some id) fs₁ fs (none, p) = fs (none, p) :=
  congrFun (filesOf_putFiles_of_ne (Option.some_ne_none id).symm fs₁ fs) p

/-- The files of one table were changed. -/
theorem Stored.opened_table (h : Stored K fs T) (hids : (idsOf T).Nodup) (hy : y ∈ T) {fs₁ : Files}
    (hdisk : K.disk y.config y.retentionUs fs₁) :
    Stored K (putFiles (some y.config.id) fs₁ fs) T := by
  have hdb := putFiles_database y.config.id fs₁ fs
  have hentries : entries (putFiles (some y.config.id) fs₁ fs) = entries fs := by
    rw [entries, entries, hdb]
  refine h.congr (hdb _) (fun f hf ↦ h.tables f (hdb _ ▸ hf)) (by rw [hentries]; exact fun _ ↦ id)
    (fun hn ↦ hentries.trans (h.empty hn).2) (fun x _ ↦ hdb _) fun x hx ↦ ?_
  by_cases hxy : x.config.id = y.config.id
  · obtain rfl : x = y := inj_on_of_nodup_map hids hx hy hxy
    rw [filesOf_putFiles_self]
    exact hdisk
  · rw [filesOf_putFiles_of_ne (fun hsome ↦ hxy (Option.some.inj hsome))]
    exact h.disk x hx

/-! ### The schema -/

/-- The schema that was stored for a table. -/
def Listed.stored (y : Listed S) : StoredSchema := ⟨y.name, y.config.defs, y.config.schema, y.config.built⟩

theorem configOf_stored (y : Listed S) : configOf S ⟨y.config.id, y.config.id_bounds⟩ y.stored = y.config := by
  obtain ⟨⟨id, defs, schema, options, hid, hbuilt, haccepted⟩, hoptions, name, r, k⟩ := y
  dsimp only at hoptions
  subst hoptions
  rfl

theorem length_schemaImage (id : ℕ) {x : StoredSchema} (h : identifier x.name = true) :
    (schemaImage id x.name x.schema).length ≤ 132 + (maxFields - 1) * 80 := by
  obtain ⟨hdefs, hlen, hnames⟩ := schemaBuild_defs x.built
  have hfields : ∀ f ∈ x.schema.userFields, f.toDef.image.length = 80 := fun f hf ↦
    FieldDef.length_image (hnames _ (hdefs ▸ mem_map_of_mem hf)).1
  have hcount : x.schema.userFields.length = x.defs.length := by rw [← hdefs, length_map]
  rw [schemaImage, length_withChecksum, schemaBody, length_append,
    length_schemaParts x.schema h, length_flatMap_uniform hfields, hcount]
  omega

variable {n : ℕ} {μ : Type} {m : μ} {p : Path} {Q : Exit Error Unit → DbFiles → μ → Prop}

/-- **Loading a schema** that was written. -/
theorem wp_loadSchema {env : Env Path Dir} {fs : Files} {id : ℕ} {f : File}
    {x : StoredSchema} (hid : id < 2 ^ 64) (hname : identifier x.name = true)
    (hfile : fs (.schema id) = some f) (hdata : f.data = schemaImage id x.name x.schema)
    {Q : Exit Error StoredSchema → Files → μ → Prop} (hok : Q (.ok x) fs m)
    (hno : ¬ env.Calm → ∀ e : Error, e.code = .io ∨ e.code = .nomem → Q (.fail e) fs m)
    (hkill : ¬ env.Calm → Q .killed fs m) : wp (loadSchema id) env Q ⟨fs, n, m⟩ := by
  have hlen : f.data.length ≤ 132 + (maxFields - 1) * 80 := by
    rw [hdata]
    exact length_schemaImage id hname
  unfold loadSchema
  refine wp_bind (wp_allocOr (fun n ↦ ?_) fun hcalm ↦ hno hcalm _ (.inr rfl))
  refine wp_bind (wp_readFile (w := ⟨fs, n, m⟩) hfile hlen (hlen.trans (by decide)) (fun n ↦ ?_)
    hno hkill)
  rw [(schemaRead_eq_ok hid).2 ⟨hname, hdata⟩]
  exact wp_rethrow.2 hok

theorem wp_dbLoadSchema (h : Stored K fs T) (hy : y ∈ T)
    {Q : Exit Error StoredSchema → DbFiles → μ → Prop} (hok : Q (.ok y.stored) fs m)
    (hno : ¬ env.Calm → ∀ e : Error, e.code = .io ∨ e.code = .nomem → Q (.fail e) fs m)
    (hkill : ¬ env.Calm → Q .killed fs m) :
    wp (atDatabase (loadSchema y.config.id)) env Q ⟨fs, n, m⟩ := by
  obtain ⟨f, hf, hdata⟩ := h.schema y hy
  exact Prog.wp_inside.2 (wp_loadSchema (x := y.stored) (lt_of_lt_of_le y.config.id_bounds.2 (by decide))
    (h.name y hy) hf hdata (of_same_place hok) (fun hcalm e he ↦ of_same_place (hno (not_calm_inside hcalm) e he))
    (of_calm_place hkill))

/-! ### One table -/

/-- The files after the table `y` was opened, or was not. -/
def Touched (fs : DbFiles) (y : Listed S) (P : Files → Prop) (fs' : DbFiles) : Prop :=
  ∃ fs₁, fs' = putFiles (some y.config.id) fs₁ fs ∧ P fs₁

/-- The outcomes of opening the table `y`, up to its handle. -/
def LoadPost (K : TableInvariant) (env : Env (Place × Path) (Place × Dir)) (fs : DbFiles) (y : Listed S)
    (db : Database S) : Exit Error (OpenTable S) → DbFiles → Database S → Prop
  | .ok t, fs', db' => db' = db ∧ t.config = y.config ∧ t.name = y.name ∧ t.table.frozen = false ∧
      Touched fs y (fun fs₁ ↦ K.live t.config y.retentionUs fs₁ t.table []) fs'
  | .fail _, fs', db' => db' = db ∧ ¬ Smooth K env ∧ Touched fs y (K.disk y.config y.retentionUs) fs'
  | .killed, fs', _ => ¬ Smooth K env ∧ Touched fs y (K.disk y.config y.retentionUs) fs'

theorem touched_self (h : Stored K fs T) (hy : y ∈ T) :
    Touched fs y (K.disk y.config y.retentionUs) fs :=
  ⟨filesOf (some y.config.id) fs, (putFiles_filesOf _ _).symm, h.disk y hy⟩

theorem wp_loadFiles (hK : K.Lawful) (h : Stored K fs T) (hy : y ∈ T) (n : ℕ) :
    wp (loadFiles S ⟨y.config.id, y.config.id_bounds⟩) env (LoadPost K env fs y db) ⟨fs, n, db⟩ := by
  have hstop (hcalm : ¬ env.Calm) : db = db ∧ ¬ Smooth K env ∧
      Touched fs y (K.disk y.config y.retentionUs) fs :=
    ⟨rfl, not_smooth hcalm, touched_self h hy⟩
  have hconfig := configOf_stored y
  have hdisk : K.disk (configOf S ⟨y.config.id, y.config.id_bounds⟩ y.stored) y.retentionUs
      (filesOf (some y.config.id) fs) := hconfig ▸ h.disk y hy
  unfold loadFiles
  refine wp_bind (wp_dbAllocOr (fun n ↦ ?_) hstop)
  refine wp_bind (wp_dbLoadSchema h hy (fun n ↦ ?_) (fun hcalm _ _ ↦ hstop hcalm)
    fun hcalm ↦ ⟨not_smooth hcalm, touched_self h hy⟩)
  refine wp_bind (Prog.wp_inside.2 (Prog.wp_within.2 ?_))
  by_cases hopens : K.Opens env
  · refine ((hK.opened (env.inside (some y.config.id)) n hdisk).and
      (hopens y.config.id _ _ _ n hdisk)).mono ?_
    rintro (u | e | _) fs₁ t ⟨hpost, hok⟩
    · exact fun n ↦ wp_bind (wp_rethrow.2 fun n ↦ wp_pure.2
        ⟨rfl, hconfig, rfl, hpost.2, fs₁, rfl, hpost.1⟩)
    · cases hok
    · cases hok
  · have hno : ¬ Smooth K env := fun hs ↦ hopens hs.2
    refine (hK.opened (env.inside (some y.config.id)) n hdisk).mono ?_
    rintro (u | e | _) fs₁ t hpost
    · exact fun n ↦ wp_bind (wp_rethrow.2 fun n ↦ wp_pure.2
        ⟨rfl, hconfig, rfl, hpost.2, fs₁, rfl, hpost.1⟩)
    · exact fun n ↦ wp_bind (wp_rethrow.2 ⟨rfl, hno, fs₁, rfl, hconfig ▸ hpost⟩)
    · exact ⟨hno, fs₁, rfl, hconfig ▸ hpost⟩

/-- The tables `A` are open already. -/
structure Loading (K : TableInvariant) (fs : DbFiles) (db : Database S) (A : List (Listed S)) : Prop where
  tables : List.Forall₂ (OpenTable.Serves K fs fun _ ↦ []) db.tables A
  writable : db.readOnly = false

variable {A B : List (Listed S)}

/-- **One more table is open.** -/
theorem Loading.push (h : Loading K fs db A) (hA : y.config.id ∉ idsOf A) {t : OpenTable S} {fs₁ : Files}
    (hconfig : t.config = y.config) (hname : t.name = y.name)
    (hlive : K.live t.config y.retentionUs fs₁ t.table []) :
    Loading K (putFiles (some y.config.id) fs₁ fs) (db.push t) (A ++ [y]) where
  tables := by
    refine rel_append (forall₂_imp_of_mem h.tables ?_) (.cons ⟨hconfig, hname, ?_⟩ .nil)
    · rintro s - x hx ⟨hs, hsname, hslive⟩
      have hne : some s.config.id ≠ some y.config.id := fun heq ↦
        hA (Option.some.inj heq ▸ hs ▸ mem_map_of_mem hx)
      refine ⟨hs, hsname, ?_⟩
      rwa [filesOf_putFiles_of_ne hne]
    · have hfiles : filesOf (some t.config.id) (putFiles (some y.config.id) fs₁ fs) = fs₁ := by
        rw [hconfig, filesOf_putFiles_self]
      rwa [hfiles]
  writable := h.writable

/-- The outcomes of the loop of `wadb_load_catalog` after the tables `A`. -/
def LoadedPost (K : TableInvariant) (env : Env (Place × Path) (Place × Dir)) (fs : DbFiles)
    (T A : List (Listed S)) : Exit Error Unit → DbFiles → Database S → Prop
  | .ok _, fs', db' => Stored K fs' T ∧ Loading K fs' db' A ∧ filesOf none fs' = filesOf none fs
  | .fail e, fs', _ => Stored K fs' T ∧ ¬ Smooth K env ∧ e.code ≠ .notFound
  | .killed, fs', _ => Stored K fs' T ∧ ¬ Smooth K env

/-- Tables with other names are no obstacle. -/
theorem Loading.not_hasName (h : Loading K fs db A) {name : Bytes} (hname : name ∉ A.map (·.name)) :
    db.hasName name = false := by
  have hnames : db.tables.map (·.name) = A.map (·.name) :=
    map_eq_of_forall₂ (fun _ _ ht ↦ ht.2.1) h.tables
  rw [Database.hasName, any_eq_false]
  intro t ht heq
  rw [← hnames] at hname
  exact hname (mem_map.2 ⟨t, ht, of_decide_eq_true heq⟩)

/-- **One step of the loop.** -/
theorem wp_loadTable (hK : K.Lawful) (h : Stored K fs T) (hids : (idsOf T).Nodup)
    (hT : T = A ++ y :: B) (hloading : Loading K fs db A) (n : ℕ) :
    wp (loadTable S ⟨y.config.id, y.config.id_bounds⟩) env (LoadedPost K env fs T (A ++ [y]))
      ⟨fs, n, db⟩ := by
  have hy : y ∈ T := by
    rw [hT]
    exact mem_append_right _ mem_cons_self
  have hA : y.config.id ∉ idsOf A := by
    have hnodup := hids
    rw [hT, idsOf, map_append, map_cons] at hnodup
    exact fun hmem ↦ (nodup_append'.1 hnodup).2.2 hmem mem_cons_self
  have hname : y.name ∉ A.map (·.name) := by
    have hnodup := h.names
    rw [hT, map_append, map_cons] at hnodup
    exact fun hmem ↦ (nodup_append'.1 hnodup).2.2 hmem mem_cons_self
  unfold loadTable
  refine wp_bind (wp_dbAllocOr (fun n ↦ ?_) fun hcalm ↦
    ⟨h, not_smooth hcalm, Status.noConfusion⟩)
  refine wp_bind (wp_attempt.2 ((wp_loadFiles hK h hy n).mono ?_))
  rintro (t | e | _) fs' db' hpost
  · obtain ⟨rfl, hconfig, htname, -, fs₁, rfl, hlive⟩ := hpost
    intro n
    refine wp_bind (wp_get.2 fun n ↦ ?_)
    refine wp_bind (wp_dbRequire (fun _ n ↦ wp_modify.2 ⟨?_, ?_, ?_⟩) fun hbad ↦ ?_)
    · refine h.opened_table hids hy ?_
      obtain ⟨c, hoptions, name, table⟩ := t
      dsimp only at hconfig hlive
      subst hconfig
      exact hK.ended hlive
    · exact hloading.push hA hconfig htname hlive
    · exact filesOf_putFiles_of_ne (Option.some_ne_none _).symm _ _
    · rw [htname, hloading.not_hasName hname] at hbad
      cases hbad
  · obtain ⟨rfl, hno, fs₁, rfl, hdisk⟩ := hpost
    intro n
    dsimp only
    split
    · exact wp_dbFail ⟨h.opened_table hids hy hdisk, hno, Status.noConfusion⟩
    next hcode => exact ⟨h.opened_table hids hy hdisk, hno, hcode⟩
  · obtain ⟨hno, fs₁, rfl, hdisk⟩ := hpost
    exact ⟨h.opened_table hids hy hdisk, hno⟩

/-- **The loop.** The tables `A` are open; the records that are left are those of `B`. -/
theorem wp_loadTables (hK : K.Lawful) (h : Stored K fs T) (hids : (idsOf T).Nodup) (hT : T = A ++ B)
    (hloading : Loading K fs db A) {next : NextId} {previous : ℕ}
    (hB : IdsOk next.1 previous (idsOf B)) (rest : Bytes) (n : ℕ) :
    wp (loadTables S next B.length previous ((idsOf B).flatMap (ofNatLE 8) ++ rest)) env
      (LoadedPost K env fs T T) ⟨fs, n, db⟩ := by
  induction B generalizing fs db A previous n with
  | nil =>
    rw [append_nil] at hT
    subst hT
    exact wp_pure.2 ⟨h, hloading, rfl⟩
  | cons y B ih =>
    have hprev : previous < y.config.id := hB.1
    have hlt : y.config.id < next.1 := hB.2.1
    have hrest : IdsOk next.1 y.config.id (idsOf B) := hB.2.2
    have hid : y.config.id < 256 ^ 8 := lt_of_lt_of_le (hlt.trans next.2.2) (by decide)
    have hget : getLE 8 (ofNatLE 8 y.config.id ++ ((idsOf B).flatMap (ofNatLE 8) ++ rest)) 0 =
        y.config.id := getLE_append_mid (a := []) rfl hid
    have hbytes : (idsOf (y :: B)).flatMap (ofNatLE 8) ++ rest =
        ofNatLE 8 y.config.id ++ ((idsOf B).flatMap (ofNatLE 8) ++ rest) := by
      rw [idsOf, map_cons, flatMap_cons, append_assoc]
      rfl
    rw [hbytes, length_cons, loadTables]
    simp only [hget]
    rw [dif_neg (by omega), drop_left' (length_ofNatLE 8 _)]
    refine wp_bind ((wp_loadTable hK h hids hT hloading n).mono ?_)
    rintro (_ | e | _) fs' db' hpost
    · obtain ⟨hstored, hloading', hdb⟩ := hpost
      intro n
      refine (ih hstored (by rw [hT, append_assoc]; rfl) hloading' hrest n).mono ?_
      rintro (_ | e | _) fs'' db'' hpost'
      · exact ⟨hpost'.1, hpost'.2.1, hpost'.2.2.trans hdb⟩
      · exact hpost'
      · exact hpost'
    · exact hpost
    · exact hpost

/-! ### The catalog -/

/-- No reader holds a snapshot. -/
def noSnapshots : ℕ → List Snapshot := fun _ ↦ []

/-- The outcomes of `wadb_load_catalog`. -/
def CatalogPost (K : TableInvariant) (env : Env (Place × Path) (Place × Dir)) (fs : DbFiles)
    (db : Database S) (T : List (Listed S)) : Exit Error Unit → DbFiles → Database S → Prop
  | .ok _, fs', db' => Stored K fs' T ∧ Running K fs' db' noSnapshots T ∧ db'.readOnly = false
  | .fail e, fs', db' => Stored K fs' T ∧
      (e.code = .notFound → fs' = fs ∧ db' = db ∧ fs (none, .catalog) = none) ∧
      (e.code ≠ .notFound → ¬ Smooth K env)
  | .killed, fs', _ => Stored K fs' T ∧ ¬ Smooth K env

/-- **Loading the catalog.** -/
theorem wp_loadCatalog (hK : K.Lawful) (h : Stored K fs T) (htables : (fs (none, .tables)).isSome = true)
    (n : ℕ) :
    wp (loadCatalog S) env (CatalogPost K env fs .initial T) ⟨fs, n, .initial⟩ := by
  have hstop (hcalm : ¬ env.Calm) {e : Error} (he : e.code ≠ .notFound) :
      CatalogPost K env fs (.initial : Database S) T (.fail e) fs .initial :=
    ⟨h, fun hnone ↦ absurd hnone he, fun _ ↦ not_smooth hcalm⟩
  unfold loadCatalog
  refine wp_bind (wp_dbAllocOr (fun n ↦ ?_) fun hcalm ↦ hstop hcalm Status.noConfusion)
  refine wp_bind (Prog.wp_inside.2 (wp_readFile_cases (fun f hfile ↦ of_same_place fun n ↦ ?_)
    (fun hfile ↦ of_same_place ⟨h, fun _ ↦ ⟨rfl, rfl, hfile⟩, fun hne ↦ absurd rfl hne⟩)
    (fun f hfile hlong ↦ (hlong ?_).elim)
    (fun hcalm e he ↦ of_same_place (hstop (not_calm_inside hcalm) ?_))
    fun hcalm ↦ of_same_place ⟨h, not_smooth (not_calm_inside hcalm)⟩))
  case refine_2 =>
    obtain ⟨next, hdata, hok⟩ := h.catalog f hfile
    have hlen : f.data.length ≤ 36 + maxTables * 8 := by
      have := hok.length_le
      rw [hdata, Catalog.length_image]
      omega
    exact ⟨hlen, hlen.trans (by decide)⟩
  case refine_3 => rcases he with he | he <;> rw [he] <;> decide
  replace hfile : fs (none, .catalog) = some f := hfile
  obtain ⟨next, hdata, hok⟩ := h.catalog f hfile
  have hids : (idsOf T).Nodup := hok.ids.nodup
  rw [hdata, hok.header]
  refine wp_bind (wp_rethrow.2 fun n ↦ ?_)
  refine wp_bind (wp_dbAllocOr (fun n ↦ ?_) fun hcalm ↦ hstop hcalm Status.noConfusion)
  rw [Catalog.drop_image]
  have hcount : (idsOf T).length = T.length := length_map _
  dsimp only
  rw [hcount]
  refine wp_bind ((wp_loadTables hK h hids rfl ⟨.nil, rfl⟩ hok.ids _ n).mono ?_)
  rintro (_ | e | _) fs' db' hpost
  · obtain ⟨hstored, hloading, hdb⟩ := hpost
    have hsame (p : Path) : fs' (none, p) = fs (none, p) := congrFun hdb p
    have hcatalog : (fs' (none, .catalog)).isSome = true := by
      rw [hsame, hfile]
      rfl
    have hentries : (fs' (none, .tables)).isSome = true := by
      rw [hsame]
      exact htables
    refine fun n ↦ wp_modify.2 ⟨hstored, ⟨hloading.tables, hok.ids, hcount ▸ hok.limit, ?_,
      fun _ _ ↦ rfl, hcatalog, hentries⟩, hloading.writable⟩
    intro hro
    rw [hloading.writable] at hro
    cases hro
  · exact ⟨hpost.1, fun hnone ↦ absurd hnone hpost.2.2, fun _ ↦ hpost.2.1⟩
  · exact hpost

/-! ### The first catalog -/

/-- The outcomes of `wadb_open`. -/
def OpenDbPost (K : TableInvariant) (env : Env (Place × Path) (Place × Dir)) (T : List (Listed S)) :
    Exit Error Unit → DbFiles → Database S → Prop
  | .ok _, fs', db' => Stored K fs' T ∧ Running K fs' db' noSnapshots T ∧ db'.readOnly = false
  | .fail _, fs', _ => Stored K fs' T ∧ ¬ Smooth K env
  | .killed, fs', _ => Stored K fs' T ∧ ¬ Smooth K env

/-- An empty database whose catalog was written. -/
theorem stored_first (h : Stored K fs ([] : List (Listed S)))
    (hw : Wrote none .catalog (Database.initial : Database S).catalog.image fs fs') :
    Stored K fs' ([] : List (Listed S)) where
  tables f hf := h.tables f (by rwa [hw.same _ Path.noConfusion fun _ ↦ Path.noConfusion] at hf)
  catalog f hf := by
    rw [hw.file] at hf
    cases hf
    exact ⟨1, rfl, ⟨⟨Nat.one_pos, Nat.one_lt_two_pow (by decide)⟩, zero_le, zero_le, trivial⟩⟩
  empty hn := by
    rw [hw.file] at hn
    cases hn
  entry _ hx := absurd hx not_mem_nil
  schema _ hx := absurd hx not_mem_nil
  name _ hx := absurd hx not_mem_nil
  names := .nil
  disk _ hx := absurd hx not_mem_nil

/-- Reading the entries of the directory of the tables. -/
theorem wp_dbInspectTables {Q : Exit Error (List ℕ) → DbFiles → μ → Prop}
    (hok : Q (.ok (entries fs)) fs m) (hno : ¬ env.Calm → ∀ e : Error, Q (.fail e) fs m)
    (hkill : ¬ env.Calm → Q .killed fs m) :
    wp (atDatabase inspectTables) env Q ⟨fs, n, m⟩ := by
  have hno' hcalm e := of_calm_place (i := none) (hno · e) hcalm
  have hkill' := of_calm_place (i := none) hkill
  refine Prog.wp_inside.2 ?_
  unfold inspectTables
  refine wp_bind (wp_alloc (fun n ↦ ?_) fun hcalm n ↦ ?_)
  · exact wp_callOr_bind (fun n ↦ wp_bind (wp_files.2 fun n ↦ wp_pure.2 (of_same_place hok)))
      (fun hcalm ↦ hno' hcalm _) hkill' hkill'
  · refine wp_bind (wp_call (fun n ↦ ?_) (fun _ n ↦ ?_) hkill' hkill') <;>
      exact wp_bind (wp_require (by simp) fun _ ↦ hno' hcalm _)

/-- **Writing the first catalog.** -/
theorem wp_initializeCatalog (h : Stored K fs T) (hnone : fs (none, .catalog) = none)
    (htables : (fs (none, .tables)).isSome = true) (n : ℕ) :
    wp initializeCatalog env (OpenDbPost K env T) ⟨fs, n, .initial⟩ := by
  obtain ⟨rfl, hentries⟩ := h.empty hnone
  have hsame {fs' : DbFiles} (hu : Untouched none fs fs') : Stored K fs' ([] : List (Listed S)) :=
    h.keeps hu.keeps_database
  unfold initializeCatalog
  refine wp_bind (wp_dbInspectTables (fun n ↦ ?_) (fun hcalm _ ↦ ⟨h, not_smooth hcalm⟩)
    fun hcalm ↦ ⟨h, not_smooth hcalm⟩)
  refine wp_bind (wp_dbRequire (fun _ n ↦ ?_) fun hbad ↦ ?_)
  case refine_2 =>
    rw [hentries] at hbad
    cases hbad
  refine wp_bind (wp_get.2 fun n ↦ ?_)
  refine wp_dbInstall (installs_saveCatalog _) (fun _ ↦ Path.noConfusion) (fun fs' hw ↦ ?_)
    (fun hcalm fs' hu _ _ ↦ ⟨hsame hu, not_smooth hcalm⟩)
    (fun hcalm fs' hw _ _ ↦ ⟨stored_first h hw, not_smooth hcalm⟩)
    fun hcalm fs' hcase ↦ ⟨hcase.elim hsame (stored_first h), not_smooth hcalm⟩
  refine ⟨stored_first h hw, ⟨.nil, trivial, zero_le, nofun, fun _ _ ↦ rfl, ?_, ?_⟩, rfl⟩
  · rw [hw.file]
    rfl
  · rw [hw.same _ Path.noConfusion fun _ ↦ Path.noConfusion]
    exact htables

/-! ### Opening -/

/-- The files after the file `p` of the database directory was made. -/
def ensured (p : Path) (fs : DbFiles) : DbFiles := putFiles none (ensureFile p (filesOf none fs)) fs

theorem ensured_of_ne {q : Place × Path} (h : q ≠ (none, p)) : ensured p fs q = fs q := by
  obtain ⟨i, p'⟩ := q
  simp only [ensured, putFiles]
  split
  next hi =>
    subst hi
    have hp : p' ≠ p := fun hp ↦ h (by rw [hp])
    rw [ensureFile]
    split
    · rfl
    · exact setFile_of_ne _ _ hp
  next => rfl

theorem ensured_self (p : Path) (fs : DbFiles) :
    ensured p fs (none, p) = fs (none, p) ∧ (fs (none, p)).isSome = true ∨
      ensured p fs (none, p) = some ⟨[], 0⟩ ∧ fs (none, p) = none := by
  have hself : ensured p fs (none, p) = ensureFile p (filesOf none fs) p := putFiles_self ..
  by_cases hsome : (filesOf none fs p).isSome = true
  · exact .inl ⟨by rw [hself, ensureFile, if_pos hsome]; rfl, hsome⟩
  · refine .inr ⟨?_, Option.not_isSome_iff_eq_none.1 hsome⟩
    rw [hself, ensureFile, if_neg hsome, setFile_self]

theorem ensured_isSome (p : Path) (fs : DbFiles) : (ensured p fs (none, p)).isSome = true := by
  rcases ensured_self p fs with ⟨heq, hsome⟩ | ⟨heq, -⟩ <;> rw [heq]
  · exact hsome
  · rfl

theorem entries_ensured (p : Path) (fs : DbFiles) : entries (ensured p fs) = entries fs := by
  unfold entries
  by_cases hp : p = .tables
  · subst hp
    rcases ensured_self .tables fs with ⟨heq, -⟩ | ⟨heq, hnone⟩
    · rw [heq]
    · rw [heq, hnone]
      rfl
  · rw [ensured_of_ne fun heq ↦ hp (congrArg Prod.snd heq).symm]

/-- The lock file and the directory of the tables may be made. -/
theorem Stored.ensured (h : Stored K fs T) (hp : p = .lock ∨ p = .tables) :
    Stored K (ensured p fs) T := by
  have hne {q : Path} (hq : q ≠ .lock ∧ q ≠ .tables) :
      WebAnalyticsDb.ensured p fs (none, q) = fs (none, q) := by
    refine ensured_of_ne fun heq ↦ ?_
    have hqp : q = p := congrArg Prod.snd heq
    rcases hp with rfl | rfl
    · exact hq.1 hqp
    · exact hq.2 hqp
  have hentries := entries_ensured p fs
  refine h.congr (hne ⟨Path.noConfusion, Path.noConfusion⟩) (fun f hf ↦ ?_)
    (by rw [hentries]; exact fun _ ↦ id) (fun hn ↦ hentries.trans (h.empty hn).2)
    (fun x _ ↦ hne ⟨Path.noConfusion, Path.noConfusion⟩) fun x hx ↦ ?_
  · by_cases hpt : p = .tables
    · subst hpt
      rcases ensured_self .tables fs with ⟨heq, -⟩ | ⟨heq, -⟩
      · exact h.tables f (heq ▸ hf)
      · rw [heq] at hf
        cases hf
        rfl
    · rw [ensured_of_ne fun heq ↦ hpt (congrArg Prod.snd heq).symm] at hf
      exact h.tables f hf
  · have hfiles : filesOf (some x.config.id) (WebAnalyticsDb.ensured p fs) =
        filesOf (some x.config.id) fs := funext fun q ↦ ensured_of_ne (by simp)
    rw [hfiles]
    exact h.disk x hx

/-- A call that makes a file of the database directory. -/
theorem wp_dbEnsure {retry : Bool} {c : Call Path Dir}
    {Q : Exit Error Bool → DbFiles → μ → Prop} (hok : Q (.ok true) (ensured p fs) m)
    (hno : ¬ env.Calm → Q (.ok false) fs m)
    (hkill : ¬ env.Calm → Q .killed fs m ∧ Q .killed (ensured p fs) m) :
    wp (atDatabase (Prog.call retry c (ensureFile p) : Io μ Bool)) env Q ⟨fs, n, m⟩ := by
  exact Prog.wp_inside.2 (wp_call hok (of_calm_place hno)
    (of_calm_place fun hcalm ↦ (hkill hcalm).1) fun hcalm ↦ (hkill (not_calm_inside hcalm)).2)

theorem wp_dbMkdir {dir : Dir} (hok : Q (.ok ()) fs m) (hno : ¬ env.Calm → ∀ e : Error, Q (.fail e) fs m)
    (hkill : ¬ env.Calm → Q .killed fs m) :
    wp (atDatabase (mkdir dir)) env Q ⟨fs, n, m⟩ :=
  Prog.wp_inside.2 (wp_mkdir (of_same_place hok) (of_calm_place (hno · _))
    (of_calm_place hkill))

theorem wp_dbMkdirTables
    (hok : Q (.ok ()) (ensured .tables fs) m) (hno : ¬ env.Calm → ∀ e : Error, Q (.fail e) fs m)
    (hkill : ¬ env.Calm → Q .killed fs m ∧ Q .killed (ensured .tables fs) m) :
    wp (atDatabase mkdirTables) env Q ⟨fs, n, m⟩ := by
  exact Prog.wp_inside.2 (wp_callOr hok (of_calm_place (hno · _))
    (of_calm_place fun hcalm ↦ (hkill hcalm).1) fun hcalm ↦ (hkill (not_calm_inside hcalm)).2)

theorem wp_dbWriterStart (hok : Q (.ok ()) fs m) (hno : ¬ env.Calm → ∀ e : Error, Q (.fail e) fs m)
    (hkill : ¬ env.Calm → Q .killed fs m) :
    wp (atDatabase writerStart) env Q ⟨fs, n, m⟩ := by
  have hno' hcalm e := of_calm_place (i := none) (hno · e) hcalm
  have hkill' := of_calm_place (i := none) hkill
  refine Prog.wp_inside.2 ?_
  unfold writerStart
  refine wp_callOr_bind (fun n ↦ ?_) (fun hcalm ↦ hno' hcalm _) hkill' hkill'
  exact wp_callOr (of_same_place hok) (fun hcalm ↦ hno' hcalm _) hkill' hkill'

/-- **Opening a database.** -/
theorem wp_openDatabase (hK : K.Lawful) (h : Stored K fs T) (n : ℕ) :
    wp openDatabase env (OpenDbPost K env T) ⟨fs, n, (.initial : Database S)⟩ := by
  have hlock := h.ensured (.inl rfl)
  have htables := hlock.ensured (.inr rfl)
  have hsome := ensured_isSome .tables (ensured .lock fs)
  have hstop {fs' : DbFiles} (h' : Stored K fs' T) (hcalm : ¬ env.Calm) :
      Stored K fs' T ∧ ¬ Smooth K env := ⟨h', not_smooth hcalm⟩
  unfold openDatabase
  refine wp_bind (wp_dbMkdir (fun n ↦ ?_) (fun hcalm _ ↦ hstop h hcalm) (hstop h))
  refine wp_bind (wp_dbAllocOr (fun n ↦ ?_) (hstop h))
  refine wp_bind (wp_dbAllocOr (fun n ↦ ?_) (hstop h))
  refine wp_bind (wp_dbAllocOr (fun n ↦ ?_) (hstop h))
  refine wp_bind (wp_dbSyncDirectory (fun n ↦ ?_) (hstop h) (hstop h))
  refine wp_bind (wp_dbAllocOr (fun n ↦ ?_) (hstop h))
  refine wp_bind (wp_dbEnsure (fun n ↦ ?_) (fun hcalm n ↦ ?_)
    fun hcalm ↦ ⟨hstop h hcalm, hstop hlock hcalm⟩)
  case refine_2 => exact wp_bind (wp_dbRequire (by simp) fun _ ↦ hstop h hcalm)
  refine wp_bind (wp_dbRequire (fun _ n ↦ ?_) (by simp))
  refine wp_bind (wp_dbCall (fun n ↦ ?_) (fun hcalm n ↦ ?_) (hstop hlock))
  case refine_2 => exact wp_bind (wp_dbRequire (by simp) fun _ ↦ hstop hlock hcalm)
  refine wp_bind (wp_dbRequire (fun _ n ↦ ?_) (by simp))
  refine wp_bind (wp_dbAllocOr (fun n ↦ ?_) (hstop hlock))
  refine wp_bind (wp_dbMkdirTables (fun n ↦ ?_) (fun hcalm _ ↦ hstop hlock hcalm)
    fun hcalm ↦ ⟨hstop hlock hcalm, hstop htables hcalm⟩)
  refine wp_bind (wp_dbSyncDirectory (fun n ↦ ?_) (hstop htables) (hstop htables))
  -- the writer is started when the tables are open, however that came about
  have hstart {fs' : DbFiles} {db' : Database S} (hpost : OpenDbPost K env T (.ok ()) fs' db') (n : ℕ) :
      wp (atDatabase writerStart) env (OpenDbPost K env T) ⟨fs', n, db'⟩ :=
    wp_dbWriterStart hpost (fun hcalm _ ↦ hstop hpost.1 hcalm) (hstop hpost.1)
  refine wp_bind (wp_attempt.2 ((wp_loadCatalog hK htables hsome n).mono ?_))
  rintro (_ | e | _) fs' db' hpost
  · have hopen : OpenDbPost K env T (.ok ()) fs' db' := hpost
    exact fun n ↦ wp_bind (wp_pure.2 (hstart hopen))
  · obtain ⟨hstored, hnone, hother⟩ := hpost
    intro n
    dsimp only
    split
    next hcode =>
      obtain ⟨rfl, rfl, hcatalog⟩ := hnone hcode
      refine wp_bind ((wp_initializeCatalog htables hcatalog hsome n).mono ?_)
      rintro (_ | e | _) fs' db' hpost
      · exact hstart hpost
      · exact hpost
      · exact hpost
    next hcode => exact wp_bind ⟨hstored, hother hcode⟩
  · exact hpost

end WebAnalyticsDb
