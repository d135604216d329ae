import WebAnalyticsDb.System.Base

/-!
# Table creation is all or nothing

What is left of calls of `wadb_create_table` that were interrupted at any point, any number of times.
The tables that a reopened database lists are those whose creation was acknowledged, and some of those
whose creation was interrupted; they are as they were asked for and have no rows.

The invariant of tables is the simplest one: the manifest is the one that `wadb_create_table` wrote.
-/

namespace WebAnalyticsDb

open Bytes

variable {S : Settings} {c : Config}

/-! ### New tables -/

/-- The manifest is that of a new table. -/
def NewFiles (c : Config) (r : ℕ) (fs : Files) : Prop :=
  r ≤ int64Max ∧ ∃ f, fs .manifest = some f ∧ f.data = (Table.created r : Table c).manifest.image c.id

/-- The invariant of tables that were created and not used. -/
def newTable : TableInvariant where
  disk c r fs := NewFiles c r fs
  live c r fs t snaps :=
    NewFiles c r fs ∧ t.retentionUs = r ∧ t.segments = [] ∧ t.lastSequence = 0 ∧ snaps = []

theorem manifest_created_ok {r : ℕ} (h : r ≤ int64Max) : (Table.created r : Table c).manifest.Ok := by
  have hview := Site.view_created (c := c) h
  rw [hview.manifest_eq]
  exact hview.ok.manifest_ok h hview.generation

/-- **Opening a new table.** -/
theorem wp_openTable_new {r : ℕ} {fs : Files} (h : NewFiles c r fs) (env : Env Path Dir) (n : ℕ) :
    wp openTable env (fun e fs' t ↦ match e with
      | .ok _ => newTable.live c r fs' t [] ∧ t.frozen = false
      | _ => NewFiles c r fs' ∧ ¬ env.Calm) ⟨fs, n, (.zeroed : Table c)⟩ := by
  obtain ⟨hr, f, hfile, hdata⟩ := h
  have hnew : NewFiles c r fs := ⟨hr, f, hfile, hdata⟩
  unfold openTable
  refine wp_bind (wp_attempt.2 (wp_bind (wp_loadManifest hfile hdata
    (manifest_created_ok hr) (fun n ↦ ?_) (fun hcalm e _ n ↦ ?_) fun hcalm ↦ ⟨hnew, hcalm⟩)))
  · unfold storageRecover
    refine wp_bind (wp_modify.2 fun n ↦ ?_)
    refine wp_bind (wp_get.2 fun n ↦ ?_)
    refine wp_bind (wp_pure.2 fun n ↦ ?_)
    refine wp_bind (wp_modify.2 fun n ↦ ?_)
    refine wp_bind (wp_get.2 fun n ↦ ?_)
    exact fun n ↦ ⟨⟨hnew, rfl, rfl, rfl, rfl⟩, rfl⟩
  · dsimp only
    split <;> exact ⟨hnew, hcalm⟩

theorem newTable_lawful : newTable.Lawful where
  created hr hfile hdata := ⟨⟨hr, _, hfile, hdata⟩, rfl, rfl, rfl, rfl⟩
  ended h := h.1
  freeze h := h
  opened env n h := (wp_openTable_new h env n).mono fun e fs' t hpost ↦ by
    cases e with
    | ok => exact hpost
    | fail => exact hpost.1
    | killed => exact hpost.1

theorem newTable_opens {env : Env (Place × Path) (Place × Dir)} (h : env.Calm) : newTable.Opens env :=
  fun id c r fs n hdisk ↦ (wp_openTable_new hdisk (env.inside (some id)) n).mono fun e fs' t hpost ↦ by
    cases e with
    | ok => rfl
    | fail => exact absurd (h.inside (some id)) hpost.2
    | killed => exact absurd (h.inside (some id)) hpost.2

/-! ### What a reopened database lists -/

/-- The table is what the call asked for, and has no rows. -/
structure OpenTable.Answers (t : OpenTable S) (a : Creation) : Prop where
  name : t.name = a.name
  schema : schemaBuild a.defs = .ok t.config.schema
  retentionUs : t.table.retentionUs = a.retentionUs
  segments : t.table.segments = []
  lastSequence : t.table.lastSequence = 0
  /-- The call was acknowledged with the identifier of the table, or interrupted: the process ended, or
  the outcome was reported as not known. -/
  answer : a.answer = some (.ok t.config.id) ∨ a.answer = none ∨
    ∃ e, a.answer = some (.error e) ∧ e.code = .indeterminate

/-- **The listed tables are those that were acknowledged**, and some of those whose creation was
interrupted. Every table has a call of its own, in the order of the calls. -/
structure Lists (C : List Creation) (tables : List (OpenTable S)) : Prop where
  names : (tables.map (·.name)).Nodup
  ids : (tables.map (·.config.id)).Nodup
  calls : ∃ calls : List ℕ, calls.Pairwise (· < ·) ∧
    List.Forall₂ (fun t k ↦ ∃ a, C[k]? = some a ∧ t.Answers a) tables calls ∧
    ∀ k a i, C[k]? = some a → a.answer = some (.ok i) → k ∈ calls

/-- The identifiers that the catalog lists. -/
def catalogIds (S : Settings) (fs : DbFiles) : List ℕ :=
  match fs (none, .catalog) with
  | none => []
  | some f =>
    match catalogRead S.1 f.data with
    | .ok k => k.ids
    | .error _ => []

variable {T : List (Listed S)} {fs : DbFiles}

theorem Stored.catalogIds_eq {K : TableInvariant} (h : Stored K fs T) : catalogIds S fs = idsOf T := by
  unfold catalogIds
  cases hfile : fs (none, .catalog) with
  | none => rw [(h.empty hfile).1]; rfl
  | some f =>
    obtain ⟨next, hdata, hok⟩ := h.catalog f hfile
    simp only [catalogRead_eq_ok.2 ⟨hok, hdata⟩]

theorem Chronicle.answers {C : List Creation} (h : Chronicle C T) {snaps : ℕ → List Snapshot} {t : OpenTable S} {x : Listed S}
    (hx : x ∈ T) (ht : t.Serves newTable fs snaps x) : ∃ a, C[x.call]? = some a ∧ t.Answers a := by
  obtain ⟨a, ha, hmade⟩ := h.asked x hx
  obtain ⟨hconfig, hname, -, hret, hsegments, hlast, -⟩ := ht
  refine ⟨a, ha, hname.trans hmade.name.symm, hconfig ▸ hmade.schema,
    hret.trans hmade.retentionUs.symm, hsegments, hlast, ?_⟩
  cases hanswer : a.answer with
  | none => exact .inr (.inl rfl)
  | some answer =>
    cases answer with
    | error e => exact .inr (.inr ⟨e, rfl, hmade.possible e hanswer⟩)
    | ok i =>
      obtain ⟨y, hy, hcall, hid⟩ := h.acknowledged x.call a i ha hanswer
      -- two tables of one call are the same table
      have hcalls : (T.map (·.call)).Nodup :=
        (List.pairwise_map.2 h.increasing).imp fun hlt ↦ Nat.ne_of_lt hlt
      obtain rfl : y = x := List.inj_on_of_nodup_map hcalls hy hx hcall
      rw [hconfig, hid]
      exact .inl rfl

theorem Running.lists {db : Database S} {snaps : ℕ → List Snapshot}
    {C : List Creation} (h : Running newTable fs db snaps T)
    (hnames : (T.map (·.name)).Nodup) (hC : Chronicle C T) : Lists C db.tables where
  names := h.names_eq ▸ hnames
  ids := by
    have hids := h.ids.nodup
    rw [← h.ids_eq] at hids
    exact hids
  calls := by
    refine ⟨T.map (·.call), List.pairwise_map.2 hC.increasing, ?_, fun k a i hk ha ↦ ?_⟩
    · rw [List.forall₂_map_right_iff]
      exact forall₂_imp_of_mem h.tables fun t _ x hx ht ↦ hC.answers hx ht
    · obtain ⟨x, hx, rfl, -⟩ := hC.acknowledged k a i hk ha
      exact List.mem_map_of_mem hx

/-! ### Nothing succeeds while the outcome of a creation is not known -/

/-- A creation since the database was opened has an outcome that is not known. -/
def Base.Doubtful (b : Base S) : Prop :=
  ∃ k a e, b.opened ≤ k ∧ b.creations[k]? = some a ∧ a.answer = some (.error e) ∧ e.code = .indeterminate

theorem Base.Reach.creating {b : Base S} (h : b.Reach BaseAction.Creating)
    (env : Env (Place × Path) (Place × Dir)) (a : BaseAction) (ha : a.Creating) :
    (b.step env a).Reach BaseAction.Creating := by
  refine h.step env a ha ?_
  cases a with
  | serve i a => exact ha.elim
  | _ => trivial

/-- **Table creation is all or nothing**, in every run of creations, interruptions and reopenings.

* Reopening succeeds, and the tables that are listed are as `Lists` says.
* What a creation adds to the catalog is in a directory that did not exist before.
* As long as the outcome of a creation is not known, no creation and no append succeeds. -/
theorem createTable_atomic {b : Base S} (h : b.Reach BaseAction.Creating) :
    (∀ env : Env (Place × Path) (Place × Dir), env.Calm → b.process = none →
      ∃ s, (b.step env .open).process = some s ∧ Lists b.creations s.db.tables) ∧
    (∀ (env : Env (Place × Path) (Place × Dir)) name defs retentionUs,
      ∀ id ∈ catalogIds S (b.step env (.create name defs retentionUs)).files,
        id ∈ catalogIds S b.files ∨ id ∉ entries b.files) ∧
    ∀ s, b.process = some s → b.Doubtful →
      (∀ (env : Env (Place × Path) (Place × Dir)) name defs retentionUs id,
        (createTable name defs retentionUs env ⟨b.files, 0, s.db⟩).1 ≠ .ok id) ∧
      ∀ t ∈ s.db.tables, ∀ (env : Env Path Dir) (n : ℕ) (g : Group t.config) rs,
        (commitRequests g env ⟨filesOf (some t.config.id) b.files, n, t.table⟩).1 ≠ .ok rs := by
  obtain ⟨T, hat⟩ := h.at newTable_lawful fun a ha ↦ Or.inl ha
  refine ⟨fun env hcalm hp ↦ ?_, fun env name defs retentionUs id hid ↦ ?_, fun s hs hdoubt ↦ ?_⟩
  · obtain ⟨s, hs, -, hrun⟩ := (hat.reopen newTable_lawful env).2 ⟨hcalm, newTable_opens hcalm⟩
    refine ⟨s, ?_, hrun.lists hat.stored.names hat.chronicle⟩
    simp only [Base.step, hp]
    exact hs
  · rw [hat.stored.catalogIds_eq]
    cases hp : b.process with
    | none =>
      simp only [Base.step, hp] at hid
      rw [hat.stored.catalogIds_eq] at hid
      exact Or.inl hid
    | some s =>
      simp only [Base.step, hp] at hid
      obtain ⟨R, hat', hnew⟩ := hat.create newTable_lawful hp env name defs retentionUs
      rw [hat'.stored.catalogIds_eq, idsOf, List.map_append] at hid
      rcases List.mem_append.1 hid with hid | hid
      · exact Or.inl hid
      · obtain ⟨y, hy, rfl⟩ := List.mem_map.1 hid
        exact Or.inr (hnew y hy)
  · obtain ⟨k, a, e, hk, ha, hanswer, hcode⟩ := hdoubt
    have hro : s.db.readOnly = true := hat.doubtful s hs k a e hk ha hanswer hcode
    obtain ⟨T₀, R, rfl, hrun, hR⟩ := hat.process s hs
    refine ⟨fun env name defs retentionUs id hok ↦ ?_, fun t ht env n g rs hok ↦ ?_⟩
    · have hwp : wp (createTable name defs retentionUs) env _ ⟨b.files, 0, s.db⟩ := wp_createTable
        (k := 0) newTable_lawful hat.stored hrun (fun hro' ↦ by rw [hR hro', List.append_nil]) 0
      unfold wp at hwp
      rw [hok] at hwp
      have hro' := hwp.1
      rw [hro] at hro'
      cases hro'
    · have hwp : wp (commitRequests g) env _ ⟨filesOf (some t.config.id) b.files, n, t.table⟩ :=
        wp_commitRequests_refused (Or.inl (hrun.frozen hro t ht))
      obtain ⟨-, -, _, hfail, -⟩ := hwp
      cases hok.symm.trans hfail

/-- The default options. -/
def defaultSettings : Settings := ⟨optionsDefault, optionsDefault_acceptable⟩

/-- The database directory cannot be synchronized. -/
def unsyncedDatabase : Env (Place × Path) (Place × Dir) where
  answer _ call := if call = .syncDir (none, .database) then [.fail] else []
  clock _ := 0
  wall _ := 0

/-- A database with a table, and with another one whose creation has an outcome that is not known when
the process ends. -/
def twoTables : Base defaultSettings :=
  let still := Env.still (Place × Path) (Place × Dir)
  (((Base.empty.step still .open).step still (.create [97] hitsDefs 0)).step unsyncedDatabase
    (.create [98] hitsDefs 5)).step still .crash

theorem createTable_atomic_twoTables : ∃ s,
    (twoTables.step (.still (Place × Path) (Place × Dir)) .open).process = some s ∧
      s.db.tables.map (·.name) = [[97], [98]] ∧ Lists twoTables.creations s.db.tables := by
  let still := Env.still (Place × Path) (Place × Dir)
  have hreach : twoTables.Reach BaseAction.Creating :=
    ((((Base.Reach.empty.creating still .open trivial).creating still (.create [97] hitsDefs 0)
      trivial).creating unsyncedDatabase (.create [98] hitsDefs 5) trivial).creating still .crash trivial)
  have hended : twoTables.process.isNone = true := by decide +kernel
  have hnames : (twoTables.step (.still (Place × Path) (Place × Dir)) .open).process.map
      (fun s ↦ s.db.tables.map (·.name)) = some [[97], [98]] := by
    decide +kernel
  obtain ⟨s, hs, hlists⟩ := (createTable_atomic hreach).1 _ (Env.calm_still _ _)
    (Option.isNone_iff_eq_none.1 hended)
  rw [hs] at hnames
  exact ⟨s, hs, Option.some.inj hnames, hlists⟩

end WebAnalyticsDb
