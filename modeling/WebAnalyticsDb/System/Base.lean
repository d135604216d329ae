import WebAnalyticsDb.System.Opening

/-!
# Databases over their whole life

A **base** is the directory of a database together with the process that has it open, if there is one.
Tables are created and used, the process ends at any point and the database is opened again.
`Base.Reach` is what can be reached in this way from an empty directory, with any environment for every
step.

* **The history is part of the state.** `creations` lists the calls of `wadb_create_table` with their
  answers. `Chronicle` relates it to the tables that the catalog lists: what was acknowledged is there,
  what was refused is not, and everything that is there was asked for once.
* **One invariant, for every invariant of tables.** `Base.At K b T` says that the files of `b` are those of
  a database with the tables `T`, which the history accounts for, and that the process knows them all, or
  all but one and then refuses changes.
-/

namespace WebAnalyticsDb

open Bytes List

variable {S : Settings}

/-! ### Bases -/

/-- A call of `wadb_create_table` and its answer; there is none if the process ended first. -/
structure Creation where
  name : Bytes
  defs : List FieldDef
  retentionUs : ℕ
  answer : Option (Except Error ℕ)

/-- The process: the open database and the snapshots that readers hold, table by table. -/
structure Session (S : Settings) where
  db : Database S
  snapshots : ℕ → List Snapshot

/-- **The directory of a database and the process that has it open.** -/
structure Base (S : Settings) where
  files : DbFiles
  process : Option (Session S)
  creations : List Creation
  /-- The number of creations before the process was started. -/
  opened : ℕ

/-- What can happen to a base. -/
inductive BaseAction
  | create (name : Bytes) (defs : List FieldDef) (retentionUs : ℕ)
  | serve (i : ℕ) (a : (c : Config) → Action c)
  | crash
  | open

/-- Tables are created but not used. -/
def BaseAction.Creating : BaseAction → Prop
  | .serve _ _ => False
  | _ => True

namespace Base

/-- An empty directory. -/
def empty : Base S := ⟨fun _ ↦ none, none, [], 0⟩

/-- The site of an open table. -/
def siteOf (b : Base S) (s : Session S) (t : OpenTable S) : Site t.config :=
  ⟨filesOf (some t.config.id) b.files, some t.table, s.snapshots t.config.id, []⟩

/-- A call of `wadb_create_table`. -/
def create (env : Env (Place × Path) (Place × Dir)) (b : Base S) (s : Session S) (name : Bytes)
    (defs : List FieldDef) (retentionUs : ℕ) : Base S :=
  let r := createTable name defs retentionUs env ⟨b.files, 0, s.db⟩
  { b with
    files := r.2.fs
    process := match r.1 with
      | .killed => none
      | _ => some { s with db := r.2.mem }
    creations := b.creations ++ [⟨name, defs, retentionUs, answerOf r.1⟩] }

/-- An action on the table `t`, which is table `i` of the process. -/
def serve (env : Env (Place × Path) (Place × Dir)) (b : Base S) (s : Session S) (i : ℕ)
    (t : OpenTable S) (a : Action t.config) : Base S :=
  let site := (b.siteOf s t).step (env.inside (some t.config.id)) a
  { b with
    files := putFiles (some t.config.id) site.files b.files
    process := site.process.map fun table ↦
      { db := { s.db with tables := s.db.tables.set i { t with table := table } }
        snapshots := Function.update s.snapshots t.config.id site.snapshots } }

/-- Opening the database. -/
def reopen (env : Env (Place × Path) (Place × Dir)) (b : Base S) : Base S :=
  let r : Exit Error Unit × World (Place × Path) (Database S) := openDatabase env ⟨b.files, 0, .initial⟩
  match r.1 with
  | .ok _ =>
    { b with files := r.2.fs, process := some ⟨r.2.mem, noSnapshots⟩, opened := b.creations.length }
  | _ => { b with files := r.2.fs }

/-- One step. Without a process only opening the database does something, and with one it does
nothing. -/
def step (env : Env (Place × Path) (Place × Dir)) (b : Base S) (a : BaseAction) : Base S :=
  match b.process, a with
  | some s, .create name defs retentionUs => b.create env s name defs retentionUs
  | some s, .serve i a =>
    match s.db.tables[i]? with
    | none => b
    | some t => b.serve env s i t (a t.config)
  | some _, .crash => { b with process := none }
  | some _, .open => b
  | none, .open => b.reopen env
  | none, _ => b

/-- The writer stamps no request with a time before the last row of its table. -/
def Admits (b : Base S) : BaseAction → Prop
  | .serve i a => ∀ s t, b.process = some s → s.db.tables[i]? = some t → (b.siteOf s t).Admits (a t.config)
  | _ => True

/-- **What can be reached** from an empty directory by actions that satisfy `p`. -/
inductive Reach (p : BaseAction → Prop) : Base S → Prop
  | empty : Reach p empty
  | step {b : Base S} (h : Reach p b) (env : Env (Place × Path) (Place × Dir)) (a : BaseAction) (ha : p a)
      (hadm : b.Admits a) : Reach p (b.step env a)

end Base

/-! ### The history of a catalog -/

/-- A call that may have made its table: it was not refused. -/
def Creation.possible (a : Creation) : Prop :=
  ∀ e, a.answer = some (.error e) → e.code = .indeterminate

/-- The table is what the call asked for. -/
structure Creation.Made (a : Creation) (x : Listed S) : Prop where
  name : a.name = x.name
  schema : schemaBuild a.defs = .ok x.config.schema
  retentionUs : a.retentionUs = x.retentionUs
  possible : a.possible

/-- **The history `C` accounts for the tables `T`.** -/
structure Chronicle (C : List Creation) (T : List (Listed S)) : Prop where
  increasing : T.Pairwise (·.call < ·.call)
  asked : ∀ x ∈ T, ∃ a, C[x.call]? = some a ∧ a.Made x
  acknowledged : ∀ k a i, C[k]? = some a → a.answer = some (.ok i) →
    ∃ x ∈ T, x.call = k ∧ x.config.id = i

namespace Chronicle

variable {C : List Creation} {T : List (Listed S)} {a : Creation}

theorem nil : Chronicle ([] : List Creation) ([] : List (Listed S)) where
  increasing := .nil
  asked _ hx := absurd hx not_mem_nil
  acknowledged k a i hk := by simp at hk

theorem call_lt (h : Chronicle C T) {x : Listed S} (hx : x ∈ T) : x.call < C.length := by
  obtain ⟨a, ha, -⟩ := h.asked x hx
  exact (List.getElem?_eq_some_iff.1 ha).1

/-- A call that made no table. -/
theorem skip (h : Chronicle C T) (ha : ∀ i, a.answer ≠ some (.ok i)) : Chronicle (C ++ [a]) T where
  increasing := h.increasing
  asked x hx := by
    rw [getElem?_append_left (h.call_lt hx)]
    exact h.asked x hx
  acknowledged k b i hk hb := by
    by_cases hlt : k < C.length
    · rw [getElem?_append_left hlt] at hk
      exact h.acknowledged k b i hk hb
    · rw [getElem?_append_right (by omega)] at hk
      obtain rfl := mem_singleton.1 (mem_of_getElem? hk)
      exact absurd hb (ha i)

/-- A call that made a table. -/
theorem append (h : Chronicle C T) {x : Listed S} (hcall : x.call = C.length) (hmade : a.Made x)
    (hid : ∀ i, a.answer = some (.ok i) → x.config.id = i) : Chronicle (C ++ [a]) (T ++ [x]) where
  increasing := by
    rw [pairwise_append]
    refine ⟨h.increasing, pairwise_singleton _ _, fun y hy z hz ↦ ?_⟩
    rw [mem_singleton.1 hz, hcall]
    exact h.call_lt hy
  asked y hy := by
    rcases mem_append.1 hy with hy | hy
    · rw [getElem?_append_left (h.call_lt hy)]
      exact h.asked y hy
    · obtain rfl := mem_singleton.1 hy
      exact ⟨a, by rw [hcall]; simp, hmade⟩
  acknowledged k b i hk hb := by
    by_cases hlt : k < C.length
    · rw [getElem?_append_left hlt] at hk
      obtain ⟨y, hy, hcall', hid'⟩ := h.acknowledged k b i hk hb
      exact ⟨y, mem_append_left _ hy, hcall', hid'⟩
    · rw [getElem?_append_right (by omega)] at hk
      have hz : k - C.length = 0 := by simpa using (List.getElem?_eq_some_iff.1 hk).1
      obtain rfl := mem_singleton.1 (mem_of_getElem? hk)
      exact ⟨x, mem_append_right _ (mem_singleton_self x), by omega, hid i hb⟩

end Chronicle

/-! ### The invariant -/

/-- **The invariant of a base** whose catalog lists the tables `T`. -/
structure Base.At (K : TableInvariant) (b : Base S) (T : List (Listed S)) : Prop where
  stored : Stored K b.files T
  chronicle : Chronicle b.creations T
  opened : b.opened ≤ b.creations.length
  process : ∀ s, b.process = some s → ∃ T₀ R, T = T₀ ++ R ∧ Running K b.files s.db s.snapshots T₀ ∧
    (s.db.readOnly = false → R = [])
  doubtful : ∀ s, b.process = some s → ∀ k a e, b.opened ≤ k → b.creations[k]? = some a →
    a.answer = some (.error e) → e.code = .indeterminate → s.db.readOnly = true

/-- What the use of tables needs of an invariant. -/
def TableInvariant.Steps (K : TableInvariant) : Prop :=
  ∀ {c : Config} {r : ℕ} {fs : Files} {t : Table c} {snaps : List Snapshot} (env : Env Path Dir)
    (a : Action c), K.live c r fs t snaps → Site.Admits ⟨fs, some t, snaps, []⟩ a →
    let s : Site c := Site.step env ⟨fs, some t, snaps, []⟩ a
    K.disk c r s.files ∧ ∀ t', s.process = some t' → K.live c r s.files t' s.snapshots ∧
      (t.frozen = true → t'.frozen = true)

namespace Base

variable {K : TableInvariant} {b : Base S} {T : List (Listed S)}
  {env : Env (Place × Path) (Place × Dir)}

theorem at_empty : (empty : Base S).At K [] where
  stored := by
    have hno {p : Listed S → Prop} : ∀ x ∈ ([] : List (Listed S)), p x :=
      fun _ hx ↦ absurd hx not_mem_nil
    exact ⟨nofun, nofun, fun _ ↦ ⟨rfl, by simp [entries, entriesOf, empty]⟩, hno, hno, hno, .nil, hno⟩
  chronicle := .nil
  opened := le_refl _
  process _ hs := by cases hs
  doubtful _ hs := by cases hs

/-- The process has ended. -/
theorem At.dead (h : b.At K T) : Base.At K { b with process := none } T where
  stored := h.stored
  chronicle := h.chronicle
  opened := h.opened
  process _ hs := by cases hs
  doubtful _ hs := by cases hs

section Create

variable {s : Session S} {name : Bytes} {defs : List FieldDef} {r : ℕ}

theorem made_listedOf {x : StoredSchema} {id : TableId} {k : ℕ} {answer : Option (Except Error ℕ)}
    (hname : x.name = name) (hdefs : x.defs = defs)
    (hanswer : ∀ e, answer = some (.error e) → e.code = .indeterminate) :
    Creation.Made ⟨name, defs, r, answer⟩ (listedOf id x r k : Listed S) :=
  ⟨hname.symm, by rw [← hdefs]; exact x.built, rfl, hanswer⟩

/-- A creation that may have happened. -/
theorem maybeAdded_chronicle {fs fs' : DbFiles} {x : StoredSchema} {C : List Creation}
    (answer : Option (Except Error ℕ)) (h : MaybeAdded K fs T x r C.length fs') (hC : Chronicle C T)
    (hname : x.name = name) (hdefs : x.defs = defs) (hno : ∀ i, answer ≠ some (.ok i))
    (hanswer : ∀ e, answer = some (.error e) → e.code = .indeterminate) :
    ∃ R, Stored K fs' (T ++ R) ∧ Chronicle (C ++ [⟨name, defs, r, answer⟩]) (T ++ R) ∧
      ∀ y ∈ R, y.config.id ∉ entries fs := by
  rcases h with h | ⟨id, hnew, h⟩
  · exact ⟨[], by rwa [append_nil], by rw [append_nil]; exact hC.skip hno, nofun⟩
  · refine ⟨_, h, hC.append rfl (made_listedOf hname hdefs hanswer) fun i hi ↦ absurd hi (hno i), ?_⟩
    intro y hy
    rw [mem_singleton.1 hy]
    exact hnew

/-- **Creating a table.** What the catalog lists afterwards and not before is in a new directory. -/
theorem At.create (hK : K.Lawful) (h : b.At K T) (hs : b.process = some s)
    (env : Env (Place × Path) (Place × Dir)) (name : Bytes) (defs : List FieldDef) (r : ℕ) :
    ∃ R, (b.create env s name defs r).At K (T ++ R) ∧ ∀ y ∈ R, y.config.id ∉ entries b.files := by
  obtain ⟨T₀, R₀, rfl, hrun, hR₀⟩ := h.process s hs
  have hwp : wp (createTable name defs r) env _ ⟨b.files, 0, s.db⟩ := wp_createTable
    (k := b.creations.length) hK h.stored hrun (fun hro ↦ by rw [hR₀ hro, append_nil]) 0
  refine hwp.elim (F := fun o ↦ ∃ R, Base.At K { b with
    files := o.2.fs
    process := match o.1 with
      | .killed => none
      | _ => some { s with db := o.2.mem }
    creations := b.creations ++ [⟨name, defs, r, answerOf o.1⟩] } (T₀ ++ R₀ ++ R) ∧
      ∀ y ∈ R, y.config.id ∉ entries b.files) ?_
  have hlen {a : Creation} : b.opened ≤ (b.creations ++ [a]).length := by
    rw [length_append]
    exact h.opened.trans (Nat.le_add_right _ _)
  -- an earlier call whose outcome is not known keeps the database read-only
  have hold {a : Creation} {db' : Database S} (hro : s.db.readOnly = true → db'.readOnly = true)
      (hnew : ∀ e, a.answer = some (.error e) → e.code = .indeterminate → db'.readOnly = true) :
      ∀ k c e, b.opened ≤ k → (b.creations ++ [a])[k]? = some c → c.answer = some (.error e) →
        e.code = .indeterminate → db'.readOnly = true := by
    intro k c e hk hc hanswer hcode
    by_cases hlt : k < b.creations.length
    · rw [getElem?_append_left hlt] at hc
      exact hro (h.doubtful s hs k c e hk hc hanswer hcode)
    · rw [getElem?_append_right (by omega)] at hc
      obtain rfl := mem_singleton.1 (mem_of_getElem? hc)
      exact hnew e hanswer hcode
  rintro (i | e | _) ⟨fs', n', db'⟩ hpost
  · obtain ⟨hro, hro', x, id, hname, hdefs, rfl, hnew, hstored, hrun'⟩ := hpost
    obtain rfl := hR₀ hro
    have hC : Chronicle b.creations T₀ := by simpa using h.chronicle
    refine ⟨[listedOf id x r b.creations.length], ⟨by rwa [append_nil], ?_, hlen, ?_, ?_⟩, ?_⟩
    · rw [append_nil]
      exact hC.append rfl (made_listedOf hname hdefs fun e he ↦ by cases he) fun i hi ↦ by cases hi; rfl
    · intro s' hs'
      cases hs'
      exact ⟨_, [], by rw [append_nil, append_nil], hrun', fun _ ↦ rfl⟩
    · intro s' hs'
      cases hs'
      exact hold (fun hro'' ↦ absurd hro'' (by rw [hro]; decide)) fun e he ↦ by cases he
    · intro y hy
      rw [mem_singleton.1 hy]
      exact hnew
  · obtain ⟨hrun', hdef, hind⟩ := hpost
    by_cases hcode : e.code = .indeterminate
    · obtain ⟨hro, hro', x, hname, hdefs, hmaybe⟩ := hind hcode
      obtain rfl := hR₀ hro
      have hC : Chronicle b.creations T₀ := by simpa using h.chronicle
      obtain ⟨R, hstored, hC', hR⟩ := maybeAdded_chronicle (some (.error e)) hmaybe hC hname
        hdefs nofun fun e' he' ↦ by cases he'; exact hcode
      refine ⟨R, ⟨by rwa [append_nil], by rwa [append_nil], hlen, ?_, ?_⟩, hR⟩
      · intro s' hs'
        cases hs'
        exact ⟨T₀, R, by rw [append_nil], hrun', fun hf ↦ absurd hf (by rw [hro']; decide)⟩
      · intro s' hs'
        cases hs'
        exact hold (fun _ ↦ hro') fun _ _ _ ↦ hro'
    · obtain ⟨hro', hstored⟩ := hdef hcode
      refine ⟨[], ⟨by rwa [append_nil], ?_, hlen, ?_, ?_⟩, nofun⟩
      · rw [append_nil]
        exact h.chronicle.skip nofun
      · intro s' hs'
        cases hs'
        exact ⟨T₀, R₀, by rw [append_nil], hrun', fun hf ↦ hR₀ (hro'.symm.trans hf)⟩
      · intro s' hs'
        cases hs'
        exact hold (fun hro ↦ hro'.trans hro) fun e' he' hcode' ↦ by cases he'; exact absurd hcode' hcode
  · obtain ⟨hro, x, hname, hdefs, hmaybe⟩ := hpost
    obtain rfl := hR₀ hro
    have hC : Chronicle b.creations T₀ := by simpa using h.chronicle
    obtain ⟨R, hstored, hC', hR⟩ := maybeAdded_chronicle none hmaybe hC hname hdefs nofun
      nofun
    refine ⟨R, ⟨by rwa [append_nil], by rwa [append_nil], hlen, ?_, ?_⟩, hR⟩
    · intro s' hs'
      cases hs'
    · intro s' hs'
      cases hs'

end Create

section Serve

variable {s : Session S}

theorem forall₂_set {α β : Type} {R R' : α → β → Prop} {l : List α} {l' : List β}
    (h : List.Forall₂ R l l') {i : ℕ} {a : α} {b : β} (hb : l'[i]? = some b) (hab : R' a b)
    (himp : ∀ j x y, j ≠ i → l'[j]? = some y → R x y → R' x y) : List.Forall₂ R' (l.set i a) l' := by
  induction h generalizing i with
  | nil => cases hb
  | @cons x y l l' hxy hrest ih =>
    cases i with
    | zero =>
      cases hb
      refine .cons hab (forall₂_imp_of_mem hrest fun x' _ y' hy' hxy' ↦ ?_)
      obtain ⟨j, hj⟩ := getElem?_of_mem hy'
      exact himp (j + 1) x' y' (Nat.succ_ne_zero j) hj hxy'
    | succ i =>
      refine .cons (himp 0 x y (Nat.succ_ne_zero i).symm rfl hxy) (ih hb fun j x' y' hj hy' ↦ ?_)
      exact himp (j + 1) x' y' (fun heq ↦ hj (Nat.succ.inj heq)) hy'

theorem forall₂_getElem? {α β : Type} {R : α → β → Prop} {l : List α} {l' : List β}
    (h : List.Forall₂ R l l') {i : ℕ} {a : α} (ha : l[i]? = some a) : ∃ b, l'[i]? = some b ∧ R a b := by
  induction h generalizing i with
  | nil => cases ha
  | cons hxy _ ih =>
    cases i with
    | zero =>
      cases ha
      exact ⟨_, rfl, hxy⟩
    | succ i => exact ih ha

/-- Two tables of different positions have different identifiers. -/
theorem id_ne_of_ne (hids : (idsOf T).Nodup) {i j : ℕ} {x y : Listed S} (hi : T[i]? = some x)
    (hj : T[j]? = some y) (hne : j ≠ i) : y.config.id ≠ x.config.id := by
  intro heq
  have hlt : j < (idsOf T).length := by
    rw [idsOf, length_map]
    exact (List.getElem?_eq_some_iff.1 hj).1
  refine hne ((getElem?_inj hlt hids).1 ?_)
  rw [idsOf, getElem?_map, getElem?_map, hi, hj, Option.map_some, Option.map_some, heq]

/-- **Using a table.** -/
theorem At.serve (hsteps : K.Steps) (h : b.At K T) (hs : b.process = some s) {i : ℕ}
    {t : OpenTable S} (ht : s.db.tables[i]? = some t) {a : Action t.config}
    (ha : (b.siteOf s t).Admits a) : (b.serve env s i t a).At K T := by
  obtain ⟨T₀, R, rfl, hrun, hR⟩ := h.process s hs
  obtain ⟨y, hy, hconfig, hname, hlive⟩ := forall₂_getElem? hrun.tables ht
  have hids := hrun.ids.nodup
  have hmem : y ∈ T₀ := mem_of_getElem? hy
  obtain ⟨hdisk, hnext⟩ := hsteps (env.inside (some t.config.id)) a hlive ha
  have hidsT : (idsOf (T₀ ++ R)).Nodup := by
    obtain ⟨f, hf⟩ := Option.isSome_iff_exists.1 hrun.catalog
    obtain ⟨next, -, hok⟩ := h.stored.catalog f hf
    exact hok.ids.nodup
  have hdb (p : Path) : (b.serve env s i t a).files (none, p) = b.files (none, p) :=
    putFiles_database t.config.id ((b.siteOf s t).step (env.inside (some t.config.id)) a).files b.files p
  constructor
  case stored =>
    have hid : t.config.id = y.config.id := by rw [hconfig]
    change Stored K (putFiles (some t.config.id) _ b.files) (T₀ ++ R)
    rw [hid]
    refine h.stored.opened_table hidsT (mem_append_left _ hmem) ?_
    obtain ⟨c, hoptions, name, table⟩ := t
    dsimp only at hconfig hdisk
    subst hconfig
    exact hdisk
  case chronicle => exact h.chronicle
  case opened => exact h.opened
  case process =>
    intro s' hs'
    obtain ⟨table, htable, rfl⟩ := Option.map_eq_some_iff.1 hs'
    obtain ⟨hlive', hfrozen⟩ := hnext table htable
    refine ⟨T₀, R, rfl, ⟨?_, hrun.ids, hrun.length_le, ?_, ?_, ?_, ?_⟩, hR⟩
    · refine forall₂_set hrun.tables hy ⟨hconfig, hname, ?_⟩ ?_
      · change K.live t.config y.retentionUs (filesOf (some t.config.id)
          (putFiles (some t.config.id) _ b.files)) table (Function.update s.snapshots t.config.id _ t.config.id)
        rw [filesOf_putFiles_self, Function.update_self]
        exact hlive'
      · rintro j t' y' hj hy' ⟨hconfig', hname', hlive''⟩
        have hne : t'.config.id ≠ t.config.id := by
          rw [hconfig, hconfig']
          exact id_ne_of_ne hids hy hy' hj
        refine ⟨hconfig', hname', ?_⟩
        change K.live t'.config y'.retentionUs (filesOf (some t'.config.id)
          (putFiles (some t.config.id) _ b.files)) t'.table (Function.update s.snapshots t.config.id _ t'.config.id)
        rw [filesOf_putFiles_of_ne (fun heq ↦ hne (Option.some.inj heq)), Function.update_of_ne hne]
        exact hlive''
    · intro hro t' ht'
      rcases mem_or_eq_of_mem_set ht' with ht' | rfl
      · exact hrun.frozen hro t' ht'
      · exact hfrozen (hrun.frozen hro t (mem_of_getElem? ht))
    · intro id hid
      have hne : id ≠ t.config.id := by
        rintro rfl
        exact hid (hconfig ▸ mem_map_of_mem hmem)
      change Function.update s.snapshots t.config.id _ id = []
      rw [Function.update_of_ne hne]
      exact hrun.unlisted id hid
    · rw [hdb]
      exact hrun.catalog
    · rw [hdb]
      exact hrun.entries
  case doubtful =>
    intro s' hs'
    obtain ⟨table, -, rfl⟩ := Option.map_eq_some_iff.1 hs'
    exact h.doubtful s hs

end Serve

/-- **Opening the database.** If nothing is disturbed and tables can be opened, it succeeds. -/
theorem At.reopen (hK : K.Lawful) (h : b.At K T) (env : Env (Place × Path) (Place × Dir)) :
    (b.process = none → (b.reopen env).At K T) ∧
      (Smooth K env → ∃ s, (b.reopen env).process = some s ∧ s.db.readOnly = false ∧
        Running K (b.reopen env).files s.db noSnapshots T) := by
  have hwp : wp openDatabase env _ ⟨b.files, 0, (.initial : Database S)⟩ :=
    wp_openDatabase hK h.stored 0
  refine hwp.elim (F := fun r ↦
    let b' : Base S := match r.1 with
      | .ok _ => { b with
          files := r.2.fs, process := some ⟨r.2.mem, noSnapshots⟩, opened := b.creations.length }
      | _ => { b with files := r.2.fs }
    (b.process = none → b'.At K T) ∧ (Smooth K env → ∃ s, b'.process = some s ∧
      s.db.readOnly = false ∧ Running K b'.files s.db noSnapshots T)) ?_
  have hfailed (fs' : DbFiles) (hpost : Stored K fs' T) (hp : b.process = none) :
      Base.At K { b with files := fs' } T := by
    have hno {s : Session S} (hs : b.process = some s) : False := by
      rw [hp] at hs
      cases hs
    exact ⟨hpost, h.chronicle, h.opened, fun _ hs ↦ (hno hs).elim, fun _ hs ↦ (hno hs).elim⟩
  rintro (_ | e | _) ⟨fs', n', db'⟩ hpost
  · obtain ⟨hstored, hrun, hro⟩ := hpost
    refine ⟨fun _ ↦ ⟨hstored, h.chronicle, le_refl _, ?_, ?_⟩, fun _ ↦ ⟨_, rfl, hro, hrun⟩⟩
    · intro s hs
      cases hs
      exact ⟨T, [], (append_nil T).symm, hrun, fun _ ↦ rfl⟩
    · intro s hs k a e hk ha
      exact absurd (List.getElem?_eq_some_iff.1 ha).1 (not_lt.2 hk)
  · exact ⟨hfailed fs' hpost.1, fun hs ↦ absurd hs hpost.2⟩
  · exact ⟨hfailed fs' hpost.1, fun hs ↦ absurd hs hpost.2⟩

/-- **The invariant is kept by every step.** -/
theorem At.step (hK : K.Lawful) (h : b.At K T) {a : BaseAction} (ha : a.Creating ∨ K.Steps)
    (hadm : b.Admits a) (env : Env (Place × Path) (Place × Dir)) : ∃ R, (b.step env a).At K (T ++ R) := by
  have hsame : ∃ R, b.At K (T ++ R) := ⟨[], by rwa [append_nil]⟩
  cases hp : b.process with
  | none =>
    cases a with
    | «open» =>
      simp only [Base.step, hp]
      exact ⟨[], by rw [append_nil]; exact (h.reopen hK env).1 hp⟩
    | _ =>
      simp only [Base.step, hp]
      exact hsame
  | some s =>
    cases a with
    | create name defs r =>
      simp only [Base.step, hp]
      obtain ⟨R, hat, -⟩ := h.create hK hp env name defs r
      exact ⟨R, hat⟩
    | serve i a =>
      simp only [Base.step, hp]
      split
      · exact hsame
      next t ht =>
        refine ⟨[], ?_⟩
        rw [append_nil]
        exact h.serve (ha.resolve_left id) hp ht (hadm s t hp ht)
    | crash =>
      simp only [Base.step, hp]
      exact ⟨[], by rw [append_nil]; exact h.dead⟩
    | «open» =>
      simp only [Base.step, hp]
      exact hsame

/-- **The invariant holds in every state that can be reached.** -/
theorem Reach.at (hK : K.Lawful) {p : BaseAction → Prop} (hp : ∀ a, p a → a.Creating ∨ K.Steps)
    (h : Reach p b) : ∃ T, b.At K T := by
  induction h with
  | empty => exact ⟨[], at_empty⟩
  | step _ env a ha hadm ih =>
    obtain ⟨T, hat⟩ := ih
    obtain ⟨R, hat'⟩ := hat.step hK (hp a ha) hadm env
    exact ⟨T ++ R, hat'⟩

end Base

end WebAnalyticsDb
