import WebAnalyticsDb.Ledger.Causes
import WebAnalyticsDb.Ledger.Transitions

/-!
# Rotation

`create_active` seals the last segment and installs a new one. The manifest is the commit point: before
it the log on disk is the old one, whatever files have been created, and behind it the new one. Only the
outcome of the manifest makes the table read-only. The index of the segment to be sealed is saved before
that, and when its outcome is uncertain the error is returned but the table stays writable. A rotation
fails for a fault or for exhaustion only (`RotateCause`).
-/

namespace WebAnalyticsDb

open Bytes List

variable {c : Config}

/-- **A new, empty segment** behind the log `V` for rows from `now` on. -/
structure NewSegment (V : Log c) (now : ℤ) (s : LogSegment c) : Prop where
  entries : s.entries = []
  retired : s.retired = false
  day : s.day = now - now % dayUs
  first : s.first = V.total + 1
  id : V.lastId 0 < s.id
  ok : (V ++ [s]).Ok

/-- The segment that `create_active` makes, once its identifier is known. -/
def Log.newSegment (V : Log c) (now : ℤ) (id : ℕ) : LogSegment c where
  id := id
  day := now - now % dayUs
  first := V.total + 1
  entries := []
  retired := false

/-- The conditions under which a new segment may be installed. -/
structure CanRotate (V : Log c) (now : ℤ) : Prop where
  now_nonneg : 0 ≤ now
  now_lt : now < 2 ^ 63
  total : V.total + 1 < 2 ^ 64
  budget : minAlloc c.schema [] ≤ c.options.dictionaryLimitBytes
  length : V.length < maxSegments

theorem CanRotate.newSegment {V : Log c} {now : ℤ} (h : CanRotate V now) (hV : V.Ok) {id : ℕ}
    (hid : V.lastId 0 < id) (hlt : id < uint64Max) : NewSegment V now (V.newSegment now id) where
  entries := rfl
  retired := rfl
  day := rfl
  first := rfl
  id := hid
  ok := by
    have h0 := h.now_nonneg
    have h1 := h.now_lt
    refine hV.rotate rfl hid ⟨⟨by simp only [Log.newSegment]; omega, hlt⟩, ?_, rfl, h.total, trivial,
      zero_le, Bool.noConfusion, h.budget⟩ h.length
    simp only [Log.newSegment, dayUs]
    omega

/-! ### The handle -/

section Handle

variable {t : Table c} {V : Log c} {now : ℤ} {id : ℕ}

theorem modify_concat {α : Type} (f : α → α) (l : List α) (a : α) :
    (l ++ [a]).modify l.length f = l ++ [f a] := by
  induction l with
  | nil => rfl
  | cons x l ih => exact congrArg (x :: ·) ih

theorem sealLast_summaries (V : Log c) : sealLast V.summaries = V.map (·.summary false) := by
  rcases V.eq_nil_or_concat with rfl | ⟨A, s, rfl⟩
  · rfl
  · rw [concat_eq_append, Log.summaries_concat, sealLast, length_append,
      length_singleton, Nat.add_sub_cancel, modify_concat, map_append]
    congr 1
    cases hr : s.retired <;> simp [LogSegment.summary, LogSegment.state, hr]

theorem Log.summaries_rotate (V : Log c) (s : LogSegment c) :
    Log.summaries (V ++ [s]) = sealLast V.summaries ++ [s.summary true] := by
  rw [Log.summaries_concat, sealLast_summaries]

theorem Log.preserved_rotate (V : Log c) {s : LogSegment c} (hs : s.retired = false) :
    Log.preserved (V ++ [s]) = V.preserved := by
  simp [Log.preserved, Log.lastRetired?, filter_append, hs]

/-- The record of the new segment. -/
theorem summary_newSegment (h : Handle t V) (htotal : V.total + 1 < 2 ^ 64) :
    (V.newSegment now id).summary true = { t.newSegment now with id := id } := by
  simp only [LogSegment.summary, Log.newSegment, Table.newSegment, h.lastSequence]
  rw [u64_of_lt htotal]
  rfl

/-- The staged manifest records the log with the new segment. -/
theorem Handle.manifest_stageActive (h : Handle t V) {s : LogSegment c} (hs : s.retired = false) :
    (t.stageActive (s.summary true)).manifest =
      Log.manifest (V ++ [s]) t.retentionUs (t.manifestGeneration + 1) := by
  simp only [Table.manifest, Table.stageActive, Log.manifest, h.segments, h.preservedSequence,
    h.preservedTime, Log.summaries_rotate, Log.preserved_rotate V hs, Log.next, Log.lastId_concat]
  rfl

end Handle

/-! ### Creating the file -/

section Rules

variable {env : Env Path Dir} {fs : Files} {n : ℕ} {P V : Log c} {now : ℤ} {t : Table c}

/-- **Creating the file** of a new segment: the first identifier without a file. -/
theorem wp_createFile {μ : Type} {day : ℤ} {fuel id : ℕ} {m : μ} {Q : Exit Error ℕ → Files → μ → Prop}
    (hok : ∀ id', id ≤ id' → id' < id + fuel →
      Q (.ok id') (setFile (.seg day id') (some ⟨[], 0⟩) fs) m)
    (hno : ∀ e : Error, e.code ≠ .indeterminate → RotateCause env e → Q (.fail e) fs m)
    (hkill : ¬ env.Calm → Q .killed fs m)
    (hkill' : ¬ env.Calm → ∀ id', id ≤ id' → id' < id + fuel →
      Q .killed (setFile (.seg day id') (some ⟨[], 0⟩) fs) m) :
    wp (createFile day fuel id) env Q ⟨fs, n, m⟩ := by
  induction fuel generalizing id n with
  | zero => exact hno _ (by decide) (.inr (.inr (.inr rfl)))
  | succ fuel ih =>
    unfold createFile
    refine wp_bind (wp_allocOr (fun n ↦ ?_) fun hcalm ↦
      hno _ (by decide) (.inl (.nomem hcalm _)))
    refine wp_bind (wp_files.2 fun n ↦ ?_)
    refine wp_callOr_bind (fun n ↦ ?_) (fun hcalm ↦ hno _ (by decide) (.inl (.io hcalm _))) hkill
      fun hcalm ↦ ?_
    · cases hfile : (fs (.seg day id)).isSome with
      | true =>
        -- the identifier is taken
        simp only [if_true]
        exact ih (fun id' h1 h2 ↦ hok id' (by omega) (by omega))
          fun hcalm id' h1 h2 ↦ hkill' hcalm id' (by omega) (by omega)
      | false => exact hok id (le_refl _) (by omega)
    · dsimp only
      split
      · exact hkill hcalm
      · exact hkill' hcalm id (le_refl _) (by omega)

/-! ### Installing the segment -/

/-- **Behind the commit point**: the new segment is part of the log on disk. -/
structure Installed (fs : Files) (V : Log c) (now : ℤ) (s : LogSegment c) : Prop where
  new : NewSegment V now s
  disk : OnDisk fs (V ++ [s]) (V ++ [s]) []
  synced : ∀ f, fs s.segPath = some f → s.size ≤ f.synced

/-- The outcomes of installing a segment: the log on disk is the old one or the new one, and an
uncertain outcome means that it is the new one. -/
def InstallPost (t : Table c) (fs : Files) (V P : Log c) (now : ℤ) :
    Exit Error Unit → Files → Table c → Prop
  | .ok _, fs', t' => Grown V fs fs' ∧ t.manifestGeneration ≠ uint64Max ∧ ∃ s, Installed fs' V now s ∧
      t' = t.installActive (t.stageActive (s.summary true)) (s.summary true)
  | .fail e, fs', t' => Grown V fs fs' ∧ t' = t ∧
      (e.code ≠ .indeterminate ∧ OnDisk fs' P V [] ∨
        e.code = .indeterminate ∧ ∃ s, Installed fs' V now s)
  | .killed, fs', _ => Grown V fs fs' ∧ (OnDisk fs' P V [] ∨ ∃ s, Installed fs' V now s)

/-- The index of the last segment is there. -/
def LastIndexed (fs : Files) (V : Log c) : Prop :=
  ∀ a ∈ V.getLast?, a.retired = false → ∃ f, fs a.idxPath = some f ∧ f.data = a.derived

/-- **Installing a segment.** -/
theorem wp_installSegment
    (hview : Handle t V) (hdisk : OnDisk fs P V []) (hidx : LastIndexed fs V) (hcan : CanRotate V now)
    (hgen : t.manifestGeneration ≠ uint64Max) :
    wp (installSegment (t.newSegment now)) env (fun e fs' t' ↦
      InstallPost t fs V P now e fs' t' ∧ Blames env (RotateCause env) e fs' t') ⟨fs, n, t⟩ := by
  have hfail {fs' : Files} {e : Error} (hg : Grown V fs fs') (hd : OnDisk fs' P V [])
      (he : e.code ≠ .indeterminate) (hcause : RotateCause env e) :
      InstallPost t fs V P now (.fail e) fs' t ∧
        Blames (α := Unit) env (RotateCause env) (.fail e) fs' t :=
    ⟨⟨hg, rfl, .inl ⟨he, hd⟩⟩, hcause⟩
  have hio {fs' : Files} (hg : Grown V fs fs') (hd : OnDisk fs' P V []) (hcalm : ¬ env.Calm)
      (m : String) := hfail (e := ⟨.io, m⟩) hg hd nofun (.inl (.io hcalm m))
  have hkilled {fs' : Files} (hg : Grown V fs fs') (hd : OnDisk fs' P V []) (hcalm : ¬ env.Calm) :
      InstallPost t fs V P now .killed fs' t ∧
        Blames (α := Unit) env (RotateCause env) .killed fs' t := ⟨⟨hg, .inl hd⟩, hcalm⟩
  have hrefl := Grown.refl V fs
  unfold installSegment
  refine wp_bind (wp_allocOr (fun n ↦ ?_) fun hcalm ↦
    hfail hrefl hdisk (by decide) (.inl (.nomem hcalm _)))
  refine wp_bind (wp_mkdir (fun n ↦ ?_) (fun hcalm ↦ hio hrefl hdisk hcalm _)
    (hkilled hrefl hdisk))
  refine wp_bind (wp_syncDirectory (fun n ↦ ?_) (fun hcalm ↦ hio hrefl hdisk hcalm _)
    (hkilled hrefl hdisk))
  have hnext : (t.newSegment now).id = V.lastId 0 + 1 := hview.next
  have hlt : V.lastId 0 < uint64Max := hview.ok.chain.lastId_lt (by decide)
  have hnew {id : ℕ} (h1 : (t.newSegment now).id ≤ id)
      (h2 : id < (t.newSegment now).id + (uint64Max - (t.newSegment now).id)) :
      NewSegment V now (V.newSegment now id) :=
    hcan.newSegment hview.ok (by omega) (by omega)
  have hmade (id : ℕ) : Replaced (V.newSegment now id).segPath ⟨[], 0⟩ fs
      (setFile (.seg (t.newSegment now).dayStart id) (some ⟨[], 0⟩) fs) :=
    replaced_setFile _ _ _
  refine wp_bind (wp_createFile (fun id h1 h2 n ↦ ?_) (fun e he ↦ hfail hrefl hdisk he)
    (hkilled hrefl hdisk) fun hcalm id h1 h2 ↦ ?_)
  swap
  · exact hkilled (.created hview.ok (hnew h1 h2).id (hmade id)) (hdisk.created (hnew h1 h2).id (hmade id))
      hcalm
  obtain ⟨s, hs⟩ : ∃ s, s = V.newSegment now id := ⟨_, rfl⟩
  have hseg : NewSegment V now s := hs ▸ hnew h1 h2
  have hmeta : { t.newSegment now with id := id } = s.summary true := by
    rw [hs, summary_newSegment hview hcan.total]
  have hrep : Replaced s.segPath ⟨[], 0⟩ fs
      (setFile (.seg (t.newSegment now).dayStart id) (some ⟨[], 0⟩) fs) := hs ▸ hmade id
  obtain ⟨fs₁, hfs₁⟩ : ∃ fs₁, fs₁ =
      setFile (.seg (t.newSegment now).dayStart id) (some ⟨[], 0⟩) fs := ⟨_, rfl⟩
  rw [← hfs₁] at hrep ⊢
  obtain ⟨-, -, hsok⟩ := Log.chain_concat.1 hseg.ok.chain
  simp only [hmeta, ← LogSegment.header_eq, hsok.segmentEncode_header]
  refine wp_bind (wp_rethrow.2 fun n ↦ ?_)
  obtain ⟨header, hheader⟩ : ∃ header, header =
      s.header.parts.flatten ++ ofNatLE 4 (crc32c s.header.parts.flatten) := ⟨_, rfl⟩
  rw [← hheader]
  have himage : s.image = header := by
    rw [LogSegment.image, LogSegment.frames, LogSegment.groups, hseg.entries, hheader]
    simp [framesFrom, framesBytes]
  -- until the manifest is there, the file is one of a segment that is not installed
  have happ (b : Bytes) : Replaced s.segPath ⟨b, 0⟩ fs (appendTo s.segPath b fs₁) := by
    have := replaced_appendTo hrep.1 b
    refine ⟨this.1, fun q hq hqt ↦ (this.2 q hq hqt).trans (hrep.2 q hq hqt)⟩
  have horphan {f : File} {fs' : Files} (h : Replaced s.segPath f fs fs') :
      Grown V fs fs' ∧ OnDisk fs' P V [] :=
    ⟨.created hview.ok hseg.id h, hdisk.created hseg.id h⟩
  refine wp_bind (wp_writeAll (fun n ↦ ?_) (fun hcalm k _ ↦ ?_) fun hcalm k _ ↦ ?_)
  rotate_left
  · exact hio (horphan (happ _)).1 (horphan (happ _)).2 hcalm _
  · exact hkilled (horphan (happ _)).1 (horphan (happ _)).2 hcalm
  have hsync := (happ header).syncTo
  refine wp_bind (wp_syncFile (fun n ↦ ?_) (fun hcalm ↦ ?_) (fun hcalm ↦ ?_) fun hcalm ↦ ?_)
  rotate_left
  · exact hio (horphan (happ _)).1 (horphan (happ _)).2 hcalm _
  · exact hkilled (horphan (happ _)).1 (horphan (happ _)).2 hcalm
  · exact hkilled (horphan hsync).1 (horphan hsync).2 hcalm
  obtain ⟨hg, hd⟩ := horphan hsync
  refine wp_bind (wp_syncDirectory (fun n ↦ ?_) (fun hcalm ↦ hio hg hd hcalm _)
    (hkilled hg hd))
  refine wp_bind (wp_get.2 fun n ↦ ?_)
  -- the manifest
  have hman := hview.manifest_stageActive hseg.retired
  have hgen' : 0 < t.manifestGeneration + 1 ∧ t.manifestGeneration + 1 < 2 ^ 64 := by
    have := hview.generation.2
    unfold uint64Max at hgen
    omega
  obtain ⟨fs₂, hfs₂⟩ : ∃ fs₂, fs₂ = syncTo s.segPath (appendTo s.segPath header fs₁) :=
    ⟨_, rfl⟩
  simp only [LogSegment.segPath_summary]
  rw [← hfs₂] at hsync hg hd ⊢
  have hinstalled {fs' : Files} (h : Agree (setFile .manifest (some
      ⟨(t.stageActive (s.summary true)).manifest.image c.id,
        ((t.stageActive (s.summary true)).manifest.image c.id).length⟩) fs₂) fs') :
      Grown V fs fs' ∧ Installed fs' V now s := by
    have hrep' := replaced_of_agree (fun _ ↦ Path.noConfusion) h
    rw [hman] at hrep'
    have hidx' : LastIndexed fs₂ V := by
      intro a ha hr
      rw [hsync.2 _ (segPath_ne_idxPath _ _).symm (idxPath_ne_tmp a)]
      exact hidx a ha hr
    refine ⟨hg.trans (.manifest hrep'), hseg, ?_, ?_⟩
    · exact hd.rotated hidx' ⟨_, hsync.1, himage.symm⟩ hrep' rfl hview.retentionUs hgen' hseg.ok
    · intro f hf
      rw [hrep'.2 _ (segPath_ne_manifest s) (segPath_ne_tmp s), hsync.1] at hf
      cases hf
      rw [← s.length_image, himage]
  refine wp_bind (installs_saveManifest ?_ _ _ _ (fun fs' h n ↦ ?_) (fun hcalm fs' h e he ↦ ?_)
    (fun hcalm fs' h e he ↦ ?_) fun hcalm fs' h ↦ ?_)
  · simp only [Table.stageActive, length_append, length_singleton, hview.segments,
      sealLast_summaries, length_map]
    exact hcan.length
  · exact ⟨⟨(hinstalled h).1, hgen, s, (hinstalled h).2, rfl⟩, trivial⟩
  · refine hfail (hg.trans (.of_agree h)) (hd.of_agree h) ?_ (.inl (.definite hcalm he))
    rcases he with he | he <;> rw [he] <;> decide
  · exact ⟨⟨(hinstalled h).1, rfl, .inr ⟨he, s, (hinstalled h).2⟩⟩,
      .inl ⟨hcalm, .inr (.inr he)⟩⟩
  · refine ⟨?_, hcalm⟩
    rcases h with h | h
    · exact ⟨hg.trans (.of_agree h), .inl (hd.of_agree h)⟩
    · exact ⟨(hinstalled h).1, .inr ⟨s, (hinstalled h).2⟩⟩

/-- The outcomes of a rotation. An uncertain outcome makes the table read-only, unless it is the one of
the index of the segment to be sealed. -/
def RotatePost (t : Table c) (fs : Files) (V P : Log c) (now : ℤ) :
    Exit Error Unit → Files → Table c → Prop
  | .ok _, fs', t' => Grown V fs fs' ∧ t.manifestGeneration ≠ uint64Max ∧ ∃ s, Installed fs' V now s ∧
      t' = t.installActive (t.stageActive (s.summary true)) (s.summary true)
  | .fail e, fs', t' => Grown V fs fs' ∧
      (t' = t ∧ OnDisk fs' P V [] ∧ (e.code = .indeterminate → t.active?.isSome = true) ∨
        t' = { t with readOnly := true } ∧ e.code = .indeterminate ∧ ∃ s, Installed fs' V now s)
  | .killed, fs', _ => Grown V fs fs' ∧ (OnDisk fs' P V [] ∨ ∃ s, Installed fs' V now s)

/-- The end of a rotation, once the index is saved. -/
theorem wp_createActive_rest {fs₁ : Files}
    (hview : Handle t V) (hgrown : Grown V fs fs₁) (hdisk : OnDisk fs₁ P V []) (hidx : LastIndexed fs₁ V)
    (hcan : CanRotate V now) (hgen : t.manifestGeneration ≠ uint64Max) :
    wp (do
      allocOr "segment directory allocation"
      let status ← Prog.attempt (installSegment (t.newSegment now))
      protectUncertain status
      Prog.rethrow status) env (fun e fs' t' ↦
        RotatePost t fs V P now e fs' t' ∧ Blames env (RotateCause env) e fs' t') ⟨fs₁, n, t⟩ := by
  refine wp_bind (wp_allocOr (fun n ↦ ?_) fun hcalm ↦
    ⟨⟨hgrown, .inl ⟨rfl, hdisk, by simp⟩⟩, .inl (.nomem hcalm _)⟩)
  refine wp_bind (wp_attempt.2
    ((wp_installSegment hview hdisk hidx hcan hgen).mono ?_))
  rintro (_ | e | _) fs' t' ⟨hpost, hcause⟩
  · obtain ⟨hg, -, s, hs, rfl⟩ := hpost
    intro n
    refine wp_bind (wp_pure.2 fun n ↦ wp_rethrow.2 ?_)
    exact ⟨⟨hgrown.trans hg, hgen, s, hs, rfl⟩, trivial⟩
  · obtain ⟨hg, rfl, hcase⟩ := hpost
    intro n
    unfold protectUncertain statusOf
    rcases hcase with ⟨he, hd⟩ | ⟨he, s, hs⟩
    · rw [if_neg (by simpa using he)]
      refine wp_bind (wp_pure.2 fun n ↦ wp_rethrow.2 ?_)
      exact ⟨⟨hgrown.trans hg, .inl ⟨rfl, hd, fun h ↦ absurd h he⟩⟩, hcause⟩
    · rw [if_pos (by simpa using he)]
      refine wp_bind (wp_modify.2 fun n ↦ wp_rethrow.2 ?_)
      exact ⟨⟨hgrown.trans hg, .inr ⟨rfl, he, s, hs⟩⟩, hcause⟩
  · obtain ⟨hg, hcase⟩ := hpost
    exact ⟨⟨hgrown.trans hg, hcase⟩, hcause⟩

/-- **Rotation.** -/
theorem wp_createActive (hview : View t V) (hdisk : OnDisk fs P V [])
    (hcan : V.length < maxSegments → CanRotate V now) :
    wp (createActive now) env (fun e fs' t' ↦
      RotatePost t fs V P now e fs' t' ∧ Blames env (RotateCause env) e fs' t') ⟨fs, n, t⟩ := by
  have hrefl := Grown.refl V fs
  unfold createActive
  refine wp_bind (wp_get.2 fun n ↦ ?_)
  refine wp_bind (wp_require (fun hcheck n ↦ ?_) fun _ ↦
    ⟨⟨hrefl, .inl ⟨rfl, hdisk, by simp⟩⟩, .inr (.inr (.inl rfl))⟩)
  simp only [Bool.and_eq_true, decide_eq_true_eq] at hcheck
  obtain ⟨⟨-, hlen⟩, hgen⟩ := hcheck
  rw [hview.segments, Log.length_summaries] at hlen
  have hactive := hview.active?_eq
  rcases V.eq_nil_or_concat with rfl | ⟨A, s, rfl⟩
  · have hnone : t.active? = none := hactive
    rw [hnone]
    exact wp_createActive_rest hview.toHandle hrefl hdisk (by simp [LastIndexed]) (hcan hlen) hgen
  · rw [concat_eq_append] at *
    cases hr : s.retired with
    | true =>
      have hnone : t.active? = none := by simp [hactive, Option.filter, hr]
      rw [hnone]
      exact wp_createActive_rest hview.toHandle hrefl hdisk (by simp [LastIndexed, hr]) (hcan hlen) hgen
    | false =>
      have hsome : t.active? = some (s.summary true) := by simp [hactive, Option.filter, hr]
      obtain ⟨d, hd, hrep, -⟩ := hview.dictionary s (by simp) hr
      have hentries := hview.index s (by simp) hr
      rw [hsome, hd]
      have hsaved {fs' : Files} (h : Agree (setFile (s.summary true).idxPath (some
          ⟨indexImage c (s.summary true) t.index.entries (definitions [] s.symbols) s.symbols.length,
            (indexImage c (s.summary true) t.index.entries (definitions [] s.symbols)
              s.symbols.length).length⟩) fs) fs') :
          Grown (A ++ [s]) fs fs' ∧ OnDisk fs' P (A ++ [s]) [] ∧ LastIndexed fs' (A ++ [s]) := by
        rw [hentries] at h
        have hrep' := replaced_of_agree (idxPath_ne_tmp s) h
        refine ⟨.indexed hdisk.ok hr hrep', hdisk.indexed hrep', fun a ha _ ↦ ?_⟩
        rw [getLast?_concat] at ha
        cases ha
        exact ⟨_, hrep'.1, rfl⟩
      refine wp_bind (installs_indexSave hrep t.index _ _ _ (fun fs' h n ↦ ?_) (fun hcalm fs' h e he ↦ ?_)
        (fun hcalm fs' h e he ↦ ?_) fun hcalm fs' h ↦ ?_)
      · obtain ⟨hg, hd', hidx⟩ := hsaved h
        exact wp_createActive_rest hview.toHandle hg hd' hidx (hcan hlen) hgen
      · refine ⟨⟨.of_agree h, .inl ⟨rfl, hdisk.of_agree h, fun hind ↦ ?_⟩⟩,
          .inl (.definite hcalm he)⟩
        rcases he with he | he <;> rw [he] at hind <;> cases hind
      · obtain ⟨hg, hd', -⟩ := hsaved h
        exact ⟨⟨hg, .inl ⟨rfl, hd', fun _ ↦ by rw [hsome]; rfl⟩⟩,
          .inl ⟨hcalm, .inr (.inr he)⟩⟩
      · refine ⟨?_, hcalm⟩
        rcases h with h | h
        · exact ⟨.of_agree h, .inl (hdisk.of_agree h)⟩
        · obtain ⟨hg, hd', -⟩ := hsaved h
          exact ⟨hg, .inl hd'⟩

end Rules

end WebAnalyticsDb
