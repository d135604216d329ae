import WebAnalyticsDb.System.Uncertain

/-!
# Publication and durability

A byte is **durable** when a successful sync covers it. What a process publishes, and what an installed
manifest records, is meant to be durable. Appends, rotations, policies and retention see to that, also
when their calls fail or the process ends in the middle; recovery does not.

* **What recovery adopts.** A complete frame behind the recorded end of the active segment is taken over
  as it is found. If the append that wrote it could not synchronize the file, or did not come to it, then
  nothing does: `truncateTail` synchronizes only a file from which it has cut something off.
* **The condition.** `TailSettled` says of the files, before the table is opened, that the active segment
  is covered as a whole or ends inside a frame. `published_durable` holds for every run that opens the
  table only then, with any failures otherwise.
* **Process failures only.** A crash leaves the files as they are, with what is covered and what is not.
-/

namespace WebAnalyticsDb

open Bytes List

variable {c : Config}

/-! ### The property -/

/-- What the record says is committed is there and covered by a sync. -/
def SegmentMeta.DurableIn (fs : Files) (m : SegmentMeta) : Prop :=
  m.state ≠ .retired → ∃ f, fs m.segPath = some f ∧ m.committedBytes ≤ f.data.length ∧
    m.committedBytes ≤ f.synced

/-- **Everything published is durable**: the records of the process, those its readers hold, and those of
the installed manifest. -/
structure Site.PublishedDurable (s : Site c) : Prop where
  process : ∀ t, s.process = some t → ∀ m ∈ t.segments, m.DurableIn s.files
  /-- A reader may hold an older record of a segment that is still live. -/
  readers : ∀ t, s.process = some t → ∀ S ∈ s.snapshots, ∀ m ∈ S.segments, ∀ r ∈ t.segments,
    r.id = m.id → r.state ≠ .retired → m.DurableIn s.files
  manifest : ∃ (m : Manifest) (f : File), s.files .manifest = some f ∧ f.data = m.image c.id ∧
    m.Ok ∧ ∀ r ∈ m.segments, r.DurableIn s.files

/-- The active segment ends inside a frame, or is covered as a whole. -/
def TailSettled (c : Config) (fs : Files) : Prop :=
  ∀ (P L : Log c) (tail : Bytes), OnDisk fs P L tail → tail = [] → ∀ s ∈ L.getLast?,
    s.retired = false → ∀ f, fs s.segPath = some f → s.size ≤ f.synced

/-- **What can be reached** when the table is opened only with a settled tail. -/
inductive ReachSettled : Site c → Prop
  | created (retentionUs : ℕ) (h : retentionUs ≤ int64Max) : ReachSettled (.created c retentionUs)
  | step {s : Site c} (h : ReachSettled s) (env : Env Path Dir) (a : Action c) (ha : s.Admits a)
      (hopen : a = .reopen → s.process = none → TailSettled c s.files) : ReachSettled (s.step env a)

theorem ReachSettled.reach {s : Site c} (h : ReachSettled s) : Reach s := by
  induction h with
  | created retentionUs h => exact .created retentionUs h
  | step _ env a ha _ ih => exact .step ih env a ha

/-! ### Logs -/

section Logs

variable {fs fs' : Files} {P L W : Log c} {tail : Bytes}

theorem Backed.exists_image (h : Backed fs W) {a : LogSegment c} (ha : a ∈ W) (hr : a.retired = false) :
    ∃ f, fs a.segPath = some f ∧ a.image <+: f.data := by
  obtain ⟨A, s, rfl⟩ := eq_nil_or_concat' W |>.resolve_left (ne_nil_of_mem ha)
  rcases mem_append.1 ha with hA | hs
  · obtain ⟨⟨f, hf, hdata⟩, -⟩ := h.sealed a (by rwa [dropLast_concat]) hr
    exact ⟨f, hf, hdata ▸ prefix_rfl⟩
  · exact h.active a (by simp [mem_singleton.1 hs]) hr

theorem LogSegment.size_le_of_prefix {a b : LogSegment c} (hfirst : b.first = a.first)
    (hpre : a.entries <+: b.entries) : a.size ≤ b.size := by
  obtain ⟨es, hes⟩ := hpre
  have hb : b.size = ({ a with entries := a.entries ++ es } : LogSegment c).size := by
    simp only [LogSegment.size, LogSegment.frames, LogSegment.groups, hfirst, hes]
  rw [hb, ← LogSegment.length_image, ← LogSegment.length_image]
  exact (a.prefix_image es).length_le

/-- A snapshot has records of the table it was taken of. -/
theorem Table.mem_readable_of_mem_chosen {t : Table c} {o : Option ScanOptions} {m : SegmentMeta}
    (h : m ∈ t.chosen o) : m ∈ t.readable := by
  unfold Table.chosen at h
  split at h
  · cases h
  · exact mem_of_mem_drop (mem_of_mem_take h)

theorem Table.mem_of_mem_readable {t : Table c} {m : SegmentMeta} (h : m ∈ t.readable) :
    m ∈ t.segments := by
  obtain ⟨i, -, hi⟩ := mem_filterMap.1 h
  exact mem_of_getElem? hi

/-- The records of a log that is covered are durable. -/
theorem Synced.durableIn (h : Synced fs W) (hb : Backed fs W) :
    ∀ m ∈ W.summaries, m.DurableIn fs := by
  intro m hm hstate
  obtain ⟨a, ha, b, rfl⟩ := summaries_mem hm
  have hr : a.retired = false :=
    Bool.eq_false_iff.2 fun hr ↦ hstate (LogSegment.state_eq_retired.2 hr)
  obtain ⟨f, hf, hpre⟩ := hb.exists_image ha hr
  exact ⟨f, hf, a.length_image.symm.trans_le hpre.length_le, h a ha hr f hf⟩

/-- What was recorded stays covered when the files are repaired. -/
theorem Covered.synced_recorded (h : Covered L fs fs') (hlag : Lag P L) (hsync : Synced fs P) :
    Synced fs' P := by
  cases hlag with
  | refl => exact h.synced hsync
  | appended A s es hs =>
    obtain ⟨hA, hlast⟩ := synced_concat.1 hsync
    refine synced_concat.2 ⟨fun a ha hr f' hf' ↦ ?_, fun hr f' hf' ↦ ?_⟩
    · obtain ⟨f, hf, hle⟩ := h a (mem_append_left _ ha) hr f' hf'
      exact (le_min (hA a ha hr f hf) le_rfl).trans hle
    · -- the segment has more frames now, and its recorded part is covered
      obtain ⟨f, hf, hle⟩ := h { s with entries := s.entries ++ es } (by simp) hr f' hf'
      have hsize : s.size ≤ ({ s with entries := s.entries ++ es } : LogSegment c).size :=
        LogSegment.size_le_of_prefix rfl (prefix_append _ _)
      exact (le_min (hlast hr f hf) hsize).trans hle

/-- **A settled tail**: once the table is open, everything is covered. -/
theorem Covered.synced_settled (h : Covered L fs fs') (hlag : Lag P L) (hsync : Synced fs P)
    (htail : TailSynced L tail fs')
    (hsettled : tail = [] → ∀ s ∈ L.getLast?, s.retired = false → ∀ f, fs s.segPath = some f →
      s.size ≤ f.synced) : Synced fs' L := by
  have hrecorded := h.synced_recorded hlag hsync
  cases hlag with
  | refl => exact hrecorded
  | appended A s es hs =>
    refine synced_concat.2 ⟨(synced_concat.1 hrecorded).1, fun hr f' hf' ↦ ?_⟩
    by_cases hnil : tail = []
    · obtain ⟨f, hf, hle⟩ := h { s with entries := s.entries ++ es } (by simp) hr f' hf'
      exact (le_min (hsettled hnil _ (by simp) hr f hf) le_rfl).trans hle
    · exact htail hnil _ (by simp) hr f' hf'

/-- Equal images, equal records. -/
theorem Manifest.Ok.segments_eq {m m' : Manifest} (h : m.Ok) (h' : m'.Ok)
    (himage : m.image c.id = m'.image c.id) : m.segments = m'.segments := by
  have hid : c.id < 2 ^ 64 := c.id_bounds.2.trans (by decide)
  obtain ⟨-, -, hlen, hloop, -⟩ := h.readback hid
  obtain ⟨-, -, hlen', hloop', -⟩ := h'.readback hid
  rw [← hlen, himage, hlen', hloop'] at hloop
  exact (Option.some.inj hloop).symm

/-- The files determine which segment is the active one. -/
theorem OnDisk.getLast?_eq {P' L' : Log c} {tail' : Bytes} (h : OnDisk fs P L tail)
    (h' : OnDisk fs P' L' tail') : L.getLast?.map (fun s ↦ (s.segPath, s.retired)) =
      L'.getLast?.map fun s ↦ (s.segPath, s.retired) := by
  have hstate (s : LogSegment c) : s.retired = decide ((s.summary true).state = .retired) :=
    Bool.eq_iff_iff.2 (LogSegment.state_eq_retired.symm.trans decide_eq_true_iff.symm)
  have hlast {P L : Log c} (hlag : Lag P L) : L.getLast?.map (fun s ↦ (s.segPath, s.retired)) =
      P.summaries.getLast?.map fun m ↦ (m.segPath, decide (m.state = .retired)) := by
    cases hlag with
    | refl =>
      rw [Log.getLast?_summaries, Option.map_map]
      exact congrArg (P.getLast?.map ·) (funext fun s ↦ Prod.ext rfl (hstate s))
    | appended A s es hs =>
      rw [Log.getLast?_summaries, getLast?_concat, getLast?_concat]
      exact congrArg (fun b ↦ some (s.segPath, b)) (hstate s)
  obtain ⟨f, r, g, hf, hdata, hr, hg⟩ := h.recorded
  obtain ⟨f', r', g', hf', hdata', hr', hg'⟩ := h'.recorded
  obtain rfl : f = f' := Option.some.inj (hf.symm.trans hf')
  have hsegments : P.summaries = P'.summaries :=
    (h.okP.manifest_ok hr hg).segments_eq (h'.okP.manifest_ok hr' hg') (hdata.symm.trans hdata')
  rw [hlast h.lag, hlast h'.lag, hsegments]

/-- **A process that is not frozen leaves a settled tail**, whenever it ends between two calls. -/
theorem Live.tailSettled {t : Table c} {V : Log c} (h : Live t fs V P L tail)
    (hfrozen : t.frozen = false) (hsync : Synced fs V) : TailSettled c fs := by
  intro P' L' tail' hdisk hnil s hs hr f hf
  obtain ⟨rfl, rfl⟩ := h.current hfrozen
  have hlast := h.disk.getLast?_eq hdisk
  rw [Option.mem_def.1 hs] at hlast
  obtain ⟨a, ha, heq⟩ := Option.map_eq_some_iff.1 hlast
  obtain ⟨hpath, hret⟩ := Prod.mk.inj heq
  -- both logs have the whole file for the image of their last segment
  obtain ⟨f₁, hf₁, hdata₁⟩ := h.disk.active a ha (hret.trans hr)
  obtain ⟨f₂, hf₂, hdata₂⟩ := hdisk.active s hs hr
  rw [hpath] at hf₁
  obtain rfl : f₁ = f := Option.some.inj (hf₁.symm.trans hf)
  obtain rfl : f₂ = f₁ := Option.some.inj (hf₂.symm.trans hf)
  have hsize : s.size = a.size := by
    rw [← s.length_image, ← a.length_image, ← append_nil s.image, ← append_nil a.image,
      ← hnil, ← hdata₂, hdata₁, hnil]
  rw [hsize]
  exact hsync a (mem_of_mem_getLast? ha) (hret.trans hr) f₂ (by rw [hpath]; exact hf)

end Logs

/-! ### The invariant -/

/-- **The invariant**: the process and the manifest know logs that are covered. -/
structure Site.Kept (s : Site c) (P L : Log c) (tail : Bytes) : Prop where
  disk : OnDisk s.files P L tail
  synced : Synced s.files P
  serves : ∀ t, s.process = some t → ∃ V, Live t s.files V P L tail ∧ Durable s.files V P

namespace Site.Kept

variable {s : Site c} {t : Table c} {P P' L L' : Log c} {tail tail' : Bytes}

theorem process (h : s.Kept P L tail) (ht : s.process = some t) :
    ∀ m ∈ t.segments, m.DurableIn s.files := by
  obtain ⟨V, hlive, hdurable⟩ := h.serves t ht
  rw [hlive.view.segments]
  exact hdurable.1.durableIn hlive.backed

/-- An older record of a segment does not reach further than the record of the process. -/
theorem readers (h : s.Kept P L tail) (hat : s.At P' L' tail') (ht : s.process = some t) {S : Snapshot}
    (hS : S ∈ s.snapshots) {m r : SegmentMeta} (hm : m ∈ S.segments) (hr : r ∈ t.segments)
    (hid : r.id = m.id) (hstate : r.state ≠ .retired) : m.DurableIn s.files := by
  obtain ⟨V, hserves⟩ := hat.serves t ht
  obtain ⟨W, hext, -, t₀, o, hview, rfl⟩ := hserves.pinned S hS
  have hmem : m ∈ W.summaries := hview.segments ▸ Table.mem_of_mem_readable (Table.mem_readable_of_mem_chosen hm)
  obtain ⟨a, ha, x, rfl⟩ := summaries_mem hmem
  obtain ⟨i, hi⟩ := getElem?_of_mem ha
  obtain ⟨b, hb, hbid, hbday, hfirst, -, hpre, -⟩ := hext.segment i a hi
  have hbV : b ∈ V := mem_of_getElem? hb
  have hrV : r ∈ V.summaries := hserves.live.view.segments ▸ hr
  obtain ⟨d, hd, y, rfl⟩ := summaries_mem hrV
  obtain rfl : d = b := hserves.live.view.ok.1.eq_of_id hd hbV (hid.trans hbid.symm)
  obtain ⟨f, hf, hlen, hsync⟩ := h.process ht _ hr hstate
  have hpath : (a.summary x).segPath = (d.summary y).segPath := by
    simp [SegmentMeta.segPath, LogSegment.summary, hbid, hbday]
  have hsize : a.size ≤ d.size := LogSegment.size_le_of_prefix hfirst hpre
  exact fun _ ↦ ⟨f, hpath ▸ hf, hsize.trans hlen, hsize.trans hsync⟩

theorem published (h : s.Kept P L tail) (hat : s.At P' L' tail') : s.PublishedDurable where
  process _ ht := h.process ht
  readers _ ht _ hS _ hm _ hr := h.readers hat ht hS hm hr
  manifest := by
    obtain ⟨f, retentionUs, generation, hfile, hdata, hret, hgen⟩ := h.disk.recorded
    exact ⟨_, f, hfile, hdata, h.disk.okP.manifest_ok hret hgen,
      h.synced.durableIn h.disk.backed_recorded⟩

end Site.Kept

/-- **What is known is covered**, by the process and by the manifest, together with the invariant of the
site. -/
theorem ReachSettled.covered {s : Site c} (h : ReachSettled s) : ∃ P L tail, s.At P L tail ∧
    Synced s.files P ∧ ∀ t, s.process = some t → ∃ V, s.Serves t V P L tail ∧ Durable s.files V P := by
  induction h with
  | created retentionUs h =>
    have hat := Site.at_created (c := c) h
    refine ⟨[], [], [], hat, nofun, fun t ht ↦ ?_⟩
    obtain ⟨V, hserves⟩ := hat.serves t ht
    obtain rfl : V = [] := length_eq_zero_iff.1 (Nat.le_zero.1 hserves.live.ext.length_le)
    exact ⟨[], hserves, nofun, nofun⟩
  | @step s _ env a ha hopen ih =>
    obtain ⟨P, L, tail, hat, hsync, hserves⟩ := ih
    cases hp : s.process with
    | none =>
      by_cases hreopen : a = .reopen
      · subst hreopen
        obtain ⟨tail', hat', hcovered, hserves'⟩ := hat.reopen hp env
        have hP := hcovered.synced_recorded hat.disk.lag hsync
        refine ⟨P, L, tail', hat', hP, fun t ht ↦ ?_⟩
        obtain ⟨hserve, htail⟩ := hserves' t ht
        have hL := hcovered.synced_settled hat.disk.lag hsync htail (hopen rfl hp P L tail hat.disk)
        exact ⟨L, hserve, hL, hP⟩
      · rw [Site.step_idle hp env hreopen]
        exact ⟨P, L, tail, hat, hsync, hserves⟩
    | some t =>
      obtain ⟨V, hserve, hdurable⟩ := hserves t hp
      have hleads := hserve.leads hp hat.explains ha env
      rw [Site.step_serve hp]
      generalize s.serve env t a = s' at hleads ⊢
      cases hleads with
      | alive hp' hserve' hL' hdur =>
        refine ⟨_, _, _, hserve'.at hp' hL', (hdur hdurable).2, fun t' ht' ↦ ?_⟩
        cases hp'.symm.trans ht'
        exact ⟨_, hserve', hdur hdurable⟩
      | dead hdisk hL' hsync' =>
        exact ⟨_, _, _, .dead hdisk hL', hsync' hdurable, fun _ ht' ↦ by cases ht'⟩

theorem ReachSettled.kept {s : Site c} (h : ReachSettled s) : ∃ P L tail, s.Kept P L tail := by
  obtain ⟨P, L, tail, hat, hsync, hserves⟩ := h.covered
  refine ⟨P, L, tail, hat.disk, hsync, fun t ht ↦ ?_⟩
  obtain ⟨V, hserve, hdurable⟩ := hserves t ht
  exact ⟨V, hserve.live, hdurable⟩

/-- **Publication follows durability** in every run that opens the table only with a settled tail. -/
theorem published_durable {s : Site c} (h : ReachSettled s) : s.PublishedDurable := by
  obtain ⟨P, L, tail, hkept⟩ := h.kept
  obtain ⟨P', L', tail', hat⟩ := h.reach.at
  exact hkept.published hat

namespace Site

theorem reachSettled_firstDay : ReachSettled firstDay :=
  .step (.created 0 (by decide)) _ _ (fun t ht _ ↦ by cases ht; decide) fun h ↦ by cases h

/-- The process ends and the table is opened again. -/
def restart (s : Site c) : Site c := (s.step (.still Path Dir) .crash).step (.still Path Dir) .reopen

/-- A process that ends after an append, and the next one. -/
theorem published_durable_restart : firstDay.restart.process.isSome = true ∧
    firstDay.restart.PublishedDurable := by
  have hprocess : (firstDay.process.map Table.frozen) = some false := by decide +kernel
  obtain ⟨t, ht, hfrozen⟩ := Option.map_eq_some_iff.1 hprocess
  have hcrashed : (firstDay.step (.still Path Dir) .crash).files = firstDay.files := by
    unfold step
    rw [ht]
    rfl
  have hsettled : TailSettled hits (firstDay.step (.still Path Dir) .crash).files := by
    obtain ⟨P, L, tail, hkept⟩ := reachSettled_firstDay.kept
    obtain ⟨V, hlive, hdurable⟩ := hkept.serves t ht
    rw [hcrashed]
    exact hlive.tailSettled hfrozen hdurable.1
  have hreach : ReachSettled firstDay.restart :=
    .step (.step reachSettled_firstDay _ .crash trivial nofun) _ .reopen trivial fun _ _ ↦ hsettled
  exact ⟨by decide +kernel, published_durable hreach⟩

/-! ### A frame that no sync covers -/

/-- The synchronization of a segment is refused. -/
def syncRefused : Env Path Dir := refusing fun call ↦ call matches .sync (.seg _ _)

/-- The second append of the first day could not be synchronized. -/
def unsynced : Site hits := firstDay.step syncRefused (.commit [hit 1 (by decide)])

/-- The record of the process reaches further than the sync. -/
def uncovered (s : Site c) : Bool := s.process.any fun t ↦ t.segments.any fun m ↦
  decide (m.state ≠ .retired) && (s.files m.segPath).all fun f ↦ decide (f.synced < m.committedBytes)

theorem not_publishedDurable_of_uncovered {s : Site c} (h : s.uncovered = true) :
    ¬ s.PublishedDurable := by
  intro hpub
  obtain ⟨t, ht, hany⟩ := (Option.any_eq_true _ _).1 h
  obtain ⟨m, hm, hshort⟩ := any_eq_true.1 hany
  rw [Bool.and_eq_true, decide_eq_true_iff] at hshort
  obtain ⟨f, hf, -, hsync⟩ := hpub.process t ht m hm hshort.1
  have hlt := hshort.2
  rw [hf, Option.all_some, decide_eq_true_iff] at hlt
  exact absurd hsync (Nat.not_le.2 hlt)

/-- **Recovery publishes what it finds.** The append is reported as uncertain and the process ends. The
next one adopts the complete frame, which no sync covers. -/
theorem restart_unsynced : Reach unsynced.restart ∧ ¬ unsynced.restart.PublishedDurable := by
  have hlast : firstDay.process.map Table.lastTime = some 0 := by decide +kernel
  have hunsynced : Reach unsynced := by
    refine .step reachSettled_firstDay.reach _ _ fun t ht _ ↦ ?_
    rw [ht] at hlast
    have htime : t.lastTime = 0 := Option.some.inj hlast
    rw [htime]
    decide
  exact ⟨.step (.step hunsynced _ .crash trivial) _ .reopen trivial,
    not_publishedDurable_of_uncovered (by decide +kernel)⟩

end Site

end WebAnalyticsDb
