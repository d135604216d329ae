import WebAnalyticsDb.Ledger.Disk
import WebAnalyticsDb.Storage.Tally

/-!
# The log in memory

A running process knows a log `V`, its **view**: `View t V` says that the handle `t` is the one of that
log. The view can be behind the log `L` on disk only when an operation ended with an uncertain outcome;
then the table is read-only. `Live` puts the two together.

* **A log only grows.** `Extends W V` says that `V` continues `W`: the segments of `W` are still there,
  only its last one may have more groups, and segments may have been retired.
* **Files only grow.** `Grown V fs fs'` says what an operation on the view `V` may do to the files:
  sealed segments are untouched, the last one may get longer. It is all that a reader of an earlier view
  needs (`Grown.backed`), and all that durability needs (`Grown.synced`).
-/

namespace WebAnalyticsDb

open Bytes List

variable {c : Config}

/-! ### Extension -/

/-- **`V` continues `W`.** -/
structure Extends (W V : Log c) : Prop where
  length_le : W.length ≤ V.length
  segment : ∀ i a, W[i]? = some a → ∃ b, V[i]? = some b ∧ b.id = a.id ∧ b.day = a.day ∧
    b.first = a.first ∧ (a.retired = true → b.retired = true) ∧ a.entries <+: b.entries ∧
    (i + 1 < W.length → b.entries = a.entries)

namespace Extends

variable {U V W L : Log c} {s : LogSegment c}

theorem refl (V : Log c) : Extends V V where
  length_le := le_refl _
  segment _ a ha := ⟨a, ha, rfl, rfl, rfl, id, prefix_refl _, fun _ ↦ rfl⟩

theorem trans (h : Extends W V) (h' : Extends V U) : Extends W U where
  length_le := h.length_le.trans h'.length_le
  segment i a ha := by
    obtain ⟨b, hb, hid, hday, hfirst, hret, hpre, heq⟩ := h.segment i a ha
    obtain ⟨d, hd, hid', hday', hfirst', hret', hpre', heq'⟩ := h'.segment i b hb
    refine ⟨d, hd, hid'.trans hid, hday'.trans hday, hfirst'.trans hfirst, fun hr ↦ hret' (hret hr),
      hpre.trans hpre', fun hi ↦ ?_⟩
    rw [heq' (lt_of_lt_of_le hi h.length_le), heq hi]

theorem append (L : Log c) (s : LogSegment c) (e : Entry c) :
    Extends (L ++ [s]) (L ++ [s.push e]) where
  length_le := by simp
  segment i a ha := by
    by_cases hi : i < L.length
    · rw [getElem?_append_left hi] at ha
      refine ⟨a, by rw [getElem?_append_left hi, ha], rfl, rfl, rfl, id, prefix_refl _,
        fun _ ↦ rfl⟩
    · rw [getElem?_append_right (by omega)] at ha
      have hz : i - L.length = 0 := by
        have := (List.getElem?_eq_some_iff.1 ha).1
        simpa using this
      rw [hz] at ha
      cases ha
      refine ⟨s.push e, by rw [getElem?_append_right (by omega), hz]; rfl, rfl, rfl, rfl, id,
        prefix_append _ _, fun hlt ↦ ?_⟩
      simp at hlt
      omega

theorem rotate (L : Log c) (s : LogSegment c) : Extends L (L ++ [s]) where
  length_le := by simp
  segment i a ha := by
    have hi := (List.getElem?_eq_some_iff.1 ha).1
    exact ⟨a, by rw [getElem?_append_left hi, ha], rfl, rfl, rfl, id, prefix_refl _,
      fun _ ↦ rfl⟩

theorem retire (L : Log c) (cutoff : ℤ) : Extends L (L.retire cutoff) where
  length_le := by simp [Log.retire]
  segment i a ha := by
    refine ⟨a.retire cutoff, by simp [Log.retire, ha], rfl, rfl, rfl, fun hr ↦ ?_,
      prefix_refl _, fun _ ↦ rfl⟩
    exact LogSegment.retired_retire_of_retired hr cutoff

end Extends

/-! ### Growing files -/

/-- **What an operation on the view `V` may do to the files.** -/
structure Grown (V : Log c) (fs fs' : Files) : Prop where
  sealed : ∀ s ∈ V.dropLast, fs' s.segPath = fs s.segPath ∧ fs' s.idxPath = fs s.idxPath
  active : ∀ s ∈ V.getLast?, ∀ f, fs s.segPath = some f →
    ∃ f', fs' s.segPath = some f' ∧ f.data <+: f'.data ∧ min f.synced f.data.length ≤ f'.synced
  /-- A last segment that is retired is not written any more. -/
  ended : ∀ s ∈ V.getLast?, s.retired = true →
    fs' s.segPath = fs s.segPath ∧ fs' s.idxPath = fs s.idxPath

namespace Grown

variable {V W : Log c} {fs fs' fs'' : Files}

theorem of_same (h : ∀ s ∈ V, fs' s.segPath = fs s.segPath ∧ fs' s.idxPath = fs s.idxPath) :
    Grown V fs fs' where
  sealed s hs := h s (mem_of_mem_dropLast hs)
  active s hs f hf :=
    ⟨f, by rw [(h s (mem_of_getLast? hs)).1, hf], prefix_refl _, min_le_left _ _⟩
  ended s hs _ := h s (mem_of_getLast? hs)

theorem of_agree (h : Agree fs fs') : Grown V fs fs' :=
  of_same fun s _ ↦ ⟨h _ (segPath_ne_tmp s), h _ (idxPath_ne_tmp s)⟩

theorem refl (V : Log c) (fs : Files) : Grown V fs fs := of_agree (Agree.refl fs)

theorem trans (h : Grown V fs fs') (h' : Grown V fs' fs'') : Grown V fs fs'' where
  sealed s hs := ⟨(h'.sealed s hs).1.trans (h.sealed s hs).1, (h'.sealed s hs).2.trans (h.sealed s hs).2⟩
  active s hs f hf := by
    obtain ⟨f', hf', hpre, hsync⟩ := h.active s hs f hf
    obtain ⟨f'', hf'', hpre', hsync'⟩ := h'.active s hs f' hf'
    refine ⟨f'', hf'', hpre.trans hpre', le_trans (le_min hsync ?_) hsync'⟩
    exact (min_le_right _ _).trans hpre.length_le
  ended s hs hr :=
    ⟨(h'.ended s hs hr).1.trans (h.ended s hs hr).1, (h'.ended s hs hr).2.trans (h.ended s hs hr).2⟩

end Grown

section Readers

variable {V W : Log c} {fs fs' : Files}

/-- A segment of an earlier view, seen in the present one: it is sealed there, or it is the last one of
both. -/
theorem Extends.cases_mem (h : Extends W V) {i : ℕ} {a : LogSegment c} (ha : W[i]? = some a) :
    (∃ b ∈ V.dropLast, b.segPath = a.segPath ∧ b.idxPath = a.idxPath) ∨
      (i + 1 = W.length ∧ ∃ b ∈ V.getLast?, b.segPath = a.segPath) := by
  have hi := (List.getElem?_eq_some_iff.1 ha).1
  have hle := h.length_le
  obtain ⟨b, hb, hid, hday, -⟩ := h.segment i a ha
  have hseg : b.segPath = a.segPath := by rw [LogSegment.segPath, LogSegment.segPath, hid, hday]
  have hidx : b.idxPath = a.idxPath := by rw [LogSegment.idxPath, LogSegment.idxPath, hid, hday]
  by_cases hlast : i + 1 = V.length
  · refine .inr ⟨by omega, b, ?_, hseg⟩
    rw [getLast?_eq_getElem?, ← hlast]
    exact hb
  · have hlt : i < V.dropLast.length := by
      have := (List.getElem?_eq_some_iff.1 hb).1
      rw [length_dropLast]
      omega
    refine .inl ⟨b, mem_of_getElem? (i := i) ?_, hseg, hidx⟩
    rw [getElem?_dropLast, if_pos (by rwa [length_dropLast] at hlt), hb]

/-- **Readers of an earlier view are not disturbed.** -/
theorem Grown.backed (hg : Grown V fs fs') (hext : Extends W V) (h : Backed fs W) :
    Backed fs' W where
  sealed s hs hr := by
    obtain ⟨i, hi⟩ := mem_iff_getElem?.1 hs
    rw [getElem?_dropLast] at hi
    split at hi
    next hlt =>
      rcases hext.cases_mem hi with ⟨b, hb, hseg, hidx⟩ | ⟨hlast, -⟩
      · have := hg.sealed b hb
        rw [hseg, hidx] at this
        exact (h.sealed s hs hr).congr this.1 this.2
      · omega
    next => cases hi
  active s hs hr := by
    obtain ⟨f, hf, hpre⟩ := h.active s hs hr
    have hi : W[W.length - 1]? = some s := by rwa [← getLast?_eq_getElem?]
    rcases hext.cases_mem hi with ⟨b, hb, hseg, -⟩ | ⟨-, b, hb, hseg⟩
    · have := (hg.sealed b hb).1
      rw [hseg] at this
      exact ⟨f, by rw [this, hf], hpre⟩
    · obtain ⟨f', hf', hpre', -⟩ := hg.active b hb f (by rw [hseg, hf])
      exact ⟨f', by rw [← hseg, hf'], hpre.trans hpre'⟩

/-- **What was covered by a sync stays covered.** -/
theorem Grown.synced (hg : Grown V fs fs') (hext : Extends W V) (hb : Backed fs W)
    (h : Synced fs W) : Synced fs' W := by
  intro s hs hr f' hf'
  obtain ⟨i, hi⟩ := mem_iff_getElem?.1 hs
  have hlt := (List.getElem?_eq_some_iff.1 hi).1
  rcases hext.cases_mem hi with ⟨b, hbmem, hseg, -⟩ | ⟨hlast, b, hbmem, hseg⟩
  · have := (hg.sealed b hbmem).1
    rw [hseg] at this
    exact h s hs hr f' (by rw [← this, hf'])
  · have hget : W.getLast? = some s := by
      rw [getLast?_eq_getElem?, ← hlast]
      exact hi
    obtain ⟨f, hf, hpre⟩ := hb.active s hget hr
    obtain ⟨f'', hf'', -, hsync⟩ := hg.active b hbmem f (by rw [hseg, hf])
    rw [hseg, hf'] at hf''
    cases hf''
    refine (le_min (h s hs hr f hf) ?_).trans hsync
    rw [← s.length_image]
    exact hpre.length_le

end Readers

/-- A manifest that lags behind records an earlier log. -/
theorem Lag.extends {P L : Log c} (h : Lag P L) : Extends P L := by
  cases h with
  | refl => exact .refl _
  | appended A s es hs =>
    refine ⟨by simp, fun i a ha ↦ ?_⟩
    by_cases hi : i < A.length
    · rw [getElem?_append_left hi] at ha
      exact ⟨a, by rw [getElem?_append_left hi, ha], rfl, rfl, rfl, id, prefix_refl _,
        fun _ ↦ rfl⟩
    · rw [getElem?_append_right (by omega)] at ha
      have hz : i - A.length = 0 := by
        have := (List.getElem?_eq_some_iff.1 ha).1
        simpa using this
      rw [hz] at ha
      cases ha
      refine ⟨{ s with entries := s.entries ++ es }, by
        rw [getElem?_append_right (by omega), hz]; rfl, rfl, rfl, rfl, id,
        prefix_append _ _, fun hlt ↦ ?_⟩
      simp at hlt
      omega

theorem prefix_framesBytes (S : Symbols) (first : ℕ) (gs gs' : List (Group c)) :
    framesBytes (framesFrom S first gs) <+: framesBytes (framesFrom S first (gs ++ gs')) := by
  rw [framesFrom_append, framesBytes_append]
  exact prefix_append _ _

/-- The bytes of a segment are the beginning of those it has later. -/
theorem LogSegment.prefix_image (s : LogSegment c) (es : List (Entry c)) :
    s.image <+: ({ s with entries := s.entries ++ es } : LogSegment c).image := by
  have hgroups : ({ s with entries := s.entries ++ es } : LogSegment c).groups =
      s.groups ++ es.map Entry.group := map_append
  unfold LogSegment.image LogSegment.frames
  rw [hgroups]
  exact (prefix_append_right_inj _).2 (prefix_framesBytes _ _ _ _)

variable {fs : Files} {A : Log c} {s : LogSegment c}

/-- The rows that the manifest records are there. -/
theorem OnDisk.backed_recorded {P L : Log c} {tail : Bytes} (h : OnDisk fs P L tail) : Backed fs P := by
  have hlag := h.lag
  cases hlag with
  | refl => exact h.backed
  | appended A s es hs =>
    refine ⟨fun a ha har ↦ ?_, fun a ha har ↦ ?_⟩
    · rw [dropLast_concat] at ha
      exact h.sealed a (by rwa [dropLast_concat]) har
    · rw [getLast?_concat] at ha
      cases ha
      obtain ⟨f, hf, hdata⟩ := h.active { s with entries := s.entries ++ es } (by simp) hs
      refine ⟨f, hf, ?_⟩
      rw [hdata]
      exact (s.prefix_image es).trans (prefix_append _ _)

theorem synced_concat : Synced fs (A ++ [s]) ↔
    Synced fs A ∧ (s.retired = false → ∀ f, fs s.segPath = some f → s.size ≤ f.synced) := by
  constructor
  · exact fun h ↦ ⟨fun a ha ↦ h a (mem_append_left _ ha), h s (by simp)⟩
  · rintro ⟨hA, hs⟩ a ha
    rcases mem_append.1 ha with ha | ha
    · exact hA a ha
    · rw [mem_singleton.1 ha]
      exact hs

/-- Segments before the last one keep what was covered by a sync. -/
theorem Grown.synced_front {fs' : Files}
    (hg : Grown (A ++ [s]) fs fs') (h : Synced fs A) : Synced fs' A := by
  intro a ha har f hf
  rw [(hg.sealed a (by rwa [dropLast_concat])).1] at hf
  exact h a ha har f hf

/-- Growth behind a segment that is sealed is growth. -/
theorem Grown.of_concat {fs' : Files} (hg : Grown (A ++ [s]) fs fs') : Grown A fs fs' :=
  .of_same fun a ha ↦ hg.sealed a (by rwa [dropLast_concat])

/-! ### The handle of a log -/

/-- The segment has rows that a reader can see. -/
def LogSegment.visible (s : LogSegment c) : Bool := !s.retired && !s.entries.isEmpty

/-- The positions of the visible segments, counted from `i` on. -/
def Log.visibleFrom : ℕ → Log c → List ℕ
  | _, [] => []
  | i, s :: L => if s.visible then i :: visibleFrom (i + 1) L else visibleFrom (i + 1) L

theorem Log.visibleFrom_append (i : ℕ) (L L' : Log c) :
    visibleFrom i (L ++ L') = visibleFrom i L ++ visibleFrom (i + L.length) L' := by
  induction L generalizing i with
  | nil => rfl
  | cons s L ih =>
    rw [cons_append, visibleFrom, visibleFrom, ih, length_cons, add_assoc,
      add_comm 1]
    split <;> rfl

theorem Log.length_visibleFrom_le (i : ℕ) (L : Log c) : (L.visibleFrom i).length ≤ L.length := by
  induction L generalizing i with
  | nil => exact le_rfl
  | cons s L ih =>
    have := ih (i + 1)
    rw [Log.visibleFrom, length_cons]
    split
    · rw [length_cons]
      omega
    · omega

/-- The dictionary of the segment that is being written stands for `S`. -/
def Holds (c : Config) (dictionary : Option Dictionary) (S : Symbols) : Prop :=
  ∃ d, dictionary = some d ∧ d.Rep S ∧ d.schema = c.schema ∧
    d.limit = c.options.dictionaryLimitBytes

/-- **Rolling back** the symbols of a group. -/
theorem Holds.rollback {dictionary : Option Dictionary} {S T : Symbols}
    (h : Holds c dictionary (S ++ T)) : Holds c (dictionary.map (·.rollback S.length)) S := by
  obtain ⟨d, rfl, hrep, hschema, hlimit⟩ := h
  obtain ⟨hrep', hschema', hlimit'⟩ := hrep.rollback
  exact ⟨_, rfl, hrep', hschema'.trans hschema, hlimit'.trans hlimit⟩

/-- The number of rows of a segment, by its record. -/
theorem LogSegment.Ok.rows_summary {seq : ℕ} {time : ℤ} (h : s.Ok seq time)
    (b : Bool) : (s.summary b).rows = s.count := by
  show (if s.last = 0 then 0 else s.last - s.first + 1) = s.count
  by_cases hne : s.entries = []
  · rw [if_pos (h.last_eq_zero.2 hne), h.count_eq_zero.2 hne]
  · have hpos := h.count_pos hne
    rw [if_neg fun h0 ↦ hne (h.last_eq_zero.1 h0), LogSegment.last_eq hne]
    omega

/-- **The handle of a log**, its dictionary apart. -/
structure Handle (t : Table c) (V : Log c) : Prop where
  ok : V.Ok
  segments : t.segments = V.summaries
  next : t.nextSegmentId = V.next
  preservedSequence : t.preservedSequence = V.preserved.1
  preservedTime : t.preservedTime = V.preserved.2
  lastSequence : t.lastSequence = V.total
  lastTime : t.lastTime = V.time
  retentionUs : t.retentionUs ≤ int64Max
  generation : 0 < t.manifestGeneration ∧ t.manifestGeneration < 2 ^ 64
  readable : t.readableSegments = V.visibleFrom 0
  fd : ∀ s ∈ V.getLast?, s.retired = false → t.activeFd = some s.segPath
  index : ∀ s ∈ V.getLast?, s.retired = false → t.index.entries = s.index
  tallied : t.Tallied

/-- The fields that the log determines. -/
def Table.shown (t : Table c) :=
  (t.segments, t.nextSegmentId, t.preservedSequence, t.preservedTime, t.lastSequence, t.lastTime,
    t.retentionUs, t.manifestGeneration, t.readableSegments, t.activeFd, t.index.entries,
    t.retainedRows, t.retainedBytes, t.retainedSegments, t.retiredSegments)

/-- **The handle of a log.** -/
structure View (t : Table c) (V : Log c) : Prop extends Handle t V where
  dictionary : ∀ s ∈ V.getLast?, s.retired = false → Holds c t.dictionary s.symbols

/-- **A running process and the files.** -/
structure Live (t : Table c) (fs : Files) (V P L : Log c) (tail : Bytes) : Prop where
  view : View t V
  disk : OnDisk fs P L tail
  backed : Backed fs V
  ext : Extends V L
  current : t.frozen = false → V = L ∧ tail = []

namespace Handle

variable {t t' : Table c} {V : Log c}

theorem manifest_eq (h : Handle t V) :
    t.manifest = V.manifest t.retentionUs t.manifestGeneration := by
  simp only [Table.manifest, Log.manifest, h.next, h.preservedSequence, h.preservedTime, h.segments]

/-- The handle is that of its log whatever its other fields are. -/
theorem congr (h : Handle t V) (hshown : t'.shown = t.shown) : Handle t' V := by
  simp only [Table.shown, Prod.mk.injEq] at hshown
  obtain ⟨hsegments, hnext, hseq, htime, hlast, hlastTime, hret, hgen, hreadable, hfd, hindex, hrest⟩ :=
    hshown
  exact ⟨h.ok, hsegments.trans h.segments, hnext.trans h.next, hseq.trans h.preservedSequence,
    htime.trans h.preservedTime, hlast.trans h.lastSequence, hlastTime.trans h.lastTime,
    hret ▸ h.retentionUs, hgen ▸ h.generation, hreadable.trans h.readable,
    fun s hs hr ↦ hfd.trans (h.fd s hs hr), fun s hs hr ↦ hindex.trans (h.index s hs hr),
    h.tallied.congr hsegments (by simp only [hrest])⟩

/-- The active segment of the handle. -/
theorem active?_eq (h : Handle t V) :
    t.active? = (V.getLast?.filter fun s ↦ !s.retired).map (·.summary true) := by
  rw [Table.active?, h.segments, Log.getLast?_summaries]
  cases V.getLast? with
  | none => rfl
  | some s =>
    cases hr : s.retired <;>
      simp [Option.filter, LogSegment.summary, LogSegment.state, hr]

/-- A handle with an active segment. -/
theorem active?_some (h : Handle t V) {m : SegmentMeta} (hm : t.active? = some m) :
    ∃ A s, V = A ++ [s] ∧ s.retired = false ∧ m = s.summary true := by
  rw [h.active?_eq] at hm
  obtain ⟨s, hs, rfl⟩ := Option.map_eq_some_iff.1 hm
  obtain ⟨hlast, hr⟩ := Option.filter_eq_some_iff.1 hs
  obtain ⟨A, rfl⟩ := getLast?_eq_some_iff.1 hlast
  exact ⟨A, s, rfl, by simpa using hr, rfl⟩

end Handle

end WebAnalyticsDb
