import WebAnalyticsDb.Ledger.Commit

/-!
# Retention

What the policy functions do to the log. Setting the policy writes a manifest that records the log as it
is. Applying it retires the segments that have expired: the manifest is the commit point, the files are
removed afterwards when no reader is there, and then only those of retired segments.
-/

namespace WebAnalyticsDb

open Bytes List

variable {c : Config}

/-! ### Removing files -/

/-- Only files of retired segments were removed. -/
def Cleaned (V : Log c) (fs fs' : Files) : Prop :=
  ∀ p, (∀ a ∈ V, a.retired = true → p ≠ a.segPath ∧ p ≠ a.idxPath) → fs' p = fs p

theorem Cleaned.refl (V : Log c) (fs : Files) : Cleaned V fs fs := fun _ _ ↦ rfl

/-- Files of segments that are not retired are kept, also those of a log that agrees about it. -/
theorem Cleaned.sameFiles {V W : Log c} {fs fs' : Files} (h : Cleaned V fs fs') (hV : V.Ok)
    (hW : ∀ b ∈ W, b.retired = false → ∃ a ∈ V, a.retired = false ∧ a.id = b.id ∧ a.day = b.day) :
    SameFiles W fs fs' := by
  intro b hb hr
  obtain ⟨a, ha, har, hid, hday⟩ := hW b hb hr
  have hne {x : LogSegment c} (hx : x ∈ V) (hxr : x.retired = true) : b.id ≠ x.id := by
    intro heq
    have hax : a = x := hV.chain.eq_of_id ha hx (hid.trans heq)
    rw [hax, hxr] at har
    cases har
  exact ⟨h _ fun x hx hxr ↦ ⟨segPath_ne (hne hx hxr), segPath_ne_idxPath _ _⟩,
    h _ fun x hx hxr ↦ ⟨(segPath_ne_idxPath _ _).symm, idxPath_ne (hne hx hxr)⟩⟩

section Rules

variable {env : Env Path Dir} {fs : Files} {n : ℕ} {V : Log c} {μ : Type} {m : μ}

theorem wp_removeFile {p : Path} {Q : Exit Error Bool → Files → μ → Prop}
    (hok : ∀ b, Q (.ok b) (setFile p none fs) m) (hno : ∀ e, Q (.fail e) fs m)
    (hkill : ¬ env.Calm → Q .killed fs m) (hkill' : ¬ env.Calm → Q .killed (setFile p none fs) m) :
    wp (removeFile p) env Q ⟨fs, n, m⟩ := by
  unfold removeFile
  refine wp_bind (wp_allocOr (fun n ↦ ?_) fun _ ↦ hno _)
  refine wp_bind ?_
  simp only [wp_files, andThen]
  intro n
  exact wp_callOr_bind (fun n ↦ hok _) (fun _ ↦ hno _) hkill hkill'

/-- Only files in `R` have changed, and these are gone. -/
def Removed (R : Path → Prop) (fs fs' : Files) : Prop := ∀ p, fs' p = fs p ∨ R p ∧ fs' p = none

namespace Removed

variable {R R' : Path → Prop} {fs fs' fs'' : Files}

theorem refl (R : Path → Prop) (fs : Files) : Removed R fs fs := fun _ ↦ .inl rfl

theorem trans (h : Removed R fs fs') (h' : Removed R fs' fs'') : Removed R fs fs'' := by
  intro p
  rcases h' p with hp | hp
  · rw [hp]
    exact h p
  · exact .inr hp

theorem mono (h : Removed R fs fs') (hR : ∀ p, R p → R' p) : Removed R' fs fs' :=
  fun p ↦ (h p).imp_right fun hp ↦ ⟨hR p hp.1, hp.2⟩

/-- One more file is gone. -/
theorem unlink (h : Removed R fs fs') {q : Path} (hq : R q) :
    Removed R fs (setFile q none fs') := by
  intro p
  by_cases hp : p = q
  · subst hp
    exact .inr ⟨hq, setFile_self _ _ _⟩
  · rw [setFile_of_ne _ _ hp]
    exact h p

/-- What is gone stays gone. -/
theorem gone (h : Removed R fs fs') {p : Path} (hp : fs p = none) : fs' p = none := by
  rcases h p with heq | ⟨-, heq⟩
  · rw [heq, hp]
  · exact heq

end Removed

/-- The files of a segment. -/
def SegmentMeta.Owns (s : SegmentMeta) (p : Path) : Prop := p = s.segPath ∨ p = s.idxPath

/-- The files of the retired ones of these segments. -/
def RetiredFile (segments : List SegmentMeta) (p : Path) : Prop :=
  ∃ s ∈ segments, s.state = .retired ∧ s.Owns p

/-- The outcomes of removing the files in `R`: none of them is left, or there was an error. -/
def Removes {μ α : Type} (env : Env Path Dir) (R : Path → Prop) (fs : Files) (m : μ) :
    Exit Error (Except Error Unit × α) → Files → μ → Prop
  | .ok (status, _), fs', m' => m' = m ∧ Removed R fs fs' ∧
      (status = .ok () → ∀ p, R p → fs' p = none)
  | .fail _, _, _ => False
  | .killed, fs', _ => ¬ env.Calm ∧ Removed R fs fs'

theorem wp_removeSegment {s : SegmentMeta} :
    wp (removeSegment s) env (Removes env s.Owns fs m) ⟨fs, n, m⟩ := by
  have h₁ : Removed s.Owns fs (setFile s.segPath none fs) := (Removed.refl _ fs).unlink (.inl rfl)
  have h₂ := h₁.unlink (.inr rfl)
  have hgone : ∀ p, s.Owns p →
      setFile s.idxPath none (setFile s.segPath none fs) p = none := by
    rintro p (rfl | rfl)
    · exact ((Removed.refl s.Owns _).unlink (.inr rfl)).gone (setFile_self _ _ _)
    · exact setFile_self _ _ _
  unfold removeSegment
  refine wp_bind (wp_attempt.2 (wp_removeFile (fun b n ↦ ?_) (fun e n ↦ ?_)
    (fun hcalm ↦ ⟨hcalm, .refl _ fs⟩) fun hcalm ↦ ⟨hcalm, h₁⟩))
  · refine wp_bind (wp_attempt.2 (wp_bind (wp_removeFile (fun b n ↦ ?_)
      (fun e n ↦ ⟨rfl, h₁, fun he ↦ by cases he⟩) (fun hcalm ↦ ⟨hcalm, h₁⟩)
      fun hcalm ↦ ⟨hcalm, h₂⟩)))
    exact wp_syncDirectory (fun n ↦ ⟨rfl, h₂, fun _ ↦ hgone⟩)
      (fun _ n ↦ ⟨rfl, h₂, fun he ↦ by cases he⟩) fun hcalm ↦ ⟨hcalm, h₂⟩
  · exact ⟨rfl, .refl _ fs, fun he ↦ by cases he⟩

theorem wp_cleanupLoop {segments : List SegmentMeta} {deleted : ℕ} : wp (cleanupLoop segments deleted) env (Removes env (RetiredFile segments) fs m)
      ⟨fs, n, m⟩ := by
  induction segments generalizing deleted fs n with
  | nil => exact ⟨rfl, .refl _ fs, fun _ p ⟨s, hs, _⟩ ↦ absurd hs not_mem_nil⟩
  | cons s segments ih =>
    have hrest : ∀ p, RetiredFile segments p → RetiredFile (s :: segments) p :=
      fun p ⟨s', hs', h⟩ ↦ ⟨s', mem_cons_of_mem s hs', h⟩
    unfold cleanupLoop
    split
    next hs =>
      -- a segment that is not retired is passed over
      refine ih.mono ?_
      rintro (⟨status, removed⟩ | e | _) fs' m' hpost
      · refine ⟨hpost.1, hpost.2.1.mono hrest, fun hok p ⟨s', hs', hstate, hp⟩ ↦ ?_⟩
        rcases mem_cons.1 hs' with rfl | hs'
        · exact absurd hstate hs
        · exact hpost.2.2 hok p ⟨s', hs', hstate, hp⟩
      · exact hpost
      · exact ⟨hpost.1, hpost.2.mono hrest⟩
    next hs =>
      have hfirst : ∀ p, s.Owns p → RetiredFile (s :: segments) p :=
        fun p hp ↦ ⟨s, mem_cons_self .., not_not.1 hs, hp⟩
      refine wp_bind (wp_removeSegment.mono ?_)
      rintro (⟨status, removed⟩ | e | _) fs' m' hpost
      · obtain ⟨rfl, hremoved, hdone⟩ := hpost
        have hremoved := hremoved.mono hfirst
        intro n
        cases status with
        | error e => exact ⟨rfl, hremoved, fun he ↦ by cases he⟩
        | ok u =>
          refine ih.mono ?_
          rintro (⟨status', r⟩ | e | _) fs'' m'' hpost'
          · refine ⟨hpost'.1, hremoved.trans (hpost'.2.1.mono hrest), ?_⟩
            rintro hok p ⟨s', hs', hstate, hp⟩
            rcases mem_cons.1 hs' with rfl | hs'
            · exact hpost'.2.1.gone (hdone rfl p hp)
            · exact hpost'.2.2 hok p ⟨s', hs', hstate, hp⟩
          · exact hpost'
          · exact ⟨hpost'.1, hremoved.trans (hpost'.2.mono hrest)⟩
      · exact hpost.elim
      · exact ⟨hpost.1, hpost.2.mono hfirst⟩

/-- What a cleanup may change in the handle. -/
def CleanedUp (t t' : Table c) : Prop :=
  ∃ pending status, t' = { t with pendingRetention := pending, maintenanceStatus := status }

/-- **The files of the retired segments are gone.** -/
def Gone (V : Log c) (fs : Files) : Prop :=
  ∀ a ∈ V, a.retired = true → fs a.segPath = none ∧ fs a.idxPath = none

/-- **Nothing is left to clean up, or the last attempt has failed.** -/
def Settled (t : Table c) (fs : Files) (V : Log c) : Prop :=
  t.pendingRetention = false ∧ Gone V fs ∨
    t.pendingRetention = true ∧ t.maintenanceStatus.isSome = true

theorem summaries_mem {L : Log c} {m : SegmentMeta} (h : m ∈ L.summaries) :
    ∃ s ∈ L, ∃ b, m = s.summary b := by
  induction L with
  | nil => cases h
  | cons s L ih =>
    rw [Log.summaries] at h
    rcases mem_cons.1 h with rfl | h
    · exact ⟨s, mem_cons_self .., _, rfl⟩
    · obtain ⟨s', hs', b, rfl⟩ := ih h
      exact ⟨s', mem_cons_of_mem _ hs', b, rfl⟩

theorem mem_summaries {L : Log c} {s : LogSegment c} (h : s ∈ L) : ∃ b, s.summary b ∈ L.summaries := by
  induction L with
  | nil => cases h
  | cons s' L ih =>
    rw [Log.summaries]
    rcases mem_cons.1 h with rfl | h
    · exact ⟨_, mem_cons_self ..⟩
    · obtain ⟨b, hb⟩ := ih h
      exact ⟨b, mem_cons_of_mem _ hb⟩

/-- The files of retired segments, by the records and by the log. -/
theorem retiredFile_summaries {p : Path} : RetiredFile V.summaries p ↔
    ∃ a ∈ V, a.retired = true ∧ (p = a.segPath ∨ p = a.idxPath) := by
  constructor
  · rintro ⟨m, hm, hstate, hp⟩
    obtain ⟨a, ha, b, rfl⟩ := summaries_mem hm
    exact ⟨a, ha, LogSegment.state_eq_retired.1 hstate, hp⟩
  · rintro ⟨a, ha, har, hp⟩
    obtain ⟨b, hb⟩ := mem_summaries ha
    exact ⟨_, hb, LogSegment.state_eq_retired.2 har, hp⟩

theorem gone_iff : Gone V fs ↔ ∀ p, RetiredFile V.summaries p → fs p = none := by
  simp only [retiredFile_summaries]
  constructor
  · rintro h p ⟨a, ha, har, rfl | rfl⟩
    · exact (h a ha har).1
    · exact (h a ha har).2
  · exact fun h a ha har ↦ ⟨h _ ⟨a, ha, har, .inl rfl⟩, h _ ⟨a, ha, har, .inr rfl⟩⟩

/-- Removing files of retired segments is a cleanup. -/
theorem Removed.cleaned {fs' : Files} {segments : List SegmentMeta}
    (h : Removed (RetiredFile segments) fs fs') (hsub : segments ⊆ V.summaries) :
    Cleaned V fs fs' := by
  intro p hp
  rcases h p with heq | ⟨⟨m, hm, hm'⟩, -⟩
  · exact heq
  · obtain ⟨a, ha, har, hpa⟩ := retiredFile_summaries.1 ⟨m, hsub hm, hm'⟩
    rcases hpa with heq | heq
    · exact absurd heq (hp a ha har).1
    · exact absurd heq (hp a ha har).2

/-- **Cleanup** removes files of retired segments, and only when there is no reader. -/
theorem wp_retentionCleanup {t : Table c} (ht : Handle t V)
    {Q : Exit Error (Except Error Unit × ℕ) → Files → Table c → Prop}
    (hok : ∀ r fs' t', CleanedUp t t' → Cleaned V fs fs' → (t.readers ≠ 0 → fs' = fs) →
      (t.readers = 0 → t.pendingRetention = true → Settled t' fs' V) → Q (.ok r) fs' t')
    (hkill : ∀ fs' t', ¬ env.Calm → Cleaned V fs fs' → (t.readers ≠ 0 → fs' = fs) →
      Q .killed fs' t') :
    wp retentionCleanup env Q ⟨fs, n, t⟩ := by
  unfold retentionCleanup
  refine wp_bind (wp_get.2 fun n ↦ ?_)
  split
  next hcond =>
    refine hok _ fs t ⟨t.pendingRetention, t.maintenanceStatus, rfl⟩ (.refl V fs) (fun _ ↦ rfl) ?_
    intro hreaders hpending
    simp [hreaders, hpending] at hcond
  next hcond =>
    have hreaders : t.readers = 0 := by
      by_contra hne
      exact hcond (by simp [hne])
    have hloop : wp (cleanupLoop t.segments 0) env _ ⟨fs, n, t⟩ := wp_cleanupLoop
    rw [ht.segments] at hloop ⊢
    refine wp_bind (hloop.mono ?_)
    rintro (⟨status, deleted⟩ | e | _) fs' t' hpost
    · obtain ⟨rfl, hremoved, hdone⟩ := hpost
      intro n
      refine wp_bind (wp_modify.2 fun n ↦ wp_pure.2 ?_)
      refine hok _ _ _ ⟨_, _, rfl⟩ (hremoved.cleaned (List.Subset.refl _))
        (fun hne ↦ absurd hreaders hne) fun _ _ ↦ ?_
      cases status with
      | ok u => exact .inl ⟨rfl, gone_iff.2 (hdone rfl)⟩
      | error e => exact .inr ⟨rfl, rfl⟩
    · exact hpost.elim
    · exact hkill _ _ hpost.1 (hpost.2.cleaned (List.Subset.refl _)) fun hne ↦ absurd hreaders hne

end Rules

/-! ### Retirement in the handle -/

section Retire

variable {s : LogSegment c} {seq : ℕ} {time cutoff : ℤ} {b : Bool} {V L : Log c} {t : Table c}

/-- The source's test and the one of the log. -/
theorem LogSegment.Ok.expired_summary (h : s.Ok seq time) :
    (s.summary b).expired cutoff = s.expired cutoff := by
  have hstate : s.state b ≠ .retired ↔ s.retired = false := by
    rw [Ne, LogSegment.state_eq_retired, Bool.not_eq_true]
  have hlast : s.last ≠ 0 ↔ s.entries ≠ [] := not_congr h.last_eq_zero
  rw [Bool.eq_iff_iff, LogSegment.expired_iff, ← hstate, ← hlast]
  simp only [SegmentMeta.expired, Bool.and_eq_true, decide_eq_true_eq, and_assoc]
  rfl

theorem LogSegment.Ok.retire_summary (h : s.Ok seq time) :
    (s.summary b).retire cutoff = (s.retire cutoff).summary b := by
  unfold SegmentMeta.retire
  rw [h.expired_summary]
  cases hexp : s.expired cutoff with
  | true =>
    rw [if_pos rfl]
    simp only [LogSegment.summary, LogSegment.retire, LogSegment.state, hexp, Bool.or_true, if_true]
    rfl
  | false =>
    have hsame : s.retire cutoff = s := by
      unfold LogSegment.retire
      rw [hexp, Bool.or_false]
    rw [if_neg (by simp), hsame]

theorem Log.Chain.retire_summaries {prev : ℕ} (h : Log.Chain prev seq time L) :
    L.summaries.map (·.retire cutoff) = (L.retire cutoff).summaries := by
  induction L generalizing prev seq time with
  | nil => rfl
  | cons s L ih =>
    obtain ⟨-, hok, hrest⟩ := h
    rw [Log.summaries, map_cons, ih hrest, hok.retire_summary]
    cases L <;> rfl

theorem Log.Chain.filter_summaries {prev : ℕ} (h : Log.Chain prev seq time L) :
    (L.summaries.filter (·.expired cutoff)).map (fun m ↦ (m.lastSequence, m.maxTime)) =
      (L.filter (·.expired cutoff)).map fun s ↦ (s.last, s.maxTime) := by
  induction L generalizing prev seq time with
  | nil => rfl
  | cons s L ih =>
    obtain ⟨-, hok, hrest⟩ := h
    rw [Log.summaries, filter_cons, filter_cons, hok.expired_summary]
    split
    · rw [map_cons, map_cons, ih hrest]
      rfl
    · exact ih hrest

/-- **The watermarks after a retirement** are those of the last segment that has expired. -/
theorem Log.Ok.preserved_retire (h : V.Ok) : (V.retire cutoff).preserved =
    (((V.filter (·.expired cutoff)).getLast?.map fun s ↦ (s.last, s.maxTime)).getD V.preserved) := by
  have hfilter : (V.retire cutoff).filter LogSegment.retired =
      (V.filter fun s ↦ (s.retire cutoff).retired).map (·.retire cutoff) := by
    rw [Log.retire, filter_map]
    rfl
  have hunfold : (V.retire cutoff).preserved =
      (((V.filter fun s ↦ (s.retire cutoff).retired).getLast?.map
        fun s ↦ (s.last, s.maxTime)).getD (0, 0)) := by
    rw [Log.preserved, Log.lastRetired?, hfilter, getLast?_map, Option.map_map]
    rfl
  rw [hunfold]
  cases hlast : (V.filter (·.expired cutoff)).getLast? with
  | none =>
    have hnone : ∀ s ∈ V, s.expired cutoff = false := by
      intro s hs
      have := filter_eq_nil_iff.1 (getLast?_eq_none_iff.1 hlast) s hs
      simpa using this
    have hsame : (V.filter fun s ↦ (s.retire cutoff).retired) = V.filter LogSegment.retired := by
      refine filter_congr fun s hs ↦ ?_
      simp [LogSegment.retire, hnone s hs]
    rw [hsame]
    rfl
  | some x =>
    obtain ⟨A, B, rfl, hx, hB⟩ := Log.getLast?_filter hlast
    obtain ⟨hxr, hxne, -⟩ := LogSegment.expired_iff.1 hx
    rw [Log.getLast?_filter_append (by simp [LogSegment.retire, hx]) fun y hy ↦ ?_]
    · rfl
    · have hpair := (pairwise_cons.1 (pairwise_append.1 h.retired).2.1).1 y hy
      have hyr : y.retired = false := by
        cases hyr : y.retired
        · rfl
        · rw [hpair hyr hxne] at hxr
          cases hxr
      simp [LogSegment.retire, hyr, hB y hy]

/-- The readable segments that are left. -/
theorem filter_visibleFrom {k : ℕ} {M : List SegmentMeta} (L : Log c)
    (hM : M.drop k = (Log.retire L cutoff).summaries) :
    (L.visibleFrom k).filter (fun i ↦ (M[i]?.map (·.state)) ≠ some .retired) =
      (Log.retire L cutoff).visibleFrom k := by
  induction L generalizing k with
  | nil => rfl
  | cons s L ih =>
    have hcons : (Log.retire (s :: L) cutoff) = s.retire cutoff :: Log.retire L cutoff := rfl
    rw [hcons, Log.summaries] at hM
    have hk : M[k]? = some ((s.retire cutoff).summary (Log.retire L cutoff).isEmpty) := by
      rw [← head?_drop, hM]
      rfl
    have hrest : M.drop (k + 1) = (Log.retire L cutoff).summaries := by
      rw [← drop_drop, hM]
      rfl
    have hstate : ((s.retire cutoff).summary (Log.retire L cutoff).isEmpty).state = .retired ↔
        (s.retire cutoff).retired = true := LogSegment.state_eq_retired
    rw [hcons, Log.visibleFrom, Log.visibleFrom]
    have hvis : (s.retire cutoff).visible = (s.visible && !(s.retire cutoff).retired) := by
      cases hr : s.retired <;> cases hexp : s.expired cutoff <;>
        simp [LogSegment.visible, LogSegment.retire, hr, hexp]
    rw [hvis]
    cases hv : s.visible with
    | false => simpa using ih hrest
    | true =>
      cases hr : (s.retire cutoff).retired with
      | true =>
        rw [if_pos rfl, filter_cons, hk]
        simpa [hstate.2 hr] using ih hrest
      | false =>
        rw [if_pos rfl, filter_cons, hk]
        have hne : ((s.retire cutoff).summary (Log.retire L cutoff).isEmpty).state ≠ .retired :=
          fun heq ↦ by rw [hstate.1 heq] at hr; cases hr
        simpa [hne] using ih hrest

theorem Table.retireExpired_segments (t : Table c) (cutoff : ℤ) :
    (t.retireExpired cutoff).segments = t.segments.map (·.retire cutoff) ∧
      (t.retireExpired cutoff).manifestGeneration = t.manifestGeneration + 1 ∧
      (t.retireExpired cutoff).nextSegmentId = t.nextSegmentId ∧
      (t.retireExpired cutoff).retentionUs = t.retentionUs := by
  unfold Table.retireExpired
  simp only
  split <;> exact ⟨rfl, rfl, rfl, rfl⟩

theorem Handle.retireExpired_preserved (h : Handle t V) (cutoff : ℤ) :
    (t.retireExpired cutoff).preservedSequence = (V.retire cutoff).preserved.1 ∧
      (t.retireExpired cutoff).preservedTime = (V.retire cutoff).preserved.2 := by
  have hfilter : ((V.summaries.filter (·.expired cutoff)).map fun m ↦
      (m.lastSequence, m.maxTime)).getLast? = _ := congrArg List.getLast? h.ok.chain.filter_summaries
  rw [getLast?_map, getLast?_map, ← h.segments] at hfilter
  rw [h.ok.preserved_retire, ← hfilter]
  unfold Table.retireExpired
  simp only
  cases (t.segments.filter (·.expired cutoff)).getLast? with
  | none => exact ⟨h.preservedSequence, h.preservedTime⟩
  | some m => exact ⟨rfl, rfl⟩

/-- The staged manifest records the log after the retirement. -/
theorem Handle.manifest_retireExpired (h : Handle t V) (cutoff : ℤ) :
    (t.retireExpired cutoff).manifest =
      (V.retire cutoff).manifest t.retentionUs (t.manifestGeneration + 1) := by
  obtain ⟨hsegments, hgen, hnext, hret⟩ := t.retireExpired_segments cutoff
  obtain ⟨hseq, htime⟩ := h.retireExpired_preserved cutoff
  simp only [Table.manifest, Log.manifest, hsegments, hgen, hnext, hret, hseq, htime, h.next,
    h.segments, h.ok.chain.retire_summaries, Log.next, Log.lastId_retire]

/-- What `installRetired` leaves alone. -/
theorem Table.installRetired_fields (t staged : Table c) (stats : RetentionStats) :
    (t.installRetired staged stats).segments = staged.segments ∧
      (t.installRetired staged stats).manifestGeneration = staged.manifestGeneration ∧
      (t.installRetired staged stats).preservedSequence = staged.preservedSequence ∧
      (t.installRetired staged stats).preservedTime = staged.preservedTime ∧
      (t.installRetired staged stats).nextSegmentId = t.nextSegmentId ∧
      (t.installRetired staged stats).lastSequence = t.lastSequence ∧
      (t.installRetired staged stats).lastTime = t.lastTime ∧
      (t.installRetired staged stats).retentionUs = t.retentionUs ∧
      (t.installRetired staged stats).readers = t.readers ∧
      (t.installRetired staged stats).frozen = t.frozen ∧
      (t.installRetired staged stats).db = t.db ∧
      (t.installRetired staged stats).readableSegments = t.readableSegments.filter fun i ↦
        (staged.segments[i]?.map (·.state)) ≠ some .retired := by
  unfold Table.installRetired
  simp only
  split <;> exact ⟨rfl, rfl, rfl, rfl, rfl, rfl, rfl, rfl, rfl, rfl, rfl, rfl⟩

/-- A segment that goes on being written is not touched. -/
theorem Table.installRetired_writing {t staged : Table c} {stats : RetentionStats}
    (h : (staged.segments.getLast?.map (·.state)) ≠ some .retired) :
    (t.installRetired staged stats).activeFd = t.activeFd ∧
      (t.installRetired staged stats).index = t.index ∧
      (t.installRetired staged stats).dictionary = t.dictionary := by
  unfold Table.installRetired
  simp only
  rw [if_neg h]
  exact ⟨rfl, rfl, rfl⟩

theorem Table.preview_cutoff (t : Table c) (now : ℤ) : (t.preview now).cutoff = t.cutoff now := by
  have hfold : ∀ (segments : List SegmentMeta) (out : RetentionStats),
      (segments.foldl (previewSegment t.pendingRetention) out).cutoff = out.cutoff := by
    intro segments
    induction segments with
    | nil => exact fun _ ↦ rfl
    | cons s segments ih =>
      intro out
      rw [foldl_cons, ih]
      unfold previewSegment
      split
      · split <;> rfl
      · split
        · rfl
        · split <;> rfl
  exact hfold _ _

/-- **The handle after a retirement.** -/
theorem View.installRetired (h : View t V) {stats : RetentionStats} {now : ℤ}
    (hstats : stats = t.preview now) (hgen : t.manifestGeneration ≠ uint64Max) :
    View (t.installRetired (t.retireExpired stats.cutoff) stats) (V.retire stats.cutoff) := by
  obtain ⟨cutoff, hcutoff⟩ : ∃ cutoff, cutoff = stats.cutoff := ⟨_, rfl⟩
  rw [← hcutoff]
  obtain ⟨hsegments, hgen', -, -⟩ := t.retireExpired_segments cutoff
  obtain ⟨hseq, htime⟩ := h.retireExpired_preserved cutoff
  obtain ⟨f1, f2, f3, f4, f5, f6, f7, f8, -, -, -, f11⟩ :=
    t.installRetired_fields (t.retireExpired cutoff) stats
  have hsum : (t.retireExpired cutoff).segments = (V.retire cutoff).summaries := by
    rw [hsegments, h.segments, h.ok.chain.retire_summaries]
  have hwriting : ∀ a ∈ (V.retire cutoff).getLast?, a.retired = false →
      ∃ b ∈ V.getLast?, b.retired = false ∧ a = b.retire cutoff ∧
        (t.installRetired (t.retireExpired cutoff) stats).activeFd = t.activeFd ∧
        (t.installRetired (t.retireExpired cutoff) stats).index = t.index ∧
        (t.installRetired (t.retireExpired cutoff) stats).dictionary = t.dictionary := by
    intro a ha har
    have hlast : ((t.retireExpired cutoff).segments.getLast?.map (·.state)) ≠ some .retired := by
      rw [hsum, Log.getLast?_summaries, ha]
      intro heq
      rw [LogSegment.state_eq_retired.1 (Option.some.inj heq)] at har
      cases har
    rw [Log.retire, getLast?_map] at ha
    obtain ⟨b, hb, rfl⟩ := Option.map_eq_some_iff.1 ha
    exact ⟨b, hb, LogSegment.retired_of_retire har, rfl, t.installRetired_writing hlast⟩
  exact
    { ok := h.ok.retire cutoff
      segments := f1.trans hsum
      next := by rw [f5, h.next, Log.next, Log.next, Log.lastId_retire]
      preservedSequence := f3.trans hseq
      preservedTime := f4.trans htime
      lastSequence := by rw [f6, h.lastSequence, Log.total_retire]
      lastTime := by rw [f7, h.lastTime, Log.time, Log.time, Log.groups_retire]
      retentionUs := by
        rw [f8]
        exact h.retentionUs
      generation := by
        have := h.generation.2
        unfold uint64Max at hgen
        rw [f2, hgen']
        omega
      readable := by
        rw [f11, h.readable]
        exact filter_visibleFrom V (by rw [drop_zero, hsum])
      fd := by
        intro a ha har
        obtain ⟨b, hb, hbr, rfl, hfd, -, -⟩ := hwriting a ha har
        rw [hfd, h.fd b hb hbr]
        rfl
      index := by
        intro a ha har
        obtain ⟨b, hb, hbr, rfl, -, hindex, -⟩ := hwriting a ha har
        rw [hindex, h.index b hb hbr]
        rfl
      dictionary := by
        intro a ha har
        obtain ⟨b, hb, hbr, rfl, -, -, hdict⟩ := hwriting a ha har
        rw [hdict]
        exact h.dictionary b hb hbr
      tallied := by
        rw [hstats]
        refine h.tallied.installRetired now (fun m hm hlast ↦ ?_)
          (by rw [hsegments, hcutoff, hstats, t.preview_cutoff])
        rw [h.segments] at hm
        obtain ⟨s, hs, b, rfl⟩ := summaries_mem hm
        obtain ⟨seq, time, hok⟩ := h.ok.chain.segOk hs
        exact (hok.fits (b := b)).minTime_le }

end Retire

/-! ### The policy functions -/

section Policy

variable {env : Env Path Dir} {t : Table c} {fs : Files} {n : ℕ} {V P L : Log c} {tail : Bytes}

theorem Synced.retire {cutoff : ℤ} (h : Synced fs V) : Synced fs (V.retire cutoff) := by
  intro a ha har f hf
  obtain ⟨b, hb, rfl⟩ := mem_map.1 ha
  exact h b hb (LogSegment.retired_of_retire har) f hf

/-- The manifest records a segment as retired when the log has it so. -/
theorem Lag.mem (h : Lag P L) {b : LogSegment c} (hb : b ∈ P) (hr : b.retired = false) :
    ∃ a ∈ L, a.retired = false ∧ a.id = b.id ∧ a.day = b.day := by
  cases h with
  | refl => exact ⟨b, hb, hr, rfl, rfl⟩
  | appended A s es hs =>
    rcases mem_append.1 hb with hb | hb
    · exact ⟨b, mem_append_left _ hb, hr, rfl, rfl⟩
    · rw [mem_singleton.1 hb]
      exact ⟨{ s with entries := s.entries ++ es }, by simp, hs, rfl, rfl⟩

variable {fs' : Files}

/-- **A cleanup does not disturb the log.** -/
theorem OnDisk.cleaned (h : OnDisk fs P L tail) (hclean : Cleaned L fs fs') :
    OnDisk fs' P L tail ∧ (Durable fs L P → Durable fs' L P) := by
  have hsame : SameFiles L fs fs' := hclean.sameFiles h.ok fun b hb hr ↦ ⟨b, hb, hr, rfl, rfl⟩
  have hsame' : SameFiles P fs fs' := hclean.sameFiles h.ok fun b hb hr ↦ h.lag.mem hb hr
  have hman : fs' .manifest = fs .manifest :=
    hclean _ fun a _ _ ↦ ⟨(segPath_ne_manifest a).symm, (idxPath_ne_manifest a).symm⟩
  exact ⟨h.congr hman hsame, fun hD ↦ ⟨hD.1.congr hsame, hD.2.congr hsame'⟩⟩

/-- What is retired in a view is retired in the log. -/
theorem Cleaned.extends {V : Log c} (h : Cleaned V fs fs') (hext : Extends V L) : Cleaned L fs fs' := by
  refine fun p hp ↦ h p fun a ha har ↦ ?_
  obtain ⟨i, hi⟩ := mem_iff_getElem?.1 ha
  obtain ⟨b, hb, hid, hday, -, hret, -⟩ := hext.segment i a hi
  have := hp b (mem_of_getElem? hb) (hret har)
  rwa [LogSegment.segPath, LogSegment.idxPath, hid, hday] at this

/-- A process after a cleanup. -/
theorem Live.cleaned {V : Log c} {t' : Table c} (h : Live t fs V P L tail)
    (ht : CleanedUp t t') (hclean : Cleaned V fs fs') :
    Live t' fs' V P L tail ∧ (Durable fs V P → Durable fs' V P) := by
  obtain ⟨_, _, rfl⟩ := ht
  have hdisk := h.disk.cleaned (hclean.extends h.ext)
  have hsame : SameFiles V fs fs' :=
    hclean.sameFiles h.view.ok fun b hb hr ↦ ⟨b, hb, hr, rfl, rfl⟩
  have hsame' : SameFiles P fs fs' :=
    (hclean.extends h.ext).sameFiles h.disk.ok fun b hb hr ↦ h.disk.lag.mem hb hr
  exact ⟨⟨⟨h.view.toHandle.congr rfl,
    h.view.dictionary⟩, hdisk.1, h.backed.congr hsame, h.ext, h.current⟩,
    fun hD ↦ ⟨hD.1.congr hsame, hD.2.congr hsame'⟩⟩

/-- The outcomes of setting the policy: the log stays, and the manifest may catch up with it. -/
def PolicyPost (t : Table c) (fs : Files) (V P L : Log c) (tail : Bytes) :
    Exit Error Unit → Files → Table c → Prop
  | .ok _, fs', t' => Grown V fs fs' ∧ t.frozen = false ∧ t'.frozen = false ∧ Unmoved t t' ∧
      t'.db = t.db ∧ ∃ P', Live t' fs' V P' L tail ∧ (Durable fs V P → Durable fs' V P')
  | .fail e, fs', t' => Grown V fs fs' ∧
      (t' = t ∨ t' = { t with readOnly := true } ∧ e.code = .indeterminate) ∧
      ∃ P', Live t' fs' V P' L tail ∧ (Durable fs V P → Durable fs' V P')
  | .killed, fs', _ => Grown V fs fs' ∧ ∃ P', OnDisk fs' P' L tail ∧ (Durable fs V P → Synced fs' P')

/-- **Setting the policy.** -/
theorem wp_setRetention (h : Live t fs V P L tail) (duration : ℕ) :
    wp (setRetention duration) env (PolicyPost t fs V P L tail) ⟨fs, n, t⟩ := by
  refine wp_setRetention_cases (fun _ _ ↦ ⟨.refl V fs, .inl rfl, P, h, id⟩)
    (fun _ e _ fs' hfs ↦ ⟨.of_agree hfs, .inl rfl, P, ⟨h.view, h.disk.of_agree hfs,
      h.backed.of_agree hfs, h.ext, h.current⟩, fun hD ↦ ⟨hD.1.of_agree hfs, hD.2.of_agree hfs⟩⟩)
    (fun htakes fs' ha ↦ ?_) fun _ fs' ha ↦
      ⟨.of_agree ha, P, h.disk.of_agree ha, fun hD ↦ hD.2.of_agree ha⟩
  obtain ⟨rfl, rfl⟩ := h.current htakes.writable
  have hgen : 0 < t.manifestGeneration + 1 ∧ t.manifestGeneration + 1 < 2 ^ 64 := by
    have h1 := h.view.generation.2
    have h2 := htakes.generation
    unfold uint64Max at h2
    omega
  have hview : View (t.withPolicy duration) V :=
    ⟨⟨h.view.ok, h.view.segments, h.view.next, h.view.preservedSequence, h.view.preservedTime,
      h.view.lastSequence, h.view.lastTime, htakes.duration, hgen, h.view.readable, h.view.fd,
      h.view.index, h.view.tallied.congr rfl rfl⟩, h.view.dictionary⟩
  -- the manifest that is there now records the log
  have hrep := replaced_of_agree (fun _ ↦ Path.noConfusion) ha
  rw [hview.toHandle.manifest_eq] at hrep
  have hg : Grown V fs fs' := .manifest hrep
  have hd : OnDisk fs' V V [] := h.disk.recordedAs hrep rfl htakes.duration hgen
  have hdur (hD : Durable fs V P) : Durable fs' V V :=
    ⟨hg.synced (.refl V) h.backed hD.1, hg.synced (.refl V) h.backed hD.1⟩
  refine ⟨⟨hg, htakes.writable, htakes.writable, ⟨rfl, rfl, rfl⟩, rfl, V,
    ⟨hview, hd, hd.backed, .refl V, fun _ ↦ ⟨rfl, rfl⟩⟩, hdur⟩, fun _ ↦
    ⟨⟨hg, V, hd, fun hD ↦ (hdur hD).2⟩, fun e he ↦ ⟨hg, .inr ⟨rfl, he⟩, V, ⟨⟨?_, h.view.dictionary⟩,
      hd, hd.backed, .refl V, fun _ ↦ ⟨rfl, rfl⟩⟩, hdur⟩⟩⟩
  exact h.view.toHandle.congr rfl

/-- The outcomes of saving the manifest of a retirement. -/
def SavePost {μ : Type} (stats : RetentionStats) (t : Table c) (fs : Files) (V L : Log c) (tail : Bytes)
    (m : μ) : Exit Error (Option (Table c)) → Files → μ → Prop
  | .ok none, fs', m' => m' = m ∧ t.frozen = false ∧ fs' = fs ∧ stats.eligibleSegments = 0
  | .ok (some staged), fs', m' => m' = m ∧ t.frozen = false ∧ Grown V fs fs' ∧
      staged = t.retireExpired stats.cutoff ∧ t.manifestGeneration ≠ uint64Max ∧
      OnDisk fs' (V.retire stats.cutoff) (V.retire stats.cutoff) []
  | .fail e, fs', m' => m' = m ∧ Grown V fs fs' ∧
      (e.code ≠ .indeterminate ∧ Agree fs fs' ∨ e.code = .indeterminate ∧ V = L ∧ tail = [] ∧
        OnDisk fs' (V.retire stats.cutoff) (V.retire stats.cutoff) [])
  | .killed, fs', _ => Grown V fs fs' ∧ (Agree fs fs' ∨ V = L ∧ tail = [] ∧
      OnDisk fs' (V.retire stats.cutoff) (V.retire stats.cutoff) [])

/-- **Saving the manifest of a retirement.** -/
theorem wp_saveRetirement {μ : Type} {m : μ} (h : Live t fs V P L tail) (stats : RetentionStats) :
    wp (saveRetirement t stats) env (SavePost stats t fs V L tail m) ⟨fs, n, m⟩ := by
  have hsame {e : Error} (he : e.code ≠ .indeterminate) :
      SavePost stats t fs V L tail m (.fail e) fs m :=
    ⟨rfl, .refl V fs, .inl ⟨he, .refl fs⟩⟩
  unfold saveRetirement
  refine wp_bind (wp_require (fun hfrozen n ↦ ?_) fun _ ↦ hsame (by decide))
  have hfrozen' : t.frozen = false := by simpa using hfrozen
  obtain ⟨rfl, rfl⟩ := h.current hfrozen'
  split
  next hnone => exact wp_pure.2 ⟨rfl, hfrozen', rfl, hnone⟩
  refine wp_bind (wp_require (fun hgen n ↦ ?_) fun _ ↦ hsame (by decide))
  refine wp_bind (wp_allocOr (fun n ↦ ?_) fun _ ↦ hsame (by decide))
  have hgen' : t.manifestGeneration ≠ uint64Max := of_decide_eq_true hgen
  have hbounds : 0 < t.manifestGeneration + 1 ∧ t.manifestGeneration + 1 < 2 ^ 64 := by
    have h1 := h.view.generation.2
    unfold uint64Max at hgen'
    omega
  have hman := h.view.toHandle.manifest_retireExpired stats.cutoff
  have hdone {fs' : Files} (ha : Agree (setFile .manifest
      (some ⟨(t.retireExpired stats.cutoff).manifest.image c.id,
        ((t.retireExpired stats.cutoff).manifest.image c.id).length⟩) fs) fs') :
      Grown V fs fs' ∧ OnDisk fs' (V.retire stats.cutoff) (V.retire stats.cutoff) [] := by
    have hrep := replaced_of_agree (fun _ ↦ Path.noConfusion) ha
    rw [hman] at hrep
    exact ⟨.manifest hrep, h.disk.retired hrep rfl h.view.retentionUs hbounds⟩
  refine wp_bind (installs_saveManifest ?_ _ _ _ (fun fs' ha n ↦ ?_) (fun _ fs' ha e he ↦ ?_)
    (fun _ fs' ha e he ↦ ?_) fun _ fs' ha ↦ ?_)
  · rw [(t.retireExpired_segments _).1, length_map, h.view.segments, Log.length_summaries]
    exact h.view.ok.length_le
  · obtain ⟨hg, hd⟩ := hdone ha
    exact wp_pure.2 ⟨rfl, hfrozen', hg, rfl, hgen', hd⟩
  · refine ⟨rfl, .of_agree ha, .inl ⟨?_, ha⟩⟩
    rcases he with he | he <;> rw [he] <;> decide
  · obtain ⟨hg, hd⟩ := hdone ha
    exact ⟨rfl, hg, .inr ⟨he, rfl, rfl, hd⟩⟩
  · rcases ha with ha | ha
    · exact ⟨.of_agree ha, .inl ha⟩
    · obtain ⟨hg, hd⟩ := hdone ha
      exact ⟨hg, .inr ⟨rfl, rfl, hd⟩⟩

/-- The outcomes of the durable part of a retirement. -/
def RetirePost (stats : RetentionStats) (t : Table c) (fs : Files) (V L : Log c) (tail : Bytes) :
    Exit Error Unit → Files → Table c → Prop
  | .ok _, fs', t' => Grown V fs fs' ∧ V = L ∧ tail = [] ∧
      (t' = t ∧ fs' = fs ∧ stats.eligibleSegments = 0 ∨
        t' = t.installRetired (t.retireExpired stats.cutoff) stats ∧
        Live t' fs' (V.retire stats.cutoff) (V.retire stats.cutoff) (V.retire stats.cutoff) [])
  | .fail e, fs', t' => Grown V fs fs' ∧ t' = t ∧
      (e.code ≠ .indeterminate ∧ Agree fs fs' ∨ e.code = .indeterminate ∧ V = L ∧ tail = [] ∧
        OnDisk fs' (V.retire stats.cutoff) (V.retire stats.cutoff) [])
  | .killed, fs', _ => Grown V fs fs' ∧ (Agree fs fs' ∨ V = L ∧ tail = [] ∧
      OnDisk fs' (V.retire stats.cutoff) (V.retire stats.cutoff) [])

/-- **Retiring segments.** -/
theorem wp_retireSegments (h : Live t fs V P L tail) {stats : RetentionStats} {now : ℤ}
    (hstats : stats = t.preview now) :
    wp (retireSegments stats) env (RetirePost stats t fs V L tail) ⟨fs, n, t⟩ := by
  rw [retireSegments_eq]
  refine wp_bind (wp_get.2 fun n ↦ ?_)
  refine wp_bind ((wp_saveRetirement h stats).mono ?_)
  rintro ((_ | staged) | e | _) fs' t' hpost
  · obtain ⟨rfl, hfrozen, rfl, hnone⟩ := hpost
    obtain ⟨rfl, rfl⟩ := h.current hfrozen
    exact fun n ↦ wp_pure.2 ⟨.refl V _, rfl, rfl, .inl ⟨rfl, rfl, hnone⟩⟩
  · obtain ⟨rfl, hfrozen, hg, rfl, hgen, hd⟩ := hpost
    obtain ⟨rfl, rfl⟩ := h.current hfrozen
    intro n
    rw [Option.elim_some]
    exact wp_modify.2 ⟨hg, rfl, rfl, .inr ⟨rfl, h.view.installRetired hstats hgen, hd, hd.backed,
      .refl _, fun _ ↦ ⟨rfl, rfl⟩⟩⟩
  · obtain ⟨rfl, hg, hcase⟩ := hpost
    exact ⟨hg, rfl, hcase⟩
  · exact hpost

/-- The log before or after a retirement. -/
def Retires (cutoff : ℤ) (V W : Log c) : Prop := W = V ∨ W = V.retire cutoff

/-- The log as a retirement leaves it, when the counts of the preview say that nothing has expired. -/
theorem Handle.retire_of_none (h : Handle t V) {now : ℤ} (hnone : (t.preview now).eligibleSegments = 0) :
    V.retire (t.cutoff now) = V := by
  have htimes : ∀ m ∈ t.segments, m.lastSequence ≠ 0 → m.minTime ≤ m.maxTime := by
    intro m hm _
    rw [h.segments] at hm
    obtain ⟨s, hs, b, rfl⟩ := summaries_mem hm
    obtain ⟨seq, time, hok⟩ := h.ok.chain.segOk hs
    exact (hok.fits (b := b)).minTime_le
  obtain ⟨-, -, hcount⟩ := foldl_previewSegment t.pendingRetention htimes
    ⟨t.cutoff now, 0, 0, 0, 0, 0, 0⟩
  have hzero : expiringSum (fun _ ↦ 1) (t.cutoff now) V.summaries = 0 := by
    rw [← h.segments, ← zero_add (expiringSum _ _ _)]
    exact hcount.symm.trans hnone
  refine (map_congr_left fun s hs ↦ ?_).trans (map_id V)
  obtain ⟨b, hmem⟩ := mem_summaries hs
  obtain ⟨seq, time, hok⟩ := h.ok.chain.segOk hs
  have hexp : s.expired (t.cutoff now) = false := by
    have := sum_eq_zero_iff.1 hzero _ (mem_map_of_mem hmem)
    rw [← hok.expired_summary]
    simpa [SegmentMeta.expiring] using this
  simp [LogSegment.retire, hexp]

/-- The outcomes of applying the policy. Files may disappear only if there is no reader. A call that
succeeds has retired everything that has expired. -/
def ApplyPolicyPost (now : ℤ) (t : Table c) (fs : Files) (V P L : Log c) (tail : Bytes) :
    Exit Error (Except Error Unit × RetentionStats) → Files → Table c → Prop
  | .ok r, fs', t' => (t.readers ≠ 0 → Grown V fs fs') ∧ t'.readers = t.readers ∧
      (t.frozen = true → t'.frozen = true) ∧ t'.db = t.db ∧
      (∃ deleted pending,
        r.2 = { t.preview now with deletedSegments := deleted, pendingSegments := pending }) ∧
      ∃ V' P' L', Retires (t.cutoff now) V V' ∧ Retires (t.cutoff now) L L' ∧
        Live t' fs' V' P' L' tail ∧ (Durable fs V P → Durable fs' V' P') ∧
        (r.1 = .ok () → 0 ≤ now ∧ V = L ∧ tail = [] ∧ V' = V.retire (t.cutoff now) ∧ L' = V')
  | .fail _, fs', t' => fs' = fs ∧ t' = t
  | .killed, fs', _ => (t.readers ≠ 0 → Grown V fs fs') ∧ ∃ P' L', Retires (t.cutoff now) L L' ∧
      OnDisk fs' P' L' tail ∧ (Durable fs V P → Synced fs' P')

/-- **Applying the policy.** -/
theorem wp_retentionApply (h : Live t fs V P L tail) (now : ℤ) :
    wp (retentionApply now) env (ApplyPolicyPost now t fs V P L tail) ⟨fs, n, t⟩ := by
  unfold retentionApply
  refine wp_bind (wp_require (fun hnow n ↦ ?_) fun _ ↦ ⟨rfl, rfl⟩)
  refine wp_bind ?_
  simp only [wp_get, andThen]
  intro n
  have hcut := t.preview_cutoff now
  have hsync {fs' : Files} (hg : Grown V fs fs') (hD : Durable fs V P) : Synced fs' V :=
    hg.synced (.refl V) h.backed hD.1
  have hagree {fs' : Files} (ha : Agree fs fs') : Live t fs' V P L tail :=
    ⟨h.view, h.disk.of_agree ha, h.backed.of_agree ha, h.ext, h.current⟩
  have hdur {fs' : Files} (ha : Agree fs fs') (hD : Durable fs V P) : Durable fs' V P :=
    ⟨hD.1.of_agree ha, hD.2.of_agree ha⟩
  refine wp_bind (wp_attempt.2 ((wp_retireSegments h rfl).mono ?_))
  rintro (_ | e | _) fs' t' hpost
  · obtain ⟨hg, rfl, rfl, hcase⟩ := hpost
    intro n
    refine wp_bind (wp_pure.2 fun n ↦ ?_)
    simp only
    obtain ⟨V', P', hV', hlive, hreaders, hfrozen, hdb, hdur'⟩ : ∃ V' P',
        V' = V.retire (t.cutoff now) ∧
        Live t' fs' V' P' V' [] ∧ t'.readers = t.readers ∧ t'.frozen = t.frozen ∧ t'.db = t.db ∧
          (Durable fs V P → Durable fs' V' P') := by
      rcases hcase with ⟨rfl, rfl, hnone⟩ | ⟨rfl, hlive⟩
      · exact ⟨V, P, (h.view.toHandle.retire_of_none hnone).symm, h, rfl, rfl, rfl, id⟩
      · obtain ⟨-, -, -, -, -, -, -, -, hreaders, hfrozen, hdb, -⟩ :=
          t.installRetired_fields (t.retireExpired (t.preview now).cutoff) (t.preview now)
        refine ⟨_, _, by rw [hcut], hlive, hreaders, hfrozen, hdb, fun hD ↦ ?_⟩
        exact ⟨(hsync hg hD).retire, (hsync hg hD).retire⟩
    refine wp_bind (wp_retentionCleanup hlive.view.toHandle (fun r fs'' t'' ht'' hclean hnone _ n ↦ ?_)
      fun fs'' t'' _ hclean hnone ↦ ?_)
    · obtain ⟨hlive'', hdur''⟩ := hlive.cleaned ht'' hclean
      refine wp_bind (wp_get.2 fun n ↦ wp_pure.2 ⟨fun hr ↦ ?_, ?_, fun hf ↦ ?_,
        ?_, ⟨_, _, rfl⟩, V', P', V', .inr hV', .inr hV', hlive'', fun hD ↦ hdur'' (hdur' hD),
        fun _ ↦ ⟨of_decide_eq_true hnow, rfl, rfl, hV', rfl⟩⟩)
      · rw [← hreaders] at hr
        rw [hnone hr]
        exact hg
      · obtain ⟨_, _, rfl⟩ := ht''
        exact hreaders
      · obtain ⟨_, _, rfl⟩ := ht''
        exact hfrozen.trans hf
      · obtain ⟨_, _, rfl⟩ := ht''
        exact hdb
    · obtain ⟨hd'', hdur''⟩ := hlive.disk.cleaned hclean
      refine ⟨fun hr ↦ ?_, P', V', .inr hV', hd'', fun hD ↦ (hdur'' (hdur' hD)).2⟩
      rw [← hreaders] at hr
      rw [hnone hr]
      exact hg
  · obtain ⟨hg, rfl, hcase⟩ := hpost
    intro n
    unfold protectUncertain statusOf
    rcases hcase with ⟨he, ha⟩ | ⟨he, rfl, rfl, hd⟩
    · rw [if_neg (by simpa using he)]
      refine wp_bind (wp_pure.2 fun n ↦ ?_)
      refine wp_bind (wp_pure.2 fun n ↦ ?_)
      refine wp_bind (wp_get.2 fun n ↦ wp_pure.2 ⟨fun _ ↦ hg, rfl, id, rfl, ⟨_, _, rfl⟩,
        V, P, L, .inl rfl, .inl rfl, hagree ha, hdur ha, fun hok ↦ by cases hok⟩)
    · rw [if_pos (by simpa using he)]
      refine wp_bind (wp_modify.2 fun n ↦ ?_)
      refine wp_bind (wp_pure.2 fun n ↦ ?_)
      refine wp_bind (wp_get.2 fun n ↦ wp_pure.2 ⟨fun _ ↦ hg, rfl, fun _ ↦ rfl,
        rfl, ⟨_, _, rfl⟩, V, V.retire (t'.preview now).cutoff, V.retire (t'.preview now).cutoff, .inl rfl,
        .inr (by rw [hcut]), ⟨⟨h.view.toHandle.congr rfl, h.view.dictionary⟩, hd, hg.backed (.refl V) h.backed, .retire V _, fun hf ↦ ?_⟩,
        fun hD ↦ ⟨hsync hg hD, (hsync hg hD).retire⟩, fun hok ↦ by cases hok⟩)
      simp [Table.frozen] at hf
  · obtain ⟨hg, hcase⟩ := hpost
    rcases hcase with ha | ⟨rfl, rfl, hd⟩
    · exact ⟨fun _ ↦ hg, P, L, .inl rfl, h.disk.of_agree ha, fun hD ↦ hD.2.of_agree ha⟩
    · exact ⟨fun _ ↦ hg, _, _, .inr (by rw [hcut]), hd, fun hD ↦ (hsync hg hD).retire⟩

end Policy

end WebAnalyticsDb
