import WebAnalyticsDb.System.Uncertain

/-!
# What calls leave alone

Two facts about the handle of a table that the rules on logs do not need and the writer does.

* **There is room in the directory of readable segments.** `wadb_readable_reserve` doubles the array when it
  is full, which gives room as long as the array was not overfull. A segment enters it only after room was
  reserved, so that it never is (`Reach.roomy`).
* **Only the writer moves the last time.** The writer reads it when it forms a batch and commits the groups
  of the batch later; policies and readers come and go in between (`Site.serve_abides`).
-/

namespace WebAnalyticsDb

variable {c : Config} {μ : Type}

/-! ### Policies and readers -/

/-- The last time is this one, and the directory has room for what is in it. -/
def Table.Abides (last : ℤ) (t : Table c) : Prop := t.lastTime = last ∧ t.Roomy

section Aside

variable {last : ℤ}

theorem preserves_saveManifest {I : μ → Prop} (t : Table c) :
    (saveManifest t : Io μ Unit).Preserves I :=
  .bind preserves_require fun _ ↦ .bind (preserves_allocOr _) fun _ ↦
    .bind (preserves_allocOr _) fun _ _ _ h ↦ installs_atomicFile _ _ _ _ _ (fun _ _ ↦ h)
      (fun _ _ _ _ _ ↦ h) (fun _ _ _ _ _ ↦ h) fun _ _ _ ↦ h

variable {I : Table c → Prop} {α : Type} {t : Table c}

theorem preserves_protectUncertain
    (hI : ∀ t, I t → I { t with readOnly := true }) (status : Except Error α) :
    (protectUncertain status : Io (Table c) Unit).Preserves I := by
  unfold protectUncertain
  split
  · exact .modify hI
  · exact .pure _

theorem preserves_setRetention (duration : ℕ) :
    (setRetention duration : Io (Table c) Unit).Preserves (Table.Abides last) := by
  unfold setRetention
  refine .bind preserves_require fun _ ↦ .bind .get fun t ↦ .bind (.attempt ?_) fun status ↦
    .bind (preserves_protectUncertain (fun _ h ↦ h) status) fun _ ↦ .rethrow _
  exact .bind preserves_require fun _ ↦ .bind preserves_require fun _ ↦
    .bind (preserves_saveManifest _) fun _ ↦ .modify fun _ h ↦ h

/-- Retired segments leave the directory. -/
theorem Table.Abides.installRetired (h : t.Abides last) (staged : Table c)
    (stats : RetentionStats) : (t.installRetired staged stats).Abides last := by
  obtain ⟨-, -, -, -, -, -, htime, -, -, -, -, hreadable⟩ := t.installRetired_fields staged stats
  have hcapacity : (t.installRetired staged stats).readableCapacity = t.readableCapacity := by
    unfold Table.installRetired
    simp only
    split <;> rfl
  refine ⟨htime.trans h.1, ?_⟩
  rw [Table.Roomy, hreadable, hcapacity]
  exact (List.length_filter_le _ _).trans h.2

theorem preserves_retireSegments (stats : RetentionStats) :
    (retireSegments stats : Io (Table c) Unit).Preserves (Table.Abides last) := by
  unfold retireSegments
  refine .bind .get fun t ↦ .bind preserves_require fun _ ↦ ?_
  split
  · exact .pure _
  · exact .bind preserves_require fun _ ↦ .bind (preserves_allocOr _) fun _ ↦
      .bind (preserves_saveManifest _) fun _ ↦ .modify fun _ h ↦ h.installRetired _ _

theorem preserves_retentionApply (now : ℤ) :
    (retentionApply now : Io (Table c) _).Preserves (Table.Abides last) := by
  unfold retentionApply
  refine .bind preserves_require fun _ ↦ .bind .get fun t ↦
    .bind (.attempt (preserves_retireSegments _)) fun status ↦
    .bind (preserves_protectUncertain (fun _ h ↦ h) status) fun _ ↦ ?_
  cases status with
  | error e => exact .bind (.pure _) fun _ ↦ .bind .get fun _ ↦ .pure _
  | ok _ => exact .bind (preserves_retentionCleanup fun _ _ _ h ↦ h) fun _ ↦ .bind .get fun _ ↦ .pure _

theorem preserves_snapshotAcquire (o : Option ScanOptions) :
    (snapshotAcquire o : Io (Table c) Snapshot).Preserves (Table.Abides last) := by
  intro env w h
  exact wp_snapshotAcquire (t := w.mem) o (fun _ ↦ h) fun _ ↦ h

/-- What a program leaves, the site has, unless the process has ended. -/
theorem Site.after_of_wp {p : Io (Table c) α} {s : Site c} {env : Env Path Dir} {t' : Table c}
    (h : wp p env (fun e _ t ↦ e ≠ .killed → I t) ⟨s.files, 0, t⟩)
    (ht' : (s.after (s.run env t p)).process = some t') : I t' := by
  unfold wp at h
  unfold Site.run at ht'
  revert h ht'
  generalize p env ⟨s.files, 0, t⟩ = r
  rcases r with ⟨a | e | _, w⟩ <;> intro h ht' <;> cases ht' <;> exact h nofun

/-- What a program preserves, the site it leaves has. -/
theorem Site.after_of_preserves {p : Io (Table c) α} (h : p.Preserves I)
    (s : Site c) (env : Env Path Dir) {t' : Table c} (ht : I t)
    (ht' : (s.after (s.run env t p)).process = some t') : I t' :=
  after_of_wp ((h env ⟨s.files, 0, t⟩ ht).mono fun _ _ _ h _ ↦ h) ht'

end Aside

/-! ### Sites -/

namespace Site

variable {env : Env Path Dir} {s : Site c} {t t' : Table c} {last : ℤ}

/-- **Policies and readers leave the last time alone**, and the directory stays roomy. -/
theorem serve_abides {a : Action c} (ha : a.besides = true) (hp : s.process = some t)
    (ht : t.Abides last) (ht' : (s.serve env t a).process = some t') : t'.Abides last := by
  cases a with
  | commit g => cases ha
  | crash => cases ha
  | reopen => cases ha
  | setRetention duration => exact after_of_preserves (preserves_setRetention duration) s env ht ht'
  | retentionApply now => exact after_of_preserves (preserves_retentionApply now) s env ht ht'
  | acquire o =>
    refine after_of_preserves (preserves_snapshotAcquire o) s env ht ?_
    simp only [serve] at ht'
    rw [← ht']
    split <;> rfl
  | release i =>
    simp only [serve] at ht'
    cases hi : s.snapshots[i]? with
    | none =>
      simp only [hi, hp] at ht'
      cases ht'
      exact ht
    | some S =>
      refine after_of_preserves (preserves_snapshotRelease (S := S) (fun _ _ _ h ↦ h) fun _ h ↦ h) s
        env ht ?_
      simp only [hi] at ht'
      rw [← ht']
      split <;> rfl

end Site

/-- **The directory of readable segments is never overfull.** -/
theorem Reach.roomy {s : Site c} (h : Reach s) {t : Table c} (hp : s.process = some t) : t.Roomy := by
  induction h generalizing t with
  | created retentionUs _ =>
    cases hp
    exact le_refl _
  | @step s hreach env a ha ih =>
    cases hs : s.process with
    | none =>
      by_cases hreopen : a = .reopen
      · subst hreopen
        obtain ⟨P, L, tail, hat⟩ := hreach.at
        rcases Site.step_reopen hs env (wp_openTable_roomy hat.disk) with
          ⟨fs', t', hpost, heq⟩ | ⟨e, fs', t', -, -, heq⟩ <;> rw [heq] at hp <;> cases hp
        exact hpost.2 () rfl
      · rw [Site.step_idle hs env hreopen] at hp
        exact ih hp
    | some t₀ =>
      have hroomy := ih hs
      rw [Site.step_serve hs] at hp
      cases hbesides : a.besides with
      | true => exact (Site.serve_abides hbesides hs ⟨rfl, hroomy⟩ hp).2
      | false =>
        cases a with
        | commit g =>
          obtain ⟨P, L, tail, hat⟩ := hreach.at
          obtain ⟨V, hserves⟩ := hat.serves t₀ hs
          have hwp : wp (commitRequests g) env _ ⟨s.files, 0, t₀⟩ := wp_commitRequests_causes
            (k := 0) hserves.live (hserves.live.view.lastTime ▸ ha t₀ hs)
          exact Site.after_of_wp (hwp.mono fun _ _ _ hpost ↦ (hpost.2 hroomy).1) hp
        | crash => cases hp
        | reopen =>
          cases hs.symm.trans hp
          exact hroomy
        | _ => cases hbesides

end WebAnalyticsDb
