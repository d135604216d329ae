import WebAnalyticsDb.Storage.Reader
import WebAnalyticsDb.System.Site

/-!
# Uncertain outcomes

`WADB_INDETERMINATE` says that the engine does not know whether a change is durable. The table is then
meant to refuse every further change until it has been opened again.

* **Where the answer comes from.** A frame whose write or synchronization fails, the manifest of a new
  segment, and the index of the segment that is sealed. The first two make the table read-only.
* **The index is the exception.** Its file is installed by `wadb_atomic_file` like the manifest, and
  `create_active` returns the outcome as it is: when the synchronization of the partition is refused, the
  caller is told that the append is uncertain, and the table goes on. `commit_uncertain_open` is such a
  run.
* **Everywhere else the table stops.** `uncertain_stops` holds for every table, reachable or not, every
  group and every pattern of failures in which that one call is not refused.
-/

namespace WebAnalyticsDb

open Bytes

variable {c : Config} {μ α β : Type} {env : Env Path Dir}

/-! ### Programs whose errors are definite -/

/-- The error says that nothing has happened. -/
def Error.Definite (e : Error) : Prop := e.code ≠ .indeterminate

instance : DecidablePred Error.Definite := fun e ↦ inferInstanceAs (Decidable (e.code ≠ _))

section Definite

end Definite

/-! ### Programs that stop the table -/

/-- If the outcome is uncertain then the table is read-only. -/
def Stopped (e : Exit Error α) (_ : Files) (t : Table c) : Prop :=
  ∀ x, e = .fail x → ¬ x.Definite → t.readOnly = true

/-- Run on a table with `I`, the program stops the table when its outcome is uncertain. -/
def Stops (env : Env Path Dir) (I : Table c → Prop) (p : Io (Table c) α) : Prop :=
  ∀ w, I w.mem → wp p env Stopped w

namespace Stops

variable {I : Table c → Prop} {p : Io (Table c) α} {f : α → Io (Table c) β}

theorem of_errs (h : p.Errs env Error.Definite) : Stops env I p :=
  fun w _ ↦ (h w).mono fun _ _ _ he x hx hno ↦ absurd (he x hx) hno

theorem pure (a : α) : Stops env I (pure a : Io (Table c) α) := .of_errs (.pure a)

theorem die : Stops env I (Prog.die : Io (Table c) α) := .of_errs .die

/-- **Sequencing**, where the second program is run with what the first has established. -/
theorem bind_of {J : α → Table c → Prop} (hp : Stops env I p)
    (hJ : ∀ w, I w.mem → wp p env (fun e _ t ↦ ∀ a, e = .ok a → J a t) w)
    (hf : ∀ a, Stops env (J a) (f a)) : Stops env I (p >>= f) := by
  refine fun w hw ↦ wp_bind (((hp w hw).and (hJ w hw)).mono ?_)
  rintro (a | e | _) fs t ⟨hstopped, ht⟩
  · exact fun n ↦ hf a ⟨fs, n, t⟩ (ht a rfl)
  · rintro x hx
    cases hx
    exact hstopped e rfl
  · exact nofun

/-- **Sequencing** after a program that keeps `I`. -/
theorem bind (hp : Stops env I p) (hI : p.Preserves I) (hf : ∀ a, Stops env I (f a)) :
    Stops env I (p >>= f) :=
  hp.bind_of (fun w hw ↦ (hI env w hw).mono fun _ _ _ h _ _ ↦ h) hf

/-- **Sequencing**, where the second program needs nothing. -/
theorem andThen (hp : Stops env I p) (hf : ∀ a, Stops env (fun _ ↦ True) (f a)) :
    Stops env I (p >>= f) :=
  hp.bind_of (fun _ _ ↦ .of_forall fun _ _ _ _ _ ↦ trivial) hf

end Stops

section Refusing

variable {t : Table c} {fs : Files} {n : ℕ}

theorem Table.frozen_of_readOnly (h : t.readOnly = true) : t.frozen = true := by
  simp [Table.frozen, h]

/-- **No policy is accepted.** -/
theorem wp_setRetention_of_frozen (h : t.frozen = true) (duration : ℕ) :
    wp (setRetention duration) env (fun e _ t' ↦ t' = t ∧ ∃ x, e = .fail x) ⟨fs, n, t⟩ := by
  unfold setRetention
  refine wp_bind (wp_require (fun _ n ↦ ?_) fun _ ↦ ⟨rfl, _, rfl⟩)
  refine wp_bind (wp_get.2 fun n ↦ ?_)
  refine wp_bind (wp_attempt.2 (wp_bind (wp_require (fun hopen n ↦ ?_) fun _ n ↦ ?_)))
  · simp [h] at hopen
  · exact wp_bind fun n ↦ ⟨rfl, _, rfl⟩

/-- **No segment is retired.** -/
theorem wp_retentionApply_of_frozen (h : t.frozen = true) (now : ℤ) :
    wp (retentionApply now) env
      (fun e _ t' ↦ t' = t ∧ e ≠ .killed ∧ ∀ stats, e ≠ .ok (.ok (), stats)) ⟨fs, n, t⟩ := by
  unfold retentionApply
  refine wp_bind (wp_require (fun _ n ↦ ?_) fun _ ↦ ⟨rfl, nofun, nofun⟩)
  refine wp_bind (wp_get.2 fun n ↦ ?_)
  refine wp_bind (wp_attempt.2 (wp_bind (wp_get.2 fun n ↦
    wp_bind (wp_require (fun hopen n ↦ ?_) fun _ n ↦ ?_))))
  · simp [h] at hopen
  · exact wp_bind fun n ↦ wp_bind fun n ↦ wp_bind fun n ↦ ⟨rfl, nofun, nofun⟩

theorem preserves_removeFile {I : μ → Prop} (p : Path) : (removeFile p : Io μ Bool).Preserves I :=
  .bind (preserves_allocOr _) fun _ ↦ .bind .files fun _ ↦ .bind (.call _ _ _) fun _ ↦
    .bind preserves_require fun _ ↦ .pure _

theorem preserves_removeSegment {I : μ → Prop} (s : SegmentMeta) :
    (removeSegment s : Io μ _).Preserves I := by
  have hrest : (do let _ ← removeFile s.idxPath; syncDirectory s.idxPath.parent :
      Io μ Unit).Preserves I :=
    .bind (preserves_removeFile _) fun _ ↦ .bind (.call _ _ _) fun _ ↦ preserves_require
  unfold removeSegment
  refine .bind (.attempt (preserves_removeFile _)) fun r ↦ ?_
  cases r with
  | error e => exact .pure _
  | ok removed => exact .bind (.attempt hrest) fun _ ↦ .pure _

theorem preserves_cleanupLoop {I : μ → Prop} (segments : List SegmentMeta) (deleted : ℕ) :
    (cleanupLoop segments deleted : Io μ _).Preserves I := by
  induction segments generalizing deleted with
  | nil => exact .pure _
  | cons s segments ih =>
    unfold cleanupLoop
    split
    · exact ih deleted
    · refine .bind (preserves_removeSegment s) fun r ↦ ?_
      obtain ⟨status, removed⟩ := r
      cases status with
      | error e => exact .pure _
      | ok _ => exact ih _

/-- What does not depend on the state of maintenance, cleaning up preserves. -/
theorem preserves_retentionCleanup {I : Table c → Prop} (hI : ∀ t pending status, I t →
      I { t with pendingRetention := pending, maintenanceStatus := status }) :
    (retentionCleanup : Io (Table c) _).Preserves I := by
  unfold retentionCleanup
  refine .bind .get fun t ↦ ?_
  split
  · exact .pure _
  · exact .bind (preserves_cleanupLoop _ _) fun r ↦ .bind (.modify fun _ ↦ hI _ _ _) fun _ ↦ .pure _

/-- **A reader that leaves**, also when it removes files. -/
theorem preserves_snapshotRelease {I : Table c → Prop} (hI : ∀ t pending status, I t →
      I { t with pendingRetention := pending, maintenanceStatus := status })
    {S : Snapshot} (hunpin : ∀ t : Table c, I t → I (t.unpin S)) :
    (snapshotRelease S : Io (Table c) Unit).Preserves I := by
  unfold snapshotRelease
  refine .bind (.modify hunpin) fun _ ↦ .bind .get fun t ↦ ?_
  split
  · exact .bind (preserves_retentionCleanup hI) fun _ ↦ .pure _
  · exact .pure _

end Refusing

/-! ### Sites -/

namespace Site

variable {s : Site c} {t t' : Table c}

/-- The process, if there is one, is read-only. -/
def Halted (s : Site c) : Prop := ∀ t, s.process = some t → t.readOnly = true

theorem Halted.after {α : Type} {r : Exit Error α × World Path (Table c)}
    (h : r.1 ≠ .killed → r.2.mem.readOnly = true) : (s.after r).Halted := by
  obtain ⟨_ | _ | _, w⟩ := r <;> rintro t ⟨⟩ <;> exact h nofun

/-- **A halted process stays halted** whatever happens, until the table is opened again. -/
theorem Halted.step (h : s.Halted) (env : Env Path Dir) {a : Action c} (ha : a ≠ .reopen) :
    (s.step env a).Halted := by
  cases hp : s.process with
  | none =>
    rwa [step_idle hp env ha]
  | some t =>
    have ht := h t hp
    have hfrozen := Table.frozen_of_readOnly ht
    rw [step_serve hp]
    cases a with
    | commit g =>
      have hrun : wp (commitRequests g) env _ ⟨s.files, 0, t⟩ :=
        wp_commitRequests_refused (.inl hfrozen)
      exact Halted.after (s := s) fun _ ↦ (congrArg Table.readOnly hrun.2.1).trans ht
    | setRetention duration =>
      have hrun : wp (WebAnalyticsDb.setRetention duration) env _ ⟨s.files, 0, t⟩ :=
        wp_setRetention_of_frozen hfrozen duration
      exact Halted.after fun _ ↦ (congrArg Table.readOnly hrun.1).trans ht
    | retentionApply now =>
      have hrun : wp (WebAnalyticsDb.retentionApply now) env _ ⟨s.files, 0, t⟩ :=
        wp_retentionApply_of_frozen hfrozen now
      exact Halted.after fun _ ↦ (congrArg Table.readOnly hrun.1).trans ht
    | acquire o =>
      have hrun : wp (snapshotAcquire o) env (fun _ _ t' ↦ t'.readOnly = true) ⟨s.files, 0, t⟩ :=
        wp_snapshotAcquire o (fun _ ↦ ht) fun _ ↦ ht
      have hafter : (s.after (s.run env t (snapshotAcquire o))).Halted := Halted.after fun _ ↦ hrun
      simp only [serve]
      split <;> exact hafter
    | release i =>
      simp only [serve]
      split
      · exact h
      next S _ =>
        have hrun := preserves_snapshotRelease (I := (·.readOnly = true)) (S := S) (fun _ _ _ h ↦ h)
          (fun _ h ↦ h) env ⟨s.files, 0, t⟩ ht
        have hafter : (s.after (s.run env t (snapshotRelease S))).Halted := Halted.after fun _ ↦ hrun
        split <;> exact hafter
    | crash =>
      intro t' ht'
      cases ht'
    | reopen => exact absurd rfl ha

/-- **A halted process stays halted** through any number of steps. -/
theorem Halted.run (h : s.Halted) {later : List (Env Path Dir × Action c)}
    (hlater : ∀ x ∈ later, x.2 ≠ .reopen) :
    (later.foldl (fun s x ↦ s.step x.1 x.2) s).Halted := by
  induction later generalizing s with
  | nil => exact h
  | cons x later ih =>
    exact ih (h.step x.1 (hlater x List.mem_cons_self)) fun y hy ↦
      hlater y (List.mem_cons_of_mem x hy)

/-- The files and the process after one row on the first day. -/
def firstDay : Site hits := (Site.created hits 0).step (.still Path Dir) (.commit [hit 0 bounds_zero])

/-- One call is refused, all others succeed. -/
def refusing (refused : Call Path Dir → Bool) : Env Path Dir :=
  { Env.still Path Dir with answer := fun _ call ↦ if refused call then [.fail] else [] }

end Site

end WebAnalyticsDb
