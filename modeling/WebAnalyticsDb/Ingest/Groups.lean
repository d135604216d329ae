import WebAnalyticsDb.Ingest.Writer
import WebAnalyticsDb.System.Room

/-!
# The groups that the writer commits

`writer_main` stamps the requests of a batch one after the other and hands the batch to `commit_group`,
which may cut it into pieces. What follows for every group that reaches `wadb_commit_requests`:

* **Times.** They do not go back behind the last row of the table or within the batch, and are of one day
  (`formBatch_times`). This survives cutting, and whatever else happens to the table until the piece is
  committed (`Ingest.Steady`). A request for which the clock has failed is alone in its batch.
* **Bounds.** The encoder does not reject such a group, a segment with rows stays within its target, and no
  segment, frame or dictionary outgrows its limit (`Ingest.rotation_bounds`).
-/

namespace WebAnalyticsDb

open List

/-! ### Stamped requests -/

section Stamped

variable {c : Config} {lo : ℤ} {g g' : Group c}

/-- **Requests that the writer has taken out of the queue** behind the time `lo`: their times come from a
clock that works, or it is one request for which the clock has failed. -/
def Stamped (lo : ℤ) (g : Group c) : Prop :=
  Orderly g ∧ (∀ r ∈ g, lo ≤ r.ingestionTime) ∨ ∃ r, g = [r] ∧ r.ingestionTime < 0

theorem orderly_nil : Orderly ([] : Group c) :=
  ⟨.nil, fun _ h ↦ absurd h not_mem_nil, fun _ h ↦ absurd h not_mem_nil⟩

theorem stamped_nil (lo : ℤ) : Stamped lo ([] : Group c) :=
  .inl ⟨orderly_nil, fun _ h ↦ absurd h not_mem_nil⟩

theorem Orderly.cons (h : Orderly g) {r : AppendRequest c} (hr : 0 ≤ r.ingestionTime)
    (hle : ∀ r' ∈ g, r.ingestionTime ≤ r'.ingestionTime ∧
      r'.ingestionTime / dayUs = r.ingestionTime / dayUs) : Orderly (r :: g) where
  sorted := pairwise_cons.2 ⟨fun r' hr' ↦ (hle r' hr').1, h.sorted⟩
  nonneg r' hr' := by
    rcases mem_cons.1 hr' with rfl | hr'
    · exact hr
    · exact h.nonneg r' hr'
  day a ha b hb := by
    have hday : ∀ r' ∈ r :: g, r'.ingestionTime / dayUs = r.ingestionTime / dayUs := by
      intro r' hr'
      rcases mem_cons.1 hr' with rfl | hr'
      · rfl
      · exact (hle r' hr').2
    rw [hday a ha, hday b hb]

namespace Stamped

/-- A part of a batch. -/
theorem sublist (h : Stamped lo g) (hsub : g'.Sublist g) : Stamped lo g' := by
  rcases h with ⟨hg, hlo⟩ | ⟨r, rfl, hr⟩
  · exact .inl ⟨hg.sublist hsub, fun r hr ↦ hlo r (hsub.subset hr)⟩
  · rcases sublist_singleton.1 hsub with rfl | rfl
    · exact stamped_nil lo
    · exact .inr ⟨r, rfl, hr⟩

/-- The writer stamps no request with a time before the last row. -/
theorem le_groupMin (h : Stamped lo g) (hne : g ≠ []) (hmin : 0 ≤ groupMin g) : lo ≤ groupMin g := by
  obtain ⟨r, g, rfl⟩ := exists_cons_of_ne_nil hne
  rcases h with ⟨-, hlo⟩ | ⟨r', heq, hr'⟩
  · exact hlo r (mem_cons_self ..)
  · cases heq
    rw [groupMin_cons] at hmin
    omega

/-- The rest of a batch follows the piece that was committed. -/
theorem rest (h : Stamped lo (g ++ g')) (hne : g ≠ []) : Stamped (groupMax g) g' := by
  rcases h with ⟨hg, -⟩ | ⟨r, heq, -⟩
  · refine .inl ⟨hg.sublist (sublist_append_right g g'), fun r hr ↦ ?_⟩
    rcases g.eq_nil_or_concat with rfl | ⟨front, last, rfl⟩
    · exact absurd rfl hne
    · rw [concat_eq_append] at *
      rw [groupMax_concat]
      exact (pairwise_append.1 hg.sorted).2.2 last (by simp) r hr
  · have hlen := congrArg List.length heq
    have hpos := length_pos_iff.2 hne
    rw [length_append, length_singleton] at hlen
    obtain rfl : g' = [] := length_eq_zero_iff.1 (by omega)
    exact stamped_nil _

end Stamped

end Stamped

/-! ### Forming a batch -/

section Forming

variable {κ : Type} [DecidableEq κ] {C : Catalogue κ}

/-- A reading of the clock, as the writer stores it. -/
def reading (clock : ℕ → ℤ) (n : ℕ) : ℤ := i64OfBits (i64Bits (clock n))

/-- An adjusted reading is not before the previous one. -/
theorem adjust_cases (previous now : ℤ) : now < 0 ∧ (adjust previous now).1 = now ∨
    0 ≤ (adjust previous now).1 ∧ previous ≤ (adjust previous now).1 ∧
      ((adjust previous now).1 = now ∨ (adjust previous now).1 = previous) := by
  unfold adjust
  split
  next h => exact .inr ⟨by simp only; omega, le_refl _, .inr rfl⟩
  next h =>
    by_cases hneg : now < 0
    · exact .inl ⟨hneg, rfl⟩
    · exact .inr ⟨by simp only; omega, by simp only; omega, .inl rfl⟩

/-- Requests that follow what the loop remembers. -/
def Intake.Precedes {c : Config} (w : Intake) (g : Group c) : Prop :=
  Orderly g ∧ ∀ r ∈ g, w.previous ≤ r.ingestionTime ∧
    (w.count ≠ 0 → r.ingestionTime / dayUs = w.day)

theorem Intake.precedes_nil {c : Config} (w : Intake) : w.Precedes ([] : Group c) :=
  ⟨orderly_nil, fun _ h ↦ absurd h not_mem_nil⟩

theorem ingestionTime_stamp {c : Config} (x : Ticket c) {now : ℤ} (hlo : -2 ^ 63 ≤ now)
    (hhi : now < 2 ^ 63) : (x.stamp now).request.ingestionTime = now :=
  i64OfBits_i64Bits hlo hhi

/-- **The times of a batch.** They follow each other from the last row of the table on, or the clock has
failed for the first request, which is then alone. -/
theorem formBatch_times (i : κ) (clock : ℕ → ℤ) (w : Intake) (hprev : w.previous < 2 ^ 63)
    (queue : List (Queued C)) :
    w.Precedes ((formBatch i clock w queue).taken.map Ticket.request) ∨
      w.count = 0 ∧ (∃ n, reading clock n < 0) ∧
        ∃ r, (formBatch i clock w queue).taken.map Ticket.request = [r] ∧ r.ingestionTime < 0 := by
  induction queue generalizing w with
  | nil => exact .inl w.precedes_nil
  | cons q queue ih =>
    obtain ⟨j, x⟩ := q
    have hnone : w.Precedes (([] : List (Ticket (C.table i))).map Ticket.request) := w.precedes_nil
    rw [formBatch]
    by_cases hj : j = i
    swap
    · rw [dif_neg hj]
      exact .inl hnone
    subst hj
    rw [dif_pos rfl]
    split
    · exact .inl hnone
    dsimp only
    obtain ⟨hle, hlt⟩ := i64OfBits_bounds (i64Bits_lt (clock w.count))
    obtain ⟨now, hnow⟩ : ∃ now, (adjust w.previous (i64OfBits (i64Bits (clock w.count)))).1 = now :=
      ⟨_, rfl⟩
    have hcases := adjust_cases w.previous (reading clock w.count)
    rw [reading] at hcases
    rw [hnow] at hcases ⊢
    split
    · exact .inl hnone
    next hday =>
      split
      next hneg =>
        have hfirst : w.count = 0 := by
          by_contra hcount
          exact hday ⟨hcount, .inl hneg⟩
        refine .inr ⟨hfirst, ⟨w.count, ?_⟩, _, rfl, ?_⟩
        · rw [reading]
          omega
        · rw [ingestionTime_stamp x (by omega) (by omega)]
          exact hneg
      next hnonneg =>
        have hprev' : now < 2 ^ 63 := by omega
        rcases ih ⟨w.count + 1, w.bytes + x.request.rowBytes, now, now / dayUs⟩ hprev' with
          ⟨hg, hrest⟩ | ⟨hzero, -⟩
        swap
        · cases hzero
        have htime := @ingestionTime_stamp _ x now (by omega) hprev'
        refine .inl ⟨hg.cons ?_ fun r hr ↦ ?_, fun r hr ↦ ?_⟩
        · rw [htime]
          omega
        · rw [htime]
          exact ⟨(hrest r hr).1, (hrest r hr).2 (Nat.succ_ne_zero _)⟩
        · rcases mem_cons.1 hr with rfl | hr
          · rw [htime]
            exact ⟨by omega, fun hcount ↦ by_contra fun hne ↦ hday ⟨hcount, .inr hne⟩⟩
          · obtain ⟨hr1, hr2⟩ := hrest r hr
            refine ⟨by simp only at hr1; omega, fun hcount ↦ ?_⟩
            rw [hr2 (Nat.succ_ne_zero _)]
            exact by_contra fun hne ↦ hday ⟨hcount, .inr hne⟩

/-- The first request of the queue is taken. -/
theorem formBatch_ne_nil (i : κ) (clock : ℕ → ℤ) (last day : ℤ) (x : Ticket (C.table i))
    (queue : List (Queued C)) : (formBatch i clock ⟨0, 0, last, day⟩ (⟨i, x⟩ :: queue)).taken ≠ [] := by
  rw [formBatch, dif_pos rfl, if_neg (by simp)]
  dsimp only
  rw [if_neg (by simp)]
  split <;> simp

end Forming

/-! ### One commit -/

section Commit

variable {c : Config} {env : Env Path Dir} {s : Site c} {t : Table c} {V P L : Log c} {tail : Bytes}
  {g : Group c} {fs fs' : Files} {t' : Table c}

/-- The last time of a log that ends with a group. -/
theorem Appends.time {k : ℕ} {W V' : Log c} (h : Appends k g W V') : V'.time = groupMax g := by
  obtain ⟨A, a, -, -, rfl⟩ := h
  rw [Log.time, Log.groups_append, Log.groups_cons, LogSegment.groups_push, Log.groups_nil,
    append_nil, ← append_assoc, timeThrough_concat]

/-- A segment of a rotated log is an old one, or it has a new identifier. -/
theorem Rotates.mem {W : Log c} (h : Rotates V W) (hV : V.Ok) {a b : LogSegment c} (ha : a ∈ V)
    (hb : b ∈ W) (hid : b.id = a.id) : b = a := by
  rcases h with rfl | ⟨now, x, hx, rfl⟩
  · exact hV.chain.eq_of_id hb ha hid
  · have hWok := hx.ok.chain
    exact hWok.eq_of_id hb (mem_append_left _ ha) hid

/-- **No segment with rows outgrows its target** by a commit. -/
def WithinTarget (t t' : Table c) : Prop :=
  ∀ m ∈ t.segments, m.lastSequence ≠ 0 → ∀ m' ∈ t'.segments, m'.id = m.id →
    m'.committedBytes ≠ m.committedBytes → m'.committedBytes ≤ c.options.segmentTargetBytes

theorem CommitPost.withinTarget {k : ℕ} {e : Exit Error (List AppendReceipt)} (he : e ≠ .killed)
    (hview : View t V) (h : CommitPost k g t fs V P e fs' t') (hcause : CommitCause env g t e fs' t') :
    WithinTarget t t' := by
  intro m hm hrows m' hm' hid hne
  rw [hview.segments] at hm
  obtain ⟨a, ha, _, rfl⟩ := summaries_mem hm
  rcases e with rs | e | _
  · obtain ⟨-, W, V', P', hrot, ⟨A, x, rfl, hx, rfl⟩, hlive, -⟩ := h
    rw [hlive.view.segments] at hm'
    obtain ⟨a', ha', _, rfl⟩ := summaries_mem hm'
    rcases mem_append.1 ha' with ha' | ha'
    · -- a segment in front of the last one is as before
      rw [hrot.mem hview.ok ha (mem_append_left _ ha') hid] at hne
      exact absurd rfl hne
    · cases mem_singleton.1 ha'
      obtain rfl : x = a := hrot.mem hview.ok ha (by simp) hid
      rcases hrot with hV | ⟨now, y, hy, hV⟩
      · subst hV
        refine hcause ?_ (x.summary true) ?_ hrows ((x.push ⟨k, g⟩).summary true) ?_
        · rw [hlive.view.segments, hview.segments]
          simp only [Log.length_summaries, length_append, length_singleton]
        · simp [hview.segments]
        · simp [hlive.view.segments]
      · -- a new segment has no rows
        obtain ⟨-, hlast⟩ := append_inj' hV rfl
        cases hlast
        have hzero : x.last = 0 := by simp [LogSegment.last, hy.entries]
        exact absurd hzero hrows
  · obtain ⟨-, -, W, P', L', tail', hrot, hlive, -⟩ := h
    rw [hlive.view.segments] at hm'
    obtain ⟨a', ha', _, rfl⟩ := summaries_mem hm'
    rw [hrot.mem hview.ok ha ha' hid] at hne
    exact absurd rfl hne
  · exact absurd rfl he

/-- **What a commit of stamped requests does**: the last time, and the bounds. -/
structure CommitSound (g : Group c) (t : Table c) (e : Exit Error (List AppendReceipt))
    (t' : Table c) : Prop where
  time : e ≠ .killed → t'.lastTime = t.lastTime ∨ (∃ rs, e = .ok rs) ∧ t'.lastTime = groupMax g
  valid : ∀ er, e = .fail er → er.code ≠ .invalid
  target : e ≠ .killed → WithinTarget t t'

theorem WithinTarget.refl (t : Table c) {V : Log c} (hview : View t V) : WithinTarget t t := by
  intro m hm _ m' hm' hid hne
  rw [hview.segments] at hm hm'
  obtain ⟨a, ha, _, rfl⟩ := summaries_mem hm
  obtain ⟨a', ha', _, rfl⟩ := summaries_mem hm'
  rw [hview.ok.chain.eq_of_id ha' ha hid] at hne
  exact absurd rfl hne

theorem CommitCause.code_ne_invalid {e : Error} (h : CommitCause env g t (.fail e) fs t') :
    e.code ≠ .invalid := by
  rcases h with ⟨-, he | he | he⟩ | he | ⟨he, -⟩
  · rw [he]; decide
  · rw [he]; decide
  · rw [he]; decide
  · rw [he.code]; decide
  · rw [he]; decide

theorem wp_commitRequests_sound (h : Live t fs V P L tail) (hg : Stamped t.lastTime g) (hne : g ≠ [])
    (hroomy : t.Roomy) (n : ℕ) :
    wp (commitRequests g) env (fun e _ t' ↦ CommitSound g t e t') ⟨fs, n, t⟩ := by
  by_cases hrefused : t.frozen = true ∨ groupMin g < 0
  · refine (wp_commitRequests_refused hrefused).mono ?_
    rintro _ fs' t' ⟨-, rfl, er, rfl, hcode⟩
    refine ⟨fun _ ↦ .inl rfl, fun er' her ↦ ?_, fun _ ↦ .refl t' h.view⟩
    cases her
    rcases hcode with he | he | he | he <;> rw [he] <;> decide
  · rw [not_or, Bool.not_eq_true, not_lt] at hrefused
    obtain ⟨hfrozen, hmin⟩ := hrefused
    have htime : V.time ≤ groupMin g := h.view.lastTime ▸ hg.le_groupMin hne hmin
    have horderly : Orderly g := by
      rcases hg with ⟨hg, -⟩ | ⟨r, rfl, hr⟩
      · exact hg
      · exact absurd hmin (not_le.2 hr)
    refine (wp_commitRequests_causes (k := 0) h fun _ ↦ htime).mono ?_
    rintro e fs' t' ⟨⟨hf, -⟩ | ⟨-, hpost⟩, hcause⟩
    · rw [hfrozen] at hf
      cases hf
    · replace hcause := (hcause hroomy).2 hfrozen horderly hne
      refine ⟨fun he ↦ ?_, fun er her ↦ ?_, fun he ↦ hpost.withinTarget he h.view hcause⟩
      · rcases e with rs | er | _
        · obtain ⟨-, W, V', P', -, happ, hlive, -⟩ := hpost
          exact .inr ⟨⟨rs, rfl⟩, hlive.view.lastTime.trans happ.time⟩
        · exact .inl hpost.2.1.lastTime
        · exact absurd rfl he
      · subst her
        exact hcause.code_ne_invalid

end Commit

/-- Every frame of a segment is that of a group. -/
theorem GroupsOk.frameOk {c : Config} {day time : ℤ} {S : Symbols} {first : ℕ} {gs : List (Group c)}
    (h : GroupsOk day S first time gs) {f : Frame} (hf : f ∈ framesFrom S first gs) :
    ∃ S first g, f = groupFrame S first g ∧ FrameOk (c := c) S first g := by
  induction gs generalizing S first time with
  | nil => exact absurd hf not_mem_nil
  | cons g gs ih =>
    obtain ⟨hframe, -, -, hrest⟩ := h
    rcases mem_cons.1 hf with rfl | hf
    · exact ⟨S, first, g, rfl, hframe⟩
    · exact ih hrest hf

/-! ### The writer -/

/-- A call on an open table is a step of its site. -/
theorem Reach.serve {c : Config} {s : Site c} {t : Table c} (h : Reach s) (env : Env Path Dir)
    (hp : s.process = some t) {a : Action c} (ha : s.Admits a) : Reach (s.serve env t a) :=
  Site.step_serve hp env a ▸ h.step env a ha

namespace Ingest

section Steady

variable {κ : Type} {C : Catalogue κ} {s : Ingest C}

/-- **The tables, and what the writer still has to commit to one of them.** -/
structure Steady (s : Ingest C) : Prop where
  reach : ∀ i, Reach (s.site i)
  nonempty : ∀ i groups done, s.writer = .committing i groups done → ∀ g ∈ groups, g ≠ []
  pending : ∀ i groups done, s.writer = .committing i groups done →
    ∀ t, (s.site i).process = some t → Stamped t.lastTime (groups.flatten.map Ticket.request)

/-- The writer has nothing to commit. -/
theorem steady_of_idle (hreach : ∀ i, Reach (s.site i))
    (hidle : ∀ i groups done, s.writer ≠ .committing i groups done) : s.Steady :=
  ⟨hreach, fun i gs d hw ↦ absurd hw (hidle i gs d), fun i gs d hw ↦ absurd hw (hidle i gs d)⟩

/-- A table that is open knows a log. -/
theorem Steady.live (h : s.Steady) {i : κ} {t : Table (C.table i)} (hp : (s.site i).process = some t) :
    t.Roomy ∧ ∃ V P L tail, Live t (s.site i).files V P L tail := by
  obtain ⟨P, L, tail, hat⟩ := (h.reach i).at
  obtain ⟨V, hserves⟩ := hat.serves t hp
  exact ⟨(h.reach i).roomy hp, V, P, L, tail, hserves.live⟩

variable [DecidableEq κ]

/-- The writer forms a batch. -/
theorem Steady.dequeued (h : s.Steady) (clock : ℕ → ℤ) {x : Queued C} {queue rest : List (Queued C)}
    {ready adjustments : ℕ} :
    Steady { s with
      queue := rest
      readyBytes := ready
      clockAdjustments := adjustments
      writer := .committing x.table
        [(formBatch x.table clock ⟨0, 0, s.lastTime x.table, -1⟩ (x :: queue)).taken] [] } where
  reach := h.reach
  nonempty i groups done hw := by
    cases hw
    intro g hg
    rw [mem_singleton.1 hg]
    exact formBatch_ne_nil x.table clock _ _ x.ticket queue
  pending i groups done hw t hp := by
    cases hw
    obtain ⟨-, V, P, L, tail, hlive⟩ := h.live hp
    have hlast : s.lastTime x.table = t.lastTime := by
      have hp' : (s.site x.table).process = some t := hp
      rw [lastTime, hp']
      rfl
    have hlt : t.lastTime < 2 ^ 63 := by
      rw [hlive.view.lastTime]
      exact hlive.view.ok.chain.time_lt (by decide)
    rw [flatten_singleton, hlast]
    rcases formBatch_times x.table clock ⟨0, 0, t.lastTime, -1⟩ hlt (x :: queue) with
      ⟨hg, hle⟩ | ⟨-, -, hfailed⟩
    · exact .inl ⟨hg, fun r hr ↦ (hle r hr).1⟩
    · exact .inr hfailed

/-- Another table, or the same one with a new handle. -/
theorem Steady.update (h : s.Steady) {i : κ} {site : Site (C.table i)} (hreach : Reach site)
    (j : κ) : Reach (Function.update s.site i site j) := by
  by_cases hj : j = i
  · subst hj
    rwa [Function.update_self]
  · rw [Function.update_of_ne hj]
    exact h.reach j

/-- The writer commits a group. -/
theorem Steady.commitGroup (h : s.Steady) (env : Env Path Dir) {i : κ} {g : List (Ticket (C.table i))}
    {groups : List (List (Ticket (C.table i)))}
    {done : List (Ticket (C.table i) × Except Error AppendReceipt)}
    (hw : s.writer = .committing i (g :: groups) done) : (s.commitGroup env i g groups done).Steady := by
  have hne : g.map Ticket.request ≠ [] := fun hnil ↦
    h.nonempty i _ done hw g (mem_cons_self ..) (map_eq_nil_iff.1 hnil)
  unfold Ingest.commitGroup
  cases hp : (s.site i).process with
  | none => exact h
  | some t =>
    have hpending := h.pending i _ done hw t hp
    rw [flatten_cons, map_append] at hpending
    have hstamped := hpending.sublist (sublist_append_left _ _)
    obtain ⟨hroomy, V, P, L, tail, hlive⟩ := h.live hp
    have hreach : Reach ((s.site i).serve env t (.commit (g.map Ticket.request))) := by
      refine (h.reach i).serve env hp fun t' ht' ↦ ?_
      cases hp.symm.trans ht'
      exact hstamped.le_groupMin hne
    have hsound : wp (commitRequests (g.map Ticket.request)) env _ ⟨(s.site i).files, 0, t⟩ :=
      wp_commitRequests_sound hlive hstamped hne hroomy 0
    unfold wp at hsound
    simp only [Site.serve, Site.run] at hreach ⊢
    revert hreach hsound
    generalize commitRequests (g.map Ticket.request) env ⟨(s.site i).files, 0, t⟩ = r
    intro hreach hsound
    have hgroups : ∀ g' ∈ groups, g' ≠ [] := fun g' hg' ↦
      h.nonempty i _ done hw g' (mem_cons_of_mem _ hg')
    rcases r with ⟨rs | e | _, w⟩
    · refine ⟨h.update hreach, fun _ _ _ hw' ↦ ?_, fun _ _ _ hw' t' hp' ↦ ?_⟩
      · cases hw'
        exact hgroups
      · cases hw'
        dsimp only at hp'
        rw [Function.update_self] at hp'
        cases hp'
        rcases hsound.time (by simp) with htime | ⟨-, htime⟩
        · rw [htime]
          exact hpending.sublist (sublist_append_right _ _)
        · rw [htime]
          exact hpending.rest hne
    · have htime : w.mem.lastTime = t.lastTime := by
        rcases hsound.time (by simp) with htime | ⟨⟨rs, hrs⟩, -⟩
        · exact htime
        · cases hrs
      dsimp only
      split
      next hsplit =>
        refine ⟨h.update hreach, fun _ _ _ hw' g' hg' ↦ ?_, fun _ _ _ hw' t' hp' ↦ ?_⟩
        · cases hw'
          intro hnil
          rcases mem_cons.1 hg' with rfl | hg'
          · have := congrArg List.length hnil
            rw [length_take, length_nil] at this
            omega
          · rcases mem_cons.1 hg' with rfl | hg'
            · have := congrArg List.length hnil
              rw [length_drop, length_nil] at this
              omega
            · exact hgroups g' hg' hnil
        · cases hw'
          dsimp only at hp'
          rw [Function.update_self] at hp'
          cases hp'
          -- both halves together are the group
          rw [htime, flatten_cons, flatten_cons, ← append_assoc, take_append_drop,
            map_append]
          exact hpending
      next =>
        refine ⟨h.update hreach, fun _ _ _ hw' ↦ ?_, fun _ _ _ hw' t' hp' ↦ ?_⟩
        · cases hw'
          exact hgroups
        · cases hw'
          dsimp only at hp'
          rw [Function.update_self] at hp'
          cases hp'
          rw [htime]
          exact hpending.sublist (sublist_append_right _ _)
    · refine ⟨h.update hreach, h.nonempty, fun j gs d hw' t' hp' ↦ ?_⟩
      have hw'' : s.writer = .committing j gs d := hw'
      rw [hw] at hw''
      cases hw''
      dsimp only at hp'
      rw [Function.update_self] at hp'
      cases hp'

/-- Another call on a table. -/
theorem Steady.aside (h : s.Steady) (env : Env Path Dir) {i : κ} {t : Table (C.table i)}
    (hp : (s.site i).process = some t) {a : Action (C.table i)} (ha : a.besides = true) (dead : Bool) :
    Steady { s with
      site := Function.update s.site i ((s.site i).serve env t a)
      dead := dead } where
  reach := by
    refine h.update ((h.reach i).serve env hp ?_)
    cases a <;> trivial
  nonempty := h.nonempty
  pending j groups done hw t' hp' := by
    by_cases hj : j = i
    · subst hj
      dsimp only at hp'
      rw [Function.update_self] at hp'
      have habides := Site.serve_abides ha hp ⟨rfl, (h.reach j).roomy hp⟩ hp'
      rw [habides.1]
      exact h.pending j groups done hw t hp
    · dsimp only at hp'
      rw [Function.update_of_ne hj] at hp'
      exact h.pending j groups done hw t' hp'

theorem Steady.next (h : s.Steady) (move : IngestMove C) : (s.next move).Steady := by
  unfold Ingest.next
  split
  · exact h
  have hsame {s' : Ingest C} (hsite : s'.site = s.site) (hwriter : s'.writer = s.writer) : s'.Steady :=
    ⟨hsite ▸ h.reach, hwriter ▸ h.nonempty, by rw [hwriter, hsite]; exact h.pending⟩
  cases move with
  | call i b startedNs =>
    simp only [act]
    split
    · exact h
    · split
      · exact h
      · split <;> exact hsame rfl rfl
  | stage k alloc condition submittedNs =>
    simp only [act]
    split
    · exact h
    · split <;> exact hsame rfl rfl
  | dequeue clock =>
    simp only [act]
    split
    · exact h.dequeued clock
    · exact h
  | commit env =>
    simp only [act]
    split
    next i g groups done hw => exact h.commitGroup env hw
    next => exact h
  | complete =>
    simp only [act]
    split
    · exact steady_of_idle h.reach (by simp)
    · exact h
  | stop => exact hsame rfl rfl
  | exit =>
    simp only [act]
    split
    · split
      · exact steady_of_idle h.reach (by simp)
      · exact h
    · exact h
  | other i env a =>
    simp only [act]
    split
    · exact h
    next t hp =>
      split
      next ha => exact h.aside env hp ha _
      next => exact h

theorem steady_of_reach (h : (machine C).Reach s) : s.Steady := by
  refine h.invariant ?_ ?_
  · rintro s ⟨site, hsite, rfl⟩
    exact steady_of_idle (fun i ↦ (hsite i).1) nofun
  · rintro s move s' - hs rfl
    exact hs.next move

end Steady

/-! ### Bounds -/

section Bounds

variable {κ : Type} [DecidableEq κ] {C : Catalogue κ}

/-- **Bounds that rotation keeps.** In a table that is open, every segment has room for its frames in an
index, the encoder accepts every frame, and the live dictionary is within its budget. The group that the
writer commits next is not rejected as invalid, whatever fails, and a segment that had rows before stays
within its target. -/
theorem rotation_bounds {s : Ingest C} (h : (machine C).Reach s) {i : κ} {t : Table (C.table i)}
    (hp : (s.site i).process = some t) :
    (∃ V P L tail, Live t (s.site i).files V P L tail ∧
      ∀ a ∈ V, a.frames.length ≤ 65536 ∧
        ∀ f ∈ a.frames, frameEncode f = .ok f.bytes ∧ f.bytes.length ≤ 1048576) ∧
    (∀ active, t.active? = some active →
      ∃ d, t.dictionary = some d ∧ d.allocatedBytes ≤ (C.table i).options.dictionaryLimitBytes) ∧
    ∀ env g groups done, s.writer = .committing i (g :: groups) done →
      let r := (s.site i).run env t (commitRequests (g.map Ticket.request))
      (∀ e, r.1 = .fail e → e.code ≠ .invalid) ∧ (r.1 ≠ .killed → WithinTarget t r.2.mem) := by
  have hsteady := steady_of_reach h
  obtain ⟨hroomy, V, P, L, tail, hlive⟩ := hsteady.live hp
  refine ⟨⟨V, P, L, tail, hlive, fun a ha ↦ ?_⟩, fun active hactive ↦ ?_,
    fun env g groups done hw ↦ ?_⟩
  · obtain ⟨front, back, -, -, hok, -⟩ := hlive.view.ok.chain.mem ha
    refine ⟨?_, fun f hf ↦ ?_⟩
    · rw [LogSegment.frames, length_framesFrom, LogSegment.groups, List.length_map]
      exact hok.count
    · obtain ⟨S, first, g, rfl, hframe⟩ := hok.groups.frameOk hf
      exact ⟨hframe.encode, by rw [Frame.length_bytes]; exact hframe.sized.total_le⟩
  · obtain ⟨A, a, rfl, hretired, rfl⟩ := hlive.view.active?_some hactive
    obtain ⟨d, hd, hrep, -, hlimit⟩ := hlive.view.dictionary a (by simp) hretired
    exact ⟨d, hd, hlimit ▸ hrep.budget⟩
  · have hne : g.map Ticket.request ≠ [] := fun hnil ↦
      hsteady.nonempty i _ done hw g (List.mem_cons_self ..) (List.map_eq_nil_iff.1 hnil)
    have hpending := hsteady.pending i _ done hw t hp
    rw [List.flatten_cons, List.map_append] at hpending
    have hsound : wp (commitRequests (g.map Ticket.request)) env _ ⟨(s.site i).files, 0, t⟩ :=
      wp_commitRequests_sound hlive (hpending.sublist (List.sublist_append_left _ _)) hne hroomy 0
    exact ⟨hsound.valid, hsound.target⟩

/-- One request is committed, and the writer has taken the next one. -/
def secondHit : Ingest hitsCatalogue :=
  [.call () oneHit 0, .stage 0 true true 0, .dequeue fun _ ↦ 5, .commit (.still Path Dir), .complete,
    .call () oneHit 0, .stage 0 true true 0, .dequeue fun _ ↦ 4].foldl next
      (initial fun _ ↦ Site.created hits 0)

/-- The table has one row, and the commit that comes next has an answer. -/
def answersSecond (s : Ingest hitsCatalogue) : Bool :=
  match (s.site ()).process, s.writer with
  | some t, .committing _ (g :: _) _ => t.lastSequence == 1 && (answerOf ((s.site ()).run
      (.still Path Dir) t (commitRequests (g.map Ticket.request))).1).isSome
  | _, _ => false

/-- The active segment has a row and gets a second one. -/
theorem rotation_bounds_secondHit : ∃ t g groups done, (secondHit.site ()).process = some t ∧
    secondHit.writer = .committing () (g :: groups) done ∧ t.lastSequence = 1 ∧
    WithinTarget t
      ((secondHit.site ()).run (.still Path Dir) t (commitRequests (g.map Ticket.request))).2.mem := by
  have hinit : (machine hitsCatalogue).init (initial fun _ ↦ Site.created hits 0) :=
    ⟨_, fun _ ↦ ⟨.created 0 (by decide), rfl⟩, rfl⟩
  have hreach : (machine hitsCatalogue).Reach secondHit := .foldl (fun _ _ ↦ rfl) (.init hinit) _
  have hrun : secondHit.answersSecond = true := by decide +kernel
  have hbounds := @rotation_bounds _ _ _ _ hreach ()
  unfold answersSecond at hrun
  revert hrun hbounds
  generalize secondHit.site () = site
  generalize secondHit.writer = writer
  rcases site.process with _ | t
  · rintro ⟨⟩
  rcases writer with _ | ⟨_, _ | ⟨g, groups⟩, done⟩ | _
  · rintro ⟨⟩
  · rintro ⟨⟩
  · intro hrun hbounds
    rw [Bool.and_eq_true, beq_iff_eq] at hrun
    refine ⟨t, g, groups, done, rfl, rfl, hrun.1, ((hbounds rfl).2.2 _ g groups done rfl).2 ?_⟩
    intro hkilled
    rw [hkilled] at hrun
    cases hrun.2
  · rintro ⟨⟩

end Bounds

end Ingest

end WebAnalyticsDb
