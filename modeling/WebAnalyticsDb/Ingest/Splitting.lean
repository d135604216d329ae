import WebAnalyticsDb.Ingest.Groups

/-!
# Splitting a batch

A frame may be too large for the requests of a batch together and not for each of them alone. `commit_group`
cuts such a batch in halves, down to single requests if it has to, and `wadb_commit_requests` tries a fresh
segment before it gives a group up. So the limits that a request meets are its own:

* **One commit.** When nothing fails, a group is given up only if it does not fit into a fresh segment, or if
  numbers have run out (`wp_commitRequests_calm`). Nothing is said about the active segment, its dictionary
  or what an earlier group has left in it.
* **All commits.** Cutting lowers a weight of the groups that are left (`work`), and when none is left every
  request of the batch has an answer (`Ingest.every_fitting_request_answered`).
-/

namespace WebAnalyticsDb

open List

variable {c : Config}

/-! ### One commit -/

/-- **A commit when nothing fails.** -/
theorem wp_commitRequests_calm {env : Env Path Dir} {t : Table c} {V P L : Log c} {tail : Bytes}
    {g : Group c} {fs : Files} (h : Live t fs V P L tail) (hfrozen : t.frozen = false) (hg : Orderly g)
    (hne : g ≠ []) (htime : V.time ≤ groupMin g) (hroomy : t.Roomy) (hcalm : env.Calm) (n : ℕ) :
    wp (commitRequests g) env (fun e _ t' ↦ t'.frozen = false ∧ ((∃ rs, e = .ok rs) ∨
      ∃ er, e = .fail er ∧ er.code = .limit ∧ (er.Exhaustion ∨ ¬ FitsBehind [] g))) ⟨fs, n, t⟩ := by
  refine (wp_commitRequests_causes (k := 0) h fun _ ↦ htime).mono ?_
  rintro e fs' t' ⟨⟨hf, -⟩ | ⟨-, hpost⟩, hcause⟩
  · rw [hfrozen] at hf
    cases hf
  replace hcause := (hcause hroomy).2 hfrozen hg hne
  rcases e with rs | er | _
  · obtain ⟨-, W, V', P', -, -, -, -, -, hfrozen', -⟩ := hpost
    exact ⟨hfrozen'.trans hfrozen, .inl ⟨rs, rfl⟩⟩
  · obtain ⟨-, hquiet, W, P', L', tail', -, -, -, hdefinite, -⟩ := hpost
    have hlimit : er.code = .limit ∧ (er.Exhaustion ∨ ¬ FitsBehind [] g) := by
      rcases hcause with ⟨hfault, -⟩ | he | ⟨hcode, hfits⟩
      · exact absurd hcalm hfault
      · exact ⟨he.code, .inl he⟩
      · exact ⟨hcode, .inr hfits⟩
    obtain ⟨-, -, hro⟩ := hdefinite (by rw [hlimit.1]; decide)
    exact ⟨(frozen_eq hquiet hro).trans hfrozen, .inr ⟨er, rfl, hlimit⟩⟩
  · exact absurd hcalm hcause

/-! ### The groups that are left -/

namespace Ingest

/-- **A request is answered on its own account**: if it fits alone into an empty segment, it is committed
unless sequence numbers or segment records have run out. -/
def Fair (x : Ticket c × Except Error AppendReceipt) : Prop :=
  FitsBehind [] [x.1.request] → (∃ r, x.2 = .ok r) ∨ ∃ e, x.2 = .error e ∧ e.Exhaustion

/-- How often groups can be cut or answered. -/
def work {α : Type} : List (List α) → ℕ
  | [] => 0
  | g :: groups => 2 * g.length - 1 + work groups

theorem work_halves {α : Type} (g : List α) (hg : 1 < g.length) (groups : List (List α)) :
    work (g.take (g.length / 2) :: g.drop (g.length / 2) :: groups) < work (g :: groups) := by
  simp only [work, length_take, length_drop]
  omega

theorem work_answered {α : Type} {g : List α} (hg : g ≠ []) (groups : List (List α)) :
    work groups < work (g :: groups) := by
  have hpos := length_pos_iff.2 hg
  simp only [work]
  omega

section Splitting

variable {κ : Type} {C : Catalogue κ} {s : Ingest C} {i : κ}
  {batch : List (Ticket (C.table i))} {groups : List (List (Ticket (C.table i)))}
  {done : List (Ticket (C.table i) × Except Error AppendReceipt)}

/-- **The writer in the middle of a batch** of a table that can be written. -/
structure Splitting (s : Ingest C) (i : κ) (batch : List (Ticket (C.table i)))
    (groups : List (List (Ticket (C.table i))))
    (done : List (Ticket (C.table i) × Except Error AppendReceipt)) : Prop where
  steady : s.Steady
  alive : s.dead = false
  writer : s.writer = .committing i groups done
  writable : ∃ t, (s.site i).process = some t ∧ t.frozen = false
  times : ∀ x ∈ groups.flatten, 0 ≤ x.request.ingestionTime
  whole : done.map Prod.fst ++ groups.flatten = batch
  fair : ∀ x ∈ done, Fair x

/-- The times of a group whose clock readings were valid. -/
theorem Splitting.orderly {g : List (Ticket (C.table i))} (h : Splitting s i batch (g :: groups) done)
    {t : Table (C.table i)} (hp : (s.site i).process = some t) :
    g.map Ticket.request ≠ [] ∧ Orderly (g.map Ticket.request) ∧
      t.lastTime ≤ groupMin (g.map Ticket.request) := by
  have hne : g.map Ticket.request ≠ [] := fun hnil ↦
    h.steady.nonempty i _ done h.writer g (mem_cons_self ..) (map_eq_nil_iff.1 hnil)
  have hpending := h.steady.pending i _ done h.writer t hp
  rw [flatten_cons, map_append] at hpending
  have hstamped := hpending.sublist (sublist_append_left _ _)
  have hnonneg : ∀ r ∈ g.map Ticket.request, 0 ≤ r.ingestionTime := by
    intro r hr
    obtain ⟨x, hx, rfl⟩ := mem_map.1 hr
    exact h.times x (mem_flatten.2 ⟨g, mem_cons_self .., hx⟩)
  have horderly : Orderly (g.map Ticket.request) := by
    rcases hstamped with ⟨hg, -⟩ | ⟨r, heq, hr⟩
    · exact hg
    · exact absurd (hnonneg r (by rw [heq]; exact mem_singleton_self r)) (not_le.2 hr)
  refine ⟨hne, horderly, hstamped.le_groupMin hne ?_⟩
  obtain ⟨r, rest, heq⟩ := exists_cons_of_ne_nil hne
  rw [heq, groupMin_cons]
  exact hnonneg r (by rw [heq]; exact mem_cons_self ..)

variable [DecidableEq κ] {env : Env Path Dir}

/-- **One more commit**: the group is answered or cut. -/
theorem Splitting.commit {g : List (Ticket (C.table i))} (h : Splitting s i batch (g :: groups) done)
    (hcalm : env.Calm) : ∃ groups' done', Splitting (s.next (.commit env)) i batch groups' done' ∧
      work groups' < work (g :: groups) := by
  obtain ⟨t, hp, hfrozen⟩ := h.writable
  obtain ⟨hne, horderly, hmin⟩ := h.orderly hp
  obtain ⟨hroomy, V, P, L, tail, hlive⟩ := h.steady.live hp
  have hg : g ≠ [] := fun hnil ↦ hne (map_eq_nil_iff.2 hnil)
  have hnext : s.next (.commit env) = s.commitGroup env i g groups done := by
    simp only [Ingest.next, h.alive, Ingest.act, h.writer, Bool.false_eq_true, if_false]
  have hsteady := h.steady.commitGroup env h.writer
  have hwp : wp (commitRequests (g.map Ticket.request)) env _ ⟨(s.site i).files, 0, t⟩ :=
    wp_commitRequests_calm hlive hfrozen horderly hne (hlive.view.lastTime ▸ hmin) hroomy hcalm 0
  have hyields : ∀ rs, (commitRequests (g.map Ticket.request) env ⟨(s.site i).files, 0, t⟩).1 = .ok rs →
      rs.length = (g.map Ticket.request).length := yields_commitRequests _ env _
  have htimes : ∀ x ∈ groups.flatten, 0 ≤ x.request.ingestionTime := fun x hx ↦
    h.times x (by rw [flatten_cons]; exact mem_append_right _ hx)
  have hwhole : done.map Prod.fst ++ g ++ groups.flatten = batch := by
    rw [append_assoc, ← flatten_cons, h.whole]
  rw [hnext]
  unfold wp at hwp
  unfold Ingest.commitGroup at hsteady ⊢
  rw [hp] at hsteady ⊢
  simp only [Site.serve, Site.run] at hsteady ⊢
  revert hsteady hwp hyields
  generalize commitRequests (g.map Ticket.request) env ⟨(s.site i).files, 0, t⟩ = r
  rcases r with ⟨rs | e | _, w⟩
  · rintro hsteady ⟨hfrozen', -⟩ hyields
    have hlen : g.length = (rs.map .ok : List (Except Error AppendReceipt)).length := by
      rw [length_map, hyields rs rfl, length_map]
    refine ⟨groups, _, ⟨hsteady, h.alive, rfl, ⟨w.mem, ?_, hfrozen'⟩, htimes, ?_, ?_⟩,
      work_answered hg groups⟩
    · dsimp only
      rw [Function.update_self]
      rfl
    · rw [map_append, map_fst_zip hlen.le, hwhole]
    · intro x hx
      rcases mem_append.1 hx with hx | hx
      · exact h.fair x hx
      · obtain ⟨r, -, hr⟩ := mem_map.1 (of_mem_zip hx).2
        exact fun _ ↦ .inl ⟨r, hr.symm⟩
  · rintro hsteady ⟨hfrozen', hcases⟩ -
    obtain ⟨hlimit, hcause⟩ : e.code = .limit ∧
        (e.Exhaustion ∨ ¬ FitsBehind [] (g.map Ticket.request)) := by
      rcases hcases with ⟨rs, hrs⟩ | ⟨er, her, hcode, hcause⟩
      · cases hrs
      · cases her
        exact ⟨hcode, hcause⟩
    dsimp only at hsteady ⊢
    by_cases hsplit : 1 < g.length
    · rw [if_pos ⟨hlimit, hsplit⟩] at hsteady ⊢
      refine ⟨_, done, ⟨hsteady, h.alive, rfl, ⟨w.mem, ?_, hfrozen'⟩, ?_, ?_, h.fair⟩,
        work_halves g hsplit groups⟩
      · dsimp only
        rw [Function.update_self]
        rfl
      · rw [flatten_cons, flatten_cons, ← append_assoc, take_append_drop,
          ← flatten_cons]
        exact h.times
      · rw [flatten_cons, flatten_cons, ← append_assoc _ _ groups.flatten,
          take_append_drop, ← flatten_cons]
        exact h.whole
    · rw [if_neg fun hcond ↦ hsplit hcond.2] at hsteady ⊢
      refine ⟨groups, _, ⟨hsteady, h.alive, rfl, ⟨w.mem, ?_, hfrozen'⟩, htimes, ?_, ?_⟩,
        work_answered hg groups⟩
      · dsimp only
        rw [Function.update_self]
        rfl
      · rw [map_append, map_map]
        simpa [Function.comp_def] using hwhole
      · -- a single request: the limit is its own
        obtain ⟨x, rfl⟩ : ∃ x, g = [x] := length_eq_one_iff.1 (by
          have := length_pos_iff.2 hg
          omega)
        intro y hy
        rcases mem_append.1 hy with hy | hy
        · exact h.fair y hy
        · cases mem_singleton.1 hy
          intro hfits
          exact .inr ⟨e, rfl, hcause.resolve_right fun hno ↦ hno hfits⟩
  · rintro - ⟨-, ⟨rs, hrs⟩ | ⟨er, her, -⟩⟩ -
    · cases hrs
    · cases her

/-- The moves of the writer until a batch is answered. -/
def commitMoves (envs : ℕ → Env Path Dir) : ℕ → List (IngestMove C)
  | 0 => []
  | n + 1 => .commit (envs 0) :: commitMoves (fun k ↦ envs (k + 1)) n

/-- **All commits**, by induction on the work that is left. -/
theorem Splitting.run (h : Splitting s i batch groups done) {envs : ℕ → Env Path Dir}
    (hcalm : ∀ n, (envs n).Calm) :
    ∃ n done', Splitting ((commitMoves envs n).foldl next s) i batch [] done' := by
  induction hwork : work groups using Nat.strong_induction_on generalizing s groups done envs with
  | _ m ih =>
    cases groups with
    | nil => exact ⟨0, done, h⟩
    | cons g groups =>
      obtain ⟨groups', done', h', hlt⟩ := h.commit (hcalm 0)
      obtain ⟨n, done'', h''⟩ := ih (work groups') (hwork ▸ hlt) h' (fun k ↦ hcalm (k + 1)) rfl
      exact ⟨n + 1, done'', h''⟩

/-- **No request is rejected because of its neighbours.** Whatever is in the queue and in the table, when the
clock is valid and nothing fails, the writer comes to the end of the batch it forms: every request has an
answer, and one that fits alone into an empty segment is committed unless numbers have run out. -/
theorem every_fitting_request_answered (h : (machine C).Reach s) (halive : s.dead = false)
    (hw : s.writer = .waiting) {x : Queued C} {queue : List (Queued C)} (hq : s.queue = x :: queue)
    {t : Table (C.table x.table)} (hp : (s.site x.table).process = some t) (hfrozen : t.frozen = false)
    {clock : ℕ → ℤ} (hclock : ∀ n, 0 ≤ reading clock n) {envs : ℕ → Env Path Dir}
    (hcalm : ∀ n, (envs n).Calm) :
    ∃ n done, ((.dequeue clock :: commitMoves envs n).foldl next s).writer =
        .committing x.table [] done ∧
      done.map Prod.fst = (formBatch x.table clock ⟨0, 0, t.lastTime, -1⟩ s.queue).taken ∧
      ∀ y ∈ done, Fair y := by
  have hsteady := steady_of_reach h
  have hlast : s.lastTime x.table = t.lastTime := by
    rw [lastTime, hp]
    rfl
  obtain ⟨-, V, P, L, tail, hlive⟩ := hsteady.live hp
  have hlt : t.lastTime < 2 ^ 63 := by
    rw [hlive.view.lastTime]
    exact hlive.view.ok.chain.time_lt (by decide)
  have hbatch : Splitting (s.next (.dequeue clock)) x.table
      (formBatch x.table clock ⟨0, 0, t.lastTime, -1⟩ s.queue).taken
      [(formBatch x.table clock ⟨0, 0, t.lastTime, -1⟩ s.queue).taken] [] := by
    have hnext : (s.next (.dequeue clock)).Steady := hsteady.next _
    simp only [Ingest.next, halive, Ingest.act, hw, hq, hlast, Bool.false_eq_true, if_false] at hnext ⊢
    refine ⟨hnext, rfl, rfl, ⟨t, hp, hfrozen⟩, fun y hy ↦ ?_, by simp, fun _ hy ↦
      absurd hy List.not_mem_nil⟩
    rw [List.flatten_singleton] at hy
    rcases formBatch_times x.table clock ⟨0, 0, t.lastTime, -1⟩ hlt (x :: queue) with
      ⟨hg, -⟩ | ⟨-, ⟨n, hn⟩, -⟩
    · exact hg.nonneg _ (List.mem_map_of_mem hy)
    · exact absurd (hclock n) (not_le.2 hn)
  obtain ⟨n, done, hend⟩ := hbatch.run hcalm
  refine ⟨n, done, hend.writer, ?_, hend.fair⟩
  rw [← hend.whole, List.flatten_nil, List.append_nil]

end Splitting

/-- Two requests wait for the writer. -/
def twoHits : Ingest hitsCatalogue :=
  [.call () oneHit 0, .call () oneHit 0, .stage 0 true true 0, .stage 0 true true 0].foldl next
    (initial fun _ ↦ Site.created hits 0)

/-- The writer has nothing to do. -/
def waits (s : Ingest hitsCatalogue) : Bool :=
  match s.writer with
  | .waiting => true
  | _ => false

theorem every_fitting_request_answered_twoHits : ∃ n done,
    ((.dequeue (fun _ ↦ 5) :: commitMoves (fun _ ↦ .still Path Dir) n).foldl next twoHits).writer =
      .committing () [] done ∧ ∀ y ∈ done, Fair y := by
  have hinit : (machine hitsCatalogue).init (initial fun _ ↦ Site.created hits 0) :=
    ⟨_, fun _ ↦ ⟨.created 0 (by decide), rfl⟩, rfl⟩
  have hreach : (machine hitsCatalogue).Reach twoHits := .foldl (fun _ _ ↦ rfl) (.init hinit) _
  have hw : twoHits.writer = .waiting := by
    have hwaits : twoHits.waits = true := by decide +kernel
    unfold waits at hwaits
    revert hwaits
    rcases twoHits.writer with _ | _ | _
    · exact fun _ ↦ rfl
    · rintro ⟨⟩
    · rintro ⟨⟩
  obtain ⟨x, queue, hq⟩ : ∃ x queue, twoHits.queue = x :: queue :=
    List.exists_cons_of_ne_nil fun hnil ↦ by
      have hsome : twoHits.queue.isEmpty = false := by decide +kernel
      rw [hnil] at hsome
      cases hsome
  obtain ⟨t, hp⟩ : ∃ t, (twoHits.site ()).process = some t :=
    Option.isSome_iff_exists.1 (by decide +kernel)
  have hfrozen : (twoHits.site ()).process.map Table.frozen = some false := by decide +kernel
  rw [hp] at hfrozen
  have hclock : ∀ n, 0 ≤ reading (fun _ ↦ 5) n := fun _ ↦
    show (0 : ℤ) ≤ i64OfBits (i64Bits 5) by decide
  obtain ⟨n, done, hwriter, -, hfair⟩ := every_fitting_request_answered hreach (by decide +kernel) hw hq hp
    (Option.some.inj hfrozen) hclock fun _ ↦ Env.calm_still Path Dir
  exact ⟨n, done, hwriter, hfair⟩

end Ingest

end WebAnalyticsDb
