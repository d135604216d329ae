import WebAnalyticsDb.Foundation.Machine
import WebAnalyticsDb.Foundation.Ring
import WebAnalyticsDb.Storage.Commit

/-!
# Commit notifications

`wadb_db` keeps the last 1024 commit events in a ring. A commit puts one there, under the next number;
`wadb_read_notifications` copies those after a given number and says whether some are missing.

The ring belongs to the database, so it is shared by its tables: `Monitor` is the part of `wadb_db` that
holds it, and a table that commits publishes into it (`Db.monitor_countCommit`). What was ever published
is kept as a list beside it; `Monitor.Holds` relates the two, and `readNotifications_eq` says what a
reader gets in terms of the list.
-/

namespace WebAnalyticsDb

open List

variable {c : Config}

/-- The ring of commit events. -/
structure Monitor where
  notifications : ℕ → Option CommitEvent
  latestNotification : ℕ

/-- The ring of the database. -/
def Db.monitor (db : Db c) : Monitor := ⟨db.notifications, db.latestNotification⟩

/-- The ring of a database that was just opened. -/
def Monitor.initial : Monitor := ⟨fun _ ↦ none, 0⟩

/-- A slot that was never written. -/
def CommitEvent.zero : CommitEvent := ⟨0, 0, 0, 0, 0, 0, 0⟩

/-- The next event of a commit, in which the number is filled in. Numbers are not used twice: the last one
stays the last. -/
def Monitor.publish (m : Monitor) (e : CommitEvent) : Monitor :=
  if m.latestNotification < uint64Max then
    let id := m.latestNotification + 1
    ⟨SlotRing.put notificationCapacity m.notifications id { e with id := id }, id⟩
  else m

/-- What `wadb_read_notifications` returns. -/
structure NotificationPage where
  events : List CommitEvent
  latest : ℕ
  gap : Bool
deriving DecidableEq, Repr

/-- `wadb_read_notifications`. -/
def Monitor.readNotifications (m : Monitor) (after capacity : ℕ) : Except Error NotificationPage :=
  if notificationCapacity < capacity then
    .error ⟨.invalid, "invalid notification output or capacity"⟩
  else
    let latest := m.latestNotification
    let oldest := if notificationCapacity ≤ latest then latest - notificationCapacity + 1 else 1
    let first := if after < latest then after + 1 else 0
    let missed := first ≠ 0 && first < oldest
    let gap := latest < after || missed
    let first := if missed then oldest else first
    let n := if first = 0 then 0
      else if latest - first + 1 < capacity then latest - first + 1 else capacity
    .ok ⟨(List.range n).map fun i ↦
      (m.notifications (SlotRing.slot notificationCapacity (first + i))).getD .zero, latest, gap⟩

/-- Where the consumer goes on: behind the last event it got, or at the last number if it got none and
some are missing. -/
def NotificationPage.next (page : NotificationPage) (cursor : ℕ) : ℕ :=
  match page.events.getLast? with
  | some e => e.id
  | none => if page.gap then page.latest else cursor

/-- **A commit of a table publishes into the ring.** -/
theorem Db.monitor_countCommit (db : Db c) (f : Frame) (bytes requests : ℕ) :
    (db.countCommit f bytes requests).monitor = db.monitor.publish
      ⟨0, c.id, f.firstSequence, u64 (f.firstSequence + f.rowCount - 1), bytes, f.maxTime, f.rowCount⟩ := by
  unfold Db.countCommit Monitor.publish Db.monitor
  dsimp only
  split <;> rfl

/-! ### What was published -/

/-- **The ring holds the last of the events that were published**, which are numbered from one. -/
structure Monitor.Holds (m : Monitor) (published : List CommitEvent) : Prop where
  latest : m.latestNotification = published.length
  keeps : SlotRing.Keeps notificationCapacity m.notifications published.length
    fun id ↦ published[id - 1]?
  numbered : ∀ k e, published[k]? = some e → e.id = k + 1

namespace Monitor

variable {m : Monitor} {published : List CommitEvent} {after capacity : ℕ} {e : CommitEvent}
  {page : NotificationPage}

theorem holds_initial : Monitor.initial.Holds [] where
  latest := rfl
  keeps := .zero _ _ _
  numbered k e h := by simp at h

/-- **Publication.** -/
theorem Holds.publish (h : m.Holds published) (e : CommitEvent) :
    (m.publish e).Holds (if m.latestNotification < uint64Max then
      published ++ [{ e with id := published.length + 1 }] else published) := by
  unfold Monitor.publish
  split
  next hlt =>
    rw [h.latest]
    refine ⟨by simp, h.keeps.concat _, fun k x hk ↦ ?_⟩
    rcases getElem?_concat_cases hk with hk | ⟨rfl, rfl⟩
    · exact h.numbered k x hk
    · rfl
  next => exact h

/-- **What a reader gets**: the events after its number that the ring still has, as many as it asked
for, and whether it has missed some. -/
theorem Holds.readNotifications_eq (h : m.Holds published) (hc : capacity ≤ notificationCapacity) :
    m.readNotifications after capacity =
      .ok ⟨(published.drop (max after (published.length - notificationCapacity))).take capacity,
        published.length,
        decide (published.length < after ∨ after + notificationCapacity < published.length)⟩ := by
  have hcap : notificationCapacity = 1024 := rfl
  unfold readNotifications
  rw [if_neg (by omega)]
  simp only [h.latest]
  generalize hlen : published.length = latest
  have hwindow {first n : ℕ} (hfirst : 0 < first) (hold : latest < first + notificationCapacity)
      (hn : first + n ≤ latest + 1) := h.keeps.window hfirst (hlen ▸ hold) (hlen ▸ hn) CommitEvent.zero
  -- the number of events is cut to what is there
  have htake {first : ℕ} (hfirst : first ≤ latest) :
      (published.drop first).take (if latest - (first + 1) + 1 < capacity then
        latest - (first + 1) + 1 else capacity) = (published.drop first).take capacity := by
    split
    · rw [take_of_length_le, take_of_length_le] <;> rw [length_drop] <;> omega
    · rfl
  by_cases hafter : after < latest
  · by_cases hmiss : after + notificationCapacity < latest
    · -- the ring starts behind the reader
      have hfirst : (after + 1 ≠ 0 && decide (after + 1 < latest - notificationCapacity + 1)) = true := by
        simp
        omega
      simp only [if_pos hafter, if_pos (show notificationCapacity ≤ latest by omega), hfirst,
        if_true, Nat.succ_ne_zero, if_false, Bool.or_true]
      rw [hwindow (by omega) (by omega) (by split <;> omega), Nat.add_sub_cancel,
        max_eq_right (by omega), htake (by omega), decide_eq_true (.inr hmiss)]
    · have hfirst : (after + 1 ≠ 0 && decide (after + 1 <
          if notificationCapacity ≤ latest then latest - notificationCapacity + 1 else 1)) = false := by
        simp
        split <;> omega
      simp only [if_pos hafter, hfirst, Bool.false_eq_true, if_false, Nat.succ_ne_zero, Bool.or_false]
      rw [hwindow (by omega) (by omega) (by split <;> omega), Nat.add_sub_cancel,
        max_eq_left (by omega), htake (by omega)]
      simp [hmiss]
  · have hnil : published.drop (max after (latest - notificationCapacity)) = [] := by
      rw [drop_eq_nil_iff, hlen]
      omega
    simp only [if_neg hafter, hnil, take_nil]
    have hmiss : ¬ after + notificationCapacity < latest := by omega
    simp [hmiss]

/-- The events of a page are consecutive, and the consumer goes on behind them. -/
theorem Holds.events_of_page (h : m.Holds published) (hafter : after ≤ published.length)
    (hpos : 0 < capacity) (hc : capacity ≤ notificationCapacity)
    (hread : m.readNotifications after capacity = .ok page) :
    ∃ first n, page.events = (published.drop first).take n ∧ first + n ≤ published.length ∧
      after ≤ first ∧ page.next after = first + n ∧
      (after < first → page.gap = true ∧ first + notificationCapacity = page.latest) := by
  rw [h.readNotifications_eq hc] at hread
  cases hread
  obtain ⟨first, hfirst⟩ : ∃ first, first = max after (published.length - notificationCapacity) :=
    ⟨_, rfl⟩
  obtain ⟨n, hn⟩ : ∃ n, n = min capacity (published.length - first) := ⟨_, rfl⟩
  have hle : first ≤ published.length := by omega
  have htake : (published.drop first).take capacity = (published.drop first).take n := by
    rw [hn, take_eq_take_iff, length_drop]
    omega
  have hlen : ((published.drop first).take n).length = n := by
    rw [length_take, length_drop]
    omega
  refine ⟨first, n, by rw [← hfirst, htake], by omega, by omega, ?_, fun hlt ↦ ⟨?_, ?_⟩⟩
  · simp only [NotificationPage.next, ← hfirst, htake]
    cases hlast : ((published.drop first).take n).getLast? with
    | none =>
      -- nothing was left to read, so nothing is missing either
      rw [getLast?_eq_none_iff.1 hlast, length_nil] at hlen
      have hcap : notificationCapacity = 1024 := rfl
      simp only
      rw [if_neg (by simp only [decide_eq_true_eq]; omega)]
      omega
    | some e =>
      rw [getLast?_eq_getElem?, hlen] at hlast
      have hn0 : 0 < n := by
        rw [← hlen]
        exact length_pos_of_mem (mem_of_getElem? hlast)
      rw [getElem?_take_of_lt (by omega), getElem?_drop] at hlast
      have := h.numbered _ e hlast
      simp only
      omega
  · simp only [decide_eq_true_eq]
    omega
  · simp only
    omega

end Monitor

end WebAnalyticsDb
