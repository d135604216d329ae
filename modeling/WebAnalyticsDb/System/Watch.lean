import WebAnalyticsDb.Foundation.Machine
import WebAnalyticsDb.System.Site

/-!
# Watching commits

The tables of one database share the ring of commit events, and one consumer reads it as the ticker of
the server does: it starts at zero, and after each read it goes on behind the last event it got.

* **Tables are sites.** Each call on a table is a step of its site, started with the ring as the other
  tables have left it (`Site.withMonitor`). What a call does to the ring is one lemma for all calls
  (`Notifies`): nothing, or one more event that continues the sequence numbers of the table.
* **What was published is a list** beside the ring, in the order of publication, and what the consumer
  has got so far are the pages of its readings.
-/

namespace WebAnalyticsDb

open Bytes List

variable {c : Config}

/-! ### Tables that share a ring -/

/-- The handle with the ring of the database. -/
def Table.withMonitor (t : Table c) (m : Monitor) : Table c :=
  { t with db := { t.db with
      notifications := m.notifications
      latestNotification := m.latestNotification } }

/-- The site with the ring of the database. -/
def Site.withMonitor (s : Site c) (m : Monitor) : Site c :=
  { s with process := s.process.map (·.withMonitor m) }

section Sites

variable {s : Site c} {P L : Log c} {tail : Bytes}

@[simp] theorem Table.monitor_withMonitor (t : Table c) (m : Monitor) :
    (t.withMonitor m).db.monitor = m := rfl

/-- **The ring does not matter for the log.** -/
theorem Site.At.withMonitor (h : s.At P L tail) (m : Monitor) : (s.withMonitor m).At P L tail where
  disk := h.disk
  explains := h.explains
  serves t ht := by
    obtain ⟨t₀, ht₀, rfl⟩ := Option.map_eq_some_iff.1 ht
    obtain ⟨V, hserves⟩ := h.serves t₀ ht₀
    have hlive := hserves.live
    refine ⟨V, ⟨⟨hlive.view.toHandle.congr rfl,
      hlive.view.dictionary⟩, hlive.disk, hlive.backed, hlive.ext, hlive.current⟩, hserves.known,
      hserves.readers, hserves.pinned⟩
  unserved hn := h.unserved (Option.map_eq_none_iff.1 hn)

end Sites

/-! ### The consumer -/

/-- One read of the consumer, from the number `after` to the number `next`. -/
structure Reading where
  after : ℕ
  page : NotificationPage
  next : ℕ

/-- What the consumer has got. -/
def returned (readings : List Reading) : List CommitEvent := readings.flatMap (·.page.events)

/-- **What is known about the readings** of a consumer that has come to `cursor`. -/
structure Consumed (published : List CommitEvent) (cursor : ℕ) (readings : List Reading) : Prop where
  cursor_le : cursor ≤ published.length
  exact : ∀ e ∈ returned readings, published[e.id - 1]? = some e
  increasing : (returned readings).Pairwise (·.id < ·.id)
  le_cursor : ∀ e ∈ returned readings, e.id ≤ cursor
  covered : ∀ id, 0 < id → id ≤ cursor → (∀ e ∈ returned readings, e.id ≠ id) →
    ∃ r ∈ readings, r.after < id ∧ id ≤ r.next ∧ r.page.gap = true ∧
      id + notificationCapacity ≤ r.page.latest

section Consumer

variable {m : Monitor} {published : List CommitEvent} {readings : List Reading} {cursor capacity : ℕ}
  {page : NotificationPage}

theorem Consumed.start : Consumed [] 0 [] where
  cursor_le := le_rfl
  exact e he := by cases he
  increasing := .nil
  le_cursor e he := by cases he
  covered id hpos hle := by omega

/-- More events do not change what was got. -/
theorem Consumed.publish (h : Consumed published cursor readings) (new : List CommitEvent) :
    Consumed (published ++ new) cursor readings where
  cursor_le := by
    rw [length_append]
    exact h.cursor_le.trans (Nat.le_add_right _ _)
  exact e he := by
    have hsome := h.exact e he
    rw [getElem?_append_left (List.getElem?_eq_some_iff.1 hsome).1, hsome]
  increasing := h.increasing
  le_cursor := h.le_cursor
  covered := h.covered

/-- **One more read.** -/
theorem Consumed.read (h : Consumed published cursor readings) (hm : m.Holds published)
    (hpos : 0 < capacity) (hc : capacity ≤ notificationCapacity)
    (hread : m.readNotifications cursor capacity = .ok page) :
    Consumed published (page.next cursor) (readings ++ [⟨cursor, page, page.next cursor⟩]) := by
  obtain ⟨first, n, hevents, hle, hfirst, hnext, hgap⟩ := hm.events_of_page h.cursor_le hpos hc hread
  have hreturned : returned (readings ++ [⟨cursor, page, page.next cursor⟩]) =
      returned readings ++ page.events := by
    simp [returned]
  -- an event of the page stands behind `first` in what was published
  have hmem {e : CommitEvent} (he : e ∈ page.events) :
      ∃ i < n, published[first + i]? = some e ∧ e.id = first + i + 1 := by
    rw [hevents] at he
    obtain ⟨i, hi⟩ := mem_iff_getElem?.1 he
    have hin : i < n := by
      have := (List.getElem?_eq_some_iff.1 hi).1
      rw [length_take] at this
      omega
    rw [getElem?_take_of_lt hin, getElem?_drop] at hi
    exact ⟨i, hin, hi, hm.numbered _ e hi⟩
  constructor
  case cursor_le => omega
  case exact =>
    intro e he
    rw [hreturned] at he
    rcases mem_append.1 he with he | he
    · exact h.exact e he
    · obtain ⟨i, -, hi, hid⟩ := hmem he
      rw [hid, Nat.add_sub_cancel]
      exact hi
  case increasing =>
    rw [hreturned]
    refine pairwise_append.2 ⟨h.increasing, ?_, fun a ha b hb ↦ ?_⟩
    · rw [hevents]
      refine List.Pairwise.sublist (take_sublist _ _ |>.trans (drop_sublist _ _)) ?_
      refine pairwise_iff_getElem.2 fun i j hi hj hij ↦ ?_
      rw [hm.numbered i _ (getElem?_eq_getElem hi), hm.numbered j _ (getElem?_eq_getElem hj)]
      omega
    · have hle := h.le_cursor a ha
      obtain ⟨i, -, -, hid⟩ := hmem hb
      omega
  case le_cursor =>
    intro e he
    rw [hreturned] at he
    rcases mem_append.1 he with he | he
    · have := h.le_cursor e he
      omega
    · obtain ⟨i, hi, -, hid⟩ := hmem he
      omega
  case covered =>
    intro id hid hle' hne
    rw [hreturned] at hne
    by_cases hold : id ≤ cursor
    · obtain ⟨r, hr, hrest⟩ := h.covered id hid hold fun e he ↦ hne e (mem_append_left _ he)
      exact ⟨r, mem_append_left _ hr, hrest⟩
    · -- numbers behind `first` are on the page, so this one was left out
      have hlt : id ≤ first := by
        by_contra hgt
        obtain ⟨i, rfl⟩ : ∃ i, id = first + i + 1 := ⟨id - first - 1, by omega⟩
        have hi : first + i < published.length := by omega
        refine hne published[first + i] (mem_append_right _ ?_)
          (hm.numbered _ _ (getElem?_eq_getElem hi))
        rw [hevents]
        refine mem_of_getElem? (i := i) ?_
        rw [getElem?_take_of_lt (by omega), getElem?_drop, getElem?_eq_getElem hi]
      obtain ⟨hg, hlatest⟩ := hgap (by omega)
      exact ⟨_, mem_append_right _ (mem_singleton_self _), by simp only; omega,
        by simp only; omega, hg, by simp only; omega⟩

end Consumer

/-! ### The tables and the consumer together -/

/-- The tables of a database, their ring, what was ever published, and the consumer. -/
structure Watch {κ : Type} (c : κ → Config) where
  sites : (i : κ) → Site (c i)
  monitor : Monitor
  published : List CommitEvent
  cursor : ℕ
  readings : List Reading

/-- What can happen: a call on a table, or a read. -/
inductive WatchMove {κ : Type} (c : κ → Config)
  | act (i : κ) (env : Env Path Dir) (a : Action (c i))
  | read (capacity : ℕ)

/-- What was published between two states of the ring: the event under the last number, if that is a new
one. -/
def Monitor.news (m m' : Monitor) : List CommitEvent :=
  if m'.latestNotification = m.latestNotification then []
  else [(m'.notifications (SlotRing.slot notificationCapacity m'.latestNotification)).getD .zero]

section Watching

variable {κ : Type} [DecidableEq κ]

/-- **The steps of a database with a consumer.** A call that ends the process ends the run. -/
def Watch.Step {c : κ → Config} (s : Watch c) : WatchMove c → Watch c → Prop
  | .act i env a, s' => ∃ t', ((s.sites i).withMonitor s.monitor).Admits a ∧
      (((s.sites i).withMonitor s.monitor).step env a).process = some t' ∧
      s' = { s with
        sites := Function.update s.sites i (((s.sites i).withMonitor s.monitor).step env a)
        monitor := t'.db.monitor
        published := s.published ++ s.monitor.news t'.db.monitor }
  | .read capacity, s' => 1 ≤ capacity ∧ capacity ≤ notificationCapacity ∧
      ∃ page, s.monitor.readNotifications s.cursor capacity = .ok page ∧
        s' = { s with
          cursor := page.next s.cursor
          readings := s.readings ++ [⟨s.cursor, page, page.next s.cursor⟩] }

/-- **A database and a consumer from the start**: tables with different identifiers in any state they can
reach, and a ring without events. -/
def watching (c : κ → Config) : Machine (Watch c) (WatchMove c) where
  init s := Function.Injective (fun i ↦ (c i).id) ∧
    (∀ i, Reach (s.sites i) ∧ (s.sites i).process.isSome = true) ∧
    s.monitor = .initial ∧ s.published = [] ∧ s.cursor = 0 ∧ s.readings = []
  step := Watch.Step

/-- Two events of a table that follow each other. -/
def CommitEvent.Precedes (a b : CommitEvent) : Prop := b.firstSequence = a.lastSequence + 1

/-- The events of a table. -/
def eventsOf (published : List CommitEvent) (id : ℕ) : List CommitEvent :=
  published.filter (·.tableId = id)

/-- **The invariant.** The tables serve their logs, the ring holds what was published, the events of a
table follow each other and the last one ends where the table does (as long as there are numbers left),
and the consumer has what it should have. -/
structure Watch.Inv {c : κ → Config} (s : Watch c) : Prop where
  ids : Function.Injective fun i ↦ (c i).id
  serves : ∀ i, (∃ P L tail, (s.sites i).At P L tail) ∧ (s.sites i).process.isSome = true
  holds : s.monitor.Holds s.published
  chained : ∀ id, (eventsOf s.published id).IsChain CommitEvent.Precedes
  ends : s.monitor.latestNotification < uint64Max → ∀ i t, (s.sites i).process = some t →
    ∀ e ∈ (eventsOf s.published (c i).id).getLast?, e.lastSequence = t.lastSequence
  consumed : Consumed s.published s.cursor s.readings

variable {c : κ → Config} {s s' : Watch c}

theorem Watch.inv_init (h : (watching c).init s) : s.Inv := by
  obtain ⟨hids, hsites, hm, hp, hcur, hread⟩ := h
  obtain ⟨sites, monitor, published, cursor, readings⟩ := s
  dsimp only at hm hp hcur hread
  subst hm hp hcur hread
  refine ⟨hids, fun i ↦ ⟨(hsites i).1.at, (hsites i).2⟩, Monitor.holds_initial, fun _ ↦ .nil, ?_, .start⟩
  intro _ i t _ e he
  cases he

/-- What a publication adds. -/
theorem Monitor.news_publish {m : Monitor} {published : List CommitEvent} (h : m.Holds published)
    (e : CommitEvent) : m.news (m.publish e) =
      if m.latestNotification < uint64Max then [{ e with id := published.length + 1 }] else [] := by
  unfold Monitor.news Monitor.publish
  split
  next hlt =>
    rw [if_neg (by simp)]
    simp only [SlotRing.put, Function.update_self, Option.getD_some, h.latest]
  next => rw [if_pos rfl]

/-- **What a call on the table `i` does**: its handle goes from `t` to `t'`, and either nothing is
published or one event that continues the table. Once all numbers are used nothing is published any
more. -/
structure Watch.Acted (s s' : Watch c) (i : κ) (t t' : Table (c i)) : Prop where
  other : ∀ j, j ≠ i → s'.sites j = s.sites j
  before : (s.sites i).process = some t
  after : (s'.sites i).process = some t'
  log : ∃ P L tail, (s'.sites i).At P L tail
  consumer : s'.cursor = s.cursor ∧ s'.readings = s.readings
  holds : s'.monitor.Holds s'.published
  published : s'.published = s.published ∧
      s'.monitor.latestNotification = s.monitor.latestNotification ∧
      (s.monitor.latestNotification < uint64Max → t'.lastSequence = t.lastSequence) ∨
    ∃ e : CommitEvent, s'.published = s.published ++ [e] ∧ e.Continues t t' ∧
      s.monitor.latestNotification < uint64Max

theorem Watch.Inv.acted (h : s.Inv) {i : κ} {env : Env Path Dir} {a : Action (c i)}
    (hs : s.Step (.act i env a) s') : ∃ t t', s.Acted s' i t t' := by
  obtain ⟨t', hadmits, hprocess, rfl⟩ := hs
  obtain ⟨⟨P, L, tail, hat⟩, hsome⟩ := h.serves i
  obtain ⟨t, ht⟩ := Option.isSome_iff_exists.1 hsome
  have hat' := hat.withMonitor s.monitor
  have ht₀ : ((s.sites i).withMonitor s.monitor).process = some (t.withMonitor s.monitor) := by
    simp [Site.withMonitor, ht]
  obtain ⟨V, hserves⟩ := hat'.serves _ ht₀
  have hnotifies : Notifies (t.withMonitor s.monitor) t' := by
    rw [Site.step_serve ht₀] at hprocess
    exact ((hserves.leads ht₀ hat'.explains hadmits env).table hprocess).2
  have hself : Function.update s.sites i (((s.sites i).withMonitor s.monitor).step env a) i =
      ((s.sites i).withMonitor s.monitor).step env a := Function.update_self ..
  refine ⟨t, t', ⟨fun j hj ↦ Function.update_of_ne hj _ _, ht, (congrArg Site.process hself).trans
    hprocess, ?_, ⟨rfl, rfl⟩, ?_, ?_⟩⟩
  · simp only [hself]
    exact hat'.step hadmits env
  all_goals rcases hnotifies with ⟨hmonitor, hlast⟩ | ⟨e, hmonitor, hcont⟩
  all_goals rw [Table.monitor_withMonitor] at hmonitor
  · simp only [hmonitor, Monitor.news, if_true, append_nil]
    exact h.holds
  · simp only [hmonitor, Monitor.news_publish h.holds e]
    have hholds := h.holds.publish e
    split at hholds
    next hlt => rwa [if_pos hlt]
    next hge => rwa [if_neg hge, append_nil]
  · refine .inl ⟨?_, by rw [hmonitor], fun _ ↦ hlast⟩
    simp only [hmonitor, Monitor.news, if_true, append_nil]
  · simp only [hmonitor, Monitor.news_publish h.holds e]
    by_cases hlt : s.monitor.latestNotification < uint64Max
    · rw [if_pos hlt]
      exact .inr ⟨_, rfl, ⟨hcont.tableId, hcont.firstSequence, hcont.lastSequence⟩, hlt⟩
    · rw [if_neg hlt, append_nil, Monitor.publish, if_neg hlt]
      exact .inl ⟨rfl, rfl, fun hlt' ↦ absurd hlt' hlt⟩

section Acted

variable {i : κ} {t t' : Table (c i)}

/-- The events of a table when one more was published. -/
theorem eventsOf_concat (published : List CommitEvent) (e : CommitEvent) (id : ℕ) :
    eventsOf (published ++ [e]) id =
      if e.tableId = id then eventsOf published id ++ [e] else eventsOf published id := by
  unfold eventsOf
  rw [filter_append]
  split
  next h => simp [h]
  next h => simp [h]

omit [DecidableEq κ] in
theorem Watch.Inv.chained_acted (h : s.Inv) (ha : s.Acted s' i t t') (id : ℕ) :
    (eventsOf s'.published id).IsChain CommitEvent.Precedes := by
  rcases ha.published with ⟨hsame, -⟩ | ⟨e, hnew, hcont, hlt⟩
  · rw [hsame]
    exact h.chained id
  · rw [hnew, eventsOf_concat]
    split
    next hid =>
      refine List.IsChain.append (h.chained id) (.singleton e) fun x hx y hy ↦ ?_
      cases hy
      -- the event before ends where the table did
      have hends : x.lastSequence = t.lastSequence :=
        h.ends hlt i t ha.before x (by rwa [← hcont.tableId, hid])
      show e.firstSequence = x.lastSequence + 1
      rw [hends, hcont.firstSequence]
    next => exact h.chained id

theorem Watch.Inv.ends_acted (h : s.Inv) (ha : s.Acted s' i t t')
    (hlt : s'.monitor.latestNotification < uint64Max) {j : κ} {u : Table (c j)}
    (hu : (s'.sites j).process = some u) {e : CommitEvent}
    (he : e ∈ (eventsOf s'.published (c j).id).getLast?) : e.lastSequence = u.lastSequence := by
  by_cases hj : j = i
  · subst hj
    rw [ha.after] at hu
    cases hu
    rcases ha.published with ⟨hsame, hlatest, hlast⟩ | ⟨x, hnew, hcont, -⟩
    · rw [hlatest] at hlt
      rw [hsame] at he
      rw [hlast hlt]
      exact h.ends hlt j t ha.before e he
    · rw [hnew, eventsOf_concat, if_pos hcont.tableId, getLast?_concat] at he
      cases he
      exact hcont.lastSequence
  · rw [ha.other j hj] at hu
    rcases ha.published with ⟨hsame, hlatest, -⟩ | ⟨x, hnew, hcont, hlt'⟩
    · rw [hlatest] at hlt
      rw [hsame] at he
      exact h.ends hlt j u hu e he
    · have hne : x.tableId ≠ (c j).id := by
        rw [hcont.tableId]
        exact fun heq ↦ hj (h.ids heq.symm)
      rw [hnew, eventsOf_concat, if_neg hne] at he
      exact h.ends hlt' j u hu e he

/-- **A call on a table keeps the invariant.** -/
theorem Watch.Inv.act (h : s.Inv) (ha : s.Acted s' i t t') : s'.Inv where
  ids := h.ids
  serves j := by
    by_cases hj : j = i
    · subst hj
      exact ⟨ha.log, by rw [ha.after]; rfl⟩
    · rw [ha.other j hj]
      exact h.serves j
  holds := ha.holds
  chained := h.chained_acted ha
  ends hlt _ _ hu _ he := h.ends_acted ha hlt hu he
  consumed := by
    rw [ha.consumer.1, ha.consumer.2]
    rcases ha.published with ⟨hsame, -⟩ | ⟨e, hnew, -⟩
    · rw [hsame]
      exact h.consumed
    · rw [hnew]
      exact h.consumed.publish [e]

end Acted

theorem Watch.inv_of_reach (h : (watching c).Reach s) : s.Inv := by
  refine h.invariant (fun _ ↦ Watch.inv_init) fun s move s' _ hinv hs ↦ ?_
  cases move with
  | act i env a =>
    obtain ⟨t, t', ha⟩ := hinv.acted hs
    exact hinv.act ha
  | read capacity =>
    obtain ⟨hpos, hc, page, hread, rfl⟩ := hs
    exact ⟨hinv.ids, hinv.serves, hinv.holds, hinv.chained, hinv.ends,
      hinv.consumed.read hinv.holds hpos hc hread⟩

/-- **Commit notifications are never silently lost.** What the consumer gets is what was published, in
increasing order; the events of a table follow each other; and a number that the consumer has passed
without getting it was overwritten, and the read that passed it has said so. -/
theorem notifications_never_lost (h : (watching c).Reach s) :
    (∀ e ∈ returned s.readings, s.published[e.id - 1]? = some e) ∧
      (returned s.readings).Pairwise (·.id < ·.id) ∧
      (∀ id, (eventsOf s.published id).IsChain CommitEvent.Precedes) ∧
      ∀ id, 0 < id → id ≤ s.cursor → (∀ e ∈ returned s.readings, e.id ≠ id) →
        ∃ r ∈ s.readings, r.after < id ∧ id ≤ r.next ∧ r.page.gap = true ∧
          id + notificationCapacity ≤ r.page.latest := by
  have hinv := Watch.inv_of_reach h
  exact ⟨hinv.consumed.exact, hinv.consumed.increasing, hinv.chained, hinv.consumed.covered⟩

end Watching

/-- The consumer of a table with one row has got its event. -/
theorem notifications_never_lost_hit : ∃ s : Watch fun _ : Unit ↦ hits,
    (watching fun _ : Unit ↦ hits).Reach s ∧ s.cursor = 1 ∧ (returned s.readings).length = 1 ∧
      (returned s.readings).Pairwise (·.id < ·.id) := by
  obtain ⟨s₀, hs₀⟩ : ∃ s₀ : Watch fun _ : Unit ↦ hits,
    s₀ = ⟨fun _ ↦ .created hits 0, .initial, [], 0, []⟩ := ⟨_, rfl⟩
  have hinit : (watching fun _ : Unit ↦ hits).Reach s₀ := by
    subst hs₀
    exact .init ⟨fun _ _ _ ↦ rfl, fun _ ↦ ⟨.created 0 (by decide), rfl⟩, rfl, rfl, rfl, rfl⟩
  obtain ⟨t, ht, hevents⟩ := Option.map_eq_some_iff.1 (show
    ((((Site.created hits 0).withMonitor .initial).step (.still Path Dir)
      (.commit [hit 0 (by decide)])).process.map fun t ↦
        (t.db.latestNotification, t.db.monitor.readNotifications 0 1)) =
      some (1, .ok ⟨[⟨1, 1, 1, 1, 112, 0, 1⟩], 1, false⟩) by decide +kernel)
  have hread : t.db.monitor.readNotifications 0 1 = .ok ⟨[⟨1, 1, 1, 1, 112, 0, 1⟩], 1, false⟩ :=
    congrArg Prod.snd hevents
  have hact := hinit.step (.act () (.still Path Dir) (.commit [hit 0 (by decide)]))
    ⟨t, by subst hs₀; exact fun t ht _ ↦ by cases ht; decide, by subst hs₀; exact ht, rfl⟩
  have hdone := hact.step (.read 1) ⟨le_rfl, by decide, _, by subst hs₀; exact hread, rfl⟩
  subst hs₀
  exact ⟨_, hdone, rfl, rfl, (notifications_never_lost hdone).2.1⟩

end WebAnalyticsDb
