import WebAnalyticsDb.Core.Notifications
import WebAnalyticsDb.Server.Feed

/-!
# Statistics and the live feed

A client that shows live numbers asks for the statistics first and then follows the feed from the
`feed_cursor` that came with them: `wadb_api_stats` of `server/api.c`, and `publish_commits` of
`server/server.c`, which hands the commit events to the feed.

* **Two locks, two reads.** `wadb_get_stats` reads the latest notification under the mutex of the
  database, and `feed_cursor` reads the number of the feed under the one of the server, afterwards. The
  ticker also reads the events under the first and publishes under the second.
* **What can be lost.** A commit that is published between the two reads of the client is in neither:
  it has a notification that the statistics do not cover and a message that the cursor has passed
  (`commit_lost_between_reads`). So has one that was overwritten in the ring of events before the ticker
  came to it.
* **What cannot.** `no_commit_lost` says that nothing else is needed: on runs that avoid these two, and on
  which the number of the feed does not wrap, every commit is covered.
-/

namespace WebAnalyticsDb

open List

/-! ### What the ticker publishes -/

/-- `wadb_json_uint`; numbers are written as texts. -/
def jsonUint (key : String) (value : ℕ) : Bytes :=
  ascii "\"" ++ ascii key ++ ascii "\":\"" ++ ascii (toString value) ++ ascii "\""

/-- `wadb_json_int`. -/
def jsonInt (key : String) (value : ℤ) : Bytes :=
  ascii "\"" ++ ascii key ++ ascii "\":\"" ++ ascii (toString value) ++ ascii "\""

/-- One commit in the message. -/
def CommitEvent.json (e : CommitEvent) : Bytes :=
  ascii "\x7b" ++ jsonUint "table_id" e.tableId ++ ascii "," ++
    jsonUint "first_sequence" e.firstSequence ++ ascii "," ++
    jsonUint "last_sequence" e.lastSequence ++ ascii "," ++ jsonUint "rows" e.rows ++ ascii "," ++
    jsonInt "max_time" e.maxTime ++ ascii "\x7d"

/-- The body that `publish_commits` writes for a page of events. -/
def NotificationPage.json (page : NotificationPage) : Bytes :=
  ascii "\x7b\"gap\":" ++ ascii (if page.gap then "true" else "false") ++ ascii "," ++
    jsonUint "latest_notification" page.latest ++ ascii ",\"commits\":[" ++
    List.intercalate (ascii ",") (page.events.map CommitEvent.json) ++ ascii "]\x7d"

/-- The number of events that `publish_commits` reads at once. -/
def commitPage : ℕ := 128

/-! ### The client and the server -/

/-- How far the client has come; what it was told goes along. -/
inductive Client
  | idle
  | counted (latest : ℕ)
  | answered (latest cursor : ℕ)
  | streaming (latest cursor : ℕ) (follower : Follower)
deriving DecidableEq, Repr

namespace Client

/-- The latest notification in the statistics. -/
def latest : Client → Option ℕ
  | .idle => none
  | .counted latest | .answered latest _ | .streaming latest _ _ => some latest

/-- The statistics that were returned: the latest notification and the cursor. -/
def answer : Client → Option (ℕ × ℕ)
  | .idle | .counted _ => none
  | .answered latest cursor | .streaming latest cursor _ => some (latest, cursor)

end Client

/-- A message of the feed, and the commits that it carries. -/
abbrev Carried : Type := FeedMessage × List CommitEvent

/-- The server's side of the statistics and the feed, with one client. The page is what the ticker has
read and not yet published. -/
structure LiveServer where
  monitor : Monitor
  published : List CommitEvent
  feed : Feed
  history : List Carried
  notificationId : ℕ
  page : Option NotificationPage
  client : Client

/-- What can happen. -/
inductive LiveMove
  | commit (e : CommitEvent)
  | readCommits
  | publishCommits (json alloc : Bool)
  | publishStats (reply : HttpReply) (alloc : Bool)
  | getStats
  | feedCursor
  | openStream (bearer : Bool) (now : ℕ)
  | read (stopping authorized : Bool) (now capacity : ℕ)
  | close

namespace LiveServer

/-- A publication that succeeds, of a message that carries `events`. -/
def publish (s : LiveServer) (event : String) (reply : HttpReply) (alloc : Bool)
    (events : List CommitEvent) : Option LiveServer :=
  (s.feed.publish event reply alloc).map fun f ↦
    { s with feed := f, history := s.history ++ [(s.feed.next event reply, events)] }

/-- One step; a move that is not possible changes nothing. -/
def next (s : LiveServer) : LiveMove → LiveServer
  | .commit e =>
    { s with
      monitor := s.monitor.publish e
      published := if s.monitor.latestNotification < uint64Max then
        s.published ++ [{ e with id := s.published.length + 1 }] else s.published }
  | .readCommits =>
    match s.page, s.monitor.readNotifications s.notificationId commitPage with
    | none, .ok page => if page.events.isEmpty && !page.gap then s else { s with page := some page }
    | _, _ => s
  -- without memory for the text the reply is an error, and nothing is published
  | .publishCommits json alloc =>
    match s.page with
    | none => s
    | some page =>
      match s.publish "commits" (if json then ⟨200, page.json⟩ else ⟨503, []⟩) alloc page.events with
      | none => { s with page := none }
      | some s => { s with page := none, notificationId := page.next s.notificationId }
  | .publishStats reply alloc => (s.publish "stats" reply alloc []).getD s
  | .getStats =>
    match s.client with
    | .idle => { s with client := .counted s.monitor.latestNotification }
    | _ => s
  | .feedCursor =>
    match s.client with
    | .counted latest => { s with client := .answered latest s.feed.feedId }
    | _ => s
  | .openStream bearer now =>
    match s.client with
    | .answered latest cursor =>
      { s with client := .streaming latest cursor (.opened cursor false bearer now) }
    | _ => s
  | .read stopping authorized now capacity =>
    match s.client with
    | .streaming latest cursor w =>
      { s with client := .streaming latest cursor (w.read s.feed stopping authorized now capacity) }
    | _ => s
  | .close =>
    match s.client with
    | .streaming latest cursor w => { s with client := .streaming latest cursor w.close }
    | _ => s

/-- A server that was just started. -/
def initial (boot : Bytes) : LiveServer := ⟨.initial, [], .initial boot, [], 0, none, .idle⟩

/-- **Any order of commits, the ticker and the client.** -/
def machine (boot : Bytes) : Machine LiveServer LiveMove where
  init s := s = initial boot
  step s move s' := s' = s.next move

/-- **A step that loses nothing.** When the client reads the cursor, the ticker has not published beyond
the statistics; a page that was published misses no event that the statistics do not cover; and the
number of the feed does not wrap. -/
structure Orderly (s : LiveServer) (move : LiveMove) (_ : LiveServer) : Prop where
  cursor : move = .feedCursor → ∀ latest, s.client = .counted latest → s.notificationId ≤ latest
  page : move = .publishCommits true true → ∀ page, s.page = some page →
    ∀ latest, s.client.latest = some latest →
      page.gap = false ∨ page.latest ≤ latest + notificationCapacity
  number : s.feed.feedId < uint64Max

/-! ### What is covered -/

/-- The page continues behind the number `after`: its events were published one after the other, and what
lies between was overwritten. -/
structure PageAfter (published : List CommitEvent) (after : ℕ) (page : NotificationPage)
    (first n : ℕ) : Prop where
  events : page.events = (published.drop first).take n
  le : first + n ≤ published.length
  after_le : after ≤ first
  next : page.next after = first + n
  missed : after < first → page.gap = true ∧ first + notificationCapacity = page.latest

/-- Every commit that the ticker has handed on and the statistics do not cover is carried by a message
behind the cursor. -/
structure Covered (s : LiveServer) (latest cursor : ℕ) : Prop where
  cursor_le : cursor ≤ s.feed.feedId
  carried : ∀ e ∈ s.published, latest < e.id → e.id ≤ s.notificationId →
    ∃ x ∈ s.history, cursor < x.1.id ∧ e ∈ x.2

/-- The invariant. -/
structure Inv (s : LiveServer) : Prop where
  monitor : s.monitor.Holds s.published
  feed : s.feed.Holds (s.history.map Prod.fst)
  number : s.feed.feedId = s.history.length
  notified : s.notificationId ≤ s.published.length
  page : ∀ page, s.page = some page → ∃ first n, PageAfter s.published s.notificationId page first n
  covered : ∀ latest cursor, s.client.answer = some (latest, cursor) → s.Covered latest cursor
  follows : ∀ latest cursor w, s.client = .streaming latest cursor w →
    w.start = cursor ∧ w.Follows (s.history.map Prod.fst)

section Steps

variable {s s' : LiveServer} {page : NotificationPage} {events : List CommitEvent} {event : String}
  {reply : HttpReply} {alloc : Bool}

/-- Later events are not on a page that was read before. -/
theorem PageAfter.append {published : List CommitEvent} {after first n : ℕ}
    (h : PageAfter published after page first n) (new : List CommitEvent) :
    PageAfter (published ++ new) after page first n where
  events := by
    have hle := h.le
    rw [h.events, drop_append_of_le_length (by omega),
      take_append_of_le_length (by rw [length_drop]; omega)]
  le := by
    rw [length_append]
    exact h.le.trans (Nat.le_add_right _ _)
  after_le := h.after_le
  next := h.next
  missed := h.missed

/-- A page carries the events between its ends. -/
theorem PageAfter.mem {published : List CommitEvent} {after first n : ℕ}
    (h : PageAfter published after page first n) {m : Monitor} (hm : m.Holds published) {e : CommitEvent}
    (he : e ∈ published) (hfirst : first < e.id) (hlast : e.id ≤ first + n) : e ∈ page.events := by
  obtain ⟨k, hk⟩ := mem_iff_getElem?.1 he
  have hid := hm.numbered k e hk
  rw [h.events]
  refine mem_of_getElem? (i := k - first) ?_
  rw [getElem?_take_of_lt (by omega), getElem?_drop, show first + (k - first) = k by omega, hk]

/-- Only the commits, the feed and the ticker's number matter. -/
theorem Covered.congr {latest cursor : ℕ} (h : s.Covered latest cursor) (hfeed : s'.feed = s.feed)
    (hpublished : s'.published = s.published) (hhistory : s'.history = s.history)
    (hnotified : s'.notificationId = s.notificationId) : s'.Covered latest cursor where
  cursor_le := hfeed ▸ h.cursor_le
  carried := by
    rw [hpublished, hhistory, hnotified]
    exact h.carried

/-- **A commit.** -/
theorem Inv.commit (h : s.Inv) (e : CommitEvent) : (s.next (.commit e)).Inv := by
  have hmonitor := h.monitor.publish e
  simp only [LiveServer.next]
  by_cases hlt : s.monitor.latestNotification < uint64Max
  · rw [if_pos hlt] at hmonitor ⊢
    refine ⟨hmonitor, h.feed, h.number, ?_, fun page hp ↦ ?_, fun latest cursor ha ↦ ?_, h.follows⟩
    · rw [length_append]
      exact h.notified.trans (Nat.le_add_right _ _)
    · obtain ⟨first, n, hpage⟩ := h.page page hp
      exact ⟨first, n, hpage.append _⟩
    · obtain ⟨hcursor, hcarried⟩ := h.covered latest cursor ha
      refine ⟨hcursor, fun e' he' hlatest hle ↦ ?_⟩
      rcases mem_append.1 he' with he' | he'
      · exact hcarried e' he' hlatest hle
      · -- the ticker has not come to the new event
        rw [mem_singleton.1 he'] at hle
        exact absurd hle (Nat.not_le_of_gt (Nat.lt_succ_of_le h.notified))
  · rw [if_neg hlt] at hmonitor ⊢
    exact ⟨hmonitor, h.feed, h.number, h.notified, h.page, fun latest cursor ha ↦
      (h.covered latest cursor ha).congr rfl rfl rfl rfl, h.follows⟩

/-- What a publication that succeeds does. -/
theorem publish_eq (hp : s.publish event reply alloc events = some s') :
    ∃ f, s.feed.publish event reply alloc = some f ∧
      s' = { s with feed := f, history := s.history ++ [(s.feed.next event reply, events)] } := by
  obtain ⟨f, hf, rfl⟩ := Option.map_eq_some_iff.1 hp
  exact ⟨f, hf, rfl⟩

/-- **A publication**, of whatever events. -/
theorem Inv.publish (h : s.Inv) (hnum : s.feed.feedId < uint64Max)
    (hp : s.publish event reply alloc events = some s') : s'.Inv := by
  obtain ⟨f, hf, rfl⟩ := publish_eq hp
  have hid : f.feedId = s.feed.feedId + 1 := by
    rw [(Feed.publish_eq hf).2.1]
    exact u64_of_lt (by unfold uint64Max at hnum; omega)
  have hmap : (s.history ++ [(s.feed.next event reply, events)]).map Prod.fst =
      s.history.map Prod.fst ++ [s.feed.next event reply] := by simp
  refine ⟨h.monitor, ?_, ?_, h.notified, h.page, fun latest cursor ha ↦ ?_, fun latest cursor w hw ↦ ?_⟩
  · exact hmap ▸ h.feed.publish hf
  · rw [hid, h.number, length_append, length_singleton]
  · obtain ⟨hcursor, hcarried⟩ := h.covered latest cursor ha
    refine ⟨hcursor.trans (by rw [hid]; exact Nat.le_succ _), fun e he hlatest hle ↦ ?_⟩
    obtain ⟨x, hx, hrest⟩ := hcarried e he hlatest hle
    exact ⟨x, mem_append_left _ hx, hrest⟩
  · obtain ⟨hstart, hfollows⟩ := h.follows latest cursor w hw
    exact ⟨hstart, hfollows.mono (hmap ▸ subset_append_left _ _)⟩

/-- **The ticker has handed on a page.** -/
theorem Inv.publishPage (h : s.Inv) (hnum : s.feed.feedId < uint64Max) (hpage : s.page = some page)
    (hgap : ∀ latest, s.client.latest = some latest →
      page.gap = false ∨ page.latest ≤ latest + notificationCapacity)
    (hp : s.publish event reply alloc page.events = some s') :
    Inv { s' with page := none, notificationId := page.next s'.notificationId } := by
  have h' := h.publish hnum hp
  obtain ⟨f, hf, rfl⟩ := publish_eq hp
  obtain ⟨first, n, hafter⟩ := h.page page hpage
  refine ⟨h'.monitor, h'.feed, h'.number, ?_, fun page hp ↦ (by cases hp),
    fun latest cursor ha ↦ ⟨(h'.covered latest cursor ha).cursor_le, fun e he hlatest hle ↦ ?_⟩, h'.follows⟩
  · exact hafter.next.trans_le hafter.le
  · dsimp only at ha he hle
    rcases Nat.lt_or_ge s.notificationId e.id with hnew | hold
    · -- the new message carries it, unless the ring has lost it
      have hfirst : first < e.id := by
        by_contra hlost
        obtain ⟨hmiss, hlat⟩ := hafter.missed (by omega)
        have hclient : s.client.latest = some latest := by
          cases hc : s.client with
          | idle | counted => rw [hc] at ha; cases ha
          | answered | streaming => rw [hc] at ha; cases ha; rfl
        rcases hgap latest hclient with hno | hle
        · rw [hmiss] at hno
          cases hno
        · omega
      rw [hafter.next] at hle
      refine ⟨_, mem_append_right _ (mem_singleton_self _), ?_,
        hafter.mem h.monitor he hfirst hle⟩
      have hid : (s.feed.next event reply).id = s.feed.feedId + 1 :=
        u64_of_lt (by unfold uint64Max at hnum; omega)
      rw [hid]
      exact Nat.lt_succ_of_le (h.covered latest cursor ha).cursor_le
    · exact (h'.covered latest cursor ha).carried e he hlatest hold

/-- **The ticker has another page to publish**, or none. -/
theorem Inv.of_page (h : s.Inv) {new : Option NotificationPage}
    (hnew : ∀ page, new = some page →
      ∃ first n, PageAfter s.published s.notificationId page first n) :
    Inv { s with page := new } :=
  ⟨h.monitor, h.feed, h.number, h.notified, hnew, fun latest cursor ha ↦
    (h.covered latest cursor ha).congr rfl rfl rfl rfl, h.follows⟩

/-- **The client has come further.** -/
theorem Inv.of_client (h : s.Inv) {client : Client}
    (hcovered : ∀ latest cursor, client.answer = some (latest, cursor) → s.Covered latest cursor)
    (hfollows : ∀ latest cursor w, client = .streaming latest cursor w →
      w.start = cursor ∧ w.Follows (s.history.map Prod.fst)) :
    Inv { s with client := client } :=
  ⟨h.monitor, h.feed, h.number, h.notified, h.page, fun latest cursor ha ↦
    (hcovered latest cursor ha).congr rfl rfl rfl rfl, hfollows⟩

/-- A client that goes on with the same answer. -/
theorem Inv.of_streaming (h : s.Inv) {latest cursor : ℕ} {w : Follower}
    (hanswer : s.client.answer = some (latest, cursor))
    (hw : w.start = cursor ∧ w.Follows (s.history.map Prod.fst)) :
    Inv { s with client := .streaming latest cursor w } := by
  refine h.of_client (fun latest' cursor' ha ↦ ?_) fun latest' cursor' w' hw' ↦ ?_
  · cases ha
    exact h.covered latest cursor hanswer
  · cases hw'
    exact hw

/-- A publication without memory for the text fails. -/
theorem publish_of_error {status : ℕ} {body : Bytes} (hstatus : 400 ≤ status) :
    s.publish event ⟨status, body⟩ alloc events = none := by
  simp [LiveServer.publish, Feed.publish, hstatus]

/-- So does one without memory for the message. -/
theorem publish_of_alloc : s.publish event reply false events = none := by
  simp [LiveServer.publish, Feed.publish]

theorem Inv.next (h : s.Inv) {move : LiveMove} (ho : s.Orderly move (s.next move)) :
    (s.next move).Inv := by
  cases move with
  | commit e => exact h.commit e
  | readCommits =>
    simp only [LiveServer.next]
    split
    next page hpage hread =>
      split
      · exact h
      · refine h.of_page fun page' hp ↦ ?_
        obtain rfl := Option.some.inj hp
        obtain ⟨first, n, hevents, hle, hafter, hnext, hmissed⟩ :=
          h.monitor.events_of_page h.notified (by decide) (by decide) hread
        exact ⟨first, n, hevents, hle, hafter, hnext, hmissed⟩
    next => exact h
  | publishCommits json alloc =>
    simp only [LiveServer.next]
    split
    next => exact h
    next page hpage =>
      split
      next => exact h.of_page fun page' hp ↦ by cases hp
      next s' hp =>
        -- both parts of the memory were there
        cases json with
        | false =>
          rw [if_neg Bool.false_ne_true, publish_of_error (by decide)] at hp
          cases hp
        | true =>
          cases alloc with
          | false =>
            rw [publish_of_alloc] at hp
            cases hp
          | true => exact h.publishPage ho.number hpage (ho.page rfl page hpage) hp
  | publishStats reply alloc =>
    simp only [LiveServer.next]
    cases hp : s.publish "stats" reply alloc [] with
    | none => exact h
    | some s' => exact h.publish ho.number hp
  | getStats =>
    simp only [LiveServer.next]
    split
    next => exact h.of_client (fun _ _ ha ↦ by cases ha) fun _ _ _ hw ↦ by cases hw
    next => exact h
  | feedCursor =>
    simp only [LiveServer.next]
    split
    next latest hclient =>
      refine h.of_client (fun latest' cursor ha ↦ ?_) fun _ _ _ hw ↦ by cases hw
      cases ha
      -- nothing that the ticker has handed on is beyond the statistics
      have hle := ho.cursor rfl latest hclient
      exact ⟨le_rfl, fun e he hlatest hnotified ↦ by omega⟩
    next => exact h
  | openStream bearer now =>
    simp only [LiveServer.next]
    split
    next latest cursor hclient =>
      exact h.of_streaming (by rw [hclient]; rfl) ⟨rfl, Follower.follows_opened ..⟩
    next => exact h
  | read stopping authorized now capacity =>
    simp only [LiveServer.next]
    split
    next latest cursor w hclient =>
      obtain ⟨hstart, hfollows⟩ := h.follows latest cursor w hclient
      exact h.of_streaming (by rw [hclient]; rfl) ⟨hstart, hfollows.read h.feed⟩
    next => exact h
  | close =>
    simp only [LiveServer.next]
    split
    next latest cursor w hclient =>
      obtain ⟨hstart, hfollows⟩ := h.follows latest cursor w hclient
      exact h.of_streaming (by rw [hclient]; rfl) ⟨hstart, hfollows.close⟩
    next => exact h

end Steps

end LiveServer

end WebAnalyticsDb
