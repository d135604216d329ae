import Mathlib.Data.List.Chain
import WebAnalyticsDb.Core.Basic
import WebAnalyticsDb.Foundation.Bytes
import WebAnalyticsDb.Foundation.Machine
import WebAnalyticsDb.Foundation.Ring

/-!
# The live feed

The server keeps the last 128 messages of its feed in a ring, and every stream copies them one after the
other into its own buffer: `publish`, `stream_read` and the state of a stream in `open_stream` of
`server/server.c`.

* **The mutex makes steps of functions.** Both functions do their work in one critical section, so each is
  a function on the feed and the stream; a run is any order of their calls.
* **A stream that cannot go on is told so.** It gets a reset message that announces the current number, and
  continues behind it; a stream that falls behind after it was opened gets one and then ends.
* **Numbers are 64-bit numbers.** They may wrap, in the model as in the source. Right after that nothing
  in the ring counts as readable, so a stream with an old number is told to start again.
-/

namespace WebAnalyticsDb

open List

/-! ### Messages -/

/-- `FEED_CAPACITY`. -/
def feedCapacity : ℕ := 128

/-- `FEED_MESSAGE_LIMIT`. -/
def feedMessageLimit : ℕ := 32768

/-- The bytes of a text of the source. -/
def ascii (s : String) : Bytes := s.toList.map fun ch ↦ ch.toNat.toUInt8

/-- `wadb_http_reply`. -/
structure HttpReply where
  status : ℕ
  body : Bytes
deriving DecidableEq, Repr

/-- `feed_message`. -/
structure FeedMessage where
  id : ℕ
  bytes : Bytes
deriving DecidableEq, Repr

/-- The feed of the server. -/
structure Feed where
  bootId : Bytes
  messages : ℕ → Option FeedMessage
  feedId : ℕ

namespace Feed

/-- The text of a message. -/
def text (boot : Bytes) (id : ℕ) (event : String) (body : Bytes) : Bytes :=
  ascii "id: " ++ boot ++ ascii ":" ++ ascii (toString id) ++ ascii "\nevent: " ++ ascii event ++
    ascii "\ndata: " ++ body ++ ascii "\n\n"

/-- The text of a reset. -/
def resetText (boot : Bytes) (id : ℕ) : Bytes :=
  text boot id "reset" (ascii "\x7b\"boot_id\":\"" ++ boot ++ ascii "\",\"feed_cursor\":\"" ++
    ascii (toString id) ++ ascii "\",\"reason\":\"replay_unavailable\"\x7d")

/-- The feed of a server that was just started. -/
def initial (boot : Bytes) : Feed := ⟨boot, fun _ ↦ none, 0⟩

/-- The message that the next publication makes. -/
def next (f : Feed) (event : String) (reply : HttpReply) : FeedMessage :=
  let id := u64 (f.feedId + 1)
  ⟨id, text f.bootId id event reply.body⟩

/-- `publish`; `alloc` says whether the memory for the message is there. -/
def publish (f : Feed) (event : String) (reply : HttpReply) (alloc : Bool) : Option Feed :=
  if 400 ≤ reply.status || feedMessageLimit - 256 < reply.body.length || !alloc then none
  else
    let m := f.next event reply
    some { f with
      feedId := m.id
      messages := Function.update f.messages (u64Sub m.id 1 % feedCapacity) (some m) }

/-- The first number that is still in the ring. -/
def oldest (f : Feed) : ℕ := if feedCapacity ≤ f.feedId then f.feedId - feedCapacity + 1 else 1

end Feed

/-! ### Streams -/

/-- `stream`, without the connection; the buffer holds one message. -/
structure Stream where
  after : ℕ
  lastProgress : ℕ
  suspended : Bool
  reset : Bool
  closing : Bool
  bearer : Bool
  buffer : Bytes
  offset : ℕ
deriving DecidableEq, Repr

/-- What a stream copies into its buffer. -/
inductive Chunk
  | reset (id : ℕ)
  | message (m : FeedMessage)
deriving DecidableEq, Repr

/-- The number a stream has come to with it. -/
def Chunk.cursor : Chunk → ℕ
  | .reset id => id
  | .message m => m.id

/-- What a read returns. -/
inductive ReadResult
  | endOfStream
  | nothing
  | bytes (b : Bytes)
deriving DecidableEq, Repr

namespace Stream

/-- The stream that `open_stream` makes for a client at the number `after`; `reset` if the client did not
give one of this server. -/
def opened (after : ℕ) (reset bearer : Bool) (now : ℕ) : Stream where
  after := after
  lastProgress := now
  suspended := false
  reset := reset
  closing := false
  bearer := bearer
  buffer := []
  offset := 0

/-- The stream cannot go on with the next message. -/
def gap (c : Stream) (f : Feed) : Bool :=
  f.feedId < c.after || (c.after < f.feedId && c.after + 1 < f.oldest)

/-- The next message for the empty buffer, if there is one. -/
def refill (c : Stream) (f : Feed) : Option (Chunk × Stream) :=
  if c.reset || c.gap f then
    some (.reset f.feedId, { c with
      buffer := Feed.resetText f.bootId f.feedId
      closing := c.closing || (c.gap f && !c.reset)
      reset := false
      after := f.feedId })
  else if c.after < f.feedId then
    let m := (f.messages (c.after % feedCapacity)).getD ⟨0, []⟩
    some (.message m, { c with buffer := m.bytes, after := m.id })
  else none

/-- The next bytes of the buffer, at the time `now`. -/
def copy (c : Stream) (now capacity : ℕ) : ReadResult × Stream :=
  let n := min (c.buffer.length - c.offset) capacity
  (.bytes ((c.buffer.drop c.offset).take n), { c with offset := c.offset + n, lastProgress := now })

/-- `stream_read`; `authorized` is what the session check answers. The last component is what was copied
into the buffer. -/
def read (c : Stream) (f : Feed) (stopping authorized : Bool) (now capacity : ℕ) :
    ReadResult × Stream × Option Chunk :=
  if stopping || c.closing || (!c.bearer && !authorized) then (.endOfStream, c, none)
  else if c.offset = c.buffer.length then
    match { c with offset := 0, buffer := [] }.refill f with
    | none => (.nothing, { c with offset := 0, buffer := [], suspended := true }, none)
    | some (chunk, c) => ((c.copy now capacity).1, (c.copy now capacity).2, some chunk)
  else ((c.copy now capacity).1, (c.copy now capacity).2, none)

end Stream

/-! ### The feed and what was published -/

/-- **The ring holds the last messages.** They were published under their numbers: the message in place `k`
of the history has the number `k + 1`, in 64 bits. -/
structure Feed.Holds (f : Feed) (history : List FeedMessage) : Prop where
  feedId : f.feedId = u64 history.length
  numbered : ∀ k m, history[k]? = some m → m.id = u64 (k + 1)
  keeps : ∃ entries : ℕ → Option FeedMessage, SlotRing.Keeps feedCapacity f.messages f.feedId entries ∧
    ∀ id, 0 < id → id ≤ f.feedId → ∃ m, entries id = some m ∧ m.id = id ∧ m ∈ history

section Holds

variable {f f' : Feed} {history : List FeedMessage} {event : String} {reply : HttpReply} {alloc : Bool}
  {c : Stream}

theorem Feed.holds_initial (boot : Bytes) : (Feed.initial boot).Holds [] where
  feedId := rfl
  numbered k m h := by simp at h
  keeps := ⟨fun _ ↦ none, .zero _ _ _, fun id hpos hle ↦ absurd hle (by simp [Feed.initial]; omega)⟩

/-- What a publication that succeeds does. -/
theorem Feed.publish_eq (h : f.publish event reply alloc = some f') :
    f'.bootId = f.bootId ∧ f'.feedId = u64 (f.feedId + 1) ∧
      f'.messages = Function.update f.messages (u64Sub (u64 (f.feedId + 1)) 1 % feedCapacity)
        (some (f.next event reply)) := by
  unfold Feed.publish at h
  split at h
  · cases h
  · obtain rfl := Option.some.inj h
    have hid : (f.next event reply).id = u64 (f.feedId + 1) := rfl
    refine ⟨rfl, hid, ?_⟩
    dsimp only
    rw [hid]

theorem u64_succ_eq (n : ℕ) : u64 (n + 1) = 0 ∨ u64 (n + 1) = u64 n + 1 := by
  unfold u64
  omega

/-- **Publication.** -/
theorem Feed.Holds.publish (h : f.Holds history) (hp : f.publish event reply alloc = some f') :
    f'.Holds (history ++ [f.next event reply]) := by
  obtain ⟨-, hid, hmessages⟩ := Feed.publish_eq hp
  have hlen : u64 (f.feedId + 1) = u64 (history.length + 1) := by
    rw [h.feedId]
    unfold u64
    omega
  refine ⟨?_, fun k m hk ↦ ?_, ?_⟩
  · rw [hid, hlen, length_append, length_singleton]
  · rcases getElem?_concat_cases hk with hk | ⟨rfl, rfl⟩
    · exact h.numbered k m hk
    · exact hlen
  · obtain ⟨entries, hkeeps, hentries⟩ := h.keeps
    rcases u64_succ_eq f.feedId with hwrap | hsucc
    · -- the number has wrapped, and nothing counts as readable
      refine ⟨entries, ?_, fun id hpos hle ↦ ?_⟩
      · rw [hid, hwrap]
        exact .zero _ _ _
      · rw [hid, hwrap] at hle
        omega
    · have hsame : u64 f.feedId = f.feedId := by
        rw [h.feedId]
        unfold u64
        omega
      rw [hsame] at hsucc
      have hslot : u64Sub (u64 (f.feedId + 1)) 1 % feedCapacity =
          SlotRing.slot feedCapacity (f.feedId + 1) := by
        have hlt : f.feedId + 1 < 2 ^ 64 := by
          rw [← hsucc]
          exact Nat.mod_lt _ (by decide)
        rw [hsucc, u64Sub_of_le hlt (by omega)]
        rfl
      refine ⟨Function.update entries (f.feedId + 1) (some (f.next event reply)), ?_, fun id hpos hle ↦ ?_⟩
      · rw [hid, hsucc, hmessages, hslot]
        exact hkeeps.put _
      · rw [hid, hsucc] at hle
        by_cases hnew : id = f.feedId + 1
        · subst hnew
          exact ⟨_, Function.update_self .., hsucc, by simp⟩
        · obtain ⟨m, hm, hmid, hmem⟩ := hentries id hpos (by omega)
          exact ⟨m, by rwa [Function.update_of_ne hnew], hmid, mem_append_left _ hmem⟩

/-- **The next message of a stream** that has no gap is the one behind its number. -/
theorem Feed.Holds.next_message (h : f.Holds history) (hgap : c.gap f = false) (hafter : c.after < f.feedId) :
    ∃ m, f.messages (c.after % feedCapacity) = some m ∧ m.id = c.after + 1 ∧ m ∈ history := by
  obtain ⟨entries, hkeeps, hentries⟩ := h.keeps
  have hold : ¬ c.after + 1 < f.oldest := by
    intro hlt
    simp [Stream.gap, hafter, hlt] at hgap
  have hcap : feedCapacity = 128 := rfl
  obtain ⟨m, hm, hid, hmem⟩ := hentries (c.after + 1) (by omega) (by omega)
  refine ⟨m, ?_, hid, hmem⟩
  rw [← hm, ← hkeeps (c.after + 1) (by omega) (by omega) (by unfold Feed.oldest at hold; split at hold <;> omega)]
  rfl

end Holds

/-! ### What a read does -/

section Read

variable {c : Stream} {f : Feed} {stopping authorized : Bool} {now capacity : ℕ}

/-- The parts of a stream that decide what it copies next, and its buffer. -/
def Stream.SameCourse (c c' : Stream) : Prop :=
  c'.after = c.after ∧ c'.reset = c.reset ∧ c'.closing = c.closing

/-- The stream after a reset: it goes on at the current number, and it ends if no reset was due from the
start. -/
structure Stream.ResetBy (c : Stream) (f : Feed) (c' : Stream) : Prop where
  cause : (c.reset || c.gap f) = true
  after : c'.after = f.feedId
  reset : c'.reset = false
  closing : c'.closing = !c.reset
  buffer : c'.buffer = Feed.resetText f.bootId f.feedId

/-- The stream after the message `m`. -/
structure Stream.Advanced (c : Stream) (f : Feed) (m : FeedMessage) (c' : Stream) : Prop where
  reset : c.reset = false
  gap : c.gap f = false
  ahead : c.after < f.feedId
  message : m = (f.messages (c.after % feedCapacity)).getD ⟨0, []⟩
  after : c'.after = m.id
  reset' : c'.reset = false
  closing : c'.closing = false
  buffer : c'.buffer = m.bytes

/-- **What a read does**: it copies nothing new and the course stays, or it copies a reset, or the next
message. -/
theorem Stream.read_cases (c : Stream) (f : Feed) (stopping authorized : Bool) (now capacity : ℕ) :
    let r := c.read f stopping authorized now capacity
    r.2.2 = none ∧ c.SameCourse r.2.1 ∧ (r.2.1.buffer = c.buffer ∨ r.2.1.buffer = []) ∨
      c.closing = false ∧ (r.2.2 = some (.reset f.feedId) ∧ c.ResetBy f r.2.1 ∨
        ∃ m, r.2.2 = some (.message m) ∧ c.Advanced f m r.2.1) := by
  unfold Stream.read
  split
  · exact .inl ⟨rfl, ⟨rfl, rfl, rfl⟩, .inl rfl⟩
  next hgo =>
    have hopen : c.closing = false := by
      simp only [Bool.or_eq_true, not_or, Bool.not_eq_true] at hgo
      exact hgo.1.2
    split
    · -- the buffer is empty: `refill` decides
      have hgap : Stream.gap { c with offset := 0, buffer := [] } f = c.gap f := rfl
      unfold Stream.refill
      rw [hgap]
      dsimp only
      by_cases hreset : (c.reset || c.gap f) = true
      · rw [if_pos hreset]
        refine .inr ⟨hopen, .inl ⟨rfl, hreset, rfl, rfl, ?_, rfl⟩⟩
        show (c.closing || (c.gap f && !c.reset)) = !c.reset
        rw [hopen]
        cases hr : c.reset <;> simp_all
      · rw [if_neg hreset]
        simp only [Bool.or_eq_true, not_or, Bool.not_eq_true] at hreset
        by_cases hahead : c.after < f.feedId
        · rw [if_pos hahead]
          exact .inr ⟨hopen, .inr ⟨_, rfl, hreset.1, hreset.2, hahead, rfl, rfl, hreset.1, hopen, rfl⟩⟩
        · rw [if_neg hahead]
          exact .inl ⟨rfl, ⟨rfl, rfl, rfl⟩, .inr rfl⟩
    · exact .inl ⟨rfl, ⟨rfl, rfl, rfl⟩, .inl rfl⟩

end Read

/-! ### Following the feed -/

/-- A stream, the number and the reset it was opened with, and what it has copied since. -/
structure Follower where
  stream : Stream
  start : ℕ
  startReset : Bool
  copied : List Chunk
deriving DecidableEq, Repr

namespace Follower

/-- A stream that was just opened. -/
def opened (start : ℕ) (startReset bearer : Bool) (now : ℕ) : Follower :=
  ⟨.opened start startReset bearer now, start, startReset, []⟩

/-- A read of the stream. -/
def read (w : Follower) (f : Feed) (stopping authorized : Bool) (now capacity : ℕ) : Follower :=
  let r := w.stream.read f stopping authorized now capacity
  { w with stream := r.2.1, copied := w.copied ++ r.2.2.toList }

/-- The ticker gives up the stream. -/
def close (w : Follower) : Follower := { w with stream := { w.stream with closing := true } }

end Follower

/-- A message continues what was copied before: it has the next number. -/
def Chunk.Continues (a b : Chunk) : Prop := ∀ m, b = .message m → m.id = a.cursor + 1

/-- **What a stream has copied**: messages of the feed with consecutive numbers, each jump announced by a
reset. A reset that was not due from the start is the last thing it copies. -/
structure Follower.Follows (w : Follower) (history : List FeedMessage) : Prop where
  published : ∀ m, .message m ∈ w.copied → m ∈ history
  chain : (Chunk.reset w.start :: w.copied).IsChain Chunk.Continues
  after : w.stream.after = ((Chunk.reset w.start :: w.copied).getLast (List.cons_ne_nil _ _)).cursor
  pending : w.stream.reset = true ↔ w.startReset = true ∧ w.copied = []
  first : w.startReset = true → ∀ x ∈ w.copied.head?, ∃ id, x = .reset id
  ends : ∀ A id B, w.copied = A ++ .reset id :: B → A ≠ [] ∨ w.startReset = false →
    B = [] ∧ w.stream.closing = true

section Follows

variable {w : Follower} {f : Feed} {history : List FeedMessage} {stopping authorized : Bool}
  {now capacity : ℕ}

theorem Follower.follows_opened (start : ℕ) (startReset bearer : Bool) (now : ℕ) :
    (Follower.opened start startReset bearer now).Follows history where
  published m hm := by cases hm
  chain := .singleton _
  after := rfl
  pending := by simp [Follower.opened, Stream.opened]
  first _ x hx := by cases hx
  ends A id B h := by simp [Follower.opened] at h

section

variable (h : w.Follows history)
include h

theorem Follower.Follows.mono {history' : List FeedMessage}
    (hsub : history ⊆ history') : w.Follows history' :=
  ⟨fun m hm ↦ hsub (h.published m hm), h.chain, h.after, h.pending, h.first, h.ends⟩

theorem Follower.Follows.close : w.close.Follows history :=
  ⟨h.published, h.chain, h.after, h.pending, h.first,
    fun A id B hAB hA ↦ ⟨(h.ends A id B hAB hA).1, rfl⟩⟩

/-- A stream that goes on has no reset behind it, except one that was due from the start. -/
theorem Follower.Follows.split (hopen : w.stream.closing = false)
    {x : Chunk} {A B : List Chunk} {id : ℕ} (hAB : w.copied ++ [x] = A ++ .reset id :: B)
    (hA : A ≠ [] ∨ w.startReset = false) : A = w.copied ∧ x = .reset id ∧ B = [] := by
  rcases eq_nil_or_concat' B with rfl | ⟨B, y, rfl⟩
  · obtain ⟨rfl, hx⟩ := append_inj' hAB rfl
    exact ⟨rfl, head_eq_of_cons_eq hx, rfl⟩
  · rw [← cons_append, ← append_assoc] at hAB
    obtain ⟨hold, -⟩ := append_inj' hAB rfl
    rw [(h.ends A id B hold hA).2] at hopen
    cases hopen

/-- **One more chunk** that continues what was copied. -/
theorem Follower.Follows.push {x : Chunk} {c' : Stream} (hopen : w.stream.closing = false)
    (hpublished : ∀ m, x = .message m → m ∈ history)
    (hnext : ∀ m, x = .message m → m.id = w.stream.after + 1 ∧ w.stream.reset = false)
    (hafter : c'.after = x.cursor) (hreset : c'.reset = false)
    (hends : ∀ id, x = .reset id → c'.closing = !w.stream.reset) :
    Follower.Follows ⟨c', w.start, w.startReset, w.copied ++ [x]⟩ history where
  published m hm := by
    rcases mem_append.1 hm with hm | hm
    · exact h.published m hm
    · exact hpublished m (mem_singleton.1 hm).symm
  chain := by
    rw [← cons_append]
    refine List.IsChain.append h.chain (.singleton _) fun y hy z hz ↦ ?_
    cases hz
    intro m hm
    rw [getLast?_eq_some_getLast (cons_ne_nil _ _)] at hy
    cases hy
    rw [(hnext m hm).1, h.after]
  after := by
    rw [hafter]
    simp
  pending := by
    rw [hreset]
    simp
  first hstart y hy := by
    cases hcopied : w.copied with
    | nil =>
      rw [hcopied] at hy
      cases hy
      cases x with
      | reset id => exact ⟨id, rfl⟩
      | message m =>
        -- the first thing copied is the reset that is due
        have := (hnext m rfl).2
        rw [h.pending.2 ⟨hstart, hcopied⟩] at this
        cases this
    | cons z zs =>
      rw [hcopied] at hy
      refine h.first hstart y ?_
      rw [hcopied]
      exact hy
  ends A id B hAB hA := by
    obtain ⟨rfl, rfl, rfl⟩ := h.split hopen hAB hA
    refine ⟨rfl, ?_⟩
    rw [hends id rfl]
    cases hr : w.stream.reset with
    | false => rfl
    | true =>
      obtain ⟨hstart, hnil⟩ := h.pending.1 hr
      rcases hA with hA | hA
      · exact absurd hnil hA
      · rw [hstart] at hA
        cases hA

/-- **A read keeps this.** -/
theorem Follower.Follows.read (hf : f.Holds history) :
    (w.read f stopping authorized now capacity).Follows history := by
  unfold Follower.read
  have hcases := w.stream.read_cases f stopping authorized now capacity
  dsimp only at hcases ⊢
  rcases hcases with ⟨hnone, ⟨hafter, hreset, hclosing⟩, -⟩ |
    ⟨hopen, ⟨hx, hby⟩ | ⟨m, hx, hadv⟩⟩
  · rw [hnone, Option.toList_none, append_nil]
    exact ⟨h.published, h.chain, hafter.trans h.after, by rw [hreset]; exact h.pending, h.first,
      fun A id B hAB hA ↦ by rw [hclosing]; exact h.ends A id B hAB hA⟩
  · rw [hx]
    exact h.push hopen (fun m hm ↦ by cases hm) (fun m hm ↦ by cases hm) hby.after hby.reset
      fun _ _ ↦ hby.closing
  · rw [hx]
    obtain ⟨m', hm', hid, hmem⟩ := hf.next_message hadv.gap hadv.ahead
    obtain rfl : m = m' := by
      rw [hadv.message, hm']
      rfl
    refine h.push hopen (fun m₂ hm₂ ↦ ?_) (fun m₂ hm₂ ↦ ?_) hadv.after hadv.reset'
      fun id hid ↦ by cases hid
    · cases hm₂
      exact hmem
    · cases hm₂
      exact ⟨hid, hadv.reset⟩

end

end Follows

/-! ### Runs -/

/-- The feed with its history, and a stream once it is opened. -/
structure Replay where
  feed : Feed
  history : List FeedMessage
  stopping : Bool
  follower : Option Follower

/-- What can happen. -/
inductive ReplayMove
  | publish (event : String) (reply : HttpReply) (alloc : Bool)
  | connect (start : ℕ) (startReset bearer : Bool) (now : ℕ)
  | read (authorized : Bool) (now capacity : ℕ)
  | close
  | stop

namespace Replay

/-- One step. A publication that fails changes nothing. -/
def next (s : Replay) : ReplayMove → Replay
  | .publish event reply alloc =>
    match s.feed.publish event reply alloc with
    | none => s
    | some f => { s with feed := f, history := s.history ++ [s.feed.next event reply] }
  | .connect start startReset bearer now =>
    if s.follower.isSome then s
    else { s with follower := some (.opened start startReset bearer now) }
  | .read authorized now capacity =>
    { s with follower := s.follower.map fun w ↦ w.read s.feed s.stopping authorized now capacity }
  | .close => { s with follower := s.follower.map Follower.close }
  | .stop => { s with stopping := true }

/-- **Any order of publications and reads.** -/
def machine (boot : Bytes) : Machine Replay ReplayMove where
  init s := s = ⟨.initial boot, [], false, none⟩
  step s move s' := s' = s.next move

/-- The invariant. -/
structure Inv (s : Replay) : Prop where
  holds : s.feed.Holds s.history
  follows : ∀ w, s.follower = some w → w.Follows s.history

theorem Inv.next {s : Replay} (h : s.Inv) (move : ReplayMove) : (s.next move).Inv := by
  cases move with
  | publish event reply alloc =>
    simp only [Replay.next]
    cases hp : s.feed.publish event reply alloc with
    | none => exact h
    | some f =>
      exact ⟨h.holds.publish hp, fun w hw ↦ (h.follows w hw).mono (subset_append_left _ _)⟩
  | connect start startReset bearer now =>
    simp only [Replay.next]
    split
    · exact h
    · exact ⟨h.holds, fun w hw ↦ by cases hw; exact Follower.follows_opened ..⟩
  | read authorized now capacity =>
    refine ⟨h.holds, fun w hw ↦ ?_⟩
    obtain ⟨w₀, hw₀, rfl⟩ := Option.map_eq_some_iff.1 hw
    exact (h.follows w₀ hw₀).read h.holds
  | close =>
    refine ⟨h.holds, fun w hw ↦ ?_⟩
    obtain ⟨w₀, hw₀, rfl⟩ := Option.map_eq_some_iff.1 hw
    exact (h.follows w₀ hw₀).close
  | stop => exact ⟨h.holds, h.follows⟩

/-- **Replay is gap-free or announced.** What a stream copies into its buffer are messages that were
published under their numbers, each with the number after the one before it, or after the one the client
gave, or after the one that a reset in between has announced; a stream whose start is not known starts
with a reset; and any other reset is the last thing it copies, and ends it. -/
theorem replay_gapFree {boot : Bytes} {s : Replay} (h : (machine boot).Reach s) {w : Follower}
    (hw : s.follower = some w) :
    (∀ m, .message m ∈ w.copied → ∃ k, s.history[k]? = some m ∧ m.id = u64 (k + 1)) ∧
      (Chunk.reset w.start :: w.copied).IsChain Chunk.Continues ∧
      (w.startReset = true → ∀ x ∈ w.copied.head?, ∃ id, x = .reset id) ∧
      ∀ A id B, w.copied = A ++ .reset id :: B → A ≠ [] ∨ w.startReset = false →
        B = [] ∧ w.stream.closing = true := by
  have hinv : s.Inv := by
    refine h.invariant ?_ ?_
    · rintro s rfl
      exact ⟨Feed.holds_initial boot, fun w hw ↦ by cases hw⟩
    · rintro s move s' - hs rfl
      exact hs.next move
  have hfollows := hinv.follows w hw
  refine ⟨fun m hm ↦ ?_, hfollows.chain, hfollows.first, hfollows.ends⟩
  obtain ⟨k, hk⟩ := List.mem_iff_getElem?.1 (hfollows.published m hm)
  exact ⟨k, hk, hinv.holds.numbered k m hk⟩

/-- A client that comes back with its number after one message gets the next one, byte by byte. -/
def resumed : Replay :=
  [.publish "stats" ⟨200, ascii "1"⟩ true, .publish "stats" ⟨200, ascii "2"⟩ true,
    .connect 1 false true 5, .read false 6 1, .read false 7 1].foldl next
      ⟨.initial (ascii "b"), [], false, none⟩

/-- That client has copied one message, the one it had not seen. -/
theorem replay_gapFree_resumed : ∃ w, (machine (ascii "b")).Reach resumed ∧ resumed.follower = some w ∧
    w.copied.length = 1 ∧ (Chunk.reset w.start :: w.copied).IsChain Chunk.Continues := by
  have hreach : (machine (ascii "b")).Reach resumed :=
    Machine.Reach.foldl (fun _ _ ↦ rfl) (.init rfl) _
  obtain ⟨w, hw, hlen⟩ := Option.map_eq_some_iff.1 (show
    resumed.follower.map (fun w ↦ w.copied.length) = some 1 by decide +kernel)
  exact ⟨w, hreach, hw, hlen, (replay_gapFree hreach hw).2.1⟩

end Replay

end WebAnalyticsDb
