import Mathlib.Data.List.Basic
import WebAnalyticsDb.Server.Feed

/-!
# The ticker and the streams

`tick` of `server/server.c` runs beside the connections: it samples the clock, publishes, and then looks at
every stream under the mutex, where it gives up those that have not moved for fifteen seconds.

* **Three threads of control.** The ticker's iteration is a sequence of phases that carry the sampled time;
  connections open and read streams in between; the clock goes on whenever it likes, and never back.
* **The sample is old when it is used.** A stream that was opened or read after the sample has a
  `last_progress` behind `now`, so the 64-bit difference is not the time that has passed.
  `examine_closes_iff` says for which streams the verdict is still right, and
  `examine_closes_fresh_stream` is a run in which it is not.
-/

namespace WebAnalyticsDb

/-- `STREAM_LIMIT`. -/
def streamLimit : ℕ := 8

/-- Fifteen seconds, in nanoseconds. -/
def stallLimit : ℕ := 15000000000

/-- Where an iteration of `tick` is; the sampled time goes along. -/
inductive TickPhase
  | sampling
  | commits (now : ℕ)
  | stats (now : ℕ)
  | examining (now : ℕ)
  | waiting (deadline : ℕ)
  | ended
deriving DecidableEq, Repr

/-- The time that an iteration has sampled and still uses. -/
def TickPhase.sample : TickPhase → Option ℕ
  | .commits now | .stats now | .examining now => some now
  | .sampling | .waiting _ | .ended => none

/-- The server's feed and streams, with the clock and the ticker. -/
structure Ticker where
  clock : ℕ
  feed : Feed
  stopping : Bool
  streams : List Stream
  phase : TickPhase
  nextStats : ℕ

/-- What can happen. -/
inductive TickMove
  | advance (duration : ℕ)
  | sample
  | publishCommits (reply : HttpReply) (alloc : Bool)
  | publishStats (reply : HttpReply) (alloc : Bool)
  | examine
  | wake
  | openStream (after : ℕ) (reset bearer : Bool) (started : ℕ)
  | read (k : ℕ) (authorized : Bool) (capacity : ℕ)
  | free (k : ℕ)
  | stop

/-- The ticker's look at one stream. -/
def Stream.examine (c : Stream) (stopping : Bool) (now : ℕ) : Stream :=
  { c with
    closing := c.closing || stopping || decide (stallLimit < u64Sub now c.lastProgress)
    suspended := false }

namespace Ticker

/-- One step; a move that is not possible changes nothing. -/
def next (s : Ticker) : TickMove → Ticker
  | .advance duration =>
    if s.clock + duration < 2 ^ 64 then { s with clock := s.clock + duration } else s
  | .sample => if s.phase = .sampling then { s with phase := .commits s.clock } else s
  | .publishCommits reply alloc =>
    match s.phase with
    | .commits now =>
      { s with feed := (s.feed.publish "commits" reply alloc).getD s.feed, phase := .stats now }
    | _ => s
  | .publishStats reply alloc =>
    match s.phase with
    | .stats now =>
      if s.nextStats ≤ now then
        { s with
          feed := (s.feed.publish "stats" reply alloc).getD s.feed
          phase := .examining now
          nextStats := u64 (now + 1000000000) }
      else { s with phase := .examining now }
    | _ => s
  | .examine =>
    match s.phase with
    | .examining now =>
      { s with
        streams := s.streams.map fun c ↦ c.examine s.stopping now
        phase := if s.stopping then .ended else .waiting (u64 (now + 250000000)) }
    | _ => s
  | .wake =>
    match s.phase with
    | .waiting deadline =>
      if s.stopping || deadline ≤ s.clock then { s with phase := .sampling } else s
    | _ => s
  -- `last_progress` is read before the mutex is taken, so the stream may be older than its insertion
  | .openStream after reset bearer started =>
    if started ≤ s.clock ∧ s.streams.length < streamLimit ∧ s.stopping = false then
      { s with streams := .opened after reset bearer started :: s.streams }
    else s
  | .read k authorized capacity =>
    { s with streams := s.streams.modify k fun c ↦
        (c.read s.feed s.stopping authorized s.clock capacity).2.1 }
  | .free k => { s with streams := s.streams.eraseIdx k }
  | .stop => { s with stopping := true }

/-- **Any order of the ticker's phases, the connections and the clock.** -/
def machine (boot : Bytes) : Machine Ticker TickMove where
  init s := ∃ start, start < 2 ^ 64 ∧ s = ⟨start, .initial boot, false, [], .sampling, 0⟩
  step s move s' := s' = s.next move

/-! ### Times that were read are behind the clock -/

/-- The clock has 64 bits, and every time that was read from it is not ahead of it. -/
structure Inv (s : Ticker) : Prop where
  clock : s.clock < 2 ^ 64
  sample : ∀ now, s.phase.sample = some now → now ≤ s.clock
  progress : ∀ c ∈ s.streams, c.lastProgress ≤ s.clock

end Ticker

/-- A read sets `last_progress` to the time of the read, or leaves it. -/
theorem Stream.lastProgress_read (c : Stream) (f : Feed) (stopping authorized : Bool) (now capacity : ℕ) :
    (c.read f stopping authorized now capacity).2.1.lastProgress = c.lastProgress ∨
      (c.read f stopping authorized now capacity).2.1.lastProgress = now := by
  unfold Stream.read
  split
  · exact .inl rfl
  · split
    · split
      · exact .inl rfl
      · exact .inr rfl
    · exact .inr rfl

/-- A later time is not ahead of the clock if the earlier one was not. -/
theorem Stream.lastProgress_read_le {c : Stream} {f : Feed} {stopping authorized : Bool}
    {now capacity : ℕ} (h : c.lastProgress ≤ now) :
    (c.read f stopping authorized now capacity).2.1.lastProgress ≤ now := by
  rcases c.lastProgress_read f stopping authorized now capacity with hr | hr
  · exact hr.trans_le h
  · exact hr.le

namespace Ticker

variable {s : Ticker}

/-- A step that leaves the clock and the streams, and samples nothing new. -/
theorem Inv.of_phase (h : s.Inv) {s' : Ticker} (hclock : s'.clock = s.clock)
    (hstreams : s'.streams = s.streams)
    (hsample : ∀ now, s'.phase.sample = some now → now = s.clock ∨ s.phase.sample = some now) :
    s'.Inv where
  clock := hclock ▸ h.clock
  sample now hnow := by
    rw [hclock]
    rcases hsample now hnow with rfl | hold
    · exact le_rfl
    · exact h.sample now hold
  progress c hc := by
    rw [hstreams] at hc
    rw [hclock]
    exact h.progress c hc

/-- A step that leaves the clock and the ticker. -/
theorem Inv.of_streams (h : s.Inv) {streams : List Stream}
    (hstreams : ∀ c ∈ streams, c.lastProgress ≤ s.clock) : Inv { s with streams := streams } :=
  ⟨h.clock, h.sample, hstreams⟩

theorem Inv.next (h : s.Inv) (move : TickMove) : (s.next move).Inv := by
  cases move with
  | advance duration =>
    simp only [Ticker.next]
    split
    next hlt =>
      exact ⟨hlt, fun now hnow ↦ (h.sample now hnow).trans (Nat.le_add_right _ _),
        fun c hc ↦ (h.progress c hc).trans (Nat.le_add_right _ _)⟩
    next => exact h
  | sample =>
    simp only [Ticker.next]
    split
    · exact h.of_phase rfl rfl fun now hnow ↦ .inl (Option.some.inj hnow).symm
    · exact h
  | publishCommits reply alloc =>
    simp only [Ticker.next]
    split
    next now hphase => exact h.of_phase rfl rfl fun now' hnow ↦ .inr (by rw [hphase]; exact hnow)
    next => exact h
  | publishStats reply alloc =>
    simp only [Ticker.next]
    split
    next now hphase =>
      split <;> exact h.of_phase rfl rfl fun now' hnow ↦ .inr (by rw [hphase]; exact hnow)
    next => exact h
  | examine =>
    simp only [Ticker.next]
    split
    next now hphase =>
      refine ⟨h.clock, fun now' hnow ↦ ?_, fun c hc ↦ ?_⟩
      · -- the sample is not used any more
        dsimp only at hnow
        split at hnow <;> cases hnow
      · obtain ⟨c₀, hc₀, rfl⟩ := List.mem_map.1 hc
        exact h.progress c₀ hc₀
    next => exact h
  | wake =>
    simp only [Ticker.next]
    split
    next deadline hphase =>
      split
      · exact h.of_phase rfl rfl fun now hnow ↦ by cases hnow
      · exact h
    next => exact h
  | openStream after reset bearer started =>
    simp only [Ticker.next]
    split
    next hopen =>
      refine h.of_streams fun c hc ↦ ?_
      rcases List.mem_cons.1 hc with rfl | hc
      · exact hopen.1
      · exact h.progress c hc
    next => exact h
  | read k authorized capacity =>
    refine h.of_streams fun c hc ↦ ?_
    obtain ⟨j, hj⟩ := List.mem_iff_getElem?.1 hc
    rw [List.getElem?_modify] at hj
    obtain ⟨c₀, hc₀, rfl⟩ := Option.map_eq_some_iff.1 hj
    have hle := h.progress c₀ (List.mem_of_getElem? hc₀)
    split
    · exact Stream.lastProgress_read_le hle
    · exact hle
  | free k => exact h.of_streams fun c hc ↦ h.progress c (List.mem_of_mem_eraseIdx hc)
  | stop => exact ⟨h.clock, h.sample, h.progress⟩

theorem inv_of_reach {boot : Bytes} (h : (machine boot).Reach s) : s.Inv := by
  refine h.invariant ?_ ?_
  · rintro s ⟨start, hstart, rfl⟩
    exact ⟨hstart, fun now hnow ↦ (by cases hnow), fun c hc ↦ (by cases hc)⟩
  · rintro s move s' - hs rfl
    exact hs.next move

/-! ### The verdict on a stream -/

/-- What the ticker computes for a stream that has moved after the sample: the distance wraps. -/
theorem u64Sub_of_lt {a b : ℕ} (hb : b < 2 ^ 64) (h : a < b) : u64Sub a b = 2 ^ 64 - (b - a) := by
  unfold u64Sub
  rw [u64_of_lt hb]
  unfold u64
  omega

/-- **When a verdict is right.** The ticker closes a stream only if it has not moved for more than fifteen
seconds, exactly if the stream has not moved since the sample was taken, or has not moved for so long
nevertheless, or if the wrapped distance is small. -/
theorem examine_closes_iff {boot : Bytes} (h : (machine boot).Reach s) {now : ℕ}
    (hphase : s.phase = .examining now) (hgo : s.stopping = false) {k : ℕ} {c c' : Stream}
    (hc : s.streams[k]? = some c) (hc' : (s.next .examine).streams[k]? = some c')
    (hopen : c.closing = false) :
    (c'.closing = true → stallLimit < u64Sub s.clock c.lastProgress) ↔
      c.lastProgress ≤ now ∨ stallLimit < s.clock - c.lastProgress ∨
        2 ^ 64 ≤ c.lastProgress - now + stallLimit := by
  have hinv := inv_of_reach h
  have hclock := hinv.clock
  have hnow : now ≤ s.clock := hinv.sample now (by rw [hphase]; rfl)
  have hprogress := hinv.progress c (List.mem_of_getElem? hc)
  have hlimit : stallLimit = 15000000000 := rfl
  -- what the step does to the stream
  have hclosing : c'.closing = true ↔ stallLimit < u64Sub now c.lastProgress := by
    simp only [Ticker.next, hphase, List.getElem?_map, hc, Option.map_some, Option.some.injEq] at hc'
    rw [← hc']
    simp [Stream.examine, hopen, hgo]
  rw [hclosing, u64Sub_of_le hclock hprogress]
  rcases Nat.lt_or_ge now c.lastProgress with hahead | hbehind
  · rw [u64Sub_of_lt (hprogress.trans_lt hclock) hahead]
    omega
  · rw [u64Sub_of_le (hnow.trans_lt hclock) hbehind]
    omega

/-- The server when the clock starts. -/
def started : Ticker := ⟨0, .initial (ascii "b"), false, [], .sampling, 0⟩

/-- A run from there. -/
theorem reach_run (moves : List TickMove) : (machine (ascii "b")).Reach (moves.foldl next started) := by
  have hinit : (machine (ascii "b")).init started := ⟨0, Nat.two_pow_pos 64, rfl⟩
  exact Machine.Reach.foldl (fun _ _ ↦ rfl) (.init hinit) moves

/-- A stream that was opened after the sample. -/
def justOpened : Ticker :=
  [.sample, .advance 1, .openStream 0 true true 1, .publishCommits ⟨500, []⟩ true,
    .publishStats ⟨500, []⟩ true].foldl next started

/-- **The ticker closes a stream that was just opened.** It was opened one nanosecond after the sample, and
no time has passed since. -/
theorem examine_closes_fresh_stream : (machine (ascii "b")).Reach justOpened ∧
    justOpened.phase = .examining 0 ∧ justOpened.stopping = false ∧
    ∃ c c', justOpened.streams[0]? = some c ∧ (justOpened.next .examine).streams[0]? = some c' ∧
      c.closing = false ∧ c'.closing = true ∧ u64Sub justOpened.clock c.lastProgress = 0 :=
  ⟨reach_run _, by decide +kernel, by decide +kernel, .opened 0 true true 1,
    (Stream.opened 0 true true 1).examine false 0, by decide +kernel, by decide +kernel,
    by decide +kernel, by decide +kernel, by decide +kernel⟩

/-- A stream that was opened before the sample is judged rightly. -/
def openedBefore : Ticker :=
  [.openStream 0 true true 0, .sample, .advance 1, .publishCommits ⟨500, []⟩ true,
    .publishStats ⟨500, []⟩ true].foldl next started

/-- It stays open. -/
theorem examine_closes_iff_openedBefore : ∃ c', (openedBefore.next .examine).streams[0]? = some c' ∧
    c'.closing = false ∧ (c'.closing = true → stallLimit < u64Sub openedBefore.clock 0) := by
  have hphase : openedBefore.phase = .examining 0 := by decide +kernel
  have hc : openedBefore.streams[0]? = some (.opened 0 true true 0) := by decide +kernel
  have hc' : (openedBefore.next .examine).streams[0]? =
      some ((Stream.opened 0 true true 0).examine false 0) := by decide +kernel
  exact ⟨_, hc', by decide +kernel,
    (examine_closes_iff (s := openedBefore) (reach_run _) hphase (by decide +kernel) hc hc' rfl).2 (Or.inl le_rfl)⟩

end Ticker

end WebAnalyticsDb
