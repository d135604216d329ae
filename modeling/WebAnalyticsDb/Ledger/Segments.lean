import WebAnalyticsDb.Ledger.Frames

/-!
# The frames of a segment

A segment holds the frames of a list of groups, one behind the other. Everything about it is computed
from that list: the symbols it defines, the index entries, the summary in the manifest, and the bytes
of the file. The functions recurse from the first group on and have a rule for one more group at the
end, because the writer appends at the end and every reader starts at the front.
-/

namespace WebAnalyticsDb

open Bytes List

variable {c : Config}

/-! ### Lists of groups -/

/-- The number of rows. -/
def rowTotal (gs : List (Group c)) : ℕ := (gs.map groupCount).sum

/-- The symbols defined after the groups were committed. -/
def symbolsThrough (S : Symbols) (gs : List (Group c)) : Symbols := gs.foldl symbolsAfter S

/-- The frames of the groups, `S` being defined before and `first` being the first sequence number. -/
def framesFrom : Symbols → ℕ → List (Group c) → List Frame
  | _, _, [] => []
  | S, first, g :: gs =>
    groupFrame S first g :: framesFrom (symbolsAfter S g) (first + groupCount g) gs

/-- The bytes of frames. -/
def framesBytes (frames : List Frame) : Bytes := frames.flatMap Frame.bytes

/-- The length of frames. -/
def framesSize (frames : List Frame) : ℕ := (frames.map Frame.size).sum

/-- The index entries of frames from `offset` on. -/
def indexFrom : ℕ → List Frame → List IndexEntry
  | _, [] => []
  | offset, f :: frames => indexForFrame f f.bytes offset :: indexFrom (offset + f.size) frames

/-- The last timestamp, `time` before the first group. -/
def timeThrough (time : ℤ) (gs : List (Group c)) : ℤ := (gs.getLast?.map groupMax).getD time

/-- **Groups the writer accepts one after the other** into a segment of the given day, `S` being
defined, from sequence number `first` on and not before `time`. -/
def GroupsOk (day : ℤ) : Symbols → ℕ → ℤ → List (Group c) → Prop
  | _, _, _, [] => True
  | S, first, time, g :: gs =>
    FrameOk S first g ∧ time ≤ groupMin g ∧ groupMin g / dayUs = day / dayUs ∧
      GroupsOk day (symbolsAfter S g) (first + groupCount g) (groupMax g) gs

section Lists

variable {S : Symbols} {first : ℕ} {time day : ℤ} {g : Group c} {gs : List (Group c)}

@[simp] theorem rowTotal_nil : rowTotal ([] : List (Group c)) = 0 := rfl

@[simp] theorem rowTotal_cons (g : Group c) (gs : List (Group c)) :
    rowTotal (g :: gs) = groupCount g + rowTotal gs := by
  simp [rowTotal]

@[simp] theorem rowTotal_append (gs gs' : List (Group c)) :
    rowTotal (gs ++ gs') = rowTotal gs + rowTotal gs' := by
  simp [rowTotal]

@[simp] theorem symbolsThrough_nil (S : Symbols) :
    symbolsThrough S ([] : List (Group c)) = S := rfl

@[simp] theorem symbolsThrough_cons (S : Symbols) (g : Group c) (gs : List (Group c)) :
    symbolsThrough S (g :: gs) = symbolsThrough (symbolsAfter S g) gs := rfl

theorem symbolsThrough_append (S : Symbols) (gs gs' : List (Group c)) :
    symbolsThrough S (gs ++ gs') = symbolsThrough (symbolsThrough S gs) gs' :=
  foldl_append

theorem framesFrom_append (S : Symbols) (first : ℕ) (gs gs' : List (Group c)) :
    framesFrom S first (gs ++ gs') =
      framesFrom S first gs ++ framesFrom (symbolsThrough S gs) (first + rowTotal gs) gs' := by
  induction gs generalizing S first with
  | nil => rfl
  | cons g gs ih =>
    rw [cons_append, framesFrom, ih, framesFrom, symbolsThrough_cons, rowTotal_cons,
      cons_append, Nat.add_assoc]

@[simp] theorem length_framesFrom (S : Symbols) (first : ℕ) (gs : List (Group c)) :
    (framesFrom S first gs).length = gs.length := by
  induction gs generalizing S first with
  | nil => rfl
  | cons g gs ih => rw [framesFrom, length_cons, ih, length_cons]

@[simp] theorem framesBytes_append (fs fs' : List Frame) :
    framesBytes (fs ++ fs') = framesBytes fs ++ framesBytes fs' :=
  flatMap_append

@[simp] theorem framesBytes_cons (f : Frame) (fs : List Frame) :
    framesBytes (f :: fs) = f.bytes ++ framesBytes fs := rfl

@[simp] theorem framesSize_append (fs fs' : List Frame) :
    framesSize (fs ++ fs') = framesSize fs + framesSize fs' := by
  simp [framesSize]

@[simp] theorem framesSize_cons (f : Frame) (fs : List Frame) :
    framesSize (f :: fs) = f.size + framesSize fs := by
  simp [framesSize]

theorem length_framesBytes (fs : List Frame) : (framesBytes fs).length = framesSize fs := by
  induction fs with
  | nil => rfl
  | cons f fs ih => rw [framesBytes_cons, length_append, ih, f.length_bytes, framesSize_cons]

theorem indexFrom_append (offset : ℕ) (fs fs' : List Frame) :
    indexFrom offset (fs ++ fs') =
      indexFrom offset fs ++ indexFrom (offset + framesSize fs) fs' := by
  induction fs generalizing offset with
  | nil => rfl
  | cons f fs ih =>
    rw [cons_append, indexFrom, ih, indexFrom, framesSize_cons, cons_append, Nat.add_assoc]

@[simp] theorem length_indexFrom (offset : ℕ) (fs : List Frame) :
    (indexFrom offset fs).length = fs.length := by
  induction fs generalizing offset with
  | nil => rfl
  | cons f fs ih => rw [indexFrom, length_cons, ih, length_cons]

@[simp] theorem timeThrough_nil (time : ℤ) : timeThrough time ([] : List (Group c)) = time := rfl

@[simp] theorem timeThrough_concat (time : ℤ) (gs : List (Group c)) (g : Group c) :
    timeThrough time (gs ++ [g]) = groupMax g := by
  simp [timeThrough]

theorem timeThrough_cons (time : ℤ) (g : Group c) (gs : List (Group c)) :
    timeThrough time (g :: gs) = timeThrough (groupMax g) gs := by
  cases gs with
  | nil => rfl
  | cons g' gs =>
    rw [timeThrough, getLast?_cons_cons]
    cases h : (g' :: gs).getLast? with
    | none => simp at h
    | some x => simp [timeThrough, h]

theorem timeThrough_append (time : ℤ) (gs gs' : List (Group c)) :
    timeThrough time (gs ++ gs') = timeThrough (timeThrough time gs) gs' := by
  induction gs generalizing time with
  | nil => rfl
  | cons g gs ih => rw [cons_append, timeThrough_cons, ih, timeThrough_cons]

/-- The frames of two lists of groups are accepted one after the other. -/
theorem groupsOk_append {gs' : List (Group c)} :
    GroupsOk day S first time (gs ++ gs') ↔ GroupsOk day S first time gs ∧
      GroupsOk day (symbolsThrough S gs) (first + rowTotal gs) (timeThrough time gs) gs' := by
  induction gs generalizing S first time with
  | nil => simp [GroupsOk]
  | cons g gs ih =>
    rw [cons_append, GroupsOk, ih, GroupsOk, symbolsThrough_cons, rowTotal_cons,
      timeThrough_cons, Nat.add_assoc]
    tauto

section

variable (h : GroupsOk day S first time gs)
include h

/-- The group at a position, with the state before it. -/
theorem GroupsOk.split {i : ℕ} (hi : gs[i]? = some g) :
    ∃ gs₁ gs₂, gs = gs₁ ++ g :: gs₂ ∧ gs₁.length = i ∧
      GroupsOk day S first time gs₁ ∧
      FrameOk (symbolsThrough S gs₁) (first + rowTotal gs₁) g ∧
      timeThrough time gs₁ ≤ groupMin g ∧ groupMin g / dayUs = day / dayUs ∧
      GroupsOk day (symbolsThrough S (gs₁ ++ [g])) (first + rowTotal (gs₁ ++ [g])) (groupMax g)
        gs₂ := by
  obtain ⟨hlt, rfl⟩ := List.getElem?_eq_some_iff.1 hi
  have hsplit : gs = gs.take i ++ gs[i] :: gs.drop (i + 1) := by
    rw [← drop_eq_getElem_cons hlt, take_append_drop]
  rw [hsplit, groupsOk_append] at h
  obtain ⟨hfront, hframe, htime, hday, hrest⟩ := h
  refine ⟨_, _, hsplit, by rw [length_take]; omega, hfront, hframe, htime, hday, ?_⟩
  rw [symbolsThrough_append, rowTotal_append, ← Nat.add_assoc]
  simpa using hrest

/-- Times do not decrease along accepted groups. -/
theorem GroupsOk.le_timeThrough : time ≤ timeThrough time gs := by
  induction gs generalizing S first time with
  | nil => exact le_refl _
  | cons g gs ih =>
    obtain ⟨hframe, htime, -, hrest⟩ := h
    rw [timeThrough_cons]
    exact htime.trans (hframe.sized.maxTime.trans (ih hrest))

theorem GroupsOk.last_le (hne : gs ≠ []) :
    first + rowTotal gs ≤ 2 ^ 64 ∧ 0 < rowTotal gs ∧ 0 < first := by
  induction gs generalizing S first time with
  | nil => exact absurd rfl hne
  | cons g gs ih =>
    obtain ⟨hframe, -, -, hrest⟩ := h
    have hlast := hframe.last
    have hcount : groupCount g ≠ 0 := hframe.sized.rowCount
    have hfirst : first ≠ 0 := hframe.sized.firstSequence
    rw [rowTotal_cons]
    by_cases hnil : gs = []
    · subst hnil
      rw [rowTotal_nil]
      omega
    · have := ih hrest hnil
      omega

/-- All times of accepted groups are in the day of the segment. -/
theorem GroupsOk.day_timeThrough (hne : gs ≠ []) :
    timeThrough time gs / dayUs = day / dayUs ∧ 0 ≤ timeThrough time gs ∧
      timeThrough time gs < 2 ^ 63 := by
  induction gs generalizing S first time with
  | nil => exact absurd rfl hne
  | cons g gs ih =>
    obtain ⟨hframe, htime, hday, hrest⟩ := h
    rw [timeThrough_cons]
    by_cases hnil : gs = []
    · subst hnil
      have hsame : groupMin g / dayUs = groupMax g / dayUs := hframe.sized.day
      have h0 : 0 ≤ groupMin g := hframe.sized.minTime
      have hle : groupMin g ≤ groupMax g := hframe.sized.maxTime
      exact ⟨hsame ▸ hday, h0.trans hle, (groupMax_bounds g).2⟩
    · exact ih hrest hnil

end

/-- A frame is not too small for its header and not larger than a frame may be. -/
theorem FrameOk.size_bounds (h : FrameOk S first g) :
    96 ≤ (groupFrame S first g).size ∧ (groupFrame S first g).size ≤ maxFrameBytes :=
  ⟨by unfold Frame.size; omega, h.sized.total_le⟩

theorem GroupsOk.framesSize_le (h : GroupsOk day S first time gs) :
    framesSize (framesFrom S first gs) ≤ gs.length * maxFrameBytes := by
  induction gs generalizing S first time with
  | nil => simp [framesFrom, framesSize]
  | cons g gs ih =>
    obtain ⟨hframe, -, -, hrest⟩ := h
    have hsize := hframe.size_bounds.2
    have := ih hrest
    rw [framesFrom, framesSize_cons, length_cons, Nat.succ_mul]
    omega

theorem GroupsOk.length_le (h : GroupsOk day S first time gs) :
    gs.length ≤ framesSize (framesFrom S first gs) := by
  induction gs generalizing S first time with
  | nil => simp
  | cons g gs ih =>
    obtain ⟨hframe, -, -, hrest⟩ := h
    have hsize := hframe.size_bounds.1
    have := ih hrest
    rw [framesFrom, framesSize_cons, length_cons]
    omega

/-- Everything that is known about the symbols of a segment. -/
theorem GroupsOk.symbols (h : GroupsOk day S first time gs)
    (hS : (∀ x ∈ S, SymbolOk c.schema x) ∧ S.Nodup ∧
      minAlloc c.schema S ≤ c.options.dictionaryLimitBytes) :
    (∀ x ∈ symbolsThrough S gs, SymbolOk c.schema x) ∧ (symbolsThrough S gs).Nodup ∧
      minAlloc c.schema (symbolsThrough S gs) ≤ c.options.dictionaryLimitBytes := by
  induction gs generalizing S first time with
  | nil => exact hS
  | cons g gs ih =>
    obtain ⟨hframe, -, -, hrest⟩ := h
    exact ih hrest ⟨hframe.symbols, hframe.nodup, hframe.budget⟩

end Lists

/-! ### Segments -/

/-- A frame of the log: the group and the commit call that wrote it. -/
structure Entry (c : Config) where
  call : ℕ
  group : Group c

/-- **A segment of the log**, retired or not. -/
structure LogSegment (c : Config) where
  id : ℕ
  day : ℤ
  first : ℕ
  entries : List (Entry c)
  retired : Bool

namespace LogSegment

variable (s : LogSegment c)

/-- The groups of a segment. -/
def groups : List (Group c) := s.entries.map Entry.group

/-- The number of rows. -/
def count : ℕ := rowTotal s.groups

/-- The last sequence number, zero without rows. -/
def last : ℕ := if s.entries = [] then 0 else s.first + s.count - 1

/-- The first timestamp, zero without rows. -/
def minTime : ℤ := (s.groups.head?.map groupMin).getD 0

/-- The last timestamp, zero without rows. -/
def maxTime : ℤ := timeThrough 0 s.groups

/-- The symbols the segment defines. -/
def symbols : Symbols := symbolsThrough [] s.groups

/-- The frames of the segment. -/
def frames : List Frame := framesFrom [] s.first s.groups

/-- The index of the segment. -/
def index : List IndexEntry := indexFrom segmentHeaderBytes s.frames

/-- The length of the file up to the last frame. -/
def size : ℕ := segmentHeaderBytes + framesSize s.frames

/-- The state of a segment. Only the last one is active, unless it is retired. -/
def state (isLast : Bool) : SegmentState :=
  if s.retired then .retired else if isLast then .active else .sealed

/-- **The record of a segment** in the handle and in the manifest. -/
def summary (isLast : Bool) : SegmentMeta where
  id := s.id
  dayStart := s.day
  firstSequence := s.first
  lastSequence := s.last
  minTime := s.minTime
  maxTime := s.maxTime
  committedBytes := s.size
  state := s.state isLast

/-- The header of the file. -/
def header : SegmentHeader := (s.summary true).header c

/-- **The bytes of the file** up to the last frame. -/
def image : Bytes :=
  s.header.parts.flatten ++ ofNatLE 4 (crc32c s.header.parts.flatten) ++ framesBytes s.frames

/-- The file of the rows. -/
def segPath : Path := .seg s.day s.id

/-- The file of the derived index. -/
def idxPath : Path := .idx s.day s.id

/-- **The bytes of the derived index.** -/
def derived : Bytes :=
  indexImage c (s.summary true) s.index (definitions [] s.symbols) s.symbols.length

/-- One more frame. -/
def push (e : Entry c) : LogSegment c := { s with entries := s.entries ++ [e] }

/-- **A segment the writer may have written** when the last sequence number was `seq` and the last
timestamp `time`. -/
structure Ok (seq : ℕ) (time : ℤ) : Prop where
  id : 0 < s.id ∧ s.id < uint64Max
  day : 0 ≤ s.day ∧ s.day < 2 ^ 63 ∧ s.day % dayUs = 0
  first : s.first = seq + 1
  first_lt : s.first < 2 ^ 64
  groups : GroupsOk s.day [] s.first time s.groups
  count : s.entries.length ≤ maxIndexEntries
  retired : s.retired = true → s.entries ≠ []
  budget : minAlloc c.schema [] ≤ c.options.dictionaryLimitBytes

/-- All rows of the segment are older than `cutoff`, and it is not retired. -/
def expired (cutoff : ℤ) : Bool := !s.retired && !s.entries.isEmpty && decide (s.maxTime < cutoff)

/-- The segment, retired if it has expired. -/
def retire (cutoff : ℤ) : LogSegment c :=
  { s with retired := s.retired || s.expired cutoff }

@[simp] theorem id_retire (cutoff : ℤ) : (s.retire cutoff).id = s.id := rfl

@[simp] theorem entries_retire (cutoff : ℤ) : (s.retire cutoff).entries = s.entries := rfl

@[simp] theorem groups_retire (cutoff : ℤ) : (s.retire cutoff).groups = s.groups := rfl

@[simp] theorem count_retire (cutoff : ℤ) : (s.retire cutoff).count = s.count := rfl

variable {s} {cutoff : ℤ}

theorem expired_iff : s.expired cutoff = true ↔
    s.retired = false ∧ s.entries ≠ [] ∧ s.maxTime < cutoff := by
  simp [expired, and_assoc]

theorem retired_retire_of_retired (h : s.retired = true) (cutoff : ℤ) :
    (s.retire cutoff).retired = true := by
  simp [retire, h]

theorem retired_retire_of_lt (hne : s.entries ≠ []) (hlt : s.maxTime < cutoff) :
    (s.retire cutoff).retired = true := by
  cases hr : s.retired
  · simp [retire, expired_iff.2 ⟨hr, hne, hlt⟩]
  · exact retired_retire_of_retired hr cutoff

theorem expired_of_retired_retire (h : (s.retire cutoff).retired = true) (hr : ¬ s.retired = true) :
    s.entries ≠ [] ∧ s.maxTime < cutoff := by
  rcases Bool.or_eq_true_iff.1 h with h | h
  · exact absurd h hr
  · exact (expired_iff.1 h).2

theorem Ok.retire {seq : ℕ} {time : ℤ} (h : s.Ok seq time) (cutoff : ℤ) :
    (s.retire cutoff).Ok seq time where
  id := h.id
  day := h.day
  first := h.first
  first_lt := h.first_lt
  groups := h.groups
  count := h.count
  retired hr := by
    by_cases hold : s.retired = true
    · exact h.retired hold
    · exact (expired_of_retired_retire hr hold).1
  budget := h.budget

end LogSegment

section Segment

variable {s : LogSegment c} {seq : ℕ} {time : ℤ} {b b' : Bool}

theorem LogSegment.groups_eq_nil : s.groups = [] ↔ s.entries = [] := by
  rw [LogSegment.groups, map_eq_nil_iff]

theorem LogSegment.state_eq_retired : s.state b = .retired ↔ s.retired = true := by
  unfold LogSegment.state
  cases s.retired <;> cases b <;> simp

@[simp] theorem LogSegment.segPath_summary : (s.summary b).segPath = s.segPath := rfl

@[simp] theorem LogSegment.idxPath_summary : (s.summary b).idxPath = s.idxPath := rfl

theorem LogSegment.header_eq : s.header = (s.summary b).header c := rfl

theorem LogSegment.last_eq (hne : s.entries ≠ []) : s.last = s.first + s.count - 1 := if_neg hne

theorem LogSegment.maxTime_eq (time : ℤ) (hne : s.entries ≠ []) :
    s.maxTime = timeThrough time s.groups := by
  have hne' : s.groups ≠ [] := fun hnil ↦ hne (LogSegment.groups_eq_nil.1 hnil)
  unfold LogSegment.maxTime timeThrough
  cases hlast : s.groups.getLast? with
  | none => exact absurd (getLast?_eq_none_iff.1 hlast) hne'
  | some g => rfl

namespace LogSegment.Ok

variable (h : s.Ok seq time)

include h

theorem symbols_ok : (∀ x ∈ s.symbols, SymbolOk c.schema x) ∧ s.symbols.Nodup ∧
    minAlloc c.schema s.symbols ≤ c.options.dictionaryLimitBytes :=
  h.groups.symbols ⟨by simp, nodup_nil, h.budget⟩

theorem count_pos (hne : s.entries ≠ []) :
    s.first + s.count ≤ 2 ^ 64 ∧ 0 < s.count ∧ 0 < s.first :=
  h.groups.last_le fun hnil ↦ hne (LogSegment.groups_eq_nil.1 hnil)

theorem count_eq_zero : s.count = 0 ↔ s.entries = [] := by
  constructor
  · intro h0
    by_contra hne
    have := (h.count_pos hne).2.1
    omega
  · intro hnil
    rw [LogSegment.count, LogSegment.groups_eq_nil.2 hnil, rowTotal_nil]

theorem last_eq_zero : s.last = 0 ↔ s.entries = [] := by
  constructor
  · intro h0
    by_contra hne
    have := h.count_pos hne
    rw [LogSegment.last_eq hne] at h0
    omega
  · intro hnil
    exact if_pos hnil

/-- The last sequence number is the number of rows before plus those of the segment. -/
theorem last_eq_add (hne : s.entries ≠ []) : s.last = seq + s.count := by
  have := h.first
  have := h.count_pos hne
  rw [LogSegment.last_eq hne]
  omega

theorem size_le : s.size ≤ segmentHeaderBytes + maxIndexEntries * maxFrameBytes := by
  have hsize := h.groups.framesSize_le
  have hcount := h.count
  have hlen : s.groups.length = s.entries.length := length_map _
  have hmul : s.groups.length * maxFrameBytes ≤ maxIndexEntries * maxFrameBytes :=
    Nat.mul_le_mul_right _ (by rw [hlen]; exact hcount)
  unfold LogSegment.size LogSegment.frames
  omega

theorem size_le_int64Max : s.size ≤ int64Max :=
  h.size_le.trans (by decide)

/-- The times of a segment with rows. -/
theorem times (hne : s.entries ≠ []) :
    time ≤ s.minTime ∧ s.minTime ≤ s.maxTime ∧ 0 ≤ s.minTime ∧ s.day ≤ s.minTime ∧
      s.maxTime < 2 ^ 63 ∧ s.maxTime / dayUs = s.day / dayUs := by
  have hne' : s.groups ≠ [] := fun hnil ↦ hne (LogSegment.groups_eq_nil.1 hnil)
  have hgroups := h.groups
  obtain ⟨hday, -, hlt⟩ := hgroups.day_timeThrough hne'
  rw [← LogSegment.maxTime_eq time hne] at hday hlt
  have hmax := LogSegment.maxTime_eq time hne
  have hmod := h.day.2.2
  unfold LogSegment.minTime
  cases hgs : s.groups with
  | nil => exact absurd hgs hne'
  | cons g gs =>
    rw [hgs] at hgroups hmax
    obtain ⟨hframe, htime, hday', hrest⟩ := hgroups
    have h0 : 0 ≤ groupMin g := hframe.sized.minTime
    have hle : groupMin g ≤ groupMax g := hframe.sized.maxTime
    have hle' := hrest.le_timeThrough
    rw [← timeThrough_cons time, ← hmax] at hle'
    simp only [head?_cons, Option.map_some, Option.getD_some]
    refine ⟨htime, hle.trans hle', h0, ?_, hlt, hday⟩
    unfold dayUs at hday' hmod
    omega

theorem fits : (s.summary b).Fits where
  id := by
    have := h.id.2
    unfold uint64Max at this
    simp only [LogSegment.summary]
    omega
  firstSequence := h.first_lt
  lastSequence := by
    by_cases hne : s.entries = []
    · simp [LogSegment.summary, LogSegment.last, hne]
    · have := h.count_pos hne
      simp only [LogSegment.summary, LogSegment.last_eq hne]
      omega
  minTime := by
    by_cases hne : s.entries = []
    · simp [LogSegment.summary, LogSegment.minTime, LogSegment.groups, hne]
    · exact (h.times hne).2.2.1
  minTime_le := by
    by_cases hne : s.entries = []
    · simp [LogSegment.summary, LogSegment.minTime, LogSegment.maxTime, LogSegment.groups, hne]
    · exact (h.times hne).2.1
  maxTime := by
    by_cases hne : s.entries = []
    · simp [LogSegment.summary, LogSegment.maxTime, LogSegment.groups, hne]
    · exact (h.times hne).2.2.2.2.1
  committedBytes := h.size_le_int64Max

theorem header_acceptable : s.header.acceptable = true := by
  obtain ⟨hid, -⟩ := h.id
  obtain ⟨hday, -, hmod⟩ := h.day
  have hfirst := h.first
  have htable := c.id_bounds.1
  obtain ⟨hwidth, hmax⟩ := rowWidth_bounds c
  have hmod8 := c.layout.rowWidth_mod
  have hfirst' : s.first ≠ 0 := by omega
  have hwidth' : c.schema.rowWidth ≠ 0 := by omega
  simp only [SegmentHeader.acceptable, Bool.and_eq_true, decide_eq_true_eq]
  exact ⟨⟨⟨⟨⟨⟨⟨htable.ne', hid.ne'⟩, hfirst'⟩, hwidth'⟩, hmax⟩, hmod8⟩, hday⟩, hmod⟩

theorem header_fits : s.header.Fits where
  tableId := lt_of_lt_of_le c.id_bounds.2 (Nat.sub_le _ _)
  segmentId := lt_of_lt_of_le h.id.2 (Nat.sub_le _ _)
  schemaHash := c.layout.fingerprint
  dayStart := h.day.2.1
  firstSequence := h.first_lt

theorem segmentEncode_header : segmentEncode s.header =
    .ok (s.header.parts.flatten ++ ofNatLE 4 (crc32c s.header.parts.flatten)) :=
  if_pos h.header_acceptable

end LogSegment.Ok

theorem LogSegment.length_header (s : LogSegment c) :
    (s.header.parts.flatten ++ ofNatLE 4 (crc32c s.header.parts.flatten)).length =
      segmentHeaderBytes := by
  rw [length_append, SegmentHeader.length_parts, length_ofNatLE]
  rfl

@[simp] theorem LogSegment.length_image (s : LogSegment c) : s.image.length = s.size := by
  rw [LogSegment.image, length_append, s.length_header, length_framesBytes, LogSegment.size]

/-- The header reads back from the file, whatever follows the frames. -/
theorem LogSegment.Ok.segmentDecode_image (h : s.Ok seq time) (rest : Bytes) :
    segmentDecode (slice (s.image ++ rest) 0 segmentHeaderBytes) = .ok s.header := by
  rw [LogSegment.image, append_assoc, slice_append_head s.length_header.symm]
  exact segmentDecode_segmentEncode h.header_fits h.segmentEncode_header

/-- The loader of the manifest accepts the record of a segment. -/
theorem LogSegment.Ok.summary_acceptable {prev next : ℕ} (h : s.Ok seq time) (hprev : prev < s.id)
    (hnext : s.id < next) : (s.summary b).acceptable prev next = true := by
  have hsize := h.size_le_int64Max
  have hheader : segmentHeaderBytes ≤ s.size := Nat.le_add_right _ _
  obtain ⟨hday, -, hmod⟩ := h.day
  have hfirst : s.first ≠ 0 := by
    have := h.first
    omega
  simp only [SegmentMeta.acceptable, Bool.and_eq_true, Bool.or_eq_true, decide_eq_true_eq]
  by_cases hne : s.entries = []
  · have hlast : s.last = 0 := h.last_eq_zero.2 hne
    have hgroups := LogSegment.groups_eq_nil.2 hne
    have hmin : s.minTime = 0 := by simp [LogSegment.minTime, hgroups]
    have hmax : s.maxTime = 0 := by simp [LogSegment.maxTime, hgroups]
    have hempty : s.size = segmentHeaderBytes := by
      simp [LogSegment.size, LogSegment.frames, hgroups, framesFrom, framesSize]
    exact ⟨⟨⟨⟨⟨⟨⟨⟨hprev, hnext⟩, hday⟩, hmod⟩, hfirst⟩, hheader⟩, hsize⟩, .inl hlast⟩,
      .inr ⟨⟨hmin, hmax⟩, hempty⟩⟩
  · have hlast : s.last ≠ 0 := fun h0 ↦ hne (h.last_eq_zero.1 h0)
    obtain ⟨-, hminmax, -, hdaymin, -, hsame⟩ := h.times hne
    have hle : s.first ≤ s.last := by
      have := h.count_pos hne
      rw [LogSegment.last_eq hne]
      omega
    exact ⟨⟨⟨⟨⟨⟨⟨⟨hprev, hnext⟩, hday⟩, hmod⟩, hfirst⟩, hheader⟩, hsize⟩,
      .inr ⟨⟨⟨hle, hdaymin⟩, hminmax⟩, hsame⟩⟩, .inl hlast⟩

end Segment

/-! ### The index of a segment -/

section Index

variable {S : Symbols} {first offset : ℕ} {g : Group c}

theorem getLE_size (h : FrameOk S first g) :
    getLE 4 (groupFrame S first g).bytes 8 = (groupFrame S first g).size := by
  have hle := h.size_bounds.2
  unfold maxFrameBytes at hle
  have hshows : Shows (groupFrame S first g).bytes 0
      ((groupFrame S first g).header.parts (groupFrame S first g).size) := by
    rw [Frame.bytes, Frame.image, Frame.body, FrameHeader.image]
    simp only [append_assoc]
    exact shows_flatten _ _
  exact getLE_of_slice hshows.2.1 (by omega)

/-- The entry of the group's frame. -/
theorem FrameOk.indexEntry (h : FrameOk S first g) (offset : ℕ) :
    ∃ v, indexForFrame (groupFrame S first g) (groupFrame S first g).bytes offset = v ∧
      v.minTime = groupMin g ∧ v.maxTime = groupMax g ∧ v.firstSequence = first ∧
      v.frameOffset = offset ∧ v.rowCount = groupCount g ∧
      v.dictionaryCount = (groupFrame S first g).dictionaryCount ∧
      v.frameBytes = (groupFrame S first g).size ∧
      v.rowsOffset = 80 + (groupFrame S first g).dictionary.length ∧
      v.frameCrc < 2 ^ 32 ∧ v.dictionaryCrc < 2 ^ 32 :=
  ⟨_, rfl, rfl, rfl, rfl, rfl, rfl, rfl, getLE_size h, rfl, getLE_lt 4 _ _, crc32c_lt _⟩

/-- The index entry of a group in a segment that starts at `first`, behind the groups `gs`. -/
def entryOf (first : ℕ) (gs : List (Group c)) (g : Group c) : IndexEntry :=
  indexForFrame (groupFrame (symbolsThrough [] gs) (first + rowTotal gs) g)
    (groupFrame (symbolsThrough [] gs) (first + rowTotal gs) g).bytes
    (segmentHeaderBytes + framesSize (framesFrom [] first gs))

theorem indexFrom_split (first : ℕ) (gs gs' : List (Group c)) (g : Group c) :
    indexFrom segmentHeaderBytes (framesFrom [] first (gs ++ g :: gs')) =
      indexFrom segmentHeaderBytes (framesFrom [] first gs) ++ entryOf first gs g ::
        indexFrom (segmentHeaderBytes + framesSize (framesFrom [] first (gs ++ [g])))
          (framesFrom (symbolsThrough [] (gs ++ [g])) (first + rowTotal (gs ++ [g])) gs') := by
  rw [framesFrom_append, indexFrom_append, framesFrom, indexFrom, framesFrom_append,
    symbolsThrough_append, rowTotal_append, framesSize_append, entryOf]
  simp [framesFrom, framesSize, Nat.add_assoc]

variable {s : LogSegment c} {seq : ℕ} {time : ℤ} {b : Bool}

theorem LogSegment.length_index (s : LogSegment c) : s.index.length = s.entries.length := by
  rw [LogSegment.index, length_indexFrom, LogSegment.frames, length_framesFrom, LogSegment.groups,
    length_map]

/-- The entry at a position, and the group it is about. -/
theorem LogSegment.Ok.index_getElem (h : s.Ok seq time) {i : ℕ} {v : IndexEntry}
    (hv : s.index[i]? = some v) :
    ∃ gs g gs', s.groups = gs ++ g :: gs' ∧ gs.length = i ∧ v = entryOf s.first gs g ∧
      GroupsOk s.day [] s.first time gs ∧
      FrameOk (symbolsThrough [] gs) (s.first + rowTotal gs) g ∧ timeThrough time gs ≤ groupMin g ∧
      GroupsOk s.day (symbolsThrough [] (gs ++ [g])) (s.first + rowTotal (gs ++ [g])) (groupMax g)
        gs' := by
  have hi : i < s.groups.length := by
    have := (List.getElem?_eq_some_iff.1 hv).1
    rwa [LogSegment.index, length_indexFrom, LogSegment.frames, length_framesFrom] at this
  obtain ⟨gs, gs', hsplit, hlen, hfront, hframe, htime, -, hrest⟩ :=
    h.groups.split (getElem?_eq_getElem hi)
  refine ⟨gs, _, gs', hsplit, hlen, ?_, hfront, hframe, htime, hrest⟩
  generalize s.groups[i] = g at hsplit
  have hlen' : (indexFrom segmentHeaderBytes (framesFrom [] s.first gs)).length = i := by
    rw [length_indexFrom, length_framesFrom, hlen]
  rw [LogSegment.index, LogSegment.frames, hsplit, indexFrom_split,
    getElem?_append_right (by omega), hlen', Nat.sub_self] at hv
  exact (Option.some.inj hv).symm

/-- The first timestamp of a segment is before every later one. -/
theorem minTime_le_groupMin {gs gs' : List (Group c)} (hsplit : s.groups = gs ++ g :: gs')
    (hfront : GroupsOk s.day [] s.first time gs) (htime : timeThrough time gs ≤ groupMin g) :
    s.minTime ≤ groupMin g := by
  unfold LogSegment.minTime
  rw [hsplit]
  cases gs with
  | nil => exact le_refl _
  | cons g' gs =>
    obtain ⟨hframe, -, -, hrest⟩ := hfront
    rw [timeThrough_cons] at htime
    exact hframe.sized.maxTime.trans (hrest.le_timeThrough.trans htime)

theorem LogSegment.Ok.entry_acceptable (h : s.Ok seq time) {i : ℕ} {v : IndexEntry}
    (hv : s.index[i]? = some v) : v.acceptable c (s.summary b) = true := by
  obtain ⟨gs, g, gs', hsplit, -, rfl, hfront, hframe, htime, hrest⟩ := h.index_getElem hv
  have hne : s.entries ≠ [] := by
    intro hnil
    rw [LogSegment.groups_eq_nil.2 hnil] at hsplit
    simp at hsplit
  have hmin := minTime_le_groupMin hsplit hfront htime
  have hmax : groupMax g ≤ s.maxTime := by
    rw [LogSegment.maxTime_eq time hne, hsplit, timeThrough_append, timeThrough_cons]
    exact hrest.le_timeThrough
  have hlast := LogSegment.last_eq hne
  have hcount : s.count = rowTotal gs + (groupCount g + rowTotal gs') := by
    rw [LogSegment.count, hsplit, rowTotal_append, rowTotal_cons]
  have hsize : s.size = segmentHeaderBytes + (framesSize (framesFrom [] s.first gs) +
      ((groupFrame (symbolsThrough [] gs) (s.first + rowTotal gs) g).size + framesSize
        (framesFrom (symbolsAfter (symbolsThrough [] gs) g) (s.first + rowTotal gs + groupCount g)
          gs'))) := by
    rw [LogSegment.size, LogSegment.frames, hsplit, framesFrom_append, framesSize_append, framesFrom,
      framesSize_cons]
  obtain ⟨v, hentry, hv1, hv2, hv3, hv4, hv5, hv6, hv7, hv8, -, -⟩ :=
    hframe.indexEntry (segmentHeaderBytes + framesSize (framesFrom [] s.first gs))
  have hbounds := hframe.last
  have hrows : groupCount g ≠ 0 := hframe.sized.rowCount
  have hfirst : s.first + rowTotal gs ≠ 0 := hframe.sized.firstSequence
  have hlen := length_groupFrame_rows (symbolsThrough [] gs) (s.first + rowTotal gs) g
  have hdict : (groupFrame (symbolsThrough [] gs) (s.first + rowTotal gs) g).dictionary.length % 8 =
      0 := hframe.sized.dictionaryBytes.1
  have hdictCount : (groupFrame (symbolsThrough [] gs) (s.first + rowTotal gs) g).dictionaryCount ≤
      (groupFrame (symbolsThrough [] gs) (s.first + rowTotal gs) g).dictionary.length / 12 :=
    hframe.sized.dictionaryCount
  have hminmax : groupMin g ≤ groupMax g := hframe.sized.maxTime
  have hle := hframe.size_bounds.2
  have hsz : (groupFrame (symbolsThrough [] gs) (s.first + rowTotal gs) g).size =
      groupCount g * c.schema.rowWidth +
        (groupFrame (symbolsThrough [] gs) (s.first + rowTotal gs) g).dictionary.length + 96 := by
    rw [Frame.size, hlen]
  have hu : uint64Max = 2 ^ 64 - 1 := rfl
  rw [show entryOf s.first gs g = v from hentry]
  simp only [IndexEntry.acceptable, IndexEntry.lastSequence, LogSegment.summary, hv1, hv2, hv3, hv4,
    hv5, hv6, hv7, hv8, Bool.and_eq_true, decide_eq_true_eq, frameHeaderBytes, frameTrailerBytes,
    hlast, hsize]
  refine ⟨⟨⟨⟨⟨⟨⟨⟨⟨⟨⟨⟨⟨⟨⟨hrows, hfirst⟩, ?_⟩, ?_⟩, ?_⟩, hmin⟩, hminmax⟩, hmax⟩, ?_⟩, ?_⟩, hle⟩, ?_⟩,
    ?_⟩, ?_⟩, ?_⟩, ?_⟩ <;> omega

/-- **The index of a segment is one that its readers accept.** -/
theorem LogSegment.Ok.entriesOk (h : s.Ok seq time) : EntriesOk c (s.summary b) s.index where
  acceptable v hv := by
    obtain ⟨i, hi⟩ := mem_iff_getElem?.1 hv
    exact h.entry_acceptable hi
  crc v hv := by
    obtain ⟨i, hi⟩ := mem_iff_getElem?.1 hv
    obtain ⟨gs, g, gs', -, -, rfl, -⟩ := h.index_getElem hi
    exact ⟨getLE_lt 4 _ _, crc32c_lt _⟩
  count := by
    rw [s.length_index]
    exact h.count
  empty := by
    rw [← length_eq_zero_iff, s.length_index, length_eq_zero_iff]
    exact h.last_eq_zero.symm
  ends first last hfirst hlast := by
    have hne : s.entries ≠ [] := by
      intro hnil
      rw [← length_eq_zero_iff, ← s.length_index, length_eq_zero_iff] at hnil
      simp [hnil] at hfirst
    rw [head?_eq_getElem?] at hfirst
    rw [getLast?_eq_getElem?] at hlast
    obtain ⟨gs, g, gs', hsplit, hlen, rfl, -, hframe, -⟩ := h.index_getElem hfirst
    obtain ⟨hs, k, hs', hsplit', hlen', rfl, -, hframe', -⟩ := h.index_getElem hlast
    have hgs : gs = [] := length_eq_zero_iff.1 hlen
    have hhs : hs' = [] := by
      have hl := congrArg List.length hsplit'
      rw [length_append, length_cons, hlen', s.length_index] at hl
      have hl' : s.groups.length = s.entries.length := length_map _
      have hpos : s.entries.length ≠ 0 := fun h0 ↦ hne (length_eq_zero_iff.1 h0)
      exact length_eq_zero_iff.1 (by omega)
    subst hgs hhs
    obtain ⟨v, hentry, hv1, -, hv3, hv4, -⟩ := hframe.indexEntry
      (segmentHeaderBytes + framesSize (framesFrom [] s.first ([] : List (Group c))))
    obtain ⟨w, hentry', -, hw2, hw3, hw4, hw5, -, hw7, -⟩ := hframe'.indexEntry
      (segmentHeaderBytes + framesSize (framesFrom [] s.first hs))
    have hcount : s.count = rowTotal hs + groupCount k := by
      rw [LogSegment.count, hsplit', rowTotal_append, rowTotal_cons, rowTotal_nil, Nat.add_zero]
    have hsize : s.size = segmentHeaderBytes + (framesSize (framesFrom [] s.first hs) +
        (groupFrame (symbolsThrough [] hs) (s.first + rowTotal hs) k).size) := by
      rw [LogSegment.size, LogSegment.frames, hsplit', framesFrom_append, framesSize_append]
      simp [framesFrom, framesSize]
    have hmin : s.minTime = groupMin g := by
      rw [LogSegment.minTime, hsplit]
      rfl
    have hmax : s.maxTime = groupMax k := by
      rw [LogSegment.maxTime, hsplit', timeThrough_concat]
    have hlast' := LogSegment.last_eq hne
    rw [show entryOf s.first [] g = v from hentry, show entryOf s.first hs k = w from hentry']
    simp only [endpointsValid, IndexEntry.lastSequence, LogSegment.summary, hv1, hv3, hv4, hw2, hw3,
      hw4, hw5, hw7, hmin, hmax, hlast', hcount, hsize, framesFrom, framesSize, rowTotal_nil,
      Bool.and_eq_true, decide_eq_true_eq, map_nil, sum_nil, Nat.add_zero, true_and,
      and_true]
    omega

end Index

/-! ### One more frame -/

namespace LogSegment

variable {s : LogSegment c} {e : Entry c} {seq : ℕ} {time : ℤ}

/-- The frame of the next group. -/
def frameOf (s : LogSegment c) (g : Group c) : Frame :=
  groupFrame s.symbols (s.first + s.count) g

section

variable (s : LogSegment c)

@[simp] theorem groups_push (e : Entry c) : (s.push e).groups = s.groups ++ [e.group] := by
  simp [groups, push]

@[simp] theorem count_push (e : Entry c) : (s.push e).count = s.count + groupCount e.group := by
  rw [count, groups_push, rowTotal_append, rowTotal_cons, rowTotal_nil, Nat.add_zero, count]

@[simp] theorem symbols_push (e : Entry c) :
    (s.push e).symbols = symbolsAfter s.symbols e.group := by
  rw [symbols, groups_push, symbolsThrough_append]
  rfl

@[simp] theorem frames_push (e : Entry c) :
    (s.push e).frames = s.frames ++ [s.frameOf e.group] := by
  rw [frames, groups_push, framesFrom_append]
  rfl

@[simp] theorem size_push (e : Entry c) : (s.push e).size = s.size + (s.frameOf e.group).size := by
  rw [size, frames_push, framesSize_append, size]
  simp [framesSize, Nat.add_assoc]

@[simp] theorem index_push (e : Entry c) : (s.push e).index =
      s.index ++ [indexForFrame (s.frameOf e.group) (s.frameOf e.group).bytes s.size] := by
  rw [index, frames_push, indexFrom_append]
  rfl

@[simp] theorem image_push (e : Entry c) :
    (s.push e).image = s.image ++ (s.frameOf e.group).bytes := by
  rw [image, frames_push, framesBytes_append, image, append_assoc]
  simp only [framesBytes, flatMap_cons, flatMap_nil, append_nil]
  rfl

end

/-- **A segment accepts one more frame.** -/
theorem Ok.push (h : s.Ok seq time) (hframe : FrameOk s.symbols (s.first + s.count) e.group)
    (htime : timeThrough time s.groups ≤ groupMin e.group)
    (hday : groupMin e.group / dayUs = s.day / dayUs) (hcount : s.entries.length < maxIndexEntries) :
    (s.push e).Ok seq time where
  id := h.id
  day := h.day
  first := h.first
  first_lt := h.first_lt
  groups := by
    rw [groups_push, groupsOk_append]
    exact ⟨h.groups, hframe, htime, hday, trivial⟩
  count := by
    simp only [LogSegment.push, length_append, length_cons, length_nil]
    omega
  retired hr := by simp [LogSegment.push]
  budget := h.budget

/-- The record of the segment is updated as the writer does it. -/
theorem Ok.extend_summary (h : s.Ok seq time)
    (hframe : FrameOk s.symbols (s.first + s.count) e.group) :
    (s.summary true).extend (s.frameOf e.group) (s.frameOf e.group).size =
      (s.push e).summary true := by
  have hlt := hframe.last
  have hpos : groupCount e.group ≠ 0 := hframe.sized.rowCount
  have hlast : (s.push e).last = s.first + s.count + groupCount e.group - 1 := by
    rw [LogSegment.last_eq (by simp [LogSegment.push]), count_push, ← Nat.add_assoc]
    rfl
  have hmin : (s.push e).minTime = if s.last = 0 then groupMin e.group else s.minTime := by
    rw [minTime, groups_push]
    by_cases hne : s.entries = []
    · rw [if_pos (h.last_eq_zero.2 hne), groups_eq_nil.2 hne]
      rfl
    · rw [if_neg fun h0 ↦ hne (h.last_eq_zero.1 h0), minTime]
      cases hgs : s.groups with
      | nil => exact absurd (groups_eq_nil.1 hgs) hne
      | cons g gs => rfl
  have hmax : (s.push e).maxTime = groupMax e.group := by
    rw [maxTime, groups_push, timeThrough_concat]
  unfold SegmentMeta.extend summary
  simp only [hlast, hmin, hmax, size_push]
  have hu : u64 ((s.frameOf e.group).firstSequence + (s.frameOf e.group).rowCount - 1) =
      s.first + s.count + groupCount e.group - 1 := by
    have hval : (s.frameOf e.group).firstSequence + (s.frameOf e.group).rowCount - 1 =
        s.first + s.count + groupCount e.group - 1 := rfl
    rw [hval, u64_of_lt (by omega)]
  rw [hu]
  rfl

end LogSegment

end WebAnalyticsDb
