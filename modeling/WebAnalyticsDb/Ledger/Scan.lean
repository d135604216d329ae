import WebAnalyticsDb.Ledger.Transitions

/-!
# Reading a segment back

The scan of a segment file, one frame after the other, finds what the writer put there. `ScanOf s`
says that a scan has read the frames of `s`; `wp_scanFrame_next` is the step to the next frame and
`wp_scanLoop` the whole run, which ends at the last complete frame and cuts off what follows it.

* **What can go wrong is not in the file.** All failures of the scan come from calls that fail, from
  memory, or from a deadline; `Undisturbed` excludes these. The dictionary never exceeds its budget,
  because the one the writer used, in which the same symbols were defined, did not.
-/

namespace WebAnalyticsDb

open Bytes List

variable {c : Config} {μ : Type}

/-- The segment with other frames. -/
def LogSegment.withEntries (s : LogSegment c) (es : List (Entry c)) : LogSegment c :=
  { s with entries := es }

/-- **The scan has read the frames of `s`**, in a table with last sequence number `seq` and last
timestamp `time` before. -/
structure ScanOf (s : LogSegment c) (seq : ℕ) (time : ℤ) (x : Scan) : Prop where
  offset : x.offset = s.size
  last : x.last = s.last
  minTime : x.minTime = s.minTime
  maxTime : x.maxTime = s.maxTime
  lastSequence : x.lastSequence = seq + s.count
  lastTime : x.lastTime = timeThrough time s.groups
  index : x.index.entries = s.index
  rep : x.dictionary.Rep s.symbols
  tight : x.dictionary.Tight s.symbols
  schema : x.dictionary.schema = c.schema
  limit : x.dictionary.limit = c.options.dictionaryLimitBytes

section Segments

variable {s : LogSegment c} {e : Entry c} {seq : ℕ} {time : ℤ} {tail : Bytes}

theorem LogSegment.push_withEntries (s : LogSegment c) (es : List (Entry c)) (e : Entry c) :
    (s.withEntries es).push e = s.withEntries (es ++ [e]) := rfl

/-- The first frames of a segment. -/
theorem LogSegment.Ok.front {es es' : List (Entry c)} (h : (s.withEntries (es ++ es')).Ok seq time)
    (hr : s.retired = false) : (s.withEntries es).Ok seq time where
  id := h.id
  day := h.day
  first := h.first
  first_lt := h.first_lt
  groups := by
    have hgroups := h.groups
    rw [LogSegment.groups, LogSegment.withEntries, map_append, groupsOk_append] at hgroups
    exact hgroups.1
  count := by
    have hcount : (es ++ es').length ≤ maxIndexEntries := h.count
    rw [length_append] at hcount
    exact (Nat.le_add_right _ _).trans hcount
  retired hr' := absurd hr' (by rw [LogSegment.withEntries, hr]; simp)
  budget := h.budget

/-- What the writer checked about the last frame. -/
theorem LogSegment.Ok.pushed (h : (s.push e).Ok seq time) :
    FrameOk s.symbols (s.first + s.count) e.group ∧
      timeThrough time s.groups ≤ groupMin e.group ∧
      groupMin e.group / dayUs = s.day / dayUs ∧ s.entries.length < maxIndexEntries := by
  have hgroups := h.groups
  rw [LogSegment.groups_push, groupsOk_append] at hgroups
  obtain ⟨-, hframe, htime, hday, -⟩ := hgroups
  refine ⟨hframe, htime, hday, ?_⟩
  have hcount := h.count
  rw [LogSegment.push, length_append] at hcount
  exact hcount

theorem Torn.length_lt (h : Torn c tail) : tail.length < maxFrameBytes := by
  rcases h with rfl | ⟨S, first, g, hframe, hlt, -⟩
  · decide
  · exact hlt.trans_le hframe.size_bounds.2

/-- A segment file, with what an interrupted append has left behind it, is not too long. -/
theorem LogSegment.Ok.length_le (h : s.Ok seq time) (htorn : Torn c tail) :
    (s.image ++ tail).length ≤ int64Max := by
  have hsize := h.size_le
  have htail := htorn.length_lt
  rw [length_append, LogSegment.length_image]
  unfold segmentHeaderBytes maxIndexEntries maxFrameBytes int64Max at *
  omega

end Segments

/-! ### One frame -/

section Frame

variable {s : LogSegment c} {e : Entry c} {seq : ℕ} {time : ℤ} {x : Scan}

/-- **The definitions of a frame are replayed** within the budget of the dictionary. -/
theorem FrameOk.wp_apply {env : Env Path Dir} {fs : Files} {n : ℕ} {d : Dictionary} {S : Symbols}
    {first : ℕ} {g : Group c} (h : FrameOk S first g) (hrep : d.Rep S) (htight : d.Tight S)
    (hschema : d.schema = c.schema) (hlimit : d.limit = c.options.dictionaryLimitBytes) :
    wp (dictionaryApply (groupFrame S first g).dictionary (groupFrame S first g).dictionaryCount)
      env (fun e fs' d' ↦ fs' = fs ∧ match e with
        | .ok _ => d'.Rep (symbolsAfter S g) ∧ d'.Tight (symbolsAfter S g) ∧ d'.schema = c.schema ∧
          d'.limit = c.options.dictionaryLimitBytes
        | .fail _ => ¬ env.Calm
        | .killed => False) ⟨fs, n, d⟩ := by
  have hsplit := symbolsAfter_eq S g
  obtain ⟨T, hT⟩ : ∃ T, T = (symbolsAfter S g).drop S.length := ⟨_, rfl⟩
  rw [← hT] at hsplit
  have hlen := h.length_lt
  rw [hsplit, length_append] at hlen
  have hcount : (groupFrame S first g).dictionaryCount = T.length := by
    rw [hT, length_drop]
    rfl
  have hfits : SectionFits d.schema S T := by
    rw [hschema]
    exact ⟨fun x hx ↦ h.symbols x (by rw [hsplit]; exact mem_append_right _ hx),
      c.layout.count, hlen⟩
  rw [hcount, show (groupFrame S first g).dictionary = definitions S T by rw [hT]; rfl]
  refine (wp_dictionaryApply hrep hfits (by rw [← hsplit]; exact h.nodup)).mono ?_
  rintro (_ | e | _) fs' d' ⟨rfl, hschema', hlimit', hres⟩
  · rw [hsplit]
    exact ⟨rfl, hres.1, hres.2 htight, hschema'.trans hschema, hlimit'.trans hlimit⟩
  · refine ⟨rfl, ?_⟩
    rcases hres.2 with ⟨-, hcalm⟩ | ⟨-, hover⟩
    · exact hcalm
    · -- the writer's dictionary was not larger
      have := hover htight
      rw [hschema, hlimit, ← hsplit] at this
      exact absurd h.budget (not_le.2 this)
  · exact hres.elim

/-- The next frame is the one the scan expects. -/
theorem ScanOf.continues {m : SegmentMeta} (hx : ScanOf s seq time x) (hs : s.Ok seq time)
    (hnext : (s.push e).Ok seq time) (hday : m.dayStart = s.day) :
    (s.frameOf e.group).continues c m x = true := by
  obtain ⟨hframe, htime, hday', -⟩ := hnext.pushed
  have hlast := hframe.last
  have hcount : groupCount e.group ≠ 0 := hframe.sized.rowCount
  have hfirst := hs.first
  have hne : seq + s.count ≠ uint64Max := by
    unfold uint64Max
    omega
  have hseq : s.first + s.count = seq + s.count + 1 := by omega
  unfold Frame.continues
  rw [hx.lastSequence, hx.lastTime, hday]
  simp only [Bool.and_eq_true, decide_eq_true_eq]
  exact ⟨⟨⟨⟨⟨rfl, rfl⟩, hne⟩, hseq⟩, htime⟩, hday'⟩

/-- **The scan after the next frame.** -/
theorem ScanOf.accept {d : Dictionary} (hx : ScanOf s seq time x) (hs : s.Ok seq time)
    (hnext : (s.push e).Ok seq time) (hrep : d.Rep (s.push e).symbols)
    (htight : d.Tight (s.push e).symbols) (hschema : d.schema = c.schema)
    (hlimit : d.limit = c.options.dictionaryLimitBytes) (k : ℕ) :
    ScanOf (s.push e) seq time
      (x.accept (s.frameOf e.group) (s.frameOf e.group).bytes { x.index with capacity := k } d) := by
  obtain ⟨hframe, -, -, -⟩ := hnext.pushed
  have hext := hs.extend_summary hframe
  have hlast : u64 (s.first + s.count + groupCount e.group - 1) = (s.push e).last :=
    congrArg SegmentMeta.lastSequence hext
  have hseq : seq + (s.push e).count = (s.push e).last :=
    (hnext.last_eq_add (by simp [LogSegment.push])).symm
  refine ⟨?_, hlast, ?_, congrArg SegmentMeta.maxTime hext, ?_, ?_, ?_, hrep, htight, hschema, hlimit⟩
  · rw [LogSegment.size_push, Scan.accept, hx.offset, Frame.length_bytes]
  · have hmin := congrArg SegmentMeta.minTime hext
    rw [Scan.accept, hx.last, hx.minTime]
    exact hmin
  · rw [hseq]
    exact hlast
  · rw [LogSegment.groups_push, timeThrough_concat]
    rfl
  · rw [LogSegment.index_push, Scan.accept, FrameIndex.push, hx.offset]
    simp only [hx.index]

variable {env : Env Path Dir} {fs : Files} {n deadline : ℕ} {m : SegmentMeta} {f : File} {mem : μ}
  {rest tail : Bytes}

/-- **The next frame is read.** -/
theorem wp_scanFrame_next (hpath : m.segPath = s.segPath) (hday : m.dayStart = s.day)
    (hs : s.Ok seq time) (hnext : (s.push e).Ok seq time) (hf : fs s.segPath = some f)
    (hdata : f.data = (s.push e).image ++ rest) (hlen : f.data.length ≤ int64Max)
    (hx : ScanOf s seq time x) {Q : Exit Error (Option Scan) → Files → μ → Prop}
    (hok : ∀ x', ScanOf (s.push e) seq time x' → Q (.ok (some x')) fs mem)
    (hno : ¬ Undisturbed env deadline → ∀ err, Q (.fail err) fs mem)
    (hkill : ¬ Undisturbed env deadline → Q .killed fs mem) :
    wp (scanFrame c m f.data.length deadline x) env Q ⟨fs, n, mem⟩ := by
  obtain ⟨hframe, -, -, hcount⟩ := hnext.pushed
  obtain ⟨p, hp⟩ : ∃ p, p = (s.frameOf e.group).bytes := ⟨_, rfl⟩
  have hplen : p.length = (s.frameOf e.group).size := by rw [hp, Frame.length_bytes]
  have hsize : 96 ≤ (s.frameOf e.group).size := hframe.size_bounds.1
  have hdata' : f.data = s.image ++ (p ++ rest) := by
    rw [hdata, LogSegment.image_push, hp, append_assoc]
  have hflen : f.data.length = s.size + (s.frameOf e.group).size + rest.length := by
    rw [hdata', length_append, length_append, LogSegment.length_image, hplen,
      Nat.add_assoc]
  have hbytes : slice f.data s.size (s.frameOf e.group).size = p := by
    rw [hdata']
    exact slice_append_mid s.length_image.symm hplen.symm
  have hhead : slice f.data s.size frameHeaderBytes =
      (s.frameOf e.group).header.image (s.frameOf e.group).size ++ [] := by
    obtain ⟨more, hmore⟩ := Frame.image_eq_append (s.frameOf e.group) (s.frameOf e.group).size
    rw [hdata', hp, Frame.bytes, hmore, append_nil, append_assoc]
    exact slice_append_mid s.length_image.symm (FrameHeader.length_image _ _).symm
  have hinspect : frameInspect ((s.frameOf e.group).header.image (s.frameOf e.group).size ++ []) =
      .ok ((s.frameOf e.group).header, (s.frameOf e.group).size) := hframe.inspect []
  have hdecode : frameDecode p = .ok (s.frameOf e.group) := by
    rw [hp]
    exact hframe.decode
  refine wp_scanFrame (hpath ▸ hf) hlen hno hkill ?_
  rw [hx.offset, if_neg (by unfold frameHeaderBytes; omega), hhead, hinspect]
  dsimp only
  rw [if_neg (by omega), hbytes, hdecode]
  intro n
  refine wp_require_of (hx.continues hs hnext hday) fun n ↦ ?_
  refine wp_bind (Prog.wp_within.2
    ((hframe.wp_apply hx.rep hx.tight hx.schema hx.limit).mono ?_))
  rintro (_ | err | _) fs' d' ⟨rfl, hres⟩
  · obtain ⟨hrep, htight, hschema, hlimit⟩ := hres
    intro n
    refine wp_bind (wp_rethrow.2 fun n ↦ ?_)
    rw [dictionaryResolve_eq hrep, hschema,
      show validateRows c.schema _ (s.frameOf e.group).rowCount (s.frameOf e.group).rows = .ok () from
        hframe.validateRows_ok (prefix_refl _)]
    refine wp_bind (wp_rethrow.2 fun n ↦ ?_)
    refine wp_bind (wp_indexReserve (fun k _ n ↦ ?_) fun err _ hwhy ↦ ?_)
    · rw [hp]
      rw [← LogSegment.symbols_push s e] at hrep htight
      exact hok _ (hx.accept hs hnext hrep htight hschema hlimit k)
    · rcases hwhy with ⟨-, h⟩ | hfull
      · exact hno (disturbed h) _
      · rw [FrameIndex.count, hx.index, LogSegment.length_index] at hfull
        omega
  · intro n
    exact wp_bind (wp_rethrow.2 (hno (disturbed hres) _))
  · exact hres.elim

/-- **What an interrupted append has left** is not taken for a frame. -/
theorem wp_scanFrame_torn (hpath : m.segPath = s.segPath) (hf : fs s.segPath = some f)
    (hdata : f.data = s.image ++ tail) (htorn : Torn c tail) (hlen : f.data.length ≤ int64Max)
    (hx : ScanOf s seq time x) {Q : Exit Error (Option Scan) → Files → μ → Prop}
    (hok : Q (.ok none) fs mem) (hno : ¬ Undisturbed env deadline → ∀ err, Q (.fail err) fs mem)
    (hkill : ¬ Undisturbed env deadline → Q .killed fs mem) :
    wp (scanFrame c m f.data.length deadline x) env Q ⟨fs, n, mem⟩ := by
  have hflen : f.data.length = s.size + tail.length := by
    rw [hdata, length_append, LogSegment.length_image]
  refine wp_scanFrame (hpath ▸ hf) hlen hno hkill ?_
  rw [hx.offset]
  split
  · exact hok
  next hlong =>
    unfold frameHeaderBytes at hlong
    obtain ⟨S, first, g, hframe, hlt, rest, hrest⟩ :
        ∃ (S : Symbols) (first : ℕ) (g : Group c), FrameOk S first g ∧
          tail.length < (groupFrame S first g).size ∧ tail <+: (groupFrame S first g).bytes := by
      rcases htorn with rfl | h
      · rw [length_nil] at hflen
        omega
      · exact h
    have hhead : slice f.data s.size frameHeaderBytes =
        (groupFrame S first g).header.image (groupFrame S first g).size ++ [] := by
      obtain ⟨more, hmore⟩ := Frame.image_eq_append (groupFrame S first g) (groupFrame S first g).size
      have hslice : slice tail 0 frameHeaderBytes = slice (tail ++ rest) 0 frameHeaderBytes :=
        (slice_append_left (by unfold frameHeaderBytes; omega)).symm
      rw [hdata, slice_append_right (le_of_eq s.length_image), LogSegment.length_image, Nat.sub_self,
        hslice, hrest, Frame.bytes, hmore, append_nil]
      exact slice_append_head (FrameHeader.length_image _ _).symm
    rw [hhead, hframe.inspect]
    dsimp only
    rw [if_pos (by omega)]
    exact hok

end Frame

/-! ### The whole file -/

/-- What reading the segment `s` may do to the files: an interrupted append is cut off, and what was
covered by a sync stays so. -/
def Trimmed (s : LogSegment c) (tail : Bytes) (fs fs' : Files) : Prop :=
  fs' = fs ∨ tail ≠ [] ∧ ∃ f k, fs s.segPath = some f ∧ min f.synced s.size ≤ k ∧
    Replaced s.segPath ⟨s.image, k⟩ fs fs'

section Loop

variable {s : LogSegment c} {seq : ℕ} {time : ℤ} {x : Scan} {env : Env Path Dir} {fs : Files}
  {n deadline : ℕ} {m : SegmentMeta} {f : File} {mem : μ} {tail : Bytes}

/-- **The end of an active segment is cut.** -/
theorem wp_truncateTail (hpath : m.segPath = s.segPath) (hstate : m.state = .active)
    (hbytes : m.committedBytes ≤ s.size) (hf : fs s.segPath = some f)
    (hdata : f.data = s.image ++ tail) (htail : tail ≠ []) (hoffset : x.offset = s.size)
    {Q : Exit Error Unit → Files → μ → Prop}
    (hok : ∀ fs', Replaced s.segPath ⟨s.image, s.size⟩ fs fs' → Q (.ok ()) fs' mem)
    (hno : ¬ env.Calm → ∀ err fs', Trimmed s tail fs fs' → Q (.fail err) fs' mem)
    (hkill : ¬ env.Calm → ∀ fs', Trimmed s tail fs fs' → Q .killed fs' mem) :
    wp (truncateTail m x) env Q ⟨fs, n, mem⟩ := by
  have htrunc : Replaced s.segPath ⟨s.image, min f.synced s.size⟩ fs
      (Prog.truncateTo s.segPath s.size fs) := by
    have htake : f.data.take s.size = s.image := by
      rw [hdata]
      exact take_left' s.length_image
    rw [Prog.truncateTo, hf, Option.map_some, htake]
    exact replaced_setFile _ _ _
  have hsync := htrunc.syncTo
  rw [LogSegment.length_image] at hsync
  have hcut {k : ℕ} {fs' : Files} (hk : min f.synced s.size ≤ k)
      (hrep : Replaced s.segPath ⟨s.image, k⟩ fs fs') : Trimmed s tail fs fs' :=
    .inr ⟨htail, f, k, hf, hk, hrep⟩
  unfold truncateTail
  rw [hoffset, hpath]
  refine wp_require_of (by simp [hstate, hbytes]) fun n ↦ ?_
  refine wp_callOr_bind (fun n ↦ ?_) (fun hcalm ↦ hno hcalm _ _ (.inl rfl))
    (fun hcalm ↦ hkill hcalm _ (.inl rfl)) fun hcalm ↦ hkill hcalm _ (hcut le_rfl htrunc)
  exact wp_syncFile (hok _ hsync) (fun hcalm ↦ hno hcalm _ _ (hcut le_rfl htrunc))
    (fun hcalm ↦ hkill hcalm _ (hcut le_rfl htrunc))
    fun hcalm ↦ hkill hcalm _ (hcut (min_le_right _ _) hsync)

/-- The files after a successful scan: an interrupted append is cut off, and the file is covered by a
sync then. -/
def Cut (s : LogSegment c) (tail : Bytes) (fs fs' : Files) : Prop :=
  tail = [] ∧ fs' = fs ∨ tail ≠ [] ∧ Replaced s.segPath ⟨s.image, s.size⟩ fs fs'

/-- **The frame loop reads the frames at the beginning of a file** and goes on behind them. The induction is
on the frames that are left; what it carries along is that those before were read. -/
theorem wp_scanLoop_front (es : List (Entry c)) {es' : List (Entry c)} {rest : Bytes} {fuel : ℕ}
    (hpath : m.segPath = s.segPath) (hday : m.dayStart = s.day) (hr : s.retired = false)
    (hs : (s.withEntries (es ++ es')).Ok seq time) (hf : fs s.segPath = some f)
    (hdata : f.data = (s.withEntries (es ++ es')).image ++ rest) (hlen : f.data.length ≤ int64Max)
    (hx : ScanOf (s.withEntries es) seq time x) {Q : Exit Error Scan → Files → μ → Prop}
    (hrest : ∀ x' n, ScanOf (s.withEntries (es ++ es')) seq time x' →
      wp (scanLoop c m f.data.length deadline fuel x') env Q ⟨fs, n, mem⟩)
    (hno : ¬ Undisturbed env deadline → ∀ err, Q (.fail err) fs mem)
    (hkill : ¬ Undisturbed env deadline → Q .killed fs mem) :
    wp (scanLoop c m f.data.length deadline (es'.length + fuel) x) env Q ⟨fs, n, mem⟩ := by
  induction es' generalizing es x n with
  | nil =>
    rw [append_nil] at hrest
    rw [length_nil, Nat.zero_add]
    exact hrest x n hx
  | cons e es' ih =>
    have hassoc : es ++ e :: es' = es ++ [e] ++ es' := by simp
    rw [hassoc] at hs hdata hrest
    have hnext : ((s.withEntries es).push e).Ok seq time := hs.front hr
    have hnow : (s.withEntries es).Ok seq time :=
      LogSegment.Ok.front (show (s.withEntries (es ++ [e])).Ok seq time from hnext) hr
    obtain ⟨more, hmore⟩ := LogSegment.prefix_image ((s.withEntries es).push e) es'
    have hdata' : f.data = ((s.withEntries es).push e).image ++ (more ++ rest) := by
      rw [hdata, ← append_assoc, hmore]
      rfl
    have hlt : (s.withEntries es).size < f.data.length := by
      have := hnext.pushed.1.size_bounds.1
      have hpush := LogSegment.size_push (s.withEntries es) e
      unfold LogSegment.frameOf at hpush
      rw [hdata', length_append, LogSegment.length_image]
      omega
    rw [length_cons, Nat.add_right_comm, scanLoop, hx.offset, if_pos hlt]
    exact wp_bind (wp_scanFrame_next (s := s.withEntries es) hpath hday hnow hnext hf hdata' hlen
      hx (fun x' hx' n ↦ ih _ hs hdata hx' hrest) hno hkill)

/-- **The frame loop** reads every frame of the segment, and cuts off what follows them. -/
theorem wp_scanLoop {fuel : ℕ} (hpath : m.segPath = s.segPath) (hday : m.dayStart = s.day)
    (hr : s.retired = false) (hs : s.Ok seq time) (hf : fs s.segPath = some f)
    (hdata : f.data = s.image ++ tail) (htorn : Torn c tail)
    (hcommit : tail ≠ [] → m.state = .active ∧ m.committedBytes ≤ s.size)
    (hx : ScanOf (s.withEntries []) seq time x) (hfuel : s.entries.length < fuel)
    {Q : Exit Error Scan → Files → μ → Prop}
    (hok : ∀ x' fs', ScanOf s seq time x' → Cut s tail fs fs' → Q (.ok x') fs' mem)
    (hno : ¬ Undisturbed env deadline → ∀ err fs', Trimmed s tail fs fs' → Q (.fail err) fs' mem)
    (hkill : ¬ Undisturbed env deadline → ∀ fs', Trimmed s tail fs fs' → Q .killed fs' mem) :
    wp (scanLoop c m f.data.length deadline fuel x) env Q ⟨fs, n, mem⟩ := by
  have hlen : f.data.length ≤ int64Max := by
    rw [hdata]
    exact hs.length_le htorn
  have hflen : f.data.length = s.size + tail.length := by
    rw [hdata, length_append, LogSegment.length_image]
  have hno' (h : ¬ Undisturbed env deadline) (err : Error) := hno h err fs (.inl rfl)
  have hkill' (h : ¬ Undisturbed env deadline) := hkill h fs (.inl rfl)
  obtain ⟨fuel, rfl⟩ : ∃ k, fuel = s.entries.length + (k + 1) :=
    ⟨fuel - s.entries.length - 1, by omega⟩
  refine wp_scanLoop_front [] hpath hday hr hs hf hdata hlen hx (fun x n hx ↦ ?_) hno' hkill'
  replace hx : ScanOf s seq time x := hx
  rw [scanLoop, hx.offset]
  split
  next hlt =>
    have htail : tail ≠ [] := by
      rintro rfl
      rw [length_nil] at hflen
      omega
    refine wp_bind (wp_scanFrame_torn hpath hf hdata htorn hlen hx (fun n ↦ ?_) hno' hkill')
    refine wp_bind (wp_truncateTail hpath (hcommit htail).1 (hcommit htail).2 hf hdata htail hx.offset
      (fun fs' hrep n ↦ ?_) (fun h err fs' ↦ hno (disturbed h) err fs') fun h fs' ↦ hkill (disturbed h) fs')
    exact hok x fs' hx (.inr ⟨htail, hrep⟩)
  next hge =>
    refine hok x fs hx (.inl ⟨?_, rfl⟩)
    exact eq_nil_of_length_eq_zero (by omega)

end Loop

/-! ### Recovering a segment -/

/-- The record of a segment from which it is recovered. That of an active segment may be older. -/
structure RecordOf (m : SegmentMeta) (s : LogSegment c) (isLast : Bool) : Prop where
  id : m.id = s.id
  day : m.dayStart = s.day
  first : m.firstSequence = s.first
  state : m.state = s.state isLast
  bytes : m.committedBytes ≤ s.size
  last : m.lastSequence ≤ s.last
  exact : isLast = false → m = s.summary false

/-- The files after reading a sealed segment: its index may have been written again. -/
def Reindexed (s : LogSegment c) (fs fs' : Files) : Prop :=
  Agree fs fs' ∨ Replaced s.idxPath ⟨s.derived, s.derived.length⟩ fs fs'

section Recover

variable {s : LogSegment c} {seq : ℕ} {time : ℤ} {x : Scan} {env : Env Path Dir} {fs : Files}
  {n deadline : ℕ} {m : SegmentMeta} {f : File} {mem : μ} {tail : Bytes} {b force : Bool}

theorem LogSegment.state_of_not_retired (hr : s.retired = false) :
    s.state b = if b then .active else .sealed := by
  rw [LogSegment.state, hr]
  rfl

theorem RecordOf.segPath (h : RecordOf m s b) : m.segPath = s.segPath := by
  rw [SegmentMeta.segPath, LogSegment.segPath, h.id, h.day]

theorem RecordOf.header (h : RecordOf m s b) : m.header c = s.header := by
  rw [SegmentMeta.header, h.id, h.day, h.first]
  rfl

/-- The scan completes the record. -/
theorem RecordOf.withScan (h : RecordOf m s b) (hx : ScanOf s seq time x) :
    m.withScan x = s.summary b := by
  rw [SegmentMeta.withScan, hx.last, hx.minTime, hx.maxTime, hx.offset, h.id, h.day, h.first, h.state]
  rfl

theorem RecordOf.agrees (h : RecordOf m s b) (hr : s.retired = false) (hx : ScanOf s seq time x) :
    x.agrees m = true := by
  unfold Scan.agrees
  rw [hx.last, hx.minTime, hx.maxTime, h.state, LogSegment.state_of_not_retired hr]
  cases b with
  | true => simpa using h.last
  | false => simp [h.exact rfl, LogSegment.summary]

/-- **Reading the frames of a segment.** -/
theorem wp_scanSegment (hm : RecordOf m s b) (hr : s.retired = false) (hs : s.Ok seq time)
    (hf : fs s.segPath = some f) (hdata : f.data = s.image ++ tail) (htorn : Torn c tail)
    (hsealed : b = false → tail = []) {Q : Exit Error Recovered → Files → μ → Prop}
    (hkeep : b = true ∨ force = true → ∀ d index fs', d.Rep s.symbols → d.schema = c.schema →
      d.limit = c.options.dictionaryLimitBytes → index.entries = s.index → Cut s tail fs fs' →
      Q (.ok ⟨s.summary b, seq + s.count, timeThrough time s.groups, some (d, index)⟩) fs' mem)
    (hsave : b = false → force = false → ∀ fs', Reindexed s fs fs' →
      Q (.ok ⟨s.summary b, seq + s.count, timeThrough time s.groups, none⟩) fs' mem)
    (hno : ¬ Undisturbed env deadline → ∀ err fs',
      Trimmed s tail fs fs' ∨ b = false ∧ Reindexed s fs fs' → Q (.fail err) fs' mem)
    (hkill : ¬ Undisturbed env deadline → ∀ fs',
      Trimmed s tail fs fs' ∨ b = false ∧ Reindexed s fs fs' → Q .killed fs' mem) :
    wp (scanSegment c m force deadline f.data.length seq time) env Q ⟨fs, n, mem⟩ := by
  have hfuel : s.entries.length < f.data.length := by
    have hle := hs.groups.length_le
    have hlen : s.groups.length = s.entries.length := length_map _
    rw [hdata, length_append, LogSegment.length_image, LogSegment.size]
    unfold segmentHeaderBytes LogSegment.frames
    omega
  have hcommit (htail : tail ≠ []) : m.state = .active ∧ m.committedBytes ≤ s.size := by
    cases b with
    | true => exact ⟨hm.state.trans (LogSegment.state_of_not_retired hr), hm.bytes⟩
    | false => exact absurd (hsealed rfl) htail
  unfold scanSegment
  refine wp_bind (wp_dictionaryNew c.schema c.dictionaryLimit_bounds.2
    (fun d hrep htight hschema hlimit _ n ↦ ?_) (fun _ _ hover ↦ ?_)
    fun e _ h ↦ hno (disturbed h) e fs (.inl (.inl rfl)))
  swap
  · exact absurd hs.budget (not_le.2 hover)
  have hstart : ScanOf (s.withEntries []) seq time
      ⟨segmentHeaderBytes, 0, 0, 0, seq, time, .empty, d⟩ :=
    ⟨rfl, rfl, rfl, rfl, rfl, rfl, rfl, hrep, htight, hschema, hlimit⟩
  refine wp_bind (wp_scanLoop hm.segPath hm.day hr hs hf
    hdata htorn hcommit hstart hfuel (fun x fs' hx hcut n ↦ ?_)
    (fun h err fs' htrim ↦ hno h err fs' (.inl htrim)) fun h fs' htrim ↦ hkill h fs' (.inl htrim))
  refine wp_require_of (hm.agrees hr hx) fun n ↦ ?_
  rw [hm.withScan hx, hx.lastSequence, hx.lastTime]
  split
  next hkept =>
    rw [hm.state, LogSegment.state_of_not_retired hr] at hkept
    refine hkeep ?_ _ _ _ hx.rep hx.schema hx.limit hx.index hcut
    cases b with
    | true => exact .inl rfl
    | false => exact .inr (hkept.resolve_left (by simp))
  next hsave' =>
    rw [hm.state, LogSegment.state_of_not_retired hr] at hsave'
    have hb : b = false := by
      cases b with
      | true => exact absurd (.inl rfl) hsave'
      | false => rfl
    have hforce : force = false := by
      cases force with
      | true => exact absurd (.inr rfl) hsave'
      | false => rfl
    -- a sealed segment has no tail, so the scan has left the files alone
    have hsame : fs' = fs := by
      rcases hcut with ⟨-, h⟩ | ⟨htail, -⟩
      · exact h
      · exact absurd (hsealed hb) htail
    subst hsame
    have himage : indexImage c (s.summary b) x.index.entries (definitions [] s.symbols)
        s.symbols.length = s.derived := by
      rw [hx.index]
      rfl
    have hidx {fs'' : Files} (h : Agree (setFile (s.summary b).idxPath (some
        ⟨indexImage c (s.summary b) x.index.entries (definitions [] s.symbols) s.symbols.length,
          (indexImage c (s.summary b) x.index.entries (definitions [] s.symbols)
            s.symbols.length).length⟩) fs') fs'') : Reindexed s fs' fs'' := by
      rw [himage] at h
      exact .inr (replaced_of_agree (idxPath_ne_tmp s) h)
    have hdone {fs'' : Files} (h : Reindexed s fs' fs'') := hsave hb hforce fs'' h
    refine wp_bind (wp_attempt.2 (installs_indexSave hx.rep x.index _
      ⟨fs', n, mem⟩ _ (fun fs'' h n ↦ hdone (hidx h)) (fun hc fs'' h e he n ↦ ?_) (fun hc fs'' h e he n ↦ ?_)
      fun hc fs'' h ↦ hkill (disturbed hc) fs'' (.inr ⟨hb, h.elim .inl hidx⟩)))
    · dsimp only
      split
      · exact hdone (.inl h)
      · exact hno (disturbed hc) e fs'' (.inr ⟨hb, .inl h⟩)
    · dsimp only
      rw [if_pos (.inr he)]
      exact hdone (hidx h)

end Recover

end WebAnalyticsDb
