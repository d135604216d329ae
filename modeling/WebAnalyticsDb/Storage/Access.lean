import WebAnalyticsDb.Core.RowAccess
import WebAnalyticsDb.Storage.Interning

/-!
# What the frame decoders read

`wadb_frame_inspect`, `wadb_frame_decode` and `wadb_dictionary_apply` again, with the reads they make. The
memory is the byte string that was presented as a frame; a decoded frame refers to it by the addresses of its
two sections (`FrameRef`). Lengths and counts come from the bytes themselves and may carry valid checksums,
so nothing is assumed about them. Sizes are 64 bits wide; `12 + length` and the sum of the header length and
`dictionary_bytes` are computed in 32 bits.

* **Inspecting** reads the eighty bytes it has asked for first (`frameInspectAt_eq`).
* **Decoding** reads inside because `frame_sizes` has bounded every length before, and because a definition
  is compared with what is left of its section (`definitionsValidAt_eq`, `timesLoopAt_eq`,
  `frameDecodeAt_eq`).
* **Applying** a section and **reading rows** rely on what decoding has checked (`dictionaryApplyAt_eq`, and
  `validateRowAt_eq` for rows).

`decoders_in_bounds` puts them together for every byte string.
-/

namespace WebAnalyticsDb

open Bytes
open Option (bind_eq_bind bind_some)

/-! ### Inspecting -/

/-- A checksum of the first `n` bytes, compared with the number at an address. -/
def checksumAt (p : Bytes) (n a : ℕ) : Option Bool := do
  let body ← peekRange p 0 n
  let sum ← peekLE 4 p a
  some (crc32c body == sum)

/-- The values found in a frame header. -/
def frameFieldsAt (p : Bytes) : Option FrameHeader := do
  let rowCount ← peekLE 4 p 16
  let rowWidth ← peekLE 4 p 20
  let firstSequence ← peekLE 8 p 24
  let minTime ← peekLE 8 p 32
  let maxTime ← peekLE 8 p 40
  let dictionaryBytes ← peekLE 4 p 48
  let dictionaryCount ← peekLE 4 p 52
  let schemaHash ← peekLE 8 p 64
  some {
    schemaHash, firstSequence, rowCount, rowWidth, dictionaryCount, dictionaryBytes
    minTime := i64OfBits minTime
    maxTime := i64OfBits maxTime }

/-- `wadb_frame_inspect`. -/
def frameInspectAt (p : Bytes) : Option (Except Error (FrameHeader × ℕ)) := do
  let valid ← checks [some (frameHeaderBytes ≤ p.length), (peekRange p 0 8).map (· == frameMagic),
    (peekLE 4 p 12).map (· == frameHeaderBytes), checksumAt p 72 72, peekZero p 60 4, peekZero p 76 4]
  if valid then
    let f ← frameFieldsAt p
    let rowsOffset ← peekLE 4 p 56
    let frameBytes ← peekLE 4 p 8
    match frameSizes f with
    | none => some (.error ⟨.corrupt, "invalid frame lengths or ranges"⟩)
    | some total =>
      if total ≠ frameBytes ∨ rowsOffset ≠ u32 (frameHeaderBytes + f.dictionaryBytes) then
        some (.error ⟨.corrupt, "invalid frame lengths or ranges"⟩)
      else some (.ok (f, total))
  else some (.error ⟨.corrupt, "invalid frame header or checksum"⟩)

theorem checksumAt_eq {p : Bytes} {n a : ℕ} (hn : n ≤ p.length) (ha : a + 4 ≤ p.length) :
    checksumAt p n a = some (crc32c (slice p 0 n) == getLE 4 p a) := by
  rw [checksumAt, peekRange_eq (by omega), peekLE_eq ha]
  rfl

theorem frameFieldsAt_eq {p : Bytes} (h : frameHeaderBytes ≤ p.length) :
    frameFieldsAt p = some (frameFields p) := by
  unfold frameHeaderBytes at h
  unfold frameFieldsAt
  rw [peekLE_eq (by omega), peekLE_eq (by omega), peekLE_eq (by omega), peekLE_eq (by omega),
    peekLE_eq (by omega), peekLE_eq (by omega), peekLE_eq (by omega), peekLE_eq (by omega)]
  rfl

/-- **Inspecting reads inside.** -/
theorem frameInspectAt_eq (p : Bytes) : frameInspectAt p = some (frameInspect p) := by
  unfold frameInspectAt frameInspect
  by_cases hlen : p.length < frameHeaderBytes
  · rw [if_pos (.inl hlen), decide_eq_false (not_le.2 hlen)]
    rfl
  have hle := not_lt.1 hlen
  have h80 : 80 ≤ p.length := hle
  rw [peekRange_eq (by omega), peekLE_eq (by omega), checksumAt_eq (by omega) (by omega),
    peekZero_eq (by omega), peekZero_eq (by omega), peekLE_eq (by omega), peekLE_eq (by omega),
    frameFieldsAt_eq hle]
  simp only [Option.map_some, checks_some]
  rw [checks_singleton]
  simp only [bind_eq_bind, bind_some]
  split
  next hvalid =>
    simp only [Bool.and_eq_true, decide_eq_true_eq, beq_iff_eq] at hvalid
    obtain ⟨⟨⟨⟨⟨-, hmagic⟩, hsize⟩, hcrc⟩, hpad⟩, hpad'⟩ := hvalid
    rw [if_neg (by simp [hlen, hmagic, hsize, hcrc, hpad, hpad'])]
    rcases hsizes : frameSizes (frameFields p) with _ | total
    · rfl
    · have hdict := (frameSizes_eq_some.1 hsizes).dictionaryBytes.2
      unfold maxFrameBytes at hdict
      dsimp only
      rw [u32_of_lt (by unfold frameHeaderBytes; omega)]
      split <;> rfl
  next hinvalid =>
    rw [if_pos]
    simp only [Bool.and_eq_true, decide_eq_true_eq, beq_iff_eq, not_and_or, Bool.not_eq_true] at hinvalid
    tauto

/-! ### Decoding -/

/-- `wadb_frame` as `wadb_frame_decode` fills it: the header and the addresses of the two sections.
`rows_offset` is the number it was compared with. -/
structure FrameRef where
  header : FrameHeader
  dictionary : ℕ
  rows : ℕ
deriving DecidableEq, Repr

/-- The loop of `dictionary_valid` over `n` definitions of a section of `bytes` bytes at `base`. -/
def definitionsValidAt (p : Bytes) (base bytes : ℕ) : ℕ → ℕ → Option Bool
  | 0, offset => checks [some (u64Sub bytes offset < 8),
      if bytes = 0 then some true else peekZero p (base + offset) (u64Sub bytes offset)]
  | n + 1, offset =>
    if u64Sub bytes offset < 12 then some false
    else do
      let a := base + offset
      let length ← peekLE 4 p (a + 8)
      let valid ← checks [(peekLE 2 p a).map (· != 0), (peekLE 2 p a).map (· < maxFields),
        (peekLE 2 p (a + 2)).map (· == 0), (peekLE 4 p (a + 4)).map (· != 0),
        some (length ≤ maxStringBytes), some (length ≤ u64Sub (u64Sub bytes offset) 12),
        utf8At p (a + 12) length]
      if valid then definitionsValidAt p base bytes n (u64 (offset + u32 (12 + length))) else some false

/-- `dictionary_valid`. -/
def dictionaryValidAt (p : Bytes) (f : FrameRef) : Option Bool :=
  definitionsValidAt p f.dictionary f.header.dictionaryBytes f.header.dictionaryCount 0

/-- The loop of `times_valid` over the `n` rows from row `i` on. -/
def timesLoopAt (p : Bytes) (rows : ℕ) (minTime maxTime : ℤ) (width : ℕ) : ℕ → ℕ → ℤ → Option Bool
  | 0, _, previous => some (previous == maxTime)
  | n + 1, i, previous => do
    let bits ← peekLE 8 p (rows + u64 (i * width))
    let time := i64OfBits bits
    if time < previous ∨ time > maxTime ∨ (i = 0 ∧ time ≠ minTime) then some false
    else timesLoopAt p rows minTime maxTime width n (u32 (i + 1)) time

/-- `times_valid`. -/
def timesValidAt (p : Bytes) (f : FrameRef) : Option Bool :=
  timesLoopAt p f.rows f.header.minTime f.header.maxTime f.header.rowWidth f.header.rowCount 0
    f.header.minTime

/-- `wadb_frame_decode`. -/
def frameDecodeAt (p : Bytes) : Option (Except Error FrameRef) := do
  match ← frameInspectAt p with
  | .error e => some (.error e)
  | .ok (h, frameBytes) =>
    let n := p.length
    let complete ← checks [some (n == frameBytes),
      (peekRange p (u64Sub n frameTrailerBytes) 8).map (· == frameEndMagic),
      (peekLE 4 p (u64Sub n 8)).map (· == n), checksumAt p (u64Sub n 4) (u64Sub n 4)]
    if complete then
      let f : FrameRef := ⟨h, frameHeaderBytes, u32 (frameHeaderBytes + h.dictionaryBytes)⟩
      let valid ← checks [dictionaryValidAt p f, timesValidAt p f]
      if valid then some (.ok f)
      else some (.error ⟨.corrupt, "invalid dictionary or unordered frame rows"⟩)
    else some (.error ⟨.corrupt, "frame is incomplete or checksum mismatches"⟩)

/-- A decoded frame, by the addresses of its sections. -/
def Frame.ref (f : Frame) : FrameRef :=
  ⟨f.header, frameHeaderBytes, frameHeaderBytes + f.dictionary.length⟩

section Decode

variable {p : Bytes} {base bytes : ℕ}

/-- **A section of definitions is read inside.** The check of a definition has left its string in the
section, so that the next offset is at most the end. -/
theorem definitionsValidAt_eq (hbytes : bytes < 2 ^ 32) (hp : base + bytes ≤ p.length) (n : ℕ) {offset : ℕ}
    (hoffset : offset ≤ bytes) : definitionsValidAt p base bytes n offset =
      some (dictionaryValid n (slice p (base + offset) (bytes - offset))) := by
  have hsub {o : ℕ} (ho : o ≤ bytes) : u64Sub bytes o = bytes - o := u64Sub_of_le (by omega) ho
  have hlen {o : ℕ} (ho : o ≤ bytes) : (slice p (base + o) (bytes - o)).length = bytes - o :=
    length_slice_of_le (by omega)
  induction n generalizing offset with
  | zero =>
    rw [definitionsValidAt, dictionaryValid, hsub hoffset, hlen hoffset, peekZero_eq (by omega)]
    by_cases hzero : bytes = 0
    · obtain rfl : offset = 0 := by omega
      simp [hzero, slice, isZero]
    · rw [if_neg hzero, checks_some, checks_singleton]
  | succ n ih =>
    rw [definitionsValidAt, dictionaryValid, hsub hoffset, hlen hoffset]
    split
    · rfl
    next hroom =>
      have hlt := getLE_lt 4 p (base + offset + 8)
      dsimp only
      rw [getLE_slice (by omega), getLE_slice (by omega), getLE_slice (by omega), getLE_slice (by omega),
        add_zero, peekLE_eq (by omega), peekLE_eq (by omega), peekLE_eq (by omega),
        peekLE_eq (by omega), u64Sub_of_le (by omega) (by omega)]
      simp only [bind_eq_bind, bind_some, Option.map_some, checks_some]
      generalize getLE 4 p (base + offset + 8) = length at hlt ⊢
      rw [checks_cons]
      split
      next hfits =>
        simp only [Bool.and_eq_true, decide_eq_true_eq, bne_iff_ne, beq_iff_eq] at hfits
        obtain ⟨⟨⟨⟨⟨hfield, hmax⟩, hreserved⟩, hid⟩, hstring⟩, hrest⟩ := hfits
        rw [utf8At_eq (by omega) (by omega), checks_singleton, bind_some, slice_slice (by omega)]
        cases hutf : utf8 (slice p (base + offset + 12) length) with
        | false => simp
        | true =>
          rw [if_pos rfl, if_neg (by simp [hfield, hreserved, hid]; omega), u32_of_lt (by omega),
            u64_of_lt (by omega), ih (by omega), drop_slice, Nat.sub_sub, Nat.add_assoc]
      next hfits =>
        rw [bind_some, if_neg Bool.false_ne_true, if_pos]
        simp only [Bool.and_eq_true, decide_eq_true_eq, bne_iff_ne, beq_iff_eq, not_and_or, not_not, not_lt,
          not_le] at hfits
        tauto

/-- **The times of the rows are read inside.** -/
theorem timesLoopAt_eq {rows size width : ℕ} (hwidth : 8 ≤ width) (hsize : size < 2 ^ 32)
    (hp : rows + size ≤ p.length) (minTime maxTime : ℤ) (n : ℕ) {i : ℕ} (h : (i + n) * width ≤ size)
    (previous : ℤ) : timesLoopAt p rows minTime maxTime width n i previous =
      some (timesLoop minTime maxTime width n (i == 0) previous
        (slice p (rows + i * width) (size - i * width))) := by
  induction n generalizing i previous with
  | zero => rfl
  | succ n ih =>
    have hend : (i + (n + 1)) * width = i * width + (n * width + width) := by ring
    have hnext : (i + 1) * width = i * width + width := by ring
    have hi : i ≤ i * width := Nat.le_mul_of_pos_right i (by omega)
    rw [timesLoopAt, timesLoop, u64_of_lt (by omega), peekLE_eq (by omega), u32_of_lt (by omega), getI64,
      getLE_slice (by omega)]
    simp only [bind_eq_bind, bind_some, beq_iff_eq, add_zero]
    split
    · rfl
    · rw [ih (by rw [show i + 1 + n = i + (n + 1) by omega]; exact h), drop_slice, hnext, Nat.sub_sub,
        Nat.add_assoc]
      rfl

/-- **Decoding reads inside.** -/
theorem frameDecodeAt_eq (p : Bytes) : frameDecodeAt p = some ((frameDecode p).map Frame.ref) := by
  unfold frameDecodeAt frameDecode
  rw [frameInspectAt_eq]
  simp only [bind_eq_bind, bind_some]
  cases hinspect : frameInspect p with
  | error e => rfl
  | ok x =>
    obtain ⟨h, total⟩ := x
    have hsized := (frameInspect_eq_ok hinspect).2.1
    dsimp only
    by_cases htotal : p.length ≠ total
    · rw [if_pos (.inl htotal), beq_eq_false_iff_ne.2 htotal]
      rfl
    obtain rfl : p.length = total := not_not.1 htotal
    have hmax := hsized.total_le
    have hbytes := hsized.total_eq
    obtain ⟨hpos, -, hmod⟩ := hsized.rowWidth
    unfold maxFrameBytes at hmax
    have hhb : frameHeaderBytes = 80 := rfl
    have htb : frameTrailerBytes = 16 := rfl
    rw [u64Sub_of_le (by omega) (by omega), u64Sub_of_le (by omega) (by omega),
      u64Sub_of_le (by omega) (by omega), peekRange_eq (by omega), peekLE_eq (by omega),
      checksumAt_eq (by omega) (by omega)]
    simp only [Option.map_some, checks_some]
    rw [checks_singleton, bind_some]
    split
    next hcomplete =>
      simp only [Bool.and_eq_true, beq_iff_eq] at hcomplete
      obtain ⟨⟨⟨-, hend⟩, hcount⟩, hcrc⟩ := hcomplete
      rw [if_neg (by simp [hend, hcount, hcrc]), u32_of_lt (by omega)]
      have hdict : dictionaryValidAt p ⟨h, frameHeaderBytes, frameHeaderBytes + h.dictionaryBytes⟩ =
          some (dictionaryValid h.dictionaryCount (h.withSections p).dictionary) :=
        @definitionsValidAt_eq p frameHeaderBytes h.dictionaryBytes (by omega) (by omega) _ 0
          zero_le
      have htimes : timesValidAt p ⟨h, frameHeaderBytes, frameHeaderBytes + h.dictionaryBytes⟩ =
          some (timesValid (h.withSections p)) := by
        have hloop := @timesLoopAt_eq p (frameHeaderBytes + h.dictionaryBytes) (h.rowCount * h.rowWidth)
          h.rowWidth (by omega) (by omega) (by omega) h.minTime h.maxTime h.rowCount 0
          (by rw [zero_add]) h.minTime
        rw [zero_mul, add_zero, Nat.sub_zero] at hloop
        exact hloop
      rw [hdict, htimes, checks_some, checks_singleton, bind_some]
      split
      · have hlen : (h.withSections p).dictionary.length = h.dictionaryBytes :=
          length_slice_of_le (by omega)
        have href : (h.withSections p).ref =
            ⟨h, frameHeaderBytes, frameHeaderBytes + h.dictionaryBytes⟩ := by
          unfold Frame.ref Frame.header
          rw [hlen]
          rfl
        rw [Except.map, href]
      · rfl
    next hincomplete =>
      rw [if_pos]
      · rfl
      · simp only [Bool.and_eq_true, beq_iff_eq, not_and_or] at hincomplete
        tauto

end Decode

/-! ### Applying a section of definitions -/

/-- The loop of `wadb_dictionary_apply` over `n` definitions of a section of `bytes` bytes at `base`: the
offset behind them. `wadb_dictionary_intern` gets the string by its address and reads all of it. -/
def applyLoopAt (p : Bytes) (base bytes : ℕ) : ℕ → ℕ → Io Dictionary ℕ
  | 0, offset => pure offset
  | n + 1, offset => do
    let d ← Prog.get
    Prog.ensure (offset ≤ bytes && 12 ≤ u64Sub bytes offset) definitionError
    let a := base + offset
    let field ← Prog.reading (peekLE 2 p a)
    let id ← Prog.reading (peekLE 4 p (a + 4))
    let length ← Prog.reading (peekLE 4 p (a + 8))
    Prog.ensure (field ≠ 0 && field < d.schema.fieldCount && d.schema.isSymbol field &&
      id = (d.column field).indices.length + 1) definitionError
    let reserved ← Prog.reading (peekLE 2 p (a + 2))
    Prog.ensure (reserved = 0 && length ≤ u64Sub (u64Sub bytes offset) 12) definitionError
    let data ← Prog.reading (peekRange p (a + 12) length)
    match ← Prog.attempt (dictionaryIntern field data) with
    | .error e => Prog.fail (if e.code = .invalid then definitionError else e)
    | .ok assigned =>
      let d' ← Prog.get
      Prog.ensure (assigned = id && d'.count = d.count + 1) definitionError
      applyLoopAt p base bytes n (u64 (offset + u32 (12 + length)))

/-- `wadb_dictionary_apply` of the section of a frame. -/
def dictionaryApplyAt (p : Bytes) (f : FrameRef) : Io Dictionary Unit := do
  let d ← Prog.get
  let bytes := f.header.dictionaryBytes
  match ← Prog.attempt (applyLoopAt p f.dictionary bytes f.header.dictionaryCount 0) with
  | .error e =>
    Prog.modify (·.rollback d.count)
    Prog.fail e
  | .ok offset =>
    let clear ← Prog.reading (checks [some (bytes % 8 == 0), some (offset ≤ bytes),
      some (u64Sub bytes offset < 8), peekZero p (f.dictionary + offset) (bytes - offset)])
    if clear then pure ()
    else
      Prog.modify (·.rollback d.count)
      Prog.fail definitionError

section Apply

variable {p : Bytes} {base bytes : ℕ}

/-- **Definitions are applied as they were decoded**, and read inside. -/
theorem applyLoop_eq (hbytes : bytes < 2 ^ 32) (hp : base + bytes ≤ p.length) (n : ℕ) {offset : ℕ}
    (hoffset : offset ≤ bytes) : applyLoop n (slice p (base + offset) (bytes - offset)) =
      (fun o ↦ slice p (base + o) (bytes - o)) <$> applyLoopAt p base bytes n offset := by
  induction n generalizing offset with
  | zero => rw [applyLoop, applyLoopAt, map_pure]
  | succ n ih =>
    have hlen : (slice p (base + offset) (bytes - offset)).length = bytes - offset :=
      length_slice_of_le (by omega)
    rw [applyLoop, applyLoopAt, map_bind]
    refine bind_congr fun d ↦ ?_
    rw [hlen, u64Sub_of_le (by omega) hoffset, decide_eq_true hoffset, Bool.true_and]
    by_cases hroom : 12 ≤ bytes - offset
    swap
    · simp only [decide_eq_false hroom, Bool.false_and, Prog.ensure_false, Prog.fail_bind, Prog.map_fail]
    have hlt := getLE_lt 4 p (base + offset + 8)
    have hpeek {w off : ℕ} (h : off + w ≤ 12) :
        peekLE w p (base + offset + off) = some (getLE w p (base + offset + off)) := peekLE_eq (by omega)
    have hget {w off : ℕ} (h : off + w ≤ 12) : getLE w (slice p (base + offset) (bytes - offset)) off =
        getLE w p (base + offset + off) := getLE_slice (by omega)
    have hfield := @hpeek 2 0 (by decide)
    rw [add_zero] at hfield
    simp only [@hget 2 0 (by decide), @hget 4 4 (by decide), @hget 4 8 (by decide), @hget 2 2 (by decide),
      hfield, @hpeek 4 4 (by decide), @hpeek 4 8 (by decide), @hpeek 2 2 (by decide),
      decide_eq_true hroom, add_zero, Prog.reading_some, Prog.ensure_true, pure_bind, Bool.true_and,
      u64Sub_of_le (by omega : bytes - offset < 2 ^ 64) hroom]
    generalize getLE 4 p (base + offset + 8) = length at hlt ⊢
    generalize getLE 4 p (base + offset + 4) = id
    generalize getLE 2 p (base + offset) = field
    generalize getLE 2 p (base + offset + 2) = reserved
    -- the code checks the reserved bytes and the length after the column
    rw [Bool.and_assoc]
    generalize (decide (field ≠ 0) && decide (field < d.schema.fieldCount) && d.schema.isSymbol field &&
      decide (id = (d.column field).indices.length + 1)) = known
    cases known with
    | false => simp only [Bool.false_and, Prog.ensure_false, Prog.fail_bind, Prog.map_fail]
    | true =>
      simp only [Bool.true_and, Prog.ensure_true, pure_bind]
      cases hfits : (decide (reserved = 0) && decide (length ≤ bytes - offset - 12)) with
      | false => simp only [Prog.ensure_false, Prog.fail_bind, Prog.map_fail]
      | true =>
        obtain ⟨-, hle⟩ := Bool.and_eq_true_iff.1 hfits
        rw [decide_eq_true_eq] at hle
        rw [peekRange_eq (by omega), slice_slice (by omega)]
        simp only [Prog.ensure_true, pure_bind, Prog.reading_some, map_bind]
        refine bind_congr fun r ↦ ?_
        cases r with
        | error e => rfl
        | ok assigned =>
          simp only [map_bind]
          refine bind_congr fun d' ↦ bind_congr fun _ ↦ ?_
          rw [drop_slice, u32_of_lt (by omega), u64_of_lt (by omega), ← ih (by omega), Nat.sub_sub,
            Nat.add_assoc]

/-- The loop stays in its section. -/
theorem yields_applyLoopAt (hbytes : bytes < 2 ^ 32) (n : ℕ) {offset : ℕ} (hoffset : offset ≤ bytes) :
    (applyLoopAt p base bytes n offset).Yields fun o ↦ o ≤ bytes := by
  induction n generalizing offset with
  | zero => exact .pure hoffset
  | succ n ih =>
    rw [applyLoopAt]
    refine .after fun d ↦ .bind (.ensure _ _) fun _ hroom ↦ .after fun field ↦ .after fun id ↦
      .after fun length ↦ .after fun _ ↦ .after fun reserved ↦ .bind (.ensure _ _) fun _ hfits ↦
      .after fun data ↦ .after fun r ↦ ?_
    cases r with
    | error e => exact .fail _
    | ok assigned =>
      refine .after fun d' ↦ .after fun _ ↦ ih ?_
      simp only [Bool.and_eq_true, decide_eq_true_eq] at hroom hfits
      rw [u64Sub_of_le (by omega) hoffset] at hroom hfits
      rw [u64Sub_of_le (by omega) hroom.2] at hfits
      have hwrap : u64 (offset + u32 (12 + length)) ≤ offset + u32 (12 + length) := Nat.mod_le _ _
      have hwrap' : u32 (12 + length) ≤ 12 + length := Nat.mod_le _ _
      omega

/-- **Applying reads inside.** -/
theorem dictionaryApplyAt_eq {f : FrameRef} (hbytes : f.header.dictionaryBytes < 2 ^ 32)
    (hp : f.dictionary + f.header.dictionaryBytes ≤ p.length) : dictionaryApplyAt p f =
      dictionaryApply (slice p f.dictionary f.header.dictionaryBytes) f.header.dictionaryCount := by
  have hloop := applyLoop_eq hbytes hp f.header.dictionaryCount zero_le
  rw [add_zero, Nat.sub_zero] at hloop
  unfold dictionaryApplyAt dictionaryApply
  refine bind_congr fun d ↦ ?_
  rw [hloop, Prog.attempt_map, bind_map_left]
  refine (yields_applyLoopAt hbytes _ zero_le).attempt.bind_congr fun r hr ↦ ?_
  cases r with
  | error e => rfl
  | ok offset =>
    have hoffset := hr offset rfl
    dsimp only [Except.map]
    rw [u64Sub_of_le (by omega) hoffset, peekZero_eq (by omega), checks_some, checks_some, checks_some,
      checks_singleton, Prog.reading_some, pure_bind, length_slice_of_le hp, length_slice_of_le (by omega)]
    simp only [hoffset, decide_true, Bool.and_true]
    rfl

end Apply

/-! ### Every byte string -/

/-- Where the sections of a frame are in its bytes. -/
theorem Frame.slice_image (f : Frame) (total : ℕ) :
    slice (f.image total) frameHeaderBytes f.dictionary.length = f.dictionary ∧
      slice (f.image total) (frameHeaderBytes + f.dictionary.length) f.rows.length = f.rows := by
  have hheader := f.header.length_image total
  have himage : f.image total = f.header.image total ++ (f.dictionary ++ (f.rows ++
      (frameEndMagic ++ (ofNatLE 4 total ++ ofNatLE 4 (crc32c (f.body total)))))) := by
    simp only [Frame.image, Frame.body, List.append_assoc]
  refine ⟨?_, ?_⟩
  · rw [himage]
    exact slice_append_mid hheader.symm rfl
  · rw [himage, ← List.append_assoc]
    exact slice_append_mid (by rw [List.length_append, hheader]; rfl) rfl

/-- **The decoders stay inside any byte string.** Inspecting and decoding are defined and answer. For what was
decoded, applying the section of definitions to any dictionary ends with a status, and so does reading and
validating any row under any compiled schema of that row width. -/
theorem decoders_in_bounds (p : Bytes) :
    frameInspectAt p = some (frameInspect p) ∧
    frameDecodeAt p = some ((frameDecode p).map Frame.ref) ∧
    ∀ f, frameDecode p = .ok f →
      (∀ s limit d, (dictionaryMachine (Dictionary.Created s limit)).Reach d → ∀ env fs n,
        (dictionaryApplyAt p f.ref env ⟨fs, n, d⟩).1 ≠ .killed ∧
        dictionaryApplyAt p f.ref env ⟨fs, n, d⟩ =
          dictionaryApply f.dictionary f.dictionaryCount env ⟨fs, n, d⟩) ∧
      ∀ defs s, schemaBuild defs = .ok s → f.rowWidth = s.rowWidth → ∀ i < f.rowCount, ∀ resolve,
        validateRowAt s p (f.ref.rows + u64 (i * f.rowWidth)) resolve =
          some (validateRow s (slice f.rows (i * f.rowWidth) f.rowWidth) resolve) ∧
        ∀ index, decodeValueAt s index p (f.ref.rows + u64 (i * f.rowWidth)) resolve =
          some (decodeValue s index (slice f.rows (i * f.rowWidth) f.rowWidth) resolve) := by
  refine ⟨frameInspectAt_eq p, frameDecodeAt_eq p, fun f hf ↦ ?_⟩
  obtain ⟨htyped, hsized, -, -, himage⟩ := frameDecode_eq_ok hf
  obtain ⟨hdict, hrows⟩ := f.slice_image p.length
  rw [← himage] at hdict hrows
  have hmax := hsized.total_le
  have htotal : p.length = f.rowCount * f.rowWidth + f.dictionary.length + 96 := hsized.total_eq
  have hhb : frameHeaderBytes = 80 := rfl
  have hsize := htyped.rows
  unfold maxFrameBytes at hmax
  refine ⟨fun s limit d hd env fs n ↦ ?_, fun defs s hbuild hwidth i hi resolve ↦ ?_⟩
  · have happly : dictionaryApplyAt p f.ref = dictionaryApply f.dictionary f.dictionaryCount := by
      have heq := @dictionaryApplyAt_eq p f.ref (show f.dictionary.length < 2 ^ 32 by omega)
        (show frameHeaderBytes + f.dictionary.length ≤ p.length by omega)
      have hsection : slice p f.ref.dictionary f.ref.header.dictionaryBytes = f.dictionary := hdict
      rwa [hsection] at heq
    rw [happly]
    obtain ⟨S, hS⟩ := Dictionary.sound_of_reach hd
    have hwp : wp (dictionaryApply f.dictionary f.dictionaryCount) env _ ⟨fs, n, d⟩ :=
      wp_dictionaryApply_any hS f.dictionary f.dictionaryCount
    refine ⟨fun hkilled ↦ ?_, rfl⟩
    unfold wp at hwp
    rw [hkilled] at hwp
    exact hwp.2.2
  · have hlayout := schemaBuild_layout hbuild
    have hend : i * f.rowWidth + f.rowWidth ≤ f.rowCount * f.rowWidth := by
      rw [← Nat.succ_mul]
      exact Nat.mul_le_mul_right _ hi
    have hinside : f.ref.rows + i * f.rowWidth + s.rowWidth ≤ p.length := by
      rw [← hwidth]
      show frameHeaderBytes + f.dictionary.length + i * f.rowWidth + f.rowWidth ≤ p.length
      omega
    have hrow : slice f.rows (i * f.rowWidth) f.rowWidth =
        slice p (f.ref.rows + i * f.rowWidth) s.rowWidth := by
      rw [← hwidth, ← hrows, slice_slice (by omega)]
      rfl
    rw [u64_of_lt (by omega), hrow]
    exact ⟨validateRowAt_eq hlayout hinside, fun index ↦ decodeValueAt_eq hlayout hinside index⟩

/-- The frame of one row, a schema without fields, and a dictionary with one symbol. -/
theorem decoders_in_bounds_oneRow :
    frameDecodeAt (oneRowFrame.image 104) = some (.ok oneRowFrame.ref) ∧
    (dictionaryApplyAt (oneRowFrame.image 104) oneRowFrame.ref (.still Path Dir)
      ⟨fun _ ↦ none, 0, onePageDefined⟩).1 ≠ .killed ∧
    ∃ s r, schemaBuild [] = .ok s ∧ validateRowAt s (oneRowFrame.image 104) 80 none = some r := by
  have hdecode : frameDecode (oneRowFrame.image 104) = .ok oneRowFrame := by decide +kernel
  obtain ⟨-, hat, hall⟩ := decoders_in_bounds (oneRowFrame.image 104)
  obtain ⟨happly, hrows⟩ := hall oneRowFrame hdecode
  refine ⟨by rw [hat, hdecode]; rfl, (happly onePage 1024 onePageDefined ?_ _ _ _).1, ?_⟩
  · refine Machine.Reach.step (.init ⟨.still Path Dir, fun _ ↦ none, 0, rfl⟩) (.intern 1 [104]) ?_
    exact ⟨.still Path Dir, fun _ ↦ none, 0, rfl⟩
  · obtain ⟨s, hs⟩ : ∃ s, schemaBuild [] = .ok s := ⟨_, rfl⟩
    have hwidth : oneRowFrame.rowWidth = s.rowWidth := by
      cases hs
      rfl
    exact ⟨s, _, hs, (hrows [] s hs hwidth 0 (by decide) none).1⟩

end WebAnalyticsDb
