import WebAnalyticsDb.Storage.Commit

/-!
# The frame of a group

What a committed group looks like in the file is a function of three things: the symbols its segment
has defined before, the sequence number it starts at, and the requests. `groupFrame` is that function.
It is the bridge between the abstract log, which knows groups, and the bytes: the writer builds exactly
this frame (`wp_prepareFrame` in `Ledger/Causes`), and `FrameOk` collects what the writer has checked,
which is all that the readers rely on.
-/

namespace WebAnalyticsDb

open Bytes List

variable {c : Config}

/-! ### Rows and symbols of a group -/

/-- A group of requests, committed in one frame. -/
abbrev Group (c : Config) : Type := List (AppendRequest c)

/-- The symbols among the values of a row, from field number `index` on. -/
def rowSymbols : ℕ → List Field → List Value → Symbols
  | index, f :: fs, v :: vs =>
    if f.type = .symbol32 ∧ v.isNull = false then (index, v.bytes) :: rowSymbols (index + 1) fs vs
    else rowSymbols (index + 1) fs vs
  | _, _, _ => []

/-- Define symbols one after the other. -/
def Symbols.defineAll (S : Symbols) (xs : List (ℕ × Bytes)) : Symbols :=
  xs.foldl Symbols.define S

/-- The symbols of a group, in the order in which the writer meets them. -/
def groupSymbols (g : Group c) : Symbols :=
  (groupRows g).flatMap fun x ↦ rowSymbols 1 c.schema.userFields x.1

/-- The symbols defined after a group was committed. -/
def symbolsAfter (S : Symbols) (g : Group c) : Symbols :=
  S.defineAll (groupSymbols g)

/-- The number of rows of a group. -/
def groupCount (g : Group c) : ℕ := (groupRows g).length

/-- The rows of a group as they are stored when `T` defines its symbols. -/
def storedRows (T : Symbols) (g : Group c) : List Bytes :=
  (groupRows g).map fun x ↦ putSymbols T.encode 1 c.schema.userFields x.1 x.2

/-- The time of the first request. -/
def groupMin (g : Group c) : ℤ := (g.head?.map (·.ingestionTime)).getD 0

/-- The time of the last request. -/
def groupMax (g : Group c) : ℤ := (g.getLast?.map (·.ingestionTime)).getD 0

/-- **The frame of a group** that starts at sequence number `first`, `S` being defined. -/
def groupFrame (S : Symbols) (first : ℕ) (g : Group c) : Frame where
  schemaHash := c.schema.fingerprint
  firstSequence := first
  minTime := groupMin g
  maxTime := groupMax g
  rowCount := groupCount g
  rowWidth := c.schema.rowWidth
  dictionaryCount := (symbolsAfter S g).length - S.length
  dictionary := definitions S ((symbolsAfter S g).drop S.length)
  rows := (storedRows (symbolsAfter S g) g).flatten

/-- The length of a frame. -/
def Frame.size (f : Frame) : ℕ := f.rows.length + f.dictionary.length + 96

/-- The bytes of a frame. -/
def Frame.bytes (f : Frame) : Bytes := f.image f.size

@[simp] theorem Frame.length_bytes (f : Frame) : f.bytes.length = f.size := f.length_image _

/-! ### Defining symbols -/

namespace Symbols

variable {S : Symbols}

theorem defineAll_append (S : Symbols) (xs ys : List (ℕ × Bytes)) :
    S.defineAll (xs ++ ys) = (S.defineAll xs).defineAll ys :=
  foldl_append

theorem prefix_defineAll (S : Symbols) (xs : List (ℕ × Bytes)) : S <+: S.defineAll xs := by
  induction xs generalizing S with
  | nil => exact prefix_refl S
  | cons x xs ih => exact (prefix_define S x).trans (ih (S.define x))

theorem mem_defineAll {x : ℕ × Bytes} {xs : List (ℕ × Bytes)} (h : x ∈ xs) : x ∈ S.defineAll xs := by
  induction xs generalizing S with
  | nil => cases h
  | cons y xs ih =>
    rcases mem_cons.1 h with rfl | h
    · exact (prefix_defineAll _ xs).subset (mem_define S x)
    · exact ih h

end Symbols

theorem symbolsAfter_eq (S : Symbols) (g : Group c) :
    symbolsAfter S g = S ++ (symbolsAfter S g).drop S.length := by
  obtain ⟨T, hT⟩ := Symbols.prefix_defineAll S (groupSymbols g)
  rw [symbolsAfter, ← hT, drop_left]

/-! ### The totals of a group -/

theorem length_stamped (r : AppendRequest c) : r.stamped.length = r.rowCount := by
  rw [AppendRequest.stamped, length_map, r.length_rows]

theorem length_requestRows (r : AppendRequest c) : (r.values.zip r.stamped).length = r.rowCount := by
  rw [length_zip, length_stamped, AppendRequest.rowCount, min_self]

theorem groupCount_cons (r : AppendRequest c) (g : Group c) :
    groupCount (r :: g) = r.rowCount + groupCount g := by
  rw [groupCount, groupRows, flatMap_cons, length_append, length_requestRows]
  rfl

variable {g : Group c} {values : List Value} {T : Symbols}

theorem groupTotals_eq {total : ℕ × ℕ} {n b : ℕ} (h : groupTotals total g = some (n, b)) :
    n = total.1 + groupCount g ∧ b = total.2 + groupCount g * c.schema.rowWidth := by
  induction g generalizing total with
  | nil =>
    cases h
    exact ⟨rfl, by simp [groupCount, groupRows]⟩
  | cons r g ih =>
    obtain ⟨rows, bytes⟩ := total
    unfold groupTotals at h
    split at h
    next rows' bytes' hrows hbytes =>
      obtain ⟨h1, h2⟩ := ih h
      unfold addSize at hrows hbytes
      split at hrows <;> cases hrows
      split at hbytes <;> cases hbytes
      rw [groupCount_cons, h1, h2, add_mul]
      exact ⟨by simp only; omega, by simp only [AppendRequest.rowBytes]; omega⟩
    next => cases h

/-! ### Rows of a committed group -/

/-- A row of the table: its timestamp and the client's values. -/
structure Record where
  time : ℤ
  values : List Value
deriving DecidableEq, Repr

/-- The rows of a request. -/
def AppendRequest.records (r : AppendRequest c) : List Record :=
  r.values.map (⟨r.ingestionTime, ·⟩)

/-- The rows of a group. -/
def groupRecords (g : Group c) : List Record := g.flatMap AppendRequest.records

theorem length_groupRecords (g : Group c) : (groupRecords g).length = groupCount g := by
  induction g with
  | nil => rfl
  | cons r g ih =>
    rw [groupRecords, flatMap_cons, length_append, groupCount_cons,
      AppendRequest.records, length_map]
    exact congrArg _ ih

theorem mem_rowSymbols {index i : ℕ} {fields : List Field} {f : Field}
    {v : Value} (hf : fields[i]? = some f) (hv : values[i]? = some v) (htype : f.type = .symbol32)
    (hnull : v.isNull = false) : (index + i, v.bytes) ∈ rowSymbols index fields values := by
  induction fields generalizing index i values with
  | nil => simp at hf
  | cons g fields ih =>
    cases values with
    | nil => simp at hv
    | cons w values =>
      cases i with
      | zero =>
        cases hf
        cases hv
        rw [rowSymbols, if_pos ⟨htype, hnull⟩]
        exact mem_cons_self ..
      | succ i =>
        have hmem : (index + 1 + i, v.bytes) ∈ rowSymbols (index + 1) fields values := ih hf hv
        rw [Nat.add_right_comm, add_assoc] at hmem
        rw [rowSymbols]
        split
        · exact mem_cons_of_mem _ hmem
        · exact hmem

/-- The symbols of the rows are among those of `T`. -/
def Covers (c : Config) (T : Symbols) (values : List Value) : Prop :=
  ∀ x ∈ rowSymbols 1 c.schema.userFields values, x ∈ T

theorem Covers.knows (h : Covers c T values) : Knows T.encode 1 c.schema.userFields values := by
  intro i f v hf hv htype hnull
  exact ⟨_, Symbols.encode_of_mem (h _ (mem_rowSymbols hf hv htype hnull)), Nat.succ_ne_zero _⟩

/-- **Identifiers decode to the strings they were given for**, by any extension of the symbols. -/
theorem Covers.inverts {U : Symbols} (h : Covers c T values) (hpre : T <+: U)
    (hok : ∀ x ∈ T, SymbolOk c.schema x) (hlen : T.length < uint32Max) :
    Inverts c.schema values T.encode (U.decode c.schema) := by
  intro i f v id hf hv htype hnull hid
  have hmem : (i + 1, v.bytes) ∈ T := by
    rw [add_comm]
    exact h _ (mem_rowSymbols hf hv htype hnull)
  rw [Symbols.encode_of_mem hmem] at hid
  cases hid
  refine ⟨?_, Symbols.decode_idOf hpre hmem (hok _ hmem)⟩
  have hidx : (T.column (i + 1)).idxOf v.bytes ≤ (T.column (i + 1)).length := idxOf_le_length
  have hcol : (T.column (i + 1)).length ≤ T.length := by
    rw [Symbols.column, length_map]
    exact length_filter_le _ _
  unfold uint32Max at hlen
  unfold Symbols.idOf
  omega

/-- The stored row of a record. -/
def StoredAs (c : Config) (T : Symbols) (x : Record) (row : Bytes) : Prop :=
  RowImage c.schema T.encode x.values (i64Bits x.time) row

theorem request_storedAs (r : AppendRequest c) (hcover : ∀ v ∈ r.values, Covers c T v) :
    List.Forall₂ (StoredAs c T) r.records ((r.values.zip r.stamped).map fun x ↦
      putSymbols T.encode 1 c.schema.userFields x.1 x.2) := by
  have hshape := r.shape
  unfold AppendRequest.records AppendRequest.stamped
  revert hshape hcover
  generalize r.ingestionTime = time
  refine List.Forall₂.rec (motive := fun values rows _ ↦ (∀ v ∈ values, Covers c T v) →
    (∀ v ∈ values, v.length = c.schema.userFields.length) → List.Forall₂ (StoredAs c T)
      (values.map (⟨time, ·⟩)) ((values.zip (rows.map fun row ↦
        blit row 0 (ofNatLE 8 (i64Bits time)))).map fun x ↦
          putSymbols T.encode 1 c.schema.userFields x.1 x.2)) ?_ ?_ r.encoded
  · exact fun _ _ ↦ .nil
  · intro v row values rows henc _ ih hcover hshape
    refine .cons ?_ (ih (fun v hv ↦ hcover v (mem_cons_of_mem _ hv))
      fun v hv ↦ hshape v (mem_cons_of_mem _ hv))
    have himage := encodeRow_image c.layout (hshape v (mem_cons_self ..)) henc
    exact (himage.putTime _).putSymbols c.layout (hcover v (mem_cons_self ..)).knows

/-- **The rows of a group are stored as its records.** -/
theorem storedRows_storedAs (hT : ∀ x ∈ groupSymbols g, x ∈ T) :
    List.Forall₂ (StoredAs c T) (groupRecords g) (storedRows T g) := by
  induction g with
  | nil => exact .nil
  | cons r g ih =>
    have hsymbols : groupSymbols (r :: g) = (r.values.zip r.stamped).flatMap (fun x ↦
        rowSymbols 1 c.schema.userFields x.1) ++ groupSymbols g := by
      simp [groupSymbols, groupRows]
    have hrows : storedRows T (r :: g) = (r.values.zip r.stamped).map (fun x ↦
        putSymbols T.encode 1 c.schema.userFields x.1 x.2) ++ storedRows T g := by
      simp [storedRows, groupRows]
    rw [hrows, groupRecords, flatMap_cons]
    rw [hsymbols] at hT
    refine rel_append (request_storedAs r fun v hv x hx ↦ ?_)
      (ih fun x hx ↦ hT x (mem_append_right _ hx))
    -- every list of values stands beside its row
    refine hT x (mem_append_left _ (mem_flatMap.2 ?_))
    obtain ⟨i, hi, rfl⟩ := getElem_of_mem hv
    have hi' : i < r.stamped.length := by rwa [length_stamped]
    exact ⟨(r.values[i], r.stamped[i]), mem_iff_getElem.2
      ⟨i, by rw [length_zip]; omega, getElem_zip⟩, hx⟩

/-! ### What the writer has checked -/

/-- **A frame the writer accepts**: the checks of `wadb_frame_encode`, the sequence guard, and what
interning guarantees about the symbols. -/
structure FrameOk (S : Symbols) (first : ℕ) (g : Group c) : Prop where
  sized : (groupFrame S first g).header.Sized (groupFrame S first g).size
  dictionary : dictionaryValid (groupFrame S first g).dictionaryCount
    (groupFrame S first g).dictionary = true
  times : timesValid (groupFrame S first g) = true
  last : first + groupCount g ≤ 2 ^ 64
  symbols : ∀ x ∈ symbolsAfter S g, SymbolOk c.schema x
  nodup : (symbolsAfter S g).Nodup
  budget : minAlloc c.schema (symbolsAfter S g) ≤ c.options.dictionaryLimitBytes

theorem groupMax_bounds (g : Group c) : -2 ^ 63 ≤ groupMax g ∧ groupMax g < 2 ^ 63 := by
  unfold groupMax
  cases g.getLast? with
  | none => simp
  | some r => exact r.time_bounds

variable {x : Record}

theorem mem_groupRecords_bounds (h : x ∈ groupRecords g) : -2 ^ 63 ≤ x.time ∧ x.time < 2 ^ 63 := by
  obtain ⟨r, -, hx⟩ := mem_flatMap.1 h
  obtain ⟨v, -, rfl⟩ := mem_map.1 hx
  exact r.time_bounds

theorem StoredAs.length {row : Bytes} (h : StoredAs c T x row) : row.length = c.schema.rowWidth := by
  obtain ⟨_, _, _, hparts⟩ := h
  exact hparts.length_row

theorem length_flatten_storedAs {xs : List Record} {rows : List Bytes}
    (h : List.Forall₂ (StoredAs c T) xs rows) :
    rows.flatten.length = xs.length * c.schema.rowWidth := by
  induction h with
  | nil => simp
  | cons hrow _ ih =>
    rw [flatten_cons, length_append, ih, hrow.length, length_cons]
    ring

theorem length_groupFrame_rows (S : Symbols) (first : ℕ) (g : Group c) :
    (groupFrame S first g).rows.length = groupCount g * c.schema.rowWidth := by
  rw [← length_groupRecords]
  exact length_flatten_storedAs (storedRows_storedAs fun _ hx ↦ Symbols.mem_defineAll hx)

/-- The time of a row stands at its head. -/
theorem StoredAs.getI64_head {row rest : Bytes} (h : StoredAs c T x row)
    (hx : -2 ^ 63 ≤ x.time ∧ x.time < 2 ^ 63) : getI64 (row ++ rest) 0 = x.time := by
  have hself := RowImage.getI64_time h (i64Bits_lt x.time)
  rw [i64OfBits_i64Bits hx.1 hx.2, getI64, getLE] at hself
  have hlen : 0 + 8 ≤ row.length := by
    have hpos := c.layout.rowWidth_pos
    have hmod := c.layout.rowWidth_mod
    rw [h.length]
    omega
  rw [getI64, getLE, slice_append_left hlen, hself]

/-- The time check has seen the times of the records. -/
theorem timesLoop_sorted {xs : List Record} {rows : List Bytes} {lo hi prev : ℤ}
    {first : Bool} (hrows : List.Forall₂ (StoredAs c T) xs rows)
    (hbounds : ∀ x ∈ xs, -2 ^ 63 ≤ x.time ∧ x.time < 2 ^ 63)
    (h : timesLoop lo hi c.schema.rowWidth xs.length first prev rows.flatten = true) :
    (prev :: xs.map Record.time).Pairwise (· ≤ ·) ∧ ∀ x ∈ xs, x.time ≤ hi := by
  induction hrows generalizing first prev with
  | nil => exact ⟨pairwise_singleton _ _, fun x hx ↦ by cases hx⟩
  | @cons x row xs rows hrow _ ih =>
    rw [length_cons, flatten_cons, timesLoop] at h
    simp only [hrow.getI64_head (hbounds x (mem_cons_self ..))] at h
    split at h
    · cases h
    next hc =>
      rw [drop_left' hrow.length] at h
      obtain ⟨hsorted, hle⟩ := ih (fun y hy ↦ hbounds y (mem_cons_of_mem _ hy)) h
      simp only [not_or, not_lt] at hc
      have hprev : prev ≤ x.time := hc.1
      refine ⟨?_, ?_⟩
      · rw [map_cons]
        refine pairwise_cons.2 ⟨fun y hy ↦ ?_, hsorted⟩
        rcases mem_cons.1 hy with rfl | hy
        · exact hprev
        · exact hprev.trans ((pairwise_cons.1 hsorted).1 y hy)
      · intro y hy
        rcases mem_cons.1 hy with rfl | hy
        · exact hc.2.1
        · exact hle y hy

namespace FrameOk

variable {S : Symbols} {first : ℕ} {g : Group c}

theorem stored (_h : FrameOk S first g) :
    List.Forall₂ (StoredAs c (symbolsAfter S g)) (groupRecords g)
      (storedRows (symbolsAfter S g) g) :=
  storedRows_storedAs fun _ hx ↦ Symbols.mem_defineAll hx

section

variable (h : FrameOk S first g)
include h

theorem fits : (groupFrame S first g).header.Fits where
  schemaHash := c.layout.fingerprint
  firstSequence := by
    have hlast := h.last
    have hcount : groupCount g ≠ 0 := h.sized.rowCount
    simp only [Frame.header, groupFrame]
    omega
  maxTime := (groupMax_bounds g).2

/-- **The frame reads back.** -/
theorem decode : frameDecode (groupFrame S first g).bytes = .ok (groupFrame S first g) :=
  frameDecode_image h.sized h.fits (length_groupFrame_rows S first g) h.dictionary h.times

/-- The frame is recognized by its header, also when it is cut short. -/
theorem inspect (rest : Bytes) :
    frameInspect ((groupFrame S first g).header.image (groupFrame S first g).size ++ rest) =
      .ok ((groupFrame S first g).header, (groupFrame S first g).size) :=
  FrameHeader.frameInspect_image h.sized h.fits rest

theorem length_lt : (symbolsAfter S g).length < uint32Max := by
  have h1 := length_le_minAlloc c.schema (symbolsAfter S g)
  have h2 := h.budget
  have h3 := c.dictionaryLimit_bounds.2
  unfold uint32Max
  omega

/-- Times of the records do not decrease and lie between those of the frame. -/
theorem records_sorted : (groupMin g :: (groupRecords g).map Record.time).Pairwise (· ≤ ·) ∧
      ∀ x ∈ groupRecords g, x.time ≤ groupMax g := by
  have htimes : timesLoop (groupMin g) (groupMax g) c.schema.rowWidth (groupRecords g).length true
      (groupMin g) (storedRows (symbolsAfter S g) g).flatten = true := by
    rw [length_groupRecords]
    exact h.times
  exact timesLoop_sorted h.stored (fun x hx ↦ mem_groupRecords_bounds hx) htimes

end

end FrameOk

/-! ### Reading the rows -/

namespace FrameOk

variable {S U : Symbols} {first : ℕ} {g : Group c}

theorem covers (_h : FrameOk S first g) {x : Record} (hx : x ∈ groupRecords g) :
    Covers c (symbolsAfter S g) x.values := by
  obtain ⟨r, hr, hx⟩ := mem_flatMap.1 hx
  obtain ⟨v, hv, rfl⟩ := mem_map.1 hx
  intro y hy
  refine Symbols.mem_defineAll (mem_flatMap.2 ?_)
  obtain ⟨i, hi, rfl⟩ := getElem_of_mem hv
  have hi' : i < r.stamped.length := by rwa [length_stamped]
  exact ⟨(r.values[i], r.stamped[i]), mem_flatMap.2 ⟨r, hr, mem_iff_getElem.2
    ⟨i, by rw [length_zip]; omega, getElem_zip⟩⟩, hy⟩

/-- **The identifiers in the rows decode**, by any symbols that extend those of the frame. -/
theorem inverts (h : FrameOk S first g) (hpre : symbolsAfter S g <+: U) {x : Record}
    (hx : x ∈ groupRecords g) :
    Inverts c.schema x.values (symbolsAfter S g).encode (U.decode c.schema) :=
  (h.covers hx).inverts hpre h.symbols h.length_lt

theorem validateRows_ok (h : FrameOk S first g) (hpre : symbolsAfter S g <+: U) :
    validateRows c.schema (U.decode c.schema) (groupCount g) (groupFrame S first g).rows = .ok () := by
  have hloop : ∀ (xs : List Record) (rows : List Bytes),
      List.Forall₂ (StoredAs c (symbolsAfter S g)) xs rows → (∀ x ∈ xs, x ∈ groupRecords g) →
        validateRows c.schema (U.decode c.schema) xs.length rows.flatten = .ok () := by
    intro xs rows hrows
    induction hrows with
    | nil => exact fun _ ↦ rfl
    | cons hrow _ ih =>
      intro hmem
      rw [length_cons, flatten_cons, validateRows, slice_append_head hrow.length.symm,
        RowImage.validateRow_ok hrow c.layout (h.inverts hpre (hmem _ (mem_cons_self ..)))
          (i64Bits_lt _), drop_left' hrow.length]
      exact ih fun x hx ↦ hmem x (mem_cons_of_mem _ hx)
  rw [← length_groupRecords]
  exact hloop _ _ h.stored fun _ hx ↦ hx

end FrameOk

end WebAnalyticsDb
