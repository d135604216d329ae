import WebAnalyticsDb.Core.Encoding

/-!
# Schemas and their row layout

`schemaBuild` compiles field definitions to a row layout: the timestamp at offset zero, the null
bitmap after it, then one slot per field, packed, and padding to a multiple of eight. `Placed` says
what the compiled fields are, slot after slot, and `schemaBuild_layout` collects everything the row
codec and the storage layer use about a compiled schema.

A row is therefore a **list of parts**, `[time, bitmap, slot 1, …, slot n, padding]`; the row codec is
verified against that view, in which a field's slot is simply one part.
-/

namespace WebAnalyticsDb

open Bytes List

/-! ### Types and fields -/

/-- `wadb_type`; `unknown` stands for every other code. -/
inductive FieldType
  | i8
  | u8
  | i16
  | u16
  | i32
  | u32
  | i64
  | u64
  | f32
  | f64
  | bool
  | timestampUs
  | uuid
  | bytes
  | text
  | symbol32
  | unknown
deriving DecidableEq, Repr

/-- The number of a type in the persisted schema and in its fingerprint. -/
def FieldType.code : FieldType → ℕ
  | .i8 => 1
  | .u8 => 2
  | .i16 => 3
  | .u16 => 4
  | .i32 => 5
  | .u32 => 6
  | .i64 => 7
  | .u64 => 8
  | .f32 => 9
  | .f64 => 10
  | .bool => 11
  | .timestampUs => 12
  | .uuid => 13
  | .bytes => 14
  | .text => 15
  | .symbol32 => 16
  | .unknown => 0

/-- `wadb_field_def`. -/
structure FieldDef where
  /-- An identifier. -/
  name : Bytes
  type : FieldType
  /-- The payload capacity of `bytes` and `text`, zero for the other types. -/
  size : ℕ
  nullable : Bool
deriving DecidableEq, Repr

/-- `wadb_field`. -/
structure Field where
  name : Bytes
  type : FieldType
  size : ℕ
  nullable : Bool
  /-- Where the slot starts in a row. -/
  offset : ℕ
  /-- How wide the slot is. -/
  width : ℕ
  /-- The field's bit in the null bitmap, `UINT32_MAX` if it is not nullable. -/
  nullBit : ℕ
deriving DecidableEq, Repr

/-- `wadb_schema`. -/
structure Schema where
  rowWidth : ℕ
  nullBytes : ℕ
  fingerprint : ℕ
  /-- The fields; the first is `_time`. -/
  fields : List Field
deriving DecidableEq, Repr

namespace Schema

/-- `field_count`, which counts `_time`. -/
def fieldCount (s : Schema) : ℕ := s.fields.length

/-- The fields a client supplies. -/
def userFields (s : Schema) : List Field := s.fields.tail

end Schema

/-- `type_width`. -/
def typeWidth (t : FieldType) (size : ℕ) : ℕ :=
  match t with
  | .i8 | .u8 | .bool => 1
  | .i16 | .u16 => 2
  | .i32 | .u32 | .f32 | .symbol32 => 4
  | .i64 | .u64 | .f64 | .timestampUs => 8
  | .uuid => 16
  | .bytes => size
  | .text => size + 4
  | .unknown => 0

/-- `_time`, the reserved name. -/
def timeName : Bytes := [95, 116, 105, 109, 101]

/-- The field every schema starts with. -/
def timeField : Field where
  name := timeName
  type := .timestampUs
  size := 0
  nullable := false
  offset := 0
  width := 8
  nullBit := uint32Max

/-! ### Compilation -/

/-- The checks on one definition, given those before it. -/
def checkDef (before : List FieldDef) (d : FieldDef) : Except Error Unit :=
  let sized := d.type = .bytes ∨ d.type = .text
  if !identifier d.name || d.name == timeName then
    .error ⟨.invalid, "invalid or reserved field name at index " ++ toString before.length⟩
  else if before.any (·.name == d.name) then
    .error ⟨.invalid, "duplicate field: " ++ showName d.name⟩
  else if (sized ∧ (d.size = 0 ∨ d.size > maxRowBytes)) ∨ (¬ sized ∧ d.size ≠ 0) then
    .error ⟨.invalid, "invalid size for " ++ showName d.name⟩
  else if typeWidth d.type d.size = 0 then
    .error ⟨.invalid, "unknown field type for " ++ showName d.name⟩
  else .ok ()

/-- The checking loop. -/
def checkDefs (before : List FieldDef) : List FieldDef → Except Error Unit
  | [] => .ok ()
  | d :: defs =>
    match checkDef before d with
    | .error e => .error e
    | .ok () => checkDefs (before ++ [d]) defs

/-- The field compiled from a definition at `offset`, with `bit` the next free null bit. -/
def placeField (offset bit : ℕ) (d : FieldDef) : Field where
  name := d.name
  type := d.type
  size := d.size
  nullable := d.nullable
  offset := offset
  width := typeWidth d.type d.size
  nullBit := if d.nullable then bit else uint32Max

/-- The placing loop: the fields and the offset where the last one ends. -/
def placeFields (offset bit : ℕ) : List FieldDef → Except Error (List Field × ℕ)
  | [] => .ok ([], offset)
  | d :: defs =>
    let f := placeField offset bit d
    if f.width > maxRowBytes - offset then .error ⟨.limit, "row exceeds 16384 bytes"⟩
    else
      match placeFields (offset + f.width) (if d.nullable then bit + 1 else bit) defs with
      | .error e => .error e
      | .ok (fs, stop) => .ok (f :: fs, stop)

/-- The contribution of a field to the fingerprint. -/
def fieldHash (h : UInt64) (f : Field) : UInt64 :=
  let spec := ofNatLE 4 f.type.code ++ ofNatLE 4 f.size ++ ofNatLE 4 (if f.nullable then 1 else 0)
  hashBytes spec (hashBytes (f.name ++ [0]) h)

/-- `wadb_schema_build`. -/
def schemaBuild (defs : List FieldDef) : Except Error Schema :=
  if defs.length ≥ maxFields then .error ⟨.invalid, "schema requires at most 255 user fields"⟩
  else
    match checkDefs [] defs with
    | .error e => .error e
    | .ok () =>
      let nullBytes := ((defs.countP (·.nullable)) + 7) / 8
      match placeFields (8 + nullBytes) 0 defs with
      | .error e => .error e
      | .ok (fs, stop) =>
        .ok {
          rowWidth := (stop + 7) / 8 * 8
          nullBytes := nullBytes
          fingerprint := ((timeField :: fs).foldl fieldHash hashBasis).toNat
          fields := timeField :: fs }

/-! ### Refusals -/

variable {before defs : List FieldDef} {e : Error} {bit offset bits stop : ℕ} {fs : List Field}

theorem checkDef_error {d : FieldDef} (h : checkDef before d = .error e) : e.code = .invalid := by
  unfold checkDef at h
  dsimp only at h
  split at h
  · cases h; rfl
  · split at h
    · cases h; rfl
    · split at h
      · cases h; rfl
      · split at h
        · cases h; rfl
        · cases h

theorem checkDefs_error (h : checkDefs before defs = .error e) : e.code = .invalid := by
  induction defs generalizing before with
  | nil => cases h
  | cons d defs ih =>
    rw [checkDefs] at h
    split at h
    next e' hd =>
      cases h
      exact checkDef_error hd
    · exact ih h

theorem placeFields_error (h : placeFields offset bit defs = .error e) : e.code = .limit := by
  induction defs generalizing offset bit with
  | nil => cases h
  | cons d defs ih =>
    rw [placeFields] at h
    split at h
    · cases h; rfl
    · split at h
      next e' hrest =>
        cases h
        exact ih hrest
      · cases h

/-- A schema is refused because of a definition or because a row would be too long. -/
theorem schemaBuild_error (h : schemaBuild defs = .error e) : e.code = .invalid ∨ e.code = .limit := by
  unfold schemaBuild at h
  split at h
  · cases h
    exact .inl rfl
  · split at h
    next e' hdefs =>
      cases h
      exact .inl (checkDefs_error hdefs)
    · dsimp only at h
      split at h
      next e' hplace =>
        cases h
        exact .inr (placeFields_error hplace)
      · cases h

/-! ### The layout of a compiled schema -/

/-- **Placement**: the slots follow one another from `offset` to `stop`, and the nullable fields have
the bits from `bit` to `bits`. -/
inductive Placed : ℕ → ℕ → List Field → ℕ → ℕ → Prop
  | nil (offset bit : ℕ) : Placed offset bit [] offset bit
  | cons {offset bit stop bits : ℕ} {f : Field} {fs : List Field} (hoffset : f.offset = offset)
      (hwidth : f.width = typeWidth f.type f.size) (hpos : 0 < f.width)
      (hbit : f.nullable = true → f.nullBit = bit)
      (hrest : Placed (offset + f.width) (if f.nullable then bit + 1 else bit) fs stop bits) :
      Placed offset bit (f :: fs) stop bits

/-- What the row codec uses about a schema. -/
structure Schema.Layout (s : Schema) : Prop where
  /-- The timestamp comes first. -/
  time : s.fields = timeField :: s.userFields
  /-- There are at most 256 fields. -/
  count : s.fieldCount ≤ maxFields
  /-- The slots follow the bitmap; the row ends less than eight bytes after the last slot. -/
  placed : ∃ stop, Placed (8 + s.nullBytes) 0 s.userFields stop (s.userFields.countP (·.nullable)) ∧
    s.rowWidth = (stop + 7) / 8 * 8
  /-- The bitmap has a bit for every nullable field. -/
  bitmap : s.nullBytes = (s.userFields.countP (·.nullable) + 7) / 8
  /-- A row is not too wide. -/
  width : s.rowWidth ≤ maxRowBytes
  /-- Variable fields have their capacity as size. -/
  sized : ∀ f ∈ s.userFields, f.size ≤ maxRowBytes
  /-- The fingerprint is a 64-bit number. -/
  fingerprint : s.fingerprint < 2 ^ 64

theorem Placed.le_stop (h : Placed offset bit fs stop bits) : offset ≤ stop ∧ bit ≤ bits := by
  induction h with
  | nil => exact ⟨le_rfl, le_rfl⟩
  | cons _ _ _ _ _ ih =>
    refine ⟨by omega, le_trans ?_ ih.2⟩
    split <;> omega

/-- The last slot ends where the placement does. -/
theorem Placed.last_end (h : Placed offset bit fs stop bits) (hne : fs ≠ []) :
    (fs.getLast hne).offset + (fs.getLast hne).width = stop := by
  induction h with
  | nil => exact absurd rfl hne
  | @cons offset bit stop bits f fs hoffset _ _ _ hrest ih =>
    cases hrest with
    | nil => simp [hoffset]
    | cons => rw [getLast_cons (by simp)]; exact ih (by simp)

theorem Placed.mem (h : Placed offset bit fs stop bits)
    {f : Field} (hf : f ∈ fs) : f.width = typeWidth f.type f.size ∧ f.offset + f.width ≤ stop ∧
      (f.nullable = true → f.nullBit < bits) := by
  induction h with
  | nil => exact absurd hf not_mem_nil
  | @cons offset bit stop bits g fs hoffset hwidth _ hbit hrest ih =>
    rcases mem_cons.1 hf with rfl | hf
    · obtain ⟨hstop, hbits⟩ := hrest.le_stop
      refine ⟨hwidth, by omega, fun hnull ↦ ?_⟩
      rw [if_pos hnull] at hbits
      rw [hbit hnull]
      omega
    · exact ih hf

theorem checkDef_ok {d : FieldDef} (h : checkDef before d = .ok ()) :
    0 < typeWidth d.type d.size ∧ d.size ≤ maxRowBytes := by
  unfold checkDef at h
  simp only at h
  split at h
  · cases h
  split at h
  · cases h
  split at h
  · cases h
  next hsize =>
    split at h
    · cases h
    next hwidth =>
      refine ⟨pos_of_ne_zero hwidth, ?_⟩
      unfold maxRowBytes at hsize ⊢
      by_cases hs : d.type = .bytes ∨ d.type = .text
      · simp only [hs, true_and, not_true_eq_false, false_and, or_false] at hsize
        omega
      · simp only [hs, false_and, not_false_eq_true, true_and, false_or] at hsize
        omega

theorem checkDefs_ok (h : checkDefs before defs = .ok ()) :
    ∀ d ∈ defs, 0 < typeWidth d.type d.size ∧ d.size ≤ maxRowBytes := by
  induction defs generalizing before with
  | nil => simp
  | cons d defs ih =>
    rw [checkDefs] at h
    split at h
    · cases h
    next hd =>
      intro d' hd'
      rcases mem_cons.1 hd' with rfl | hd'
      · exact checkDef_ok hd
      · exact ih h d' hd'

/-- The placing loop places the fields compiled from the definitions. -/
theorem placeFields_ok (hdefs : ∀ d ∈ defs, 0 < typeWidth d.type d.size)
    (h : placeFields offset bit defs = .ok (fs, stop)) (hle : offset ≤ maxRowBytes) :
    Placed offset bit fs stop (bit + fs.countP (·.nullable)) ∧ stop ≤ maxRowBytes ∧
      fs.countP (·.nullable) = defs.countP (·.nullable) ∧ fs.length = defs.length ∧
      ∀ f ∈ fs, ∃ d ∈ defs, f.size = d.size := by
  induction defs generalizing offset bit fs with
  | nil =>
    rw [placeFields] at h
    cases h
    exact ⟨.nil _ _, hle, rfl, rfl, by simp⟩
  | cons d defs ih =>
    rw [placeFields] at h
    split at h
    · cases h
    next hfits =>
      split at h
      · cases h
      next fs' stop' hrest =>
        cases h
        obtain ⟨hplaced, hstop, hcount, hlen, hsize⟩ := ih
          (fun d' hd' ↦ hdefs d' (mem_cons_of_mem d hd')) hrest (by omega)
        refine ⟨.cons rfl rfl (hdefs d mem_cons_self) ?_ ?_, hstop, ?_, ?_, ?_⟩
        · intro hn
          have hd : d.nullable = true := hn
          simp [placeField, hd]
        · have hbits : bit + (placeField offset bit d :: fs').countP (·.nullable) =
              (if d.nullable then bit + 1 else bit) + fs'.countP (·.nullable) := by
            rw [countP_cons]
            show _ + (_ + if d.nullable = true then 1 else 0) = _
            split <;> omega
          rw [hbits]
          exact hplaced
        · rw [countP_cons, countP_cons, hcount]
          rfl
        · simp [hlen]
        · intro f hf
          rcases mem_cons.1 hf with rfl | hf
          · exact ⟨d, mem_cons_self, rfl⟩
          · obtain ⟨d', hd', hs⟩ := hsize f hf
            exact ⟨d', mem_cons_of_mem d hd', hs⟩

/-- **A compiled schema has the layout the codec relies on.** -/
theorem schemaBuild_layout {s : Schema} (h : schemaBuild defs = .ok s) : s.Layout := by
  unfold schemaBuild at h
  split at h
  · cases h
  next hlen =>
    split at h
    · cases h
    next hcheck =>
      simp only at h
      split at h
      · cases h
      next fs stop hplace =>
        cases h
        have hmax : maxFields = 256 := rfl
        have hcount := countP_le_length (p := fun d : FieldDef ↦ d.nullable) (l := defs)
        have hok := checkDefs_ok hcheck
        obtain ⟨hplaced, hstop, hnull, hfs, hsize⟩ := placeFields_ok (fun d hd ↦ (hok d hd).1) hplace
          (by unfold maxRowBytes; omega)
        refine ⟨rfl, ?_, ⟨stop, ?_, rfl⟩, ?_, ?_, ?_, UInt64.toNat_lt _⟩
        · show (timeField :: fs).length ≤ maxFields
          rw [length_cons, hfs]
          omega
        · simpa [Schema.userFields] using hplaced
        · show _ = ((fs.countP _) + 7) / 8
          rw [hnull]
        · show (stop + 7) / 8 * 8 ≤ maxRowBytes
          unfold maxRowBytes at hstop ⊢
          omega
        · intro f hf
          obtain ⟨d, hd, hs⟩ := hsize f hf
          rw [hs]
          exact (hok d hd).2

namespace Schema.Layout

variable {s : Schema} (hs : s.Layout)

include hs

theorem rowWidth_pos : 0 < s.rowWidth := by
  obtain ⟨stop, hplaced, hwidth⟩ := hs.placed
  have := hplaced.le_stop
  omega

theorem rowWidth_mod : s.rowWidth % 8 = 0 := by
  obtain ⟨stop, -, hwidth⟩ := hs.placed
  omega

theorem fieldCount_eq : s.fieldCount = s.userFields.length + 1 := by
  rw [Schema.fieldCount, hs.time, length_cons]

end Schema.Layout

end WebAnalyticsDb
