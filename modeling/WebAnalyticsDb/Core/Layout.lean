import Mathlib.Algebra.BigOperators.Group.List.Basic
import Mathlib.Data.List.Range
import WebAnalyticsDb.Core.Schema

/-!
# The layout of a schema, from its definitions

`Core/Schema` says what the row codec uses about a compiled schema. Here the compiler is compared with the
definitions it is given.

* **Acceptance.** A list of definitions that keeps the rules on names, sizes, types and number (`DefsOk`) is
  refused exactly if its **packed width**, the sum of the slots behind the timestamp and the bitmap, is more
  than a row may have (`schemaBuild_ok_iff`).
* **Layout.** `Schema.Packs` says what is compiled: the slots in the order of the definitions, one behind the
  other, and the bits of the nullable fields.
* **Arithmetic.** `schemaBuild32` is the compiler with 32-bit operations that are **undefined where they
  wrap**. It is defined on every list, and answers as `schemaBuild` does.
-/

namespace WebAnalyticsDb

open List
open Option (bind_eq_bind bind_some)

/-! ### The rules on definitions -/

/-- The rule on the size of a field: `bytes` and `text` have one, other types have none. -/
def FieldDef.SizeOk (d : FieldDef) : Prop :=
  if d.type = .bytes ∨ d.type = .text then 0 < d.size ∧ d.size ≤ maxRowBytes else d.size = 0

/-- **The rules on names, sizes, types and number.** -/
structure DefsOk (defs : List FieldDef) : Prop where
  count : defs.length < maxFields
  names : ∀ d ∈ defs, identifier d.name = true ∧ d.name ≠ timeName
  distinct : defs.Pairwise fun d d' ↦ d.name ≠ d'.name
  sizes : ∀ d ∈ defs, d.SizeOk
  types : ∀ d ∈ defs, d.type ≠ .unknown

/-- The sum of the slots. -/
def slotBytes (defs : List FieldDef) : ℕ := (defs.map fun d ↦ typeWidth d.type d.size).sum

/-- The bytes of the null bitmap. -/
def bitmapBytes (defs : List FieldDef) : ℕ := (defs.countP (·.nullable) + 7) / 8

/-- **The packed width** of a row: the timestamp, the bitmap and the slots. -/
def packedWidth (defs : List FieldDef) : ℕ := 8 + bitmapBytes defs + slotBytes defs

section Acceptance

variable {before defs : List FieldDef} {d : FieldDef} {offset bit : ℕ}

/-- Only a type that does not exist has no width. -/
theorem FieldDef.SizeOk.typeWidth_eq_zero (h : d.SizeOk) :
    typeWidth d.type d.size = 0 ↔ d.type = .unknown := by
  cases htype : d.type with
  | bytes =>
    rw [FieldDef.SizeOk, if_pos (.inl htype)] at h
    simp only [typeWidth, reduceCtorEq, iff_false]
    omega
  | _ => simp [typeWidth]

/-- The source's test of the size. -/
theorem FieldDef.sizeOk_iff : d.SizeOk ↔
    ¬ ((d.type = .bytes ∨ d.type = .text) ∧ (d.size = 0 ∨ d.size > maxRowBytes) ∨
      ¬ (d.type = .bytes ∨ d.type = .text) ∧ d.size ≠ 0) := by
  unfold FieldDef.SizeOk
  split
  next h =>
    simp only [h, true_and, not_true_eq_false, false_and, or_false]
    omega
  next h =>
    simp only [h, false_and, not_false_eq_true, true_and, false_or]
    omega

theorem checkDef_eq_ok_iff : checkDef before d = .ok () ↔
    (identifier d.name = true ∧ d.name ≠ timeName) ∧ (∀ b ∈ before, b.name ≠ d.name) ∧ d.SizeOk ∧
      d.type ≠ .unknown := by
  unfold checkDef
  dsimp only
  split
  next hname =>
    refine ⟨nofun, fun h ↦ ?_⟩
    simp [h.1.1, h.1.2] at hname
  next hname =>
    split
    next hdup =>
      refine ⟨nofun, fun h ↦ ?_⟩
      obtain ⟨b, hb, heq⟩ := any_eq_true.1 hdup
      exact absurd (beq_iff_eq.1 heq) (h.2.1 b hb)
    next hdup =>
      split
      next hbad => exact ⟨nofun, fun h ↦ absurd hbad (FieldDef.sizeOk_iff.1 h.2.2.1)⟩
      next hgood =>
        have hok := FieldDef.sizeOk_iff.2 hgood
        split
        next hwidth => exact ⟨nofun, fun h ↦ absurd (hok.typeWidth_eq_zero.1 hwidth) h.2.2.2⟩
        next hwidth =>
          refine ⟨fun _ ↦ ⟨?_, fun b hb heq ↦ hdup ?_, hok, fun h ↦ hwidth (hok.typeWidth_eq_zero.2 h)⟩,
            fun _ ↦ rfl⟩
          · simpa using hname
          · exact any_eq_true.2 ⟨b, hb, beq_iff_eq.2 heq⟩

theorem checkDefs_eq_ok_iff : checkDefs before defs = .ok () ↔
    (∀ d ∈ defs, identifier d.name = true ∧ d.name ≠ timeName) ∧
      (∀ b ∈ before, ∀ d ∈ defs, b.name ≠ d.name) ∧ (defs.Pairwise fun d d' ↦ d.name ≠ d'.name) ∧
      (∀ d ∈ defs, d.SizeOk) ∧ ∀ d ∈ defs, d.type ≠ .unknown := by
  induction defs generalizing before with
  | nil => simp [checkDefs]
  | cons d defs ih =>
    have hstep : checkDefs before (d :: defs) = .ok () ↔
        checkDef before d = .ok () ∧ checkDefs (before ++ [d]) defs = .ok () := by
      rw [checkDefs]
      cases checkDef before d with
      | error e => simp
      | ok u => exact ⟨fun h ↦ ⟨rfl, h⟩, fun h ↦ h.2⟩
    rw [hstep, ih, checkDef_eq_ok_iff]
    simp only [forall_mem_cons, forall_mem_append, pairwise_cons]
    constructor
    · rintro ⟨⟨hname, hbefore, hsize, htype⟩, hnames, ⟨hbefore', hnew, -⟩, hdistinct, hsizes, htypes⟩
      exact ⟨⟨hname, hnames⟩, fun b hb ↦ ⟨hbefore b hb, hbefore' b hb⟩, ⟨hnew, hdistinct⟩,
        ⟨hsize, hsizes⟩, htype, htypes⟩
    · rintro ⟨⟨hname, hnames⟩, hbefore, ⟨hnew, hdistinct⟩, ⟨hsize, hsizes⟩, htype, htypes⟩
      exact ⟨⟨hname, fun b hb ↦ (hbefore b hb).1, hsize, htype⟩, hnames,
        ⟨fun b hb ↦ (hbefore b hb).2, hnew, by simp⟩, hdistinct, hsizes, htypes⟩

/-- **The placing loop fails exactly if the slots do not fit.** The comparison subtracts, which is the
same as adding as long as the slots so far fit. -/
theorem placeFields_isOk_iff (h : offset ≤ maxRowBytes) :
    (∃ r, placeFields offset bit defs = .ok r) ↔ offset + slotBytes defs ≤ maxRowBytes := by
  induction defs generalizing offset bit with
  | nil => exact ⟨fun _ ↦ h, fun _ ↦ ⟨_, rfl⟩⟩
  | cons d defs ih =>
    have hsum : slotBytes (d :: defs) = typeWidth d.type d.size + slotBytes defs := sum_cons
    have hwidth : (placeField offset bit d).width = typeWidth d.type d.size := rfl
    rw [placeFields, hsum]
    by_cases hwide : (placeField offset bit d).width > maxRowBytes - offset
    · rw [if_pos hwide]
      refine ⟨?_, fun hle ↦ by omega⟩
      rintro ⟨r, ⟨⟩⟩
    · rw [if_neg hwide, hwidth, ← add_assoc, ← @ih (offset + typeWidth d.type d.size)
        (if d.nullable = true then bit + 1 else bit) (by omega)]
      cases placeFields (offset + typeWidth d.type d.size) (if d.nullable = true then bit + 1 else bit)
        defs with
      | error e => constructor <;> rintro ⟨r, ⟨⟩⟩
      | ok r => exact ⟨fun _ ↦ ⟨r, rfl⟩, fun _ ↦ ⟨_, rfl⟩⟩

theorem bitmapBytes_le (h : defs.length < maxFields) : 8 + bitmapBytes defs ≤ 40 := by
  have hcount := countP_le_length (p := fun d : FieldDef ↦ d.nullable) (l := defs)
  have hmax : maxFields = 256 := rfl
  unfold bitmapBytes
  omega

/-- **Which definitions are accepted.** -/
theorem schemaBuild_ok_iff (defs : List FieldDef) :
    (∃ s, schemaBuild defs = .ok s) ↔ DefsOk defs ∧ packedWidth defs ≤ maxRowBytes := by
  unfold schemaBuild
  split
  next hcount => exact ⟨fun ⟨s, hs⟩ ↦ (nomatch hs), fun h ↦ absurd h.1.count (by omega)⟩
  next hcount =>
    have hlt : defs.length < maxFields := by omega
    have hfits := @placeFields_isOk_iff defs (8 + bitmapBytes defs) 0
      ((bitmapBytes_le hlt).trans (by decide))
    cases hcheck : checkDefs [] defs with
    | error e =>
      refine ⟨fun ⟨s, hs⟩ ↦ (nomatch hs), fun h ↦ ?_⟩
      rw [checkDefs_eq_ok_iff.2 ⟨h.1.names, fun _ hb ↦ absurd hb not_mem_nil, h.1.distinct, h.1.sizes,
        h.1.types⟩] at hcheck
      cases hcheck
    | ok u =>
      obtain ⟨hnames, -, hdistinct, hsizes, htypes⟩ := checkDefs_eq_ok_iff.1 hcheck
      have hok : DefsOk defs := ⟨hlt, hnames, hdistinct, hsizes, htypes⟩
      rw [and_iff_right hok, packedWidth, ← hfits]
      unfold bitmapBytes
      dsimp only
      cases placeFields (8 + (defs.countP (·.nullable) + 7) / 8) 0 defs with
      | error e => exact ⟨fun ⟨s, hs⟩ ↦ (nomatch hs), fun ⟨r, hr⟩ ↦ nomatch hr⟩
      | ok r => exact ⟨fun _ ↦ ⟨r, rfl⟩, fun _ ↦ ⟨_, rfl⟩⟩

end Acceptance

/-! ### The layout -/

/-- The definition that a field was compiled from. -/
def Field.definition (f : Field) : FieldDef := ⟨f.name, f.type, f.size, f.nullable⟩

/-- **What is compiled from definitions.** -/
structure Schema.Packs (s : Schema) (defs : List FieldDef) : Prop where
  time : s.fields = timeField :: s.userFields
  declared : s.userFields.map Field.definition = defs
  widths : ∀ f ∈ s.userFields, f.width = typeWidth f.type f.size
  /-- Slots, that of the timestamp included, are disjoint and in the order of the definitions. -/
  order : s.fields.Pairwise fun f g ↦ f.offset + f.width ≤ g.offset
  /-- They do not overlap the timestamp or the bitmap. -/
  bitmap : ∀ f ∈ s.userFields, 8 + s.nullBytes ≤ f.offset
  inside : ∀ f ∈ s.fields, f.offset + f.width ≤ s.rowWidth
  aligned : s.rowWidth % 8 = 0
  bounded : s.rowWidth ≤ maxRowBytes
  /-- The row ends less than eight bytes behind the last slot. -/
  padding : ∀ f ∈ s.fields.getLast?, s.rowWidth < f.offset + f.width + 8
  /-- The bits of the nullable fields, in the order of the definitions, increase. -/
  increasing : ((s.userFields.filter (·.nullable)).map (·.nullBit)).Pairwise (· < ·)
  bits : ∀ f ∈ s.userFields, f.nullable = true → f.nullBit < 8 * s.nullBytes
  unmarked : ∀ f ∈ s.userFields, f.nullable = false → f.nullBit = uint32Max
  /-- A bitmap has room for a bit of every nullable field exactly if it is not shorter. -/
  least : ∀ b, defs.countP (·.nullable) ≤ 8 * b ↔ s.nullBytes ≤ b

section Layout

variable {offset bit stop bits : ℕ} {fs : List Field} {defs : List FieldDef}

theorem Placed.offset_le (h : Placed offset bit fs stop bits) : ∀ f ∈ fs, offset ≤ f.offset := by
  induction h with
  | nil => exact nofun
  | @cons offset bit stop bits f fs hoffset _ _ _ _ ih =>
    refine forall_mem_cons.2 ⟨hoffset.ge, fun g hg ↦ ?_⟩
    have := ih g hg
    omega

/-- **Slots are disjoint and in order.** -/
theorem Placed.pairwise (h : Placed offset bit fs stop bits) :
    fs.Pairwise fun f g ↦ f.offset + f.width ≤ g.offset := by
  induction h with
  | nil => exact .nil
  | @cons offset bit stop bits f fs hoffset _ _ _ hrest ih =>
    refine pairwise_cons.2 ⟨fun g hg ↦ ?_, ih⟩
    have := hrest.offset_le g hg
    omega

/-- **The bits of the nullable fields** are numbered through. -/
theorem Placed.nullBits (h : Placed offset bit fs stop bits) :
    (fs.filter (·.nullable)).map (·.nullBit) = List.range' bit (fs.countP (·.nullable)) := by
  induction h with
  | nil => rfl
  | @cons offset bit stop bits f fs _ _ _ hbit _ ih =>
    rw [filter_cons, countP_cons]
    cases hnull : f.nullable with
    | true =>
      rw [if_pos rfl, if_pos rfl, map_cons, ih, hbit hnull, hnull, if_pos rfl, List.range'_succ]
    | false =>
      rw [if_neg (by decide), if_neg (by decide), ih, hnull, if_neg (by decide)]
      rfl

/-- The fields are compiled from the definitions, in their order. -/
theorem placeFields_declared (h : placeFields offset bit defs = .ok (fs, stop)) :
    fs.map Field.definition = defs ∧ ∀ f ∈ fs, f.nullable = false → f.nullBit = uint32Max := by
  induction defs generalizing offset bit fs with
  | nil =>
    cases h
    exact ⟨rfl, nofun⟩
  | cons d defs ih =>
    rw [placeFields] at h
    split at h
    · cases h
    · split at h
      · cases h
      next fs' stop' hrest =>
        cases h
        obtain ⟨hmap, hunmarked⟩ := ih hrest
        refine ⟨congrArg (d :: ·) hmap, forall_mem_cons.2 ⟨fun hd ↦ ?_, hunmarked⟩⟩
        have hd : d.nullable = false := hd
        simp [placeField, hd]

/-- What an accepted list was compiled to. -/
theorem schemaBuild_placed {s : Schema} (h : schemaBuild defs = .ok s) :
    defs.length < maxFields ∧ s.nullBytes = bitmapBytes defs ∧ ∃ stop,
      placeFields (8 + bitmapBytes defs) 0 defs = .ok (s.userFields, stop) := by
  unfold schemaBuild at h
  split at h
  · cases h
  next hlen =>
    split at h
    · cases h
    · dsimp only at h
      split at h
      · cases h
      next fs stop hplace =>
        cases h
        exact ⟨by omega, rfl, stop, hplace⟩

/-- **The layout of a compiled schema.** -/
theorem schemaBuild_packs {s : Schema} (h : schemaBuild defs = .ok s) : s.Packs defs := by
  have hlayout := schemaBuild_layout h
  obtain ⟨stop, hplaced, hrow⟩ := hlayout.placed
  obtain ⟨hstop, -⟩ := hplaced.le_stop
  obtain ⟨-, hbytes, stop', hplace⟩ := schemaBuild_placed h
  obtain ⟨hmap, hunmarked⟩ := placeFields_declared hplace
  have hcount : s.userFields.countP (·.nullable) = defs.countP (·.nullable) := by
    rw [← hmap, countP_map]
    rfl
  have htime : timeField.offset + timeField.width = 8 := rfl
  refine ⟨hlayout.time, hmap, fun f hf ↦ (hplaced.mem hf).1, ?_, hplaced.offset_le, fun f hf ↦ ?_,
    hlayout.rowWidth_mod, hlayout.width, fun f hf ↦ ?_, ?_, fun f hf hnull ↦ ?_, hunmarked, fun b ↦ ?_⟩
  · rw [hlayout.time]
    refine pairwise_cons.2 ⟨fun g hg ↦ ?_, hplaced.pairwise⟩
    have := hplaced.offset_le g hg
    omega
  · rw [hlayout.time] at hf
    rcases mem_cons.1 hf with rfl | hf
    · omega
    · have := (hplaced.mem hf).2.1
      omega
  · -- without user fields the timestamp is the last slot, and there is no bitmap
    rw [hlayout.time] at hf
    cases hfields : s.userFields with
    | nil =>
      rw [hfields] at hplaced hf
      obtain rfl : timeField = f := Option.some.inj hf
      have hnone : s.nullBytes = 0 := by rw [hlayout.bitmap, hfields]; rfl
      cases hplaced
      omega
    | cons g fs =>
      have hne : s.userFields ≠ [] := by rw [hfields]; exact cons_ne_nil g fs
      have hlast := hplaced.last_end hne
      rw [getLast?_cons_of_ne_nil hne, getLast?_eq_getLast_of_ne_nil hne] at hf
      obtain rfl := Option.some.inj hf
      omega
  · rw [hplaced.nullBits]
    exact pairwise_lt_range'
  · have hlt := (hplaced.mem hf).2.2 hnull
    have hbitmap := hlayout.bitmap
    omega
  · rw [hbytes, bitmapBytes]
    omega

end Layout

/-! ### 32-bit arithmetic -/

/-- A sum of 32-bit numbers; it is undefined where it wraps. -/
def add32 (a b : ℕ) : Option ℕ := if a + b < 2 ^ 32 then some (a + b) else none

/-- A difference of 32-bit numbers; it is undefined where it wraps. -/
def sub32 (a b : ℕ) : Option ℕ := if b ≤ a then some (a - b) else none

/-- `type_width`. -/
def typeWidth32 (t : FieldType) (size : ℕ) : Option ℕ :=
  match t with
  | .text => add32 size 4
  | t => some (typeWidth t size)

/-- The checks on one definition, given those before it. -/
def checkDef32 (before : List FieldDef) (d : FieldDef) : Option (Except Error Unit) :=
  let sized := d.type = .bytes ∨ d.type = .text
  if !identifier d.name || d.name == timeName then
    some (.error ⟨.invalid, "invalid or reserved field name at index " ++ toString before.length⟩)
  else if before.any (·.name == d.name) then
    some (.error ⟨.invalid, "duplicate field: " ++ showName d.name⟩)
  else if (sized ∧ (d.size = 0 ∨ d.size > maxRowBytes)) ∨ (¬ sized ∧ d.size ≠ 0) then
    some (.error ⟨.invalid, "invalid size for " ++ showName d.name⟩)
  else do
    let width ← typeWidth32 d.type d.size
    some (if width = 0 then .error ⟨.invalid, "unknown field type for " ++ showName d.name⟩ else .ok ())

/-- The checking loop, with the number of nullable fields so far. -/
def checkDefs32 (before : List FieldDef) (nullable : ℕ) : List FieldDef → Option (Except Error ℕ)
  | [] => some (.ok nullable)
  | d :: defs => do
    match ← checkDef32 before d with
    | .error e => some (.error e)
    | .ok () =>
      let nullable ← add32 nullable (if d.nullable then 1 else 0)
      checkDefs32 (before ++ [d]) nullable defs

/-- The next free null bit behind a definition. -/
def nextBit32 (bit : ℕ) (d : FieldDef) : Option ℕ := if d.nullable then add32 bit 1 else some bit

/-- The placing loop. -/
def placeFields32 (offset bit : ℕ) : List FieldDef → Option (Except Error (List Field × ℕ))
  | [] => some (.ok ([], offset))
  | d :: defs => do
    let width ← typeWidth32 d.type d.size
    let next ← nextBit32 bit d
    let room ← sub32 maxRowBytes offset
    if width > room then some (.error ⟨.limit, "row exceeds 16384 bytes"⟩)
    else
      let stop ← add32 offset width
      match ← placeFields32 stop next defs with
      | .error e => some (.error e)
      | .ok (fs, stop) => some (.ok ({ placeField offset bit d with width := width } :: fs, stop))

/-- `wadb_schema_build`, with 32-bit operations that are undefined where they wrap; the first sum is
`field_count`. -/
def schemaBuild32 (defs : List FieldDef) : Option (Except Error Schema) :=
  if defs.length ≥ maxFields then some (.error ⟨.invalid, "schema requires at most 255 user fields"⟩)
  else do
    let _ ← add32 defs.length 1
    match ← checkDefs32 [] 0 defs with
    | .error e => some (.error e)
    | .ok nullable =>
      let rounded ← add32 nullable 7
      let offset ← add32 8 (rounded / 8)
      match ← placeFields32 offset 0 defs with
      | .error e => some (.error e)
      | .ok (fs, stop) =>
        let padded ← add32 stop 7
        some (.ok {
          -- `~7u`
          rowWidth := padded &&& 0xfffffff8
          nullBytes := rounded / 8
          fingerprint := ((timeField :: fs).foldl fieldHash hashBasis).toNat
          fields := timeField :: fs })

section Arithmetic

variable {before defs : List FieldDef} {d : FieldDef} {a b offset bit nullable : ℕ}

theorem add32_eq (h : a + b < 2 ^ 32) : add32 a b = some (a + b) := if_pos h

theorem sub32_eq (h : b ≤ a) : sub32 a b = some (a - b) := if_pos h

theorem typeWidth32_eq (h : d.SizeOk) :
    typeWidth32 d.type d.size = some (typeWidth d.type d.size) := by
  cases htype : d.type with
  | text =>
    rw [FieldDef.SizeOk, if_pos (.inr htype), maxRowBytes] at h
    exact add32_eq (by omega)
  | _ => rfl

/-- Rounding up by a mask. -/
theorem and_mask_eq (h : a < 2 ^ 32) : a &&& 0xfffffff8 = a / 8 * 8 := by
  have hmask : (0xfffffff8 : ℕ) = (2 ^ 29 - 1) <<< 3 := by rfl
  have hsplit : a &&& (2 ^ 29 - 1) <<< 3 = (a >>> 3 &&& (2 ^ 29 - 1)) <<< 3 := by
    refine Nat.eq_of_testBit_eq fun i ↦ ?_
    rw [Nat.testBit_and, Nat.testBit_shiftLeft, Nat.testBit_shiftLeft, Nat.testBit_and,
      Nat.testBit_shiftRight]
    by_cases hi : 3 ≤ i
    · rw [Nat.add_sub_cancel' hi]
      cases a.testBit i <;> simp
    · simp [hi]
  rw [hmask, hsplit, Nat.and_two_pow_sub_one_eq_mod, Nat.shiftRight_eq_div_pow, Nat.shiftLeft_eq]
  omega

theorem checkDef32_eq : checkDef32 before d = some (checkDef before d) := by
  unfold checkDef32 checkDef
  dsimp only
  split
  · rfl
  · split
    · rfl
    · split
      · rfl
      next hsize =>
        rw [typeWidth32_eq (FieldDef.sizeOk_iff.2 hsize)]
        simp only [bind_eq_bind, bind_some]

/-- **The checking loop does not wrap.** -/
theorem checkDefs32_eq (h : nullable + defs.length < 2 ^ 32) : checkDefs32 before nullable defs =
    some ((checkDefs before defs).map fun _ ↦ nullable + defs.countP (·.nullable)) := by
  induction defs generalizing before nullable with
  | nil => rfl
  | cons d defs ih =>
    rw [length_cons] at h
    rw [checkDefs32, checkDefs, checkDef32_eq, bind_eq_bind, bind_some]
    cases checkDef before d with
    | error e => rfl
    | ok u =>
      have hone : (if d.nullable = true then 1 else 0) ≤ 1 := by split <;> omega
      dsimp only
      rw [add32_eq (by omega), bind_eq_bind, bind_some, ih (by omega), countP_cons]
      simp only [add_assoc, add_comm]

/-- **The placing loop does not wrap.** -/
theorem placeFields32_eq (hsizes : ∀ d ∈ defs, d.SizeOk) (hoffset : offset ≤ maxRowBytes)
    (hbit : bit + defs.length < 2 ^ 32) :
    placeFields32 offset bit defs = some (placeFields offset bit defs) := by
  have hmax : maxRowBytes = 16384 := rfl
  induction defs generalizing offset bit with
  | nil => rfl
  | cons d defs ih =>
    rw [length_cons] at hbit
    obtain ⟨hsize, hsizes⟩ := forall_mem_cons.1 hsizes
    have hnext : nextBit32 bit d = some (if d.nullable = true then bit + 1 else bit) := by
      unfold nextBit32
      split
      · exact add32_eq (by omega)
      · rfl
    have hwidth : (placeField offset bit d).width = typeWidth d.type d.size := rfl
    have hsame : { placeField offset bit d with width := typeWidth d.type d.size } =
        placeField offset bit d := rfl
    rw [placeFields32, placeFields, typeWidth32_eq hsize, hnext, sub32_eq hoffset]
    simp only [bind_eq_bind, bind_some]
    by_cases hwide : (placeField offset bit d).width > maxRowBytes - offset
    · rw [if_pos hwide, if_pos (hwidth ▸ hwide)]
    · have hbit' : (if d.nullable = true then bit + 1 else bit) + defs.length < 2 ^ 32 := by
        split <;> omega
      rw [if_neg hwide, if_neg (hwidth ▸ hwide), add32_eq (by omega), bind_some,
        ih hsizes (by omega) hbit', bind_some, hsame, hwidth]
      cases placeFields (offset + typeWidth d.type d.size) (if d.nullable = true then bit + 1 else bit)
        defs <;> rfl

/-- **No 32-bit operation of the compiler wraps.** -/
theorem schemaBuild32_eq (defs : List FieldDef) : schemaBuild32 defs = some (schemaBuild defs) := by
  unfold schemaBuild32 schemaBuild
  by_cases hcount : defs.length ≥ maxFields
  · rw [if_pos hcount, if_pos hcount]
  · have hlt : defs.length < maxFields := by omega
    have hmax : maxFields = 256 := rfl
    have hnull := countP_le_length (p := fun d : FieldDef ↦ d.nullable) (l := defs)
    rw [if_neg hcount, if_neg hcount, add32_eq (by omega), checkDefs32_eq (by omega)]
    simp only [bind_eq_bind, bind_some, zero_add]
    cases hcheck : checkDefs [] defs with
    | error e => rfl
    | ok u =>
      obtain ⟨-, -, -, hsizes, -⟩ := checkDefs_eq_ok_iff.1 hcheck
      simp only [Except.map]
      rw [add32_eq (by omega), bind_some, add32_eq (by omega), bind_some]
      have hoffset : 8 + (defs.countP (·.nullable) + 7) / 8 ≤ maxRowBytes :=
        (bitmapBytes_le hlt).trans (by decide)
      rw [placeFields32_eq hsizes hoffset (by omega), bind_some]
      cases hplace : placeFields (8 + (defs.countP (·.nullable) + 7) / 8) 0 defs with
      | error e => rfl
      | ok r =>
        obtain ⟨fs, stop⟩ := r
        have hstop : stop ≤ maxRowBytes :=
          (placeFields_ok (fun d hd ↦ (checkDefs_ok hcheck d hd).1) hplace hoffset).2.1
        rw [maxRowBytes] at hstop
        dsimp only
        rw [add32_eq (by omega), bind_some, and_mask_eq (by omega)]

end Arithmetic

/-- **The layout of schemas.** An accepted list of definitions is compiled to slots that are packed in its
order, no 32-bit operation wraps on the way, and a list that keeps the rules is refused exactly if its packed
width is more than a row may have. -/
theorem schema_layout_exact (defs : List FieldDef) :
    (∀ s, schemaBuild defs = .ok s → s.Packs defs) ∧ schemaBuild32 defs = some (schemaBuild defs) ∧
      (DefsOk defs → ((∃ e, schemaBuild defs = .error e) ↔ maxRowBytes < packedWidth defs)) := by
  refine ⟨fun s ↦ schemaBuild_packs, schemaBuild32_eq defs, fun hdefs ↦ ?_⟩
  have haccepted := schemaBuild_ok_iff defs
  rw [and_iff_right hdefs] at haccepted
  rw [← not_le, ← haccepted]
  cases schemaBuild defs with
  | error e => exact ⟨fun _ ⟨s, hs⟩ ↦ (nomatch hs), fun _ ↦ ⟨e, rfl⟩⟩
  | ok s => exact ⟨fun ⟨e, he⟩ ↦ (nomatch he), fun hno ↦ absurd ⟨s, rfl⟩ hno⟩

/-- One field of bytes. -/
def oneBlob (size : ℕ) : List FieldDef := [⟨[98], .bytes, size, true⟩]

/-- A field that leaves room for the timestamp and the bitmap, and one that is one byte longer. -/
theorem schema_layout_exact_oneBlob : (∃ s, schemaBuild (oneBlob 16375) = .ok s ∧ s.rowWidth = 16384 ∧
    s.Packs (oneBlob 16375)) ∧ ∃ e, schemaBuild (oneBlob 16376) = .error e := by
  have hrules : DefsOk (oneBlob 16376) :=
    ⟨by decide, by decide, List.pairwise_singleton .., List.forall_mem_singleton.2 (by
      unfold FieldDef.SizeOk
      decide), by decide⟩
  have hbuilt : (schemaBuild (oneBlob 16375)).toOption.map (·.rowWidth) = some 16384 := by decide
  refine ⟨?_, ((schema_layout_exact (oneBlob 16376)).2.2 hrules).2 (by decide)⟩
  cases hs : schemaBuild (oneBlob 16375) with
  | error e =>
    rw [hs] at hbuilt
    cases hbuilt
  | ok s =>
    rw [hs] at hbuilt
    exact ⟨s, rfl, Option.some.inj hbuilt, (schema_layout_exact (oneBlob 16375)).1 s hs⟩

end WebAnalyticsDb
