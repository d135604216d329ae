import WebAnalyticsDb.Storage.Manifest

/-!
# The metadata files

Three files describe a database: the **catalog** lists its tables, each table has a **schema** file with
its name and its field definitions, and a manifest. All three have the same envelope: a magic number, a
version, and a checksum over everything before it.

The loaders check every byte that the writers do not leave free, and the writers leave none free. So for
each file the strings that are accepted are exactly the ones that are written: `manifestRead_eq_ok`,
`schemaRead_eq_ok` and `catalogRead_eq_ok` say what is accepted, and with what result.

* **Windows.** A file is a list of parts of fixed width. Reading takes each part from its window, and
  `Shows` puts the windows together again.
* **Names** are stored in 64 bytes, padded with zero bytes. An identifier has no zero byte and is
  shorter, so the name is what stands before the first zero byte.
-/

namespace WebAnalyticsDb

open Bytes List

variable {c : Config} {μ : Type} {p name : Bytes} {n next previous tableId : ℕ} {defs : List FieldDef}

/-! ### The manifest -/

/-- A name in the 64 bytes it is stored in. -/
def paddedName (name : Bytes) : Bytes := name ++ zeros (nameCap - name.length)

/-- `stored_name`, and the name it finds in its 64 bytes. -/
def storedName (p : Bytes) : Option Bytes :=
  let name := p.takeWhile (· ≠ 0)
  if name.length < p.length ∧ identifier name = true ∧ isZero (p.drop name.length) = true then some name
  else none

theorem identifierByte_ne_zero {first : Bool} {b : UInt8} (h : identifierByte first b = true) :
    b ≠ 0 := by
  rintro rfl
  cases first <;> exact absurd h (by decide)

/-- An identifier is short and has no zero byte. -/
theorem identifier_bounds (h : identifier name = true) : name.length < nameCap ∧ ∀ b ∈ name, b ≠ 0 := by
  cases name with
  | nil => cases h
  | cons b rest =>
    simp only [identifier, Bool.and_eq_true, decide_eq_true_eq, all_eq_true] at h
    obtain ⟨⟨hb, hrest⟩, hlen⟩ := h
    refine ⟨by simpa using hlen, fun b' hb' ↦ ?_⟩
    rcases mem_cons.1 hb' with rfl | hb'
    · exact identifierByte_ne_zero hb
    · exact identifierByte_ne_zero (hrest b' hb')

theorem length_paddedName (h : name.length < nameCap) : (paddedName name).length = 64 := by
  unfold nameCap at h
  simp only [paddedName, length_append, length_zeros, nameCap]
  omega

/-- **The names that are accepted.** -/
theorem storedName_eq_some (hlen : p.length = 64) :
    storedName p = some name ↔ identifier name = true ∧ p = paddedName name := by
  unfold storedName
  constructor
  · intro h
    simp only at h
    split at h
    next hgood =>
      obtain ⟨hlt, hid, hzero⟩ := hgood
      cases h
      refine ⟨hid, ?_⟩
      have hfront : p.takeWhile (· ≠ 0) <+: p := takeWhile_prefix _
      have hsplit : p = p.takeWhile (· ≠ 0) ++ p.drop (p.takeWhile (· ≠ 0)).length := by
        conv_lhs => rw [← take_append_drop (p.takeWhile (· ≠ 0)).length p]
        rw [← prefix_iff_eq_take.1 hfront]
      rw [isZero_iff, length_drop, hlen] at hzero
      rw [hzero] at hsplit
      exact hsplit
    next => cases h
  · rintro ⟨hid, rfl⟩
    obtain ⟨hcap, hne⟩ := identifier_bounds hid
    have htake : (paddedName name).takeWhile (· ≠ 0) = name := by
      have hpos : nameCap - name.length = (nameCap - name.length - 1) + 1 := by omega
      rw [paddedName, takeWhile_append_of_pos (by simpa using hne), hpos, zeros,
        replicate_succ, takeWhile_cons_of_neg (by simp), append_nil]
    simp only [htake]
    have hdrop : (paddedName name).drop name.length = zeros (nameCap - name.length) :=
      drop_left' rfl
    have hzero : isZero ((paddedName name).drop name.length) = true := by
      rw [hdrop]
      exact isZero_zeros _
    rw [if_pos ⟨hlen ▸ hcap, hid, hzero⟩]

/-! ### The schema -/

/-- `WADBSCH1`. -/
def schemaMagic : Bytes := [87, 65, 68, 66, 83, 67, 72, 49]

/-- The type with a stored number. -/
def FieldType.ofCode : ℕ → FieldType
  | 1 => .i8
  | 2 => .u8
  | 3 => .i16
  | 4 => .u16
  | 5 => .i32
  | 6 => .u32
  | 7 => .i64
  | 8 => .u64
  | 9 => .f32
  | 10 => .f64
  | 11 => .bool
  | 12 => .timestampUs
  | 13 => .uuid
  | 14 => .bytes
  | 15 => .text
  | 16 => .symbol32
  | _ => .unknown

theorem FieldType.ofCode_code (t : FieldType) : ofCode t.code = t := by
  cases t <;> rfl

theorem FieldType.code_ofCode (h : ofCode n ≠ .unknown) : (ofCode n).code = n := by
  unfold ofCode at h ⊢
  split at h <;> first | rfl | exact absurd rfl h

theorem FieldType.code_lt (t : FieldType) : t.code < 256 ^ 4 := by
  cases t <;> decide

/-- The definition that a field was compiled from. -/
def Field.toDef (f : Field) : FieldDef := ⟨f.name, f.type, f.size, f.nullable⟩

/-- The fields of a record of the schema file. -/
def FieldDef.parts (d : FieldDef) : List Bytes :=
  [paddedName d.name, ofNatLE 4 d.type.code, ofNatLE 4 d.size, ofNatLE 4 (if d.nullable then 1 else 0),
    zeros 4]

/-- The 80 bytes of a record. -/
def FieldDef.image (d : FieldDef) : Bytes := d.parts.flatten

/-- The fields of the schema file before its records. -/
def schemaParts (tableId : ℕ) (name : Bytes) (s : Schema) : List Bytes :=
  [schemaMagic, ofNatLE 4 formatVersion, ofNatLE 4 (s.fieldCount - 1), ofNatLE 8 tableId,
    ofNatLE 8 s.fingerprint, ofNatLE 4 s.rowWidth, ofNatLE 4 s.nullBytes, paddedName name, zeros 24]

/-- The schema file before its checksum. -/
def schemaBody (tableId : ℕ) (name : Bytes) (s : Schema) : Bytes :=
  (schemaParts tableId name s).flatten ++ s.userFields.flatMap (·.toDef.image)

/-- The bytes of the schema file. -/
def schemaImage (tableId : ℕ) (name : Bytes) (s : Schema) : Bytes :=
  withChecksum (schemaBody tableId name s)

/-- The record loop of `wadb_load_schema`, with the number of records left. -/
def defsLoop : ℕ → Bytes → Option (List FieldDef)
  | 0, _ => some []
  | n + 1, p =>
    match storedName (slice p 0 64) with
    | none => none
    | some name =>
      if getLE 4 p 72 > 1 ∨ isZero (slice p 76 4) = false then none
      else
        (⟨name, .ofCode (getLE 4 p 64), getLE 4 p 68, getLE 4 p 72 ≠ 0⟩ :: ·) <$>
          defsLoop n (p.drop 80)

/-- What a schema file holds: the name of the table, the definitions and the compiled schema. -/
structure StoredSchema where
  name : Bytes
  defs : List FieldDef
  schema : Schema
  /-- The definitions were compiled. -/
  built : schemaBuild defs = .ok schema
deriving DecidableEq

/-- The header checks of `wadb_load_schema`. -/
def schemaHeaderValid (tableId : ℕ) (p : Bytes) : Bool :=
  getLE 4 p 12 < maxFields && p.length = 132 + getLE 4 p 12 * 80 && getLE 8 p 16 = tableId &&
    isZero (slice p 104 24)

/-- The schema is the one whose layout is recorded. -/
def schemaMatches (s : Schema) (p : Bytes) : Bool :=
  s.fingerprint = getLE 8 p 24 && s.rowWidth = getLE 4 p 32 && s.nullBytes = getLE 4 p 36

/-- The schema found in the bytes of a file. -/
def schemaRead (tableId : ℕ) (p : Bytes) : Except Error StoredSchema :=
  let corrupt := .error ⟨.corrupt, "invalid persisted table schema"⟩
  match envelope p schemaMagic 132 with
  | .error e => .error e
  | .ok () =>
    match schemaHeaderValid tableId p, storedName (slice p 40 64),
      defsLoop (getLE 4 p 12) (p.drop 128) with
    | true, some name, some defs =>
      match hbuild : schemaBuild defs with
      | .error _ => corrupt
      | .ok s => if schemaMatches s p then .ok ⟨name, defs, s, hbuild⟩ else corrupt
    | _, _, _ => corrupt

/-! ### What is accepted as a schema -/

theorem checkDef_names {before : List FieldDef} {d : FieldDef} (h : checkDef before d = .ok ()) :
    identifier d.name = true ∧ d.type ≠ .unknown := by
  have hwidth := (checkDef_ok h).1
  unfold checkDef at h
  simp only at h
  split at h
  · cases h
  next hname =>
    simp only [Bool.or_eq_true, Bool.not_eq_true', not_or, Bool.not_eq_false] at hname
    refine ⟨hname.1, fun hunknown ↦ ?_⟩
    rw [hunknown] at hwidth
    exact absurd hwidth (lt_irrefl 0)

theorem checkDefs_names {before : List FieldDef} (h : checkDefs before defs = .ok ()) :
    ∀ d ∈ defs, identifier d.name = true ∧ d.type ≠ .unknown := by
  induction defs generalizing before with
  | nil => simp
  | cons d defs ih =>
    rw [checkDefs] at h
    split at h
    · cases h
    next hd =>
      intro d' hd'
      rcases mem_cons.1 hd' with rfl | hd'
      · exact checkDef_names hd
      · exact ih h d' hd'

theorem placeFields_toDef {offset bit stop : ℕ} {fs : List Field}
    (h : placeFields offset bit defs = .ok (fs, stop)) : fs.map Field.toDef = defs := by
  induction defs generalizing offset bit fs with
  | nil =>
    rw [placeFields] at h
    cases h
    rfl
  | cons d defs ih =>
    rw [placeFields] at h
    split at h
    · cases h
    · split at h
      · cases h
      next fs' stop' hrest =>
        cases h
        rw [map_cons, ih hrest]
        rfl

/-- **The definitions of a compiled schema** are those that were compiled. -/
theorem schemaBuild_defs {s : Schema} (h : schemaBuild defs = .ok s) :
    s.userFields.map Field.toDef = defs ∧ defs.length < maxFields ∧
      ∀ d ∈ defs, identifier d.name = true ∧ d.type ≠ .unknown ∧ d.size ≤ maxRowBytes := by
  unfold schemaBuild at h
  split at h
  · cases h
  next hlen =>
    split at h
    · cases h
    next hcheck =>
      simp only at h
      split at h
      · cases h
      next fs stop hplace =>
        cases h
        refine ⟨placeFields_toDef hplace, not_le.1 hlen, fun d hd ↦ ?_⟩
        obtain ⟨hid, htype⟩ := checkDefs_names hcheck d hd
        exact ⟨hid, htype, (checkDefs_ok hcheck d hd).2⟩

theorem FieldDef.length_image {d : FieldDef} (h : identifier d.name = true) : d.image.length = 80 := by
  simp [FieldDef.image, FieldDef.parts, length_paddedName (identifier_bounds h).1]

/-- **The records read back**, one by one. -/
theorem defsLoop_flatMap (rest : Bytes)
    (h : ∀ d ∈ defs, identifier d.name = true ∧ d.type ≠ .unknown ∧ d.size ≤ maxRowBytes) :
    defsLoop defs.length (defs.flatMap FieldDef.image ++ rest) = some defs := by
  induction defs with
  | nil => rfl
  | cons d defs ih =>
    obtain ⟨hid, -, hsize⟩ := h d mem_cons_self
    have hname := length_paddedName (identifier_bounds hid).1
    obtain ⟨p, hp⟩ : ∃ p, p = d.image ++ (defs.flatMap FieldDef.image ++ rest) := ⟨_, rfl⟩
    have hshows : Shows p 0 d.parts := by
      rw [hp]
      exact shows_flatten _ _
    simp only [FieldDef.parts, Shows, length_ofNatLE, length_zeros, hname, Nat.reduceAdd, and_true] at hshows
    obtain ⟨w0, w1, w2, w3, w4⟩ := hshows
    have h0 : storedName (slice p 0 64) = some d.name := by
      rw [w0]
      exact (storedName_eq_some hname).2 ⟨hid, rfl⟩
    have h1 := getLE_of_slice w1 d.type.code_lt
    have h2 := getLE_of_slice w2 (by unfold maxRowBytes at hsize; omega)
    have h3 := getLE_of_slice w3 (by split <;> decide)
    have h5 : p.drop 80 = defs.flatMap FieldDef.image ++ rest := by
      rw [hp]
      exact drop_left' (FieldDef.length_image hid)
    rw [flatMap_cons, append_assoc, ← hp, length_cons, defsLoop, h0]
    simp only [h1, h2, h3, w4, h5, isZero_zeros, Bool.true_eq_false, or_false,
      ih fun d' hd' ↦ h d' (mem_cons_of_mem d hd'), FieldType.ofCode_code]
    rcases d with ⟨name, type, size, nullable⟩
    cases nullable <;> rfl

/-- **What the record loop accepts**, if the types are known. -/
theorem defsLoop_eq_some (hlen : n * 80 ≤ p.length)
    (h : defsLoop n p = some defs) (htypes : ∀ d ∈ defs, d.type ≠ .unknown) :
    defs.length = n ∧ slice p 0 (n * 80) = defs.flatMap FieldDef.image := by
  induction n generalizing p defs with
  | zero =>
    cases h
    exact ⟨rfl, by simp [slice]⟩
  | succ n ih =>
    rw [defsLoop] at h
    have hwindow : (slice p 0 64).length = 64 := length_slice_of_le (by omega)
    cases hname : storedName (slice p 0 64) with
    | none =>
      rw [hname] at h
      cases h
    | some name =>
      rw [hname] at h
      simp only at h
      split at h
      · cases h
      next hgood =>
        simp only [not_or, not_lt, Bool.not_eq_false] at hgood
        obtain ⟨hnull, hzero⟩ := hgood
        obtain ⟨rest, hrest, rfl⟩ := Option.map_eq_some_iff.1 h
        have hdrop : n * 80 ≤ (p.drop 80).length := by
          rw [length_drop]
          omega
        obtain ⟨hcount, hbytes⟩ := ih hdrop hrest fun d hd ↦ htypes d (mem_cons_of_mem _ hd)
        obtain ⟨hid, hpadded⟩ := (storedName_eq_some hwindow).1 hname
        have hcode := FieldType.code_ofCode (htypes _ mem_cons_self)
        have hle {off n : ℕ} (h : off + n ≤ 80) : off + n ≤ p.length := by omega
        refine ⟨by rw [length_cons, hcount], ?_⟩
        obtain ⟨d, hd⟩ : ∃ d : FieldDef, d = ⟨name, .ofCode (getLE 4 p 64), getLE 4 p 68,
          getLE 4 p 72 ≠ 0⟩ := ⟨_, rfl⟩
        have hshows : Shows p 0 d.parts := by
          simp only [hd, FieldDef.parts, Shows, length_ofNatLE, length_zeros,
            length_paddedName (identifier_bounds hid).1, Nat.reduceAdd, and_true]
          refine ⟨hpadded, slice_eq_ofNatLE (hle (by decide)) hcode.symm,
            slice_eq_ofNatLE (hle (by decide)) rfl, ?_, slice_eq_zeros (hle (by decide)) hzero⟩
          rw [← ofNatLE_getLE (hle (by decide))]
          obtain h0 | h1 : getLE 4 p 72 = 0 ∨ getLE 4 p 72 = 1 := by omega
          · simp [h0]
          · simp [h1]
        have hrecord := hshows.slice_eq
        rw [show d.parts.flatten.length = 80 from FieldDef.length_image (by rw [hd]; exact hid)] at hrecord
        rw [slice_drop] at hbytes
        rw [Nat.succ_mul, add_comm, slice_add, zero_add, hbytes, hrecord, ← hd]
        rfl

theorem length_schemaParts (s : Schema) (h : identifier name = true) :
    (schemaParts tableId name s).flatten.length = 128 := by
  simp [schemaParts, schemaMagic, length_paddedName (identifier_bounds h).1]

/-- **The schema files that are accepted** are the ones that are written, and no others. -/
theorem schemaRead_eq_ok (hid : tableId < 2 ^ 64) {x : StoredSchema} : schemaRead tableId p = .ok x ↔
      identifier x.name = true ∧ p = schemaImage tableId x.name x.schema := by
  constructor
  · intro h
    unfold schemaRead at h
    simp only at h
    split at h
    · cases h
    next henv =>
      split at h
      next name defs hheader hname hdefs =>
        split at h
        · cases h
        next s hbuild =>
          split at h
          next hmatches =>
            cases h
            obtain ⟨hmin, hmagic, hversion, hsum⟩ := (envelope_eq_ok (by decide)).1 henv
            simp only [schemaHeaderValid, Bool.and_eq_true, decide_eq_true_eq] at hheader
            obtain ⟨⟨⟨hcount, hlen⟩, htable⟩, hpad⟩ := hheader
            simp only [schemaMatches, Bool.and_eq_true, decide_eq_true_eq] at hmatches
            obtain ⟨⟨hfp, hwidth⟩, hnull⟩ := hmatches
            obtain ⟨hfields, -, hall⟩ := schemaBuild_defs hbuild
            have hle {off n : ℕ} (h : off + n ≤ 128) : off + n ≤ p.length := by omega
            have hnum {off w v : ℕ} (h : off + w ≤ 128) (hv : getLE w p off = v) :
                slice p off w = ofNatLE w v :=
              slice_eq_ofNatLE (hle h) hv
            have hdrop : getLE 4 p 12 * 80 ≤ (p.drop 128).length := by
              rw [length_drop]
              omega
            obtain ⟨hn, hbytes⟩ := defsLoop_eq_some hdrop hdefs fun d hd ↦ (hall d hd).2.1
            have hwindow : (slice p 40 64).length = 64 := length_slice_of_le (hle (by decide))
            obtain ⟨hident, hpadded⟩ := (storedName_eq_some hwindow).1 hname
            have hfieldCount : s.fieldCount - 1 = getLE 4 p 12 := by
              rw [(schemaBuild_layout hbuild).fieldCount_eq, Nat.add_sub_cancel, ← hn, ← hfields,
                length_map]
            refine ⟨hident, ?_⟩
            have hshows : Shows p 0 (schemaParts tableId name s) := by
              simp only [schemaParts, Shows, length_ofNatLE, length_zeros, schemaMagic, length_cons,
                length_nil, length_paddedName (identifier_bounds hident).1, Nat.reduceAdd, and_true]
              exact ⟨hmagic, hnum (by decide) hversion, hnum (by decide) hfieldCount.symm,
                hnum (by decide) htable, hnum (by decide) hfp.symm, hnum (by decide) hwidth.symm,
                hnum (by decide) hnull.symm, hpadded, slice_eq_zeros (hle (by decide)) hpad⟩
            have hrecords : s.userFields.flatMap (·.toDef.image) = defs.flatMap FieldDef.image := by
              rw [← hfields, flatMap_map]
            exact eq_withChecksum hsum hshows (length_schemaParts s hident) (by omega)
              (hbytes.trans hrecords.symm)
          next => cases h
      next => cases h
  · rintro ⟨hident, rfl⟩
    obtain ⟨name, defs, s, hbuild⟩ := x
    dsimp only at hident ⊢
    have hlayout := schemaBuild_layout hbuild
    obtain ⟨hfields, hcount, hall⟩ := schemaBuild_defs hbuild
    have hname := length_paddedName (identifier_bounds hident).1
    obtain ⟨p, hp⟩ : ∃ p, p = schemaImage tableId name s := ⟨_, rfl⟩
    have hrecords : s.userFields.flatMap (·.toDef.image) = defs.flatMap FieldDef.image := by
      rw [← hfields, flatMap_map]
    have hp' : p = (schemaParts tableId name s).flatten ++ (defs.flatMap FieldDef.image ++
        ofNatLE 4 (crc32c (schemaBody tableId name s))) := by
      rw [hp, schemaImage, withChecksum, ← hrecords, ← append_assoc]
      rfl
    have hbytes : (defs.flatMap FieldDef.image).length = defs.length * 80 :=
      length_flatMap_uniform fun d hd ↦ FieldDef.length_image (hall d hd).1
    have hlen : p.length = 132 + defs.length * 80 := by
      rw [hp', length_append, length_append, length_schemaParts s hident, hbytes,
        length_ofNatLE]
      omega
    have hfieldCount : s.fieldCount - 1 = defs.length := by
      rw [hlayout.fieldCount_eq, Nat.add_sub_cancel, ← hfields, length_map]
    have hmax : maxFields = 256 := rfl
    have hrow : s.rowWidth ≤ 16384 := hlayout.width
    have hshows : Shows p 0 (schemaParts tableId name s) := by
      rw [hp']
      exact shows_flatten _ _
    simp only [schemaParts, Shows, length_ofNatLE, length_zeros, schemaMagic, length_cons,
      length_nil, hname, Nat.reduceAdd, and_true] at hshows
    obtain ⟨hmagic, w1, w2, w3, w4, w5, w6, w7, w8⟩ := hshows
    have hnull : s.nullBytes < 256 ^ 4 := by
      have := hlayout.bitmap
      have := countP_le_length (p := fun f : Field ↦ f.nullable) (l := s.userFields)
      have := hlayout.fieldCount_eq
      omega
    have g2 := (getLE_of_slice w2 (by omega)).trans hfieldCount
    have g3 := getLE_of_slice w3 (by omega)
    have g4 := getLE_of_slice w4 hlayout.fingerprint
    have g5 := getLE_of_slice w5 (by omega)
    have g6 := getLE_of_slice w6 hnull
    have g7 : storedName (slice p 40 64) = some name := by
      rw [w7]
      exact (storedName_eq_some hname).2 ⟨hident, rfl⟩
    have g9 : defsLoop defs.length (p.drop 128) = some defs := by
      rw [hp', drop_left' (length_schemaParts s hident)]
      exact defsLoop_flatMap _ hall
    have henv : envelope p schemaMagic 132 = .ok () :=
      envelope_withChecksum hp (by decide) (by omega) hmagic (getLE_of_slice w1 (by decide))
    have hheader : schemaHeaderValid tableId p = true := by
      simp only [schemaHeaderValid, g2, g3, isZero_of_slice w8, Bool.and_eq_true, decide_eq_true_eq, and_true]
      exact ⟨hcount, hlen⟩
    have hmatches : schemaMatches s p = true := by
      simp [schemaMatches, g4, g5, g6]
    rw [← hp]
    simp only [schemaRead, henv, hheader, g2, g7, g9]
    split
    next hno =>
      rw [hbuild] at hno
      cases hno
    next s' hbuild' =>
      cases hbuild.symm.trans hbuild'
      rw [if_pos hmatches]

/-! ### The catalog -/

/-- `WADBCAT1`. -/
def catalogMagic : Bytes := [87, 65, 68, 66, 67, 65, 84, 49]

/-- What the catalog records: the identifiers of the tables and the next one to be used. -/
structure Catalog where
  ids : List ℕ
  next : ℕ
deriving DecidableEq, Repr

/-- The fields of the catalog before its records. -/
def Catalog.parts (k : Catalog) : List Bytes :=
  [catalogMagic, ofNatLE 4 formatVersion, ofNatLE 4 32, ofNatLE 4 k.ids.length, zeros 4,
    ofNatLE 8 k.next]

/-- The catalog before its checksum. -/
def Catalog.body (k : Catalog) : Bytes := k.parts.flatten ++ k.ids.flatMap (ofNatLE 8)

/-- The bytes of the catalog file. -/
def Catalog.image (k : Catalog) : Bytes := withChecksum k.body

/-- The header checks of `wadb_load_catalog`. -/
def catalogHeaderValid (p : Bytes) : Bool :=
  getLE 4 p 12 = 32 && isZero (slice p 20 4) && getLE 8 p 24 ≠ 0 && getLE 4 p 16 ≤ maxTables &&
    p.length = 36 + getLE 4 p 16 * 8

/-- An identifier that a table may get next. -/
abbrev NextId : Type := { n : ℕ // 0 < n ∧ n < 2 ^ 64 }

theorem next_of_headerValid (h : catalogHeaderValid p = true) :
    0 < getLE 8 p 24 ∧ getLE 8 p 24 < 2 ^ 64 := by
  simp only [catalogHeaderValid, Bool.and_eq_true, decide_eq_true_eq] at h
  exact ⟨pos_of_ne_zero h.1.1.2, getLE_lt 8 p 24⟩

/-- `wadb_load_catalog` up to its loop: the number of tables and the next identifier. -/
def catalogHeader (o : Options) (p : Bytes) : Except Error (ℕ × NextId) :=
  match envelope p catalogMagic 36 with
  | .error e => .error e
  | .ok () =>
    if h : catalogHeaderValid p = true then
      if o.maxTables < getLE 4 p 16 then
        .error ⟨.limit, "configured table limit is below catalog size"⟩
      else .ok (getLE 4 p 16, ⟨getLE 8 p 24, next_of_headerValid h⟩)
    else .error ⟨.corrupt, "invalid catalog records"⟩

/-- The identifiers, with the number of records left. -/
def idsLoop (next : ℕ) : ℕ → ℕ → Bytes → Option (List ℕ)
  | 0, _, _ => some []
  | n + 1, previous, p =>
    let id := getLE 8 p 0
    if id ≤ previous ∨ next ≤ id then none else (id :: ·) <$> idsLoop next n id (p.drop 8)

/-- The catalog found in the bytes of a file. -/
def catalogRead (o : Options) (p : Bytes) : Except Error Catalog :=
  match catalogHeader o p with
  | .error e => .error e
  | .ok (count, next) =>
    match idsLoop next.1 count 0 (p.drop 32) with
    | none => .error ⟨.corrupt, "invalid catalog records"⟩
    | some ids => .ok ⟨ids, next.1⟩

/-- Identifiers that increase from `previous` and stay below `next`. -/
def IdsOk (next : ℕ) : ℕ → List ℕ → Prop
  | _, [] => True
  | previous, id :: ids => previous < id ∧ id < next ∧ IdsOk next id ids

/-- **A catalog the loader accepts** with the options `o`. -/
structure Catalog.Ok (o : Options) (k : Catalog) : Prop where
  next : 0 < k.next ∧ k.next < 2 ^ 64
  length_le : k.ids.length ≤ maxTables
  limit : k.ids.length ≤ o.maxTables
  ids : IdsOk k.next 0 k.ids

theorem idsLoop_flatMap {ids : List ℕ} (hnext : next < 2 ^ 64)
    (h : IdsOk next previous ids) (rest : Bytes) :
    idsLoop next ids.length previous (ids.flatMap (ofNatLE 8) ++ rest) = some ids := by
  induction ids generalizing previous with
  | nil => rfl
  | cons id ids ih =>
    obtain ⟨hprev, hlt, hrest⟩ := h
    have hget : getLE 8 (ofNatLE 8 id ++ (ids.flatMap (ofNatLE 8) ++ rest)) 0 = id :=
      getLE_append_mid (a := []) rfl (by omega)
    rw [flatMap_cons, append_assoc, length_cons, idsLoop]
    simp only [hget]
    rw [if_neg (by omega), drop_left' (length_ofNatLE 8 id), ih hrest]
    rfl

theorem idsLoop_eq_some {ids : List ℕ} (hlen : n * 8 ≤ p.length)
    (h : idsLoop next n previous p = some ids) :
    ids.length = n ∧ IdsOk next previous ids ∧ slice p 0 (n * 8) = ids.flatMap (ofNatLE 8) := by
  induction n generalizing previous p ids with
  | zero =>
    cases h
    exact ⟨rfl, trivial, by simp [slice]⟩
  | succ n ih =>
    rw [idsLoop] at h
    split at h
    · cases h
    next hgood =>
      obtain ⟨rest, hrest, rfl⟩ := Option.map_eq_some_iff.1 h
      have hdrop : n * 8 ≤ (p.drop 8).length := by
        rw [length_drop]
        omega
      obtain ⟨hcount, hids, hbytes⟩ := ih hdrop hrest
      refine ⟨by rw [length_cons, hcount], ⟨by omega, by omega, hids⟩, ?_⟩
      rw [slice_drop] at hbytes
      rw [Nat.succ_mul, add_comm, slice_add, zero_add, hbytes, ← ofNatLE_getLE (by omega)]
      rfl

theorem Catalog.length_parts (k : Catalog) : k.parts.flatten.length = 32 := by
  simp [Catalog.parts, catalogMagic]

theorem Catalog.length_image (k : Catalog) : k.image.length = 36 + k.ids.length * 8 := by
  rw [Catalog.image, length_withChecksum, Catalog.body, length_append, k.length_parts,
    length_flatMap_uniform fun id _ ↦ length_ofNatLE 8 id]
  omega

theorem Catalog.image_eq (k : Catalog) :
    k.image = k.parts.flatten ++ (k.ids.flatMap (ofNatLE 8) ++ ofNatLE 4 (crc32c k.body)) := by
  rw [Catalog.image, withChecksum, Catalog.body, append_assoc]

/-- The records of a catalog and its checksum. -/
theorem Catalog.drop_image (k : Catalog) :
    k.image.drop 32 = k.ids.flatMap (ofNatLE 8) ++ ofNatLE 4 (crc32c k.body) := by
  rw [k.image_eq, drop_left' k.length_parts]

/-- **The header reads back.** -/
theorem Catalog.Ok.header {o : Options} {k : Catalog} (h : k.Ok o) :
    catalogHeader o k.image = .ok (k.ids.length, ⟨k.next, h.next⟩) := by
  obtain ⟨hnext, hlen, hlimit, hids⟩ := h
  obtain ⟨p, hp⟩ : ∃ p, p = k.image := ⟨_, rfl⟩
  have hp' := hp.trans k.image_eq
  have hmax : maxTables = 1024 := rfl
  have hshows : Shows p 0 k.parts := by
    rw [hp']
    exact shows_flatten _ _
  simp only [Catalog.parts, Shows, length_ofNatLE, length_zeros, catalogMagic, length_cons,
    length_nil, Nat.reduceAdd, and_true] at hshows
  obtain ⟨hmagic, w1, w2, w3, w4, w5⟩ := hshows
  have g2 := getLE_of_slice w2 (by decide)
  have g3 := getLE_of_slice w3 (by omega)
  have g5 := getLE_of_slice w5 (by omega)
  have hlength : p.length = 36 + k.ids.length * 8 := by rw [hp, k.length_image]
  have henv : envelope p catalogMagic 36 = .ok () :=
    envelope_withChecksum hp (by decide) (by omega) hmagic (getLE_of_slice w1 (by decide))
  have hheader : catalogHeaderValid p = true := by
    simp only [catalogHeaderValid, g2, g3, isZero_of_slice w4, g5, Bool.and_eq_true, decide_eq_true_eq,
      and_true, true_and]
    exact ⟨⟨hnext.1.ne', hlen⟩, hlength⟩
  rw [← hp]
  simp only [catalogHeader, henv, hheader, g3, g5, dif_pos, if_neg (not_lt.2 hlimit)]

/-- **The catalogs that are accepted** are the ones that are written, and no others. -/
theorem catalogRead_eq_ok {o : Options} {k : Catalog} :
    catalogRead o p = .ok k ↔ k.Ok o ∧ p = k.image := by
  constructor
  · intro h
    unfold catalogRead catalogHeader at h
    split at h
    · cases h
    next count next hhead =>
      split at hhead
      · cases hhead
      next henv =>
        split at hhead
        case isFalse => cases hhead
        next hheader =>
          split at hhead
          · cases hhead
          next hlimit =>
            cases hhead
            split at h
            · cases h
            next ids hids =>
              cases h
              obtain ⟨hmin, hmagic, hversion, hsum⟩ := (envelope_eq_ok (by decide)).1 henv
              simp only [catalogHeaderValid, Bool.and_eq_true, decide_eq_true_eq] at hheader
              obtain ⟨⟨⟨⟨hsize, hpad⟩, hnext⟩, hcount⟩, hlen⟩ := hheader
              have hle {off n : ℕ} (h : off + n ≤ 32) : off + n ≤ p.length := by omega
              have hdrop : getLE 4 p 16 * 8 ≤ (p.drop 32).length := by
                rw [length_drop]
                omega
              obtain ⟨hn, hok, hbytes⟩ := idsLoop_eq_some hdrop hids
              refine ⟨⟨⟨pos_of_ne_zero hnext, getLE_lt 8 p 24⟩, hn.trans_le hcount,
                hn.trans_le (not_lt.1 hlimit), hok⟩, ?_⟩
              have hshows : Shows p 0 (Catalog.parts ⟨ids, getLE 8 p 24⟩) := by
                simp only [Catalog.parts, Shows, length_ofNatLE, length_zeros, catalogMagic,
                  length_cons, length_nil, Nat.reduceAdd, and_true]
                exact ⟨hmagic, slice_eq_ofNatLE (hle (by decide)) hversion,
                  slice_eq_ofNatLE (hle (by decide)) hsize, slice_eq_ofNatLE (hle (by decide)) hn.symm,
                  slice_eq_zeros (hle (by decide)) hpad, slice_eq_ofNatLE (hle (by decide)) rfl⟩
              exact eq_withChecksum hsum hshows (Catalog.length_parts _) (by omega) hbytes
  · rintro ⟨hk, rfl⟩
    have hloop : idsLoop k.next k.ids.length 0 (k.image.drop 32) = some k.ids := by
      rw [k.drop_image]
      exact idsLoop_flatMap hk.next.2 hk.ids _
    simp only [catalogRead, hk.header, hloop]

end WebAnalyticsDb
