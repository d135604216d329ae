import WebAnalyticsDb.Core.RowCanonical
import WebAnalyticsDb.Storage.Symbols

/-!
# Resolving, rolling back, exporting and replaying symbols

The remaining operations of a dictionary, on the symbols it stands for.

* `dictionaryResolve_eq`: resolving is looking a string up in its column.
* `Dictionary.Rep.rollback`: rolling back to a mark leaves the symbols up to the mark.
* `definitions S T` is the section that defines `T` after `S`: what export writes
  (`wp_dictionaryExportLimit`), what the frame check accepts (`dictionaryValid_definitions`) and what
  replay reads back (`wp_dictionaryApply`).
* Replaying from scratch stays within any budget the symbols were written under: the budget can only
  be exceeded when `minAlloc` exceeds it.
-/

namespace WebAnalyticsDb

open Bytes List

variable {d : Dictionary} {S T : Symbols} {env : Env Path Dir} {fs : Files} {n : ℕ}

/-! ### Resolvers -/

namespace Symbols

/-- The strings of the identifiers that `S` defines. -/
def decode (s : Schema) (S : Symbols) : SymbolDecode := fun field id ↦
  let undefinedSymbol : Except Error Bytes := .error ⟨.corrupt, "row references an undefined symbol"⟩
  if field = 0 ∨ field ≥ s.fieldCount ∨ id = 0 ∨ s.isSymbol field = false then undefinedSymbol
  else
    match (S.column field)[id - 1]? with
    | none => undefinedSymbol
    | some data => .ok data

/-- The identifiers of the symbols that `S` defines. -/
def encode (S : Symbols) : SymbolEncode := fun field data ↦
  if (field, data) ∈ S then .ok (S.idOf field data)
  else .error ⟨.invalid, "invalid symbol field or string"⟩

variable {data : Bytes} {field : ℕ}

theorem encode_of_mem (h : (field, data) ∈ S) : S.encode field data = .ok (S.idOf field data) :=
  if_pos h

/-- The identifier given by some symbols decodes under any extension of them. -/
theorem decode_idOf {s : Schema} (hpre : S <+: T)
    (hmem : (field, data) ∈ S) (hok : SymbolOk s (field, data)) :
    T.decode s field (S.idOf field data) = .ok data := by
  obtain ⟨h1, h2, h3, -, -⟩ := hok
  simp only at h1 h2 h3
  rw [← idOf_of_isPrefix hpre hmem, decode, if_neg (by simp [h1, h2, h3, idOf]),
    getElem?_idOf (hpre.subset hmem)]

/-- An identifier decodes to the one string that it is the identifier of. -/
theorem decode_eq_ok_iff {s : Schema} (hnodup : S.Nodup) (hvalid : ∀ x ∈ S, SymbolOk s x) {id : ℕ} :
    S.decode s field id = .ok data ↔ (field, data) ∈ S ∧ id = S.idOf field data := by
  constructor
  · intro hdec
    unfold decode at hdec
    simp only at hdec
    split at hdec
    · cases hdec
    next hargs =>
    split at hdec <;> cases hdec
    next hget =>
    -- the column holds no string twice
    obtain ⟨hlt, hget⟩ := List.getElem?_eq_some_iff.1 hget
    have hpos : 0 < id := pos_of_ne_zero fun h0 ↦ hargs (.inr (.inr (.inl h0)))
    refine ⟨mem_column.1 (hget ▸ getElem_mem hlt), ?_⟩
    rw [idOf, ← hget, (nodup_column hnodup field).idxOf_getElem, Nat.sub_add_cancel hpos]
  · rintro ⟨hin, rfl⟩
    exact decode_idOf (prefix_refl S) hin (hvalid _ hin)

end Symbols

/-- **Resolving** is looking up the column. -/
theorem Dictionary.Sound.resolve_eq (h : d.Sound S) : dictionaryResolve d = S.decode d.schema := by
  funext field id
  unfold dictionaryResolve Symbols.decode
  by_cases hargs : field = 0 ∨ field ≥ d.schema.fieldCount ∨ id = 0 ∨ d.schema.isSymbol field = false
  · rw [if_pos (by tauto), if_pos hargs]
  · have hf : field < d.schema.fieldCount := by
      by_contra hge
      exact hargs (.inr (.inl (by omega)))
    have hlen := h.length_indices hf
    rw [if_neg hargs]
    by_cases hid : id > (S.column field).length
    · rw [if_pos (by rw [hlen]; tauto), getElem?_eq_none (by omega)]
    · rw [if_neg (by rw [hlen]; tauto), h.indices field hf]
      have hid0 : id ≠ 0 := fun h0 ↦ hargs (.inr (.inr (.inl h0)))
      have hlt : id - 1 < (S.positions field).length := by
        rw [Symbols.length_positions]
        omega
      have hget := getElem?_eq_getElem hlt
      obtain ⟨data, hi, hdata⟩ := Symbols.getElem?_positions hget
      rw [hget, hdata]
      simp only
      rw [h.symbols, Symbols.getElem?_numberFrom [] hi]

theorem dictionaryResolve_eq (h : d.Rep S) : dictionaryResolve d = S.decode d.schema :=
  h.toSound.resolve_eq

/-- **A dictionary of the engine is a bijection** in the sense of the row codec. -/
theorem Dictionary.Rep.symbolBijection (h : d.Rep S) :
    SymbolBijection S.encode (dictionaryResolve d) := by
  have hmem {field id : ℕ} {data : Bytes} (henc : S.encode field data = .ok id) :
      (field, data) ∈ S ∧ id = S.idOf field data := by
    unfold Symbols.encode at henc
    split at henc <;> cases henc
    exact ⟨by assumption, rfl⟩
  rw [dictionaryResolve_eq h]
  refine ⟨fun field id data ↦ ?_, fun field id data henc ↦ ?_,
    fun field id data henc ↦ (h.valid _ (hmem henc).1).2.2.2⟩
  · rw [Symbols.decode_eq_ok_iff h.nodup h.valid]
    exact ⟨hmem, fun hin ↦ by rw [Symbols.encode_of_mem hin.1, hin.2]⟩
  · -- the budget bounds the number of symbols
    obtain ⟨hin, rfl⟩ := hmem henc
    have hcolumn : (S.column field).length ≤ S.length := by
      rw [Symbols.column, length_map]
      exact length_filter_le _ _
    have hidx := idxOf_lt_length_iff.2 (Symbols.mem_column.2 hin)
    have := h.minAlloc_le
    have := length_le_minAlloc d.schema S
    have := h.budget
    have := h.limit_le
    unfold Symbols.idOf
    omega

/-! ### Rolling back -/

namespace Dictionary

/-- Removing the last symbol. -/
theorem Core.pop {x : ℕ × Bytes} (h : d.Core (S ++ [x])) :
    d.pop.Core S ∧ d.pop.schema = d.schema ∧ d.pop.limit = d.limit ∧ d.pop.slots = d.slots := by
  have hx : x.1 < d.schema.fieldCount := (h.valid x (by simp)).2.1
  have hlast : d.symbols = Symbols.numberFrom [] S ++
      [⟨x.1, (S.column x.1).length + 1, symbolHash x.1 x.2, x.2⟩] := by
    rw [h.symbols, Symbols.numberFrom_append]
    rfl
  have hpop : d.pop = { d with
      symbols := Symbols.numberFrom [] S
      columns := d.columns.modify x.1 fun c ↦ { c with indices := c.indices.dropLast }
      allocatedBytes := d.allocatedBytes - (x.2.length + 1) } := by
    unfold Dictionary.pop
    rw [hlast, getLast?_concat, dropLast_concat]
  have hcol (f : ℕ) : d.pop.column f = if f = x.1 then
      { d.column x.1 with indices := (d.column x.1).indices.dropLast } else d.column f := by
    rw [hpop]
    exact getD_modify (by rw [h.length_columns]; exact hx) _ f
  have hcap (f : ℕ) : (d.pop.column f).capacity = (d.column f).capacity := by
    rw [hcol]
    split
    next heq => rw [heq]
    next => rfl
  have hstrings : stringBytes (S ++ [x]) = stringBytes S + (x.2.length + 1) := by
    simp [stringBytes]
  have halloc := h.allocated
  have hschema : d.pop.schema = d.schema := by rw [hpop]
  refine ⟨⟨by rw [hpop], ?_, fun f hf ↦ ?_, ?_, fun y hy ↦ ?_, ?_, ?_, fun f hf ↦ ?_, ?_, ?_⟩,
    hschema, by rw [hpop], by rw [hpop]⟩
  · rw [hpop]
    simpa using h.length_columns
  · rw [hschema] at hf
    have hindices := h.indices f hf
    rw [Symbols.positions_append_singleton] at hindices
    rw [hcol]
    by_cases heq : f = x.1
    · subst heq
      rw [if_pos rfl] at hindices ⊢
      simp only
      rw [hindices, dropLast_concat]
    · rw [if_neg (Ne.symm heq), append_nil] at hindices
      rw [if_neg heq, hindices]
  · exact h.nodup.of_append_left
  · rw [hschema]
    exact h.valid y (by simp [hy])
  · rw [hpop]
    have := h.capacity
    rw [length_append] at this
    exact ⟨show S.length ≤ d.capacity by omega, this.2⟩
  · rw [hpop]
    exact h.slots
  · rw [hschema] at hf
    rw [hcap]
    have := h.columnCapacity f hf
    rw [Symbols.column_append, length_append] at this
    exact ⟨by omega, this.2⟩
  · rw [Finset.sum_congr rfl fun f _ ↦ hcap f, hpop]
    simp only
    omega
  · have := h.budget
    rw [hpop]
    simp only
    omega

theorem Core.popMany (T : Symbols) (h : d.Core (S ++ T)) :
    (popMany T.length d).Core S ∧ (Dictionary.popMany T.length d).schema = d.schema ∧
      (Dictionary.popMany T.length d).limit = d.limit ∧
      (Dictionary.popMany T.length d).slots = d.slots := by
  induction T using List.reverseRecOn generalizing d with
  | nil =>
    rw [append_nil] at h
    exact ⟨h, rfl, rfl, rfl⟩
  | append_singleton T x ih =>
    rw [← append_assoc] at h
    obtain ⟨hcore, hschema, hlimit, hslots⟩ := h.pop
    obtain ⟨hcore', hschema', hlimit', hslots'⟩ := ih hcore
    rw [length_append, length_singleton, Dictionary.popMany]
    exact ⟨hcore', hschema'.trans hschema, hlimit'.trans hlimit, hslots'.trans hslots⟩

/-- **Rolling back** removes what was defined after the mark. -/
theorem Sound.rollback (h : d.Sound (S ++ T)) :
    (d.rollback S.length).Sound S ∧ (d.rollback S.length).schema = d.schema ∧
      (d.rollback S.length).limit = d.limit := by
  unfold Dictionary.rollback
  rw [h.count_eq, length_append]
  split
  next hge =>
    have hT : T = [] := length_eq_zero_iff.1 (by omega)
    rw [hT, append_nil] at h
    exact ⟨h, rfl, rfl⟩
  next hlt =>
    rw [Nat.add_sub_cancel_left]
    obtain ⟨hcore, hschema, hlimit, hslots⟩ := h.toCore.popMany
    rcases h.table with ⟨-, hnil⟩ | ⟨-, hroom, hpos⟩
    · rw [append_eq_nil_iff] at hnil
      simp [hnil.2] at hlt
    rw [length_append] at hroom
    generalize Dictionary.popMany T.length d = d' at hcore hschema hlimit hslots
    have hrehash : d'.rehash = { d' with
        slots := OpenAddressing.fill (List.replicate d'.slots.length 0) 0 (d'.symbols.map (·.hash)) } := by
      unfold Dictionary.rehash
      rw [if_neg (by rw [hslots]; omega)]
    rw [hrehash]
    refine ⟨⟨⟨hcore.symbols, hcore.length_columns, hcore.indices, hcore.nodup, hcore.valid,
      hcore.capacity, ?_, hcore.columnCapacity, ?_, hcore.budget⟩,
      .inr ⟨?_, ?_, ?_⟩⟩, hschema, hlimit⟩
    · simpa using hcore.slots
    · rw [OpenAddressing.length_fill, length_replicate]
      exact hcore.allocated
    · rw [hcore.symbols, Symbols.map_hash_numberFrom]
      refine OpenAddressing.chained_fill (Doubling.two_pow (j := 5) hcore.slots ?_) ?_
      · rw [hslots]
        omega
      · rw [hslots, length_map]
        omega
    · rw [OpenAddressing.length_fill, length_replicate, hslots]
      omega
    · rw [OpenAddressing.length_fill, length_replicate, hslots]
      omega

theorem Rep.rollback (h : d.Rep (S ++ T)) :
    (d.rollback S.length).Rep S ∧ (d.rollback S.length).schema = d.schema ∧
      (d.rollback S.length).limit = d.limit := by
  obtain ⟨hsound, hschema, hlimit⟩ := h.toSound.rollback
  exact ⟨⟨hsound, by rw [hlimit]; exact h.limit_le⟩, hschema, hlimit⟩

end Dictionary

/-! ### Definition sections -/

/-- The bytes of the definitions of `T`, before padding. -/
def definitionBytes (T : Symbols) : ℕ :=
  (T.map fun x ↦ 12 + x.2.length).sum

/-- Round up to a multiple of eight. -/
def padded (n : ℕ) : ℕ :=
  (n + 7) / 8 * 8

/-- **The section that defines `T` after `S`.** -/
def definitions (S T : Symbols) : Bytes :=
  definitionsImage (Symbols.numberFrom S T) (padded (definitionBytes T))

theorem Symbol.length_image (s : Symbol) : s.image.length = 12 + s.data.length := by
  simp [Symbol.image]
  omega

theorem length_flatMap_image (S T : Symbols) :
    ((Symbols.numberFrom S T).flatMap Symbol.image).length = definitionBytes T := by
  induction T generalizing S with
  | nil => rfl
  | cons x T ih =>
    rw [Symbols.numberFrom, flatMap_cons, length_append, ih, Symbol.length_image]
    simp [definitionBytes]

theorem definitions_eq (S T : Symbols) :
    definitions S T = (Symbols.numberFrom S T).flatMap Symbol.image ++
      zeros (padded (definitionBytes T) - definitionBytes T) := by
  rw [definitions, definitionsImage, length_flatMap_image]

theorem length_definitions (S T : Symbols) :
    (definitions S T).length = padded (definitionBytes T) := by
  rw [definitions_eq, length_append, length_flatMap_image, length_zeros]
  unfold padded
  omega

theorem definitionBytes_eq (T : Symbols) : definitionBytes T = stringBytes T + 11 * T.length := by
  induction T with
  | nil => rfl
  | cons x T ih =>
    simp only [definitionBytes, stringBytes, map_cons, sum_cons, length_cons] at ih ⊢
    omega

/-- **A section is smaller than the memory its symbols take.** -/
theorem padded_definitionBytes_le (s : Schema) (S : Symbols) : padded (definitionBytes S) ≤ minAlloc s S := by
  have hcap := le_fullCapacity (show 0 < 16 by decide) S.length
  have hbytes := definitionBytes_eq S
  unfold minAlloc sizeofSymbol sizeofDictionary padded
  omega

/-- The fields of a definition, read from the head of a section. -/
theorem Symbol.image_fields {s : Symbol} (hfield : s.field < 2 ^ 16) (hid : s.id < 2 ^ 32)
    (hlen : s.data.length < 2 ^ 32) (rest : Bytes) :
    getLE 2 (s.image ++ rest) 0 = s.field ∧ getLE 2 (s.image ++ rest) 2 = 0 ∧
      getLE 4 (s.image ++ rest) 4 = s.id ∧ getLE 4 (s.image ++ rest) 8 = s.data.length ∧
      slice (s.image ++ rest) 12 s.data.length = s.data ∧
      (s.image ++ rest).drop (12 + s.data.length) = rest := by
  have himage : s.image ++ rest = [ofNatLE 2 s.field, zeros 2, ofNatLE 4 s.id,
      ofNatLE 4 s.data.length].flatten ++ (s.data ++ rest) := by
    rw [Symbol.image, append_assoc]
  have hshows : Shows (s.image ++ rest) 0 [ofNatLE 2 s.field, zeros 2, ofNatLE 4 s.id,
      ofNatLE 4 s.data.length] := by
    rw [himage]
    exact shows_flatten _ _
  simp only [Shows, length_ofNatLE, length_zeros, Nat.reduceAdd, and_true] at hshows
  obtain ⟨w0, w1, w2, w3⟩ := hshows
  refine ⟨getLE_of_slice w0 hfield, getLE_of_slice (v := 0) w1 (by decide), getLE_of_slice w2 hid,
    getLE_of_slice w3 hlen, ?_, ?_⟩
  · rw [himage]
    exact slice_append_mid (by simp) rfl
  · rw [← Symbol.length_image, drop_left]

/-- The numbers in the definitions fit their slots. -/
structure SectionFits (s : Schema) (S T : Symbols) : Prop where
  valid : ∀ x ∈ T, SymbolOk s x
  fieldCount : s.fieldCount ≤ maxFields
  length : S.length + T.length < uint32Max

variable {s : Schema} {μ : Type} {m : μ}

theorem SectionFits.tail {x : ℕ × Bytes} (h : SectionFits s S (x :: T)) : SectionFits s (S ++ [x]) T where
  valid y hy := h.valid y (mem_cons_of_mem x hy)
  fieldCount := h.fieldCount
  length := by
    have := h.length
    simp only [length_append, length_cons, length_nil] at this ⊢
    omega

theorem SectionFits.head {x : ℕ × Bytes} (h : SectionFits s S (x :: T)) :
    SymbolOk s x ∧ x.1 < 256 ∧ (S.column x.1).length + 1 < 2 ^ 32 ∧ x.2.length < 2 ^ 32 := by
  have hok := h.valid x (by simp)
  have hcount := h.fieldCount
  have hlen := h.length
  have hcol : (S.column x.1).length ≤ S.length := by
    rw [Symbols.column, length_map]
    exact length_filter_le _ _
  obtain ⟨-, h2, -, h4, -⟩ := id hok
  unfold maxFields at hcount
  unfold maxStringBytes at h4
  unfold uint32Max at hlen
  rw [length_cons] at hlen
  exact ⟨hok, by omega, by omega, by omega⟩

/-- The frame check accepts a definition section. -/
theorem dictionaryValid_flatMap (h : SectionFits s S T) {k : ℕ} (hk : k < 8) :
    dictionaryValid T.length ((Symbols.numberFrom S T).flatMap Symbol.image ++ zeros k) = true := by
  induction T generalizing S with
  | nil => simp [Symbols.numberFrom, dictionaryValid, hk]
  | cons x T ih =>
    obtain ⟨hok, hfield, hid, hlen⟩ := h.head
    obtain ⟨h1, h2, h3, h4, h5⟩ := hok
    rw [Symbols.numberFrom, flatMap_cons, append_assoc, length_cons, dictionaryValid]
    obtain ⟨g1, g2, g3, g4, g5, g6⟩ := Symbol.image_fields
      (s := ⟨x.1, (S.column x.1).length + 1, symbolHash x.1 x.2, x.2⟩)
      (show x.1 < 2 ^ 16 by omega) hid hlen
      ((Symbols.numberFrom (S ++ [x]) T).flatMap Symbol.image ++ zeros k)
    rw [if_neg (by rw [length_append, Symbol.length_image]; omega)]
    simp only [g1, g2, g3, g4, g5, g6]
    rw [if_neg, ih h.tail]
    unfold maxFields
    simp only [length_append, Symbol.length_image, h5, Bool.true_eq_false, or_false]
    omega

theorem dictionaryValid_definitions (h : SectionFits s S T) :
    dictionaryValid T.length (definitions S T) = true := by
  rw [definitions_eq]
  refine dictionaryValid_flatMap h ?_
  unfold padded
  omega

/-! ### Export -/

theorem exportSize_eq (limit n : ℕ) (S T : Symbols) :
    (exportSize limit n (Symbols.numberFrom S T) = some (n + definitionBytes T)) ∨
      exportSize limit n (Symbols.numberFrom S T) = none ∧
        (limit < n + definitionBytes T ∨ uint32Max - 7 < n + definitionBytes T) := by
  induction T generalizing n S with
  | nil => exact .inl rfl
  | cons x T ih =>
    have hbytes : definitionBytes (x :: T) = 12 + x.2.length + definitionBytes T := by
      simp [definitionBytes]
    rw [Symbols.numberFrom, exportSize, addSize]
    have hu : uint64Max = 18446744073709551615 := rfl
    have hu' : uint32Max = 4294967295 := rfl
    simp only
    split
    next hover =>
      split at hover
      next hbig => exact .inr ⟨rfl, by omega⟩
      next => cases hover
    next m hm =>
      split at hm
      next => cases hm
      next =>
        cases hm
        split
        next hbig => exact .inr ⟨rfl, by omega⟩
        next =>
          have := ih (n + (12 + x.2.length)) (S ++ [x])
          rw [Nat.add_assoc n] at this
          rwa [hbytes]

/-- **Exporting** the symbols defined after the mark. -/
theorem wp_dictionaryExportLimit (h : d.Rep (S ++ T)) (limit : ℕ)
    {Q : Exit Error (Bytes × ℕ) → Files → μ → Prop}
    (hok : padded (definitionBytes T) ≤ limit → Q (.ok (definitions S T, T.length)) fs m)
    (hlimit : ∀ e : Error, e.code = .limit →
      limit < padded (definitionBytes T) ∨ uint32Max - 7 < definitionBytes T → Q (.fail e) fs m)
    (hnomem : ∀ e : Error, e.code = .nomem → ¬ env.Calm → Q (.fail e) fs m) :
    wp (dictionaryExportLimit d S.length limit) env Q ⟨fs, n, m⟩ := by
  have hdrop : d.symbols.drop S.length = Symbols.numberFrom S T := by
    rw [h.symbols, Symbols.numberFrom_append, nil_append]
    exact drop_left' (by simp)
  have hpad : definitionBytes T ≤ padded (definitionBytes T) := by
    unfold padded
    omega
  unfold dictionaryExportLimit
  refine wp_require_of (by simp [h.count_eq]) fun n ↦ ?_
  rw [hdrop]
  rcases exportSize_eq limit 0 S T with hsize | ⟨hsize, hbig⟩
  · rw [hsize, zero_add]
    refine wp_bind (wp_require (fun hfits n ↦ ?_) fun hno ↦ ?_)
    · rw [decide_eq_true_eq] at hfits
      split
      next hzero =>
        -- nothing to define
        have hT : T = [] := by
          cases T with
          | nil => rfl
          | cons x T => simp [definitionBytes] at hzero; omega
        have := hok hfits
        subst hT
        exact this
      next =>
        refine wp_bind (wp_allocOr (fun n ↦ ?_) fun hcalm ↦ hnomem _ rfl hcalm)
        have := hok hfits
        rw [wp_pure, h.count_eq, length_append, Nat.add_sub_cancel_left]
        exact this
    · rw [decide_eq_false_iff_not] at hno
      exact hlimit _ rfl (.inl (by unfold padded; omega))
  · rw [hsize]
    exact hlimit _ rfl (by omega)

/-! ### Replay -/

/-- What applying the definitions of `T` to a dictionary for `S` leaves: `after` is the symbols of
the dictionary when the call fails. -/
def ApplyPost (env : Env Path Dir) (d : Dictionary) (S T : Symbols) (e : Error) : Prop :=
  e.code = .nomem ∧ ¬ env.Calm ∨
    e.code = .limit ∧ (d.Tight S → d.limit < minAlloc d.schema (S ++ T))

/-- The replay loop reads its definitions back one by one. -/
theorem wp_applyLoop (h : d.Rep S) (hfits : SectionFits d.schema S T) (hnodup : (S ++ T).Nodup)
    (rest : Bytes) :
    wp (applyLoop T.length ((Symbols.numberFrom S T).flatMap Symbol.image ++ rest)) env
      (fun e fs' d' ↦ fs' = fs ∧ d'.schema = d.schema ∧ d'.limit = d.limit ∧
        match e with
        | .ok r => r = rest ∧ d'.Rep (S ++ T) ∧ (d.Tight S → d'.Tight (S ++ T))
        | .fail e => (∃ T', d'.Rep (S ++ T')) ∧ ApplyPost env d S T e
        | .killed => False) ⟨fs, n, d⟩ := by
  induction T generalizing S d fs n with
  | nil =>
    rw [append_nil]
    exact ⟨rfl, rfl, rfl, rfl, h, id⟩
  | cons x T ih =>
    obtain ⟨hok, hfield, hid, hlen⟩ := hfits.head
    have hnew : x ∉ S := by
      rw [nodup_append] at hnodup
      exact fun hmem ↦ hnodup.2.2 x hmem x (by simp) rfl
    have hlim : S.length < uint32Max := by
      have := hfits.length
      omega
    obtain ⟨g1, g2, g3, g4, g5, g6⟩ := Symbol.image_fields
      (s := ⟨x.1, (S.column x.1).length + 1, symbolHash x.1 x.2, x.2⟩)
      (show x.1 < 2 ^ 16 by omega) hid hlen
      ((Symbols.numberFrom (S ++ [x]) T).flatMap Symbol.image ++ rest)
    have happend : S ++ x :: T = S ++ [x] ++ T := by simp
    rw [Symbols.numberFrom, flatMap_cons, append_assoc, length_cons, applyLoop]
    refine wp_bind ?_
    simp only [wp_get, andThen, g1, g2, g3, g4, g5, g6]
    intro n
    refine wp_bind (wp_ensure (fun _ n ↦ ?_) fun hno ↦ ?_)
    swap
    · obtain ⟨h1, h2, h3, -, -⟩ := hok
      simp [h1, h2, h3, h.length_indices h2, length_append, Symbol.length_image] at hno
      omega
    refine wp_bind (wp_attempt.2 ((wp_dictionaryIntern h x.1 x.2).mono ?_))
    rintro (id' | e | _) fs' d' ⟨rfl, hpost⟩
    · -- the symbol is new, so it gets the identifier the definition names
      obtain ⟨hrep, hidOf, -, hschema, hlimit, htight⟩ := hpost
      rw [Symbols.define_of_notMem hnew] at hrep hidOf htight
      intro n
      refine wp_bind ?_
      simp only [wp_get, andThen]
      intro n
      refine wp_bind (wp_ensure (fun _ n ↦ ?_) fun hno ↦ ?_)
      · refine (ih hrep (by rw [hschema]; exact hfits.tail) (by rw [← happend]; exact hnodup)).mono ?_
        rintro (r | e | _) fs'' d'' ⟨rfl, hschema', hlimit', hres⟩
        · rw [happend]
          exact ⟨rfl, hschema'.trans hschema, hlimit'.trans hlimit, hres.1, hres.2.1,
            fun ht ↦ hres.2.2 (htight ht)⟩
        · obtain ⟨⟨T', hrep'⟩, hwhy⟩ := hres
          refine ⟨rfl, hschema'.trans hschema, hlimit'.trans hlimit,
            ⟨[x] ++ T', by rw [← append_assoc]; exact hrep'⟩, ?_⟩
          rw [ApplyPost, happend, ← hschema, ← hlimit]
          exact hwhy.imp_right fun hw ↦ ⟨hw.1, fun ht ↦ hw.2 (htight ht)⟩
        · exact hres.elim
      · rw [hrep.count_eq, h.count_eq, hidOf, show (x.1, x.2) = x from rfl] at hno
        rw [show S ++ [x] = S ++ [(x.1, x.2)] from rfl, Symbols.idOf_append_of_notMem hnew] at hno
        simp at hno
    · obtain ⟨hrep, hschema, hlimit, hwhy⟩ := hpost
      intro n
      refine ⟨rfl, hschema, hlimit, ⟨[], by rw [append_nil]; exact hrep⟩, ?_⟩
      rcases hwhy with ⟨-, hbad⟩ | ⟨-, hcode, hcalm⟩ | ⟨-, -, hcode, htight⟩
      · exact absurd hok hbad
      · refine .inl ⟨?_, hcalm⟩
        rw [if_neg (by rw [hcode]; decide), hcode]
      · refine .inr ⟨?_, fun ht ↦ ?_⟩
        · rw [if_neg (by rw [hcode]; decide), hcode]
        · have := minAlloc_mono d.schema (S ++ [x]) T
          rw [happend]
          exact (htight ht).trans_le this
    · exact hpost.elim

/-- **Replaying** the section that defines `T`. -/
theorem wp_dictionaryApply (h : d.Rep S) (hfits : SectionFits d.schema S T)
    (hnodup : (S ++ T).Nodup) :
    wp (dictionaryApply (definitions S T) T.length) env
      (fun e fs' d' ↦ fs' = fs ∧ d'.schema = d.schema ∧ d'.limit = d.limit ∧
        match e with
        | .ok _ => d'.Rep (S ++ T) ∧ (d.Tight S → d'.Tight (S ++ T))
        | .fail e => d'.Rep S ∧ ApplyPost env d S T e
        | .killed => False) ⟨fs, n, d⟩ := by
  have hpad : padded (definitionBytes T) - definitionBytes T < 8 := by
    unfold padded
    omega
  unfold dictionaryApply
  refine wp_bind ?_
  simp only [wp_get, andThen]
  intro n
  rw [definitions_eq]
  refine wp_bind (wp_attempt.2 ((wp_applyLoop h hfits hnodup _).mono ?_))
  rintro (r | e | _) fs' d' ⟨rfl, hschema, hlimit, hres⟩
  · obtain ⟨rfl, hrep, htight⟩ := hres
    intro n
    simp only
    rw [if_pos]
    · exact ⟨rfl, hschema, hlimit, hrep, htight⟩
    · rw [← definitions_eq, length_definitions, length_zeros]
      simp only [isZero_zeros, Bool.and_true, Bool.and_eq_true, decide_eq_true_eq]
      exact ⟨by unfold padded; omega, hpad⟩
  · obtain ⟨⟨T', hrep⟩, hwhy⟩ := hres
    intro n
    refine wp_bind ?_
    obtain ⟨hrep', hschema', hlimit'⟩ := hrep.rollback
    simp only [wp_modify, andThen, h.count_eq, Prog.wp_fail]
    exact fun _ ↦ ⟨trivial, hschema'.trans hschema, hlimit'.trans hlimit, hrep', hwhy⟩
  · exact hres.elim

/-! ### Sections of any content -/

/-- The loop over the definitions of a section only adds symbols. -/
theorem wp_applyLoop_any (h : d.Sound S) (k : ℕ) (p : Bytes) :
    wp (applyLoop k p) env (fun e _ d' ↦ e ≠ .killed ∧ d'.schema = d.schema ∧ d'.limit = d.limit ∧
      ∃ T, d'.Sound (S ++ T)) ⟨fs, n, d⟩ := by
  induction k generalizing S d fs n p with
  | zero => exact ⟨nofun, rfl, rfl, [], by rwa [append_nil]⟩
  | succ k ih =>
    rw [applyLoop]
    refine wp_bind (wp_get.2 fun n ↦ ?_)
    refine wp_bind (wp_ensure (fun _ n ↦ ?_) fun _ ↦ ⟨nofun, rfl, rfl, [], by rwa [append_nil]⟩)
    refine wp_bind (wp_attempt.2 ((wp_dictionaryIntern_sound h _ _).mono ?_))
    rintro (id | e | _) fs' d' ⟨-, hpost⟩
    · obtain ⟨hsound, -, -, hschema, hlimit, -⟩ := hpost
      obtain ⟨T, hT⟩ := S.prefix_define (getLE 2 p 0, slice p 12 (getLE 4 p 8))
      rw [← hT] at hsound
      intro n
      refine wp_bind (wp_get.2 fun n ↦ ?_)
      refine wp_bind (wp_ensure (fun _ n ↦ ?_) fun _ ↦ ⟨nofun, hschema, hlimit, T, hsound⟩)
      refine (ih hsound _).mono fun e fs'' d'' hres ↦ ?_
      obtain ⟨hkilled, hschema', hlimit', T', hT'⟩ := hres
      exact ⟨hkilled, hschema'.trans hschema, hlimit'.trans hlimit, T ++ T', by rwa [← append_assoc]⟩
    · obtain ⟨hsound, hschema, hlimit, -⟩ := hpost
      exact fun n ↦ ⟨nofun, hschema, hlimit, [], by rwa [append_nil]⟩
    · exact hpost.elim

/-- **Applying a section of any content** adds symbols, or fails and leaves those that were there. -/
theorem wp_dictionaryApply_any (h : d.Sound S) (p : Bytes) (k : ℕ) :
    wp (dictionaryApply p k) env (fun e _ d' ↦ d'.schema = d.schema ∧ d'.limit = d.limit ∧
      match e with
      | .ok _ => ∃ T, d'.Sound (S ++ T)
      | .fail _ => d'.Sound S
      | .killed => False) ⟨fs, n, d⟩ := by
  unfold dictionaryApply
  refine wp_bind (wp_get.2 fun n ↦ ?_)
  refine wp_bind (wp_attempt.2 ((wp_applyLoop_any h k p).mono ?_))
  rintro e fs' d' ⟨hkilled, hschema, hlimit, T, hT⟩
  have hback : (d'.rollback d.count).schema = d.schema ∧ (d'.rollback d.count).limit = d.limit ∧
      (d'.rollback d.count).Sound S := by
    obtain ⟨hsound, hs, hl⟩ := hT.rollback
    rw [h.count_eq]
    exact ⟨hs.trans hschema, hl.trans hlimit, hsound⟩
  rcases e with rest | e | _
  · intro n
    dsimp only
    split
    · exact ⟨hschema, hlimit, T, hT⟩
    · exact wp_bind (wp_modify.2 fun n ↦ hback)
  · exact fun n ↦ wp_bind (wp_modify.2 fun n ↦ hback)
  · exact absurd rfl hkilled

/-- The dictionary of a segment before its first frame. -/
def Dictionary.fresh (s : Schema) (limit : ℕ) : Dictionary where
  schema := s
  symbols := []
  capacity := 0
  slots := []
  columns := List.replicate s.fieldCount default
  allocatedBytes := sizeofDictionary + s.fieldCount * sizeofColumn
  limit := limit

theorem wp_dictionaryNew_fresh (s : Schema) {limit : ℕ} {Q : Exit Error Dictionary → Files → μ → Prop}
    (hok : sizeofDictionary + s.fieldCount * sizeofColumn ≤ limit → Q (.ok (.fresh s limit)) fs m)
    (hlimit : ∀ e : Error, e.code = .limit → ¬ sizeofDictionary + s.fieldCount * sizeofColumn ≤ limit →
      Q (.fail e) fs m)
    (hnomem : ∀ e : Error, e.code = .nomem → ¬ env.Calm → Q (.fail e) fs m) :
    wp (dictionaryNew s limit) env Q ⟨fs, n, m⟩ := by
  unfold dictionaryNew
  refine wp_bind (wp_require (fun hle n ↦ ?_) fun hgt ↦ hlimit _ rfl (of_decide_eq_false hgt))
  refine wp_bind (wp_allocOr (fun n ↦ ?_) fun hcalm ↦ hnomem _ rfl hcalm)
  exact wp_bind (wp_allocOr (fun n ↦ hok (of_decide_eq_true hle)) fun hcalm ↦ hnomem _ rfl hcalm)

/-- A dictionary with no symbols. -/
theorem wp_dictionaryNew_sound (s : Schema) {limit : ℕ} {Q : Exit Error Dictionary → Files → μ → Prop}
    (hok : ∀ d : Dictionary, d.Sound [] → d.Tight [] → d.schema = s → d.limit = limit →
      minAlloc s [] ≤ limit → Q (.ok d) fs m)
    (hlimit : ∀ e : Error, e.code = .limit → limit < minAlloc s [] → Q (.fail e) fs m)
    (hnomem : ∀ e : Error, e.code = .nomem → ¬ env.Calm → Q (.fail e) fs m) :
    wp (dictionaryNew s limit) env Q ⟨fs, n, m⟩ := by
  have hmin : minAlloc s [] = sizeofDictionary + s.fieldCount * sizeofColumn := by
    simp [minAlloc, fullCapacity, fullSlots, stringBytes, Symbols.column]
  have hcolumn (f : ℕ) : (Dictionary.fresh s limit).column f = default := by
    rw [Dictionary.column, Dictionary.fresh, getD_eq_getElem?_getD, getElem?_replicate]
    split <;> rfl
  refine wp_dictionaryNew_fresh s (fun hbase ↦ ?_) (fun e he hover ↦ hlimit e he (by omega)) hnomem
  refine hok _ ⟨⟨rfl, length_replicate, fun f _ ↦ ?_, nodup_nil, by simp,
    ⟨zero_le, .zero _⟩, .zero _, fun f _ ↦ ?_, ?_, hbase⟩, .inl ⟨rfl, rfl⟩⟩
    ⟨rfl, rfl, fun f _ ↦ ?_⟩ rfl rfl (by omega)
  · rw [hcolumn]
    rfl
  · rw [hcolumn]
    exact ⟨zero_le, .zero _⟩
  · have hcapacity : (default : SymbolColumn).capacity = 0 := rfl
    simp only [hcolumn, hcapacity]
    simp [Dictionary.fresh, stringBytes]
  · rw [hcolumn]
    rfl

theorem wp_dictionaryNew (s : Schema) {limit : ℕ}
    (hle : limit ≤ 64 * 1024 * 1024) {Q : Exit Error Dictionary → Files → μ → Prop}
    (hok : ∀ d : Dictionary, d.Rep [] → d.Tight [] → d.schema = s → d.limit = limit →
      minAlloc s [] ≤ limit → Q (.ok d) fs m)
    (hlimit : ∀ e : Error, e.code = .limit → limit < minAlloc s [] → Q (.fail e) fs m)
    (hnomem : ∀ e : Error, e.code = .nomem → ¬ env.Calm → Q (.fail e) fs m) :
    wp (dictionaryNew s limit) env Q ⟨fs, n, m⟩ :=
  wp_dictionaryNew_sound s (fun d hsound htight hschema heq ↦
    hok d ⟨hsound, by rw [heq]; exact hle⟩ htight hschema heq) hlimit hnomem

end WebAnalyticsDb
