import WebAnalyticsDb.Ledger.Frames

/-!
# Why a commit fails

What a commit can end with, for a group whose times come from a clock that works (`Orderly`), and the
frame it is written in.

* **The encoder accepts what the writer assembles.** Times are sorted and of one day, symbols were
  checked when the rows were staged, and the size is compared before the frame is built
  (`wp_prepareFrame`).
* **A pass with an empty dictionary fails for the group's own size only.** The charge of a dictionary
  that was filled from scratch is that of its symbols (`Dictionary.Tight`).
* **Everything else is a fault or exhaustion.** A call was refused, or sequence numbers or segment records
  have run out (`Error.Exhaustion`).

`Ledger/Rotation` and `Ledger/Commit` follow these causes through the rest of a commit, next to what it
leaves behind.
-/

namespace WebAnalyticsDb

open Bytes List

variable {c : Config}

/-! ### Groups with the times of a working clock -/

/-- **A group as the writer forms it**: times do not decrease and are of one day. -/
structure Orderly (g : Group c) : Prop where
  sorted : g.Pairwise (·.ingestionTime ≤ ·.ingestionTime)
  nonneg : ∀ r ∈ g, 0 ≤ r.ingestionTime
  day : ∀ r ∈ g, ∀ r' ∈ g, r.ingestionTime / dayUs = r'.ingestionTime / dayUs

theorem groupMin_cons (r : AppendRequest c) (g : Group c) : groupMin (r :: g) = r.ingestionTime := rfl

theorem groupMax_concat (g : Group c) (r : AppendRequest c) :
    groupMax (g ++ [r]) = r.ingestionTime := by
  simp [groupMax]

namespace Orderly

variable {g g' : Group c} {r : AppendRequest c}

section

variable (h : Orderly g)
include h

theorem sublist (hsub : g'.Sublist g) : Orderly g' where
  sorted := h.sorted.sublist hsub
  nonneg r hr := h.nonneg r (hsub.subset hr)
  day r hr r' hr' := h.day r (hsub.subset hr) r' (hsub.subset hr')

theorem groupMin_le (hr : r ∈ g) : groupMin g ≤ r.ingestionTime := by
  cases g with
  | nil => cases hr
  | cons r' g =>
    rw [groupMin_cons]
    rcases mem_cons.1 hr with rfl | hr
    · exact le_refl _
    · exact (pairwise_cons.1 h.sorted).1 r hr

theorem le_groupMax (hr : r ∈ g) : r.ingestionTime ≤ groupMax g := by
  rcases g.eq_nil_or_concat with rfl | ⟨g, r', rfl⟩
  · cases hr
  · rw [concat_eq_append] at *
    rw [groupMax_concat]
    rcases mem_append.1 hr with hr | hr
    · exact (pairwise_append.1 h.sorted).2.2 r hr r' (mem_singleton_self r')
    · rw [mem_singleton.1 hr]

/-- The writer's own check of the times. -/
theorem clock (hne : g ≠ []) : groupClock (groupMin g) (groupMax g) = true := by
  obtain ⟨first, hfirst, hmin⟩ : ∃ r ∈ g, groupMin g = r.ingestionTime := by
    cases g with
    | nil => exact absurd rfl hne
    | cons r g => exact ⟨r, mem_cons_self .., rfl⟩
  obtain ⟨last, hlast, hmax⟩ : ∃ r ∈ g, groupMax g = r.ingestionTime := by
    rcases g.eq_nil_or_concat with rfl | ⟨g, r, rfl⟩
    · exact absurd rfl hne
    · exact ⟨r, by simp, by rw [concat_eq_append, groupMax_concat]⟩
  have hday := h.day first hfirst last hlast
  have hle := h.le_groupMax hfirst
  have hnonneg := h.nonneg first hfirst
  rw [← hmin, ← hmax] at hday
  simp only [groupClock, Bool.and_eq_true, decide_eq_true_eq]
  exact ⟨⟨by omega, by omega⟩, hday⟩

/-! ### The times of the frame -/

/-- The times of the rows do not decrease. -/
theorem records_sorted : ((groupRecords g).map Record.time).Pairwise (· ≤ ·) := by
  rw [pairwise_map, groupRecords, pairwise_flatMap]
  refine ⟨fun r _ ↦ ?_, h.sorted.imp fun hle x hx y hy ↦ ?_⟩
  · exact pairwise_map.2 (pairwise_of_forall fun _ _ ↦ le_refl _)
  · obtain ⟨_, -, rfl⟩ := mem_map.1 hx
    obtain ⟨_, -, rfl⟩ := mem_map.1 hy
    exact hle

theorem mem_records {x : Record} (hx : x ∈ groupRecords g) :
    groupMin g ≤ x.time ∧ x.time ≤ groupMax g := by
  obtain ⟨r, hr, hx⟩ := mem_flatMap.1 hx
  obtain ⟨_, -, rfl⟩ := mem_map.1 hx
  exact ⟨h.groupMin_le hr, h.le_groupMax hr⟩

end

end Orderly

variable {g : Group c} {env : Env Path Dir}

/-- The first row has the time of the first request. -/
theorem head_groupRecords {x : Record} (hx : x ∈ (groupRecords g).head?) : x.time = groupMin g := by
  cases g with
  | nil => cases hx
  | cons r g =>
    obtain ⟨v, vs, hvs⟩ := exists_cons_of_ne_nil r.nonempty
    rw [groupRecords, flatMap_cons, AppendRequest.records, hvs] at hx
    cases hx
    rfl

/-- The last row has the time of the last request. -/
theorem getLast_groupRecords (hne : g ≠ []) :
    ((groupRecords g).map Record.time).getLast? = some (groupMax g) := by
  rcases g.eq_nil_or_concat with rfl | ⟨g, r, rfl⟩
  · exact absurd rfl hne
  · rcases r.values.eq_nil_or_concat with hnil | ⟨vs, v, hvs⟩
    · exact absurd hnil r.nonempty
    · rw [concat_eq_append, groupMax_concat, groupRecords, flatMap_append]
      simp [AppendRequest.records, hvs]

/-- **Sorted times pass the time check**, the other direction of `timesLoop_sorted`. -/
theorem timesLoop_of_sorted {T : Symbols} {xs : List Record} {rows : List Bytes} {lo hi prev : ℤ}
    {first : Bool} (hrows : List.Forall₂ (StoredAs c T) xs rows)
    (hbounds : ∀ x ∈ xs, -2 ^ 63 ≤ x.time ∧ x.time < 2 ^ 63)
    (hsorted : (prev :: xs.map Record.time).Pairwise (· ≤ ·)) (hhi : ∀ x ∈ xs, x.time ≤ hi)
    (hfirst : first = true → ∀ x ∈ xs.head?, x.time = lo)
    (hlast : (prev :: xs.map Record.time).getLast? = some hi) :
    timesLoop lo hi c.schema.rowWidth xs.length first prev rows.flatten = true := by
  induction hrows generalizing first prev with
  | nil =>
    cases hlast
    simp [timesLoop]
  | @cons x row xs rows hrow _ ih =>
    rw [map_cons] at hsorted hlast
    obtain ⟨hprev, hrest⟩ := pairwise_cons.1 hsorted
    rw [length_cons, flatten_cons, timesLoop]
    simp only [hrow.getI64_head (hbounds x (mem_cons_self ..))]
    rw [if_neg, drop_left' hrow.length]
    · refine ih (fun y hy ↦ hbounds y (mem_cons_of_mem _ hy)) hrest
        (fun y hy ↦ hhi y (mem_cons_of_mem _ hy)) (by simp) ?_
      rwa [getLast?_cons_cons] at hlast
    · have hle := hprev x.time (mem_cons_self ..)
      have hle' := hhi x (mem_cons_self ..)
      rintro (hlt | hlt | ⟨h, hne⟩)
      · omega
      · omega
      · exact hne (hfirst h x rfl)

/-- **The frame of an orderly group has valid times.** -/
theorem Orderly.timesValid (h : Orderly g) (hne : g ≠ []) (S : Symbols) (first : ℕ) :
    timesValid (groupFrame S first g) = true := by
  have hrows := storedRows_storedAs (T := symbolsAfter S g) (g := g)
    fun _ hx ↦ Symbols.mem_defineAll hx
  have hlen : (groupFrame S first g).rowCount = (groupRecords g).length := by
    rw [length_groupRecords]
    rfl
  rw [WebAnalyticsDb.timesValid, hlen]
  refine timesLoop_of_sorted hrows (fun x hx ↦ mem_groupRecords_bounds hx) ?_
    (fun x hx ↦ (h.mem_records hx).2) (fun _ x hx ↦ head_groupRecords hx) ?_
  · refine pairwise_cons.2 ⟨fun y hy ↦ ?_, h.records_sorted⟩
    obtain ⟨x, hx, rfl⟩ := mem_map.1 hy
    exact (h.mem_records hx).1
  · rw [getLast?_cons, getLast_groupRecords hne]
    rfl

/-! ### The symbols of staged rows -/

/-- What staging has checked about the symbols of a row. -/
theorem encodeFields_symbols {resolve : Option SymbolEncode} {index : ℕ} {fields : List Field}
    {values : List Value} {row row' : Bytes}
    (h : encodeFields resolve index fields values row = .ok row') {x : ℕ × Bytes}
    (hx : x ∈ rowSymbols index fields values) :
    ∃ i f, fields[i]? = some f ∧ f.type = .symbol32 ∧ x.1 = index + i ∧
      x.2.length ≤ maxStringBytes ∧ utf8 x.2 = true := by
  induction fields generalizing index values row with
  | nil =>
    rw [rowSymbols.eq_def] at hx
    cases hx
  | cons f fields ih =>
    cases values with
    | nil =>
      rw [rowSymbols.eq_def] at hx
      cases hx
    | cons v values =>
      have hrest {row : Bytes} (h : encodeFields resolve (index + 1) fields values row = .ok row')
          (hx : x ∈ rowSymbols (index + 1) fields values) : ∃ i g, (f :: fields)[i]? = some g ∧
            g.type = .symbol32 ∧ x.1 = index + i ∧ x.2.length ≤ maxStringBytes ∧ utf8 x.2 = true := by
        obtain ⟨i, g, hg, htype, hi, hok⟩ := ih h hx
        exact ⟨i + 1, g, hg, htype, by omega, hok⟩
      rw [encodeFields] at h
      rw [rowSymbols] at hx
      cases hnull : v.isNull with
      | true =>
        rw [if_pos hnull] at h
        rw [if_neg (by simp [hnull])] at hx
        split at h
        · exact hrest h hx
        · cases h
      | false =>
        rw [if_neg (by simp [hnull])] at h
        split at h
        · cases h
        next b hb =>
          split at hx
          next hsym =>
            rcases mem_cons.1 hx with rfl | hx
            · refine ⟨0, f, rfl, hsym.1, rfl, ?_⟩
              unfold encodeField at hb
              simp only [hsym.1] at hb
              split at hb
              · cases hb
              next hok =>
                rw [not_or, not_lt, Bool.not_eq_false] at hok
                exact hok
            · exact hrest h hx
          next => exact hrest h hx

/-- **The dictionary accepts the symbols of a group.** -/
theorem symbolOk_of_mem_groupSymbols {x : ℕ × Bytes} (hx : x ∈ groupSymbols g) : SymbolOk c.schema x := by
  obtain ⟨⟨v, row⟩, hrow, hx⟩ := mem_flatMap.1 hx
  obtain ⟨r, -, hmem⟩ := mem_flatMap.1 hrow
  obtain ⟨i, hi, rfl⟩ := getElem_of_mem (of_mem_zip hmem).1
  have hi' : i < r.rows.length := by rwa [r.length_rows]
  obtain ⟨j, f, hf, htype, hj, hlen, hutf8⟩ := encodeFields_symbols (r.encoded.get hi hi') hx
  have hfield : c.schema.fields[x.1]? = some f := by
    rw [c.layout.time, hj, add_comm]
    exact hf
  refine ⟨by omega, ?_, ?_, hlen, hutf8⟩
  · exact (List.getElem?_eq_some_iff.1 hfield).1
  · rw [Schema.isSymbol, hfield]
    exact decide_eq_true htype

/-! ### Interning -/

section Interning

variable {env : Env Path Dir} {fs : Files} {n : ℕ} {d d' : Dictionary} {S xs ys : Symbols}

/-- Why symbols cannot be interned: one of them is not acceptable, memory has run out, or the budget has.
A dictionary that was filled from scratch has used its budget for its symbols. -/
def InternCause (env : Env Path Dir) (d : Dictionary) (S xs : Symbols) (e : Error) : Prop :=
  e.code = .invalid ∧ (∃ x ∈ xs, ¬ SymbolOk d.schema x) ∨ e.code = .nomem ∧ ¬ env.Calm ∨
    e.code = .limit ∧ (d.Tight S → d.limit < minAlloc d.schema (S.defineAll xs))

theorem InternCause.append {e : Error} (h : InternCause env d S xs e) (ys : Symbols) :
    InternCause env d S (xs ++ ys) e := by
  rcases h with ⟨he, x, hx, hbad⟩ | h | ⟨he, hlt⟩
  · exact .inl ⟨he, x, mem_append_left _ hx, hbad⟩
  · exact .inr (.inl h)
  · refine .inr (.inr ⟨he, fun htight ↦ (hlt htight).trans_le ?_⟩)
    obtain ⟨T, hT⟩ := Symbols.prefix_defineAll (S.defineAll xs) ys
    rw [Symbols.defineAll_append, ← hT]
    exact minAlloc_mono _ _ _

/-- What an interning loop leaves: all of its symbols defined, or some of them. A failure is never
indeterminate. -/
def InterningPost {α : Type} (fs : Files) (d : Dictionary) (S T : Symbols) (good : α → Prop) :
    Exit Error α → Files → Dictionary → Prop
  | .ok a, fs', d' => fs' = fs ∧ d'.Rep T ∧ d'.schema = d.schema ∧ d'.limit = d.limit ∧ good a
  | .fail e, fs', d' => fs' = fs ∧ (∃ U, d'.Rep (S ++ U)) ∧ d'.schema = d.schema ∧
      d'.limit = d.limit ∧ e.code ≠ .indeterminate
  | .killed, _, _ => False

theorem InterningPost.fail_of_append {α : Type} {d' : Dictionary} {e : Error} {fs' : Files}
    {U T : Symbols} {good : α → Prop} {d₀ : Dictionary} (hU : ∃ V, T = S ++ V)
    (hs : d₀.schema = d.schema) (hl : d₀.limit = d.limit)
    (h : InterningPost fs d₀ T U good (.fail e) fs' d') :
    InterningPost fs d S U good (.fail e) fs' d' := by
  obtain ⟨V, rfl⟩ := hU
  obtain ⟨hfs, ⟨W, hW⟩, hschema, hlimit, he⟩ := h
  exact ⟨hfs, ⟨V ++ W, by rwa [← append_assoc]⟩, hschema.trans hs, hlimit.trans hl, he⟩

/-- The outcomes of interning `xs`. -/
def InternedPost {α : Type} (env : Env Path Dir) (d : Dictionary) (S xs : Symbols) :
    Exit Error α → Files → Dictionary → Prop
  | .ok _, _, d' => d'.Rep (S.defineAll xs) ∧ d'.schema = d.schema ∧ d'.limit = d.limit ∧
      (d.Tight S → d'.Tight (S.defineAll xs))
  | .fail e, _, _ => InternCause env d S xs e
  | .killed, _, _ => False

/-- One list of symbols after another. -/
theorem InternedPost.trans {α β : Type} {a : α} {fs fs' : Files} {d'' : Dictionary} {e : Exit Error β}
    (h : InternedPost env d S xs (.ok a) fs d')
    (h' : InternedPost env d' (S.defineAll xs) ys e fs' d'') :
    InternedPost env d S (xs ++ ys) e fs' d'' := by
  obtain ⟨-, hschema, hlimit, htight⟩ := h
  rcases e with b | e | _
  · obtain ⟨hrep, hschema', hlimit', htight'⟩ := h'
    refine ⟨?_, hschema'.trans hschema, hlimit'.trans hlimit, fun hd ↦ ?_⟩
    · rwa [Symbols.defineAll_append]
    · rw [Symbols.defineAll_append]
      exact htight' (htight hd)
  · rcases h' with ⟨he, x, hx, hbad⟩ | h' | ⟨he, hlt⟩
    · exact .inl ⟨he, x, mem_append_right _ hx, hschema ▸ hbad⟩
    · exact .inr (.inl h')
    · refine .inr (.inr ⟨he, fun hd ↦ ?_⟩)
      rw [Symbols.defineAll_append, ← hschema, ← hlimit]
      exact hlt (htight hd)
  · exact h'

theorem wp_dictionaryIntern_cause (hd : d.Rep S) (field : ℕ) (data : Bytes) :
    wp (dictionaryIntern field data) env (InternedPost env d S [(field, data)])
      ⟨fs, n, d⟩ := by
  refine (wp_dictionaryIntern hd field data).mono ?_
  rintro (id | e | _) fs' d' ⟨-, hpost⟩
  · obtain ⟨hrep, -, -, hschema, hlimit, htight⟩ := hpost
    exact ⟨hrep, hschema, hlimit, htight⟩
  · obtain ⟨-, -, -, ⟨he, hbad⟩ | ⟨-, hnomem⟩ | ⟨-, hnew, he, hlt⟩⟩ := hpost
    · exact .inl ⟨he, _, mem_singleton_self _, hbad⟩
    · exact .inr (.inl hnomem)
    · refine .inr (.inr ⟨he, fun htight ↦ ?_⟩)
      have hdefine : S.defineAll [(field, data)] = S ++ [(field, data)] :=
        Symbols.define_of_notMem hnew
      rw [hdefine]
      exact hlt htight
  · exact hpost

/-- **Interning a row** puts the identifiers that any later state of the dictionary gives. -/
theorem wp_internFields (hd : d.Rep S) (index : ℕ) (fields : List Field) (values : List Value)
    (row : Bytes) :
    wp (internFields index fields values row) env (fun e fs' d' ↦
      InterningPost fs d S (S.defineAll (rowSymbols index fields values)) (fun row' ↦
        ∀ U : Symbols, S.defineAll (rowSymbols index fields values) <+: U →
          row' = putSymbols U.encode index fields values row) e fs' d' ∧
      InternedPost env d S (rowSymbols index fields values) e fs' d') ⟨fs, n, d⟩ := by
  induction fields generalizing index values row S d n with
  | nil => exact ⟨⟨rfl, hd, rfl, rfl, fun U _ ↦ by cases values <;> rfl⟩, hd, rfl, rfl, id⟩
  | cons f fields ih =>
    cases values with
    | nil => exact ⟨⟨rfl, hd, rfl, rfl, fun U _ ↦ rfl⟩, hd, rfl, rfl, id⟩
    | cons v values =>
      by_cases hsym : f.type = .symbol32 ∧ v.isNull = false
      · rw [internFields, if_pos hsym, rowSymbols, if_pos hsym]
        refine wp_bind (((wp_dictionaryIntern hd index v.bytes).and
          (wp_dictionaryIntern_cause hd index v.bytes)).mono ?_)
        rintro (id | e | _) fs' d' ⟨⟨rfl, hpost⟩, hintern⟩
        · obtain ⟨hrep, rfl, -, hschema, hlimit, -⟩ := hpost
          intro k
          refine (ih hrep (index + 1) values _).mono ?_
          rintro (row' | e | _) fs'' d'' ⟨hpost', hintern'⟩
          · obtain ⟨hfs, hrep', hschema', hlimit', hrow⟩ := hpost'
            refine ⟨⟨hfs, hrep', hschema'.trans hschema, hlimit'.trans hlimit, fun U hU ↦ ?_⟩,
              hintern.trans hintern'⟩
            -- the identifier does not change when more symbols are defined
            have hpre := (Symbols.prefix_defineAll (S.define (index, v.bytes))
              (rowSymbols (index + 1) fields values)).trans hU
            have hmem := Symbols.mem_define S (index, v.bytes)
            rw [hrow U hU, putSymbols, if_pos hsym, Symbols.encode_of_mem (hpre.subset hmem)]
            simp only [Symbols.idOf_of_isPrefix hpre hmem]
          · obtain ⟨V, hV⟩ := Symbols.prefix_define S (index, v.bytes)
            exact ⟨hpost'.fail_of_append ⟨V, hV.symm⟩ hschema hlimit, hintern.trans hintern'⟩
          · exact hpost'.elim
        · obtain ⟨hrep, hschema, hlimit, he⟩ := hpost
          refine ⟨⟨rfl, ⟨[], by rwa [append_nil]⟩, hschema, hlimit, ?_⟩, hintern.append _⟩
          rcases he with ⟨he, -⟩ | ⟨-, he, -⟩ | ⟨-, -, he, -⟩ <;> rw [he] <;> decide
        · exact hpost.elim
      · rw [internFields, if_neg hsym, rowSymbols, if_neg hsym]
        refine (ih hd (index + 1) values row).mono ?_
        rintro (row' | e | _) fs' d' ⟨hpost, hintern⟩
        · obtain ⟨hfs, hrep, hschema, hlimit, hrow⟩ := hpost
          refine ⟨⟨hfs, hrep, hschema, hlimit, fun U hU ↦ ?_⟩, hintern⟩
          rw [hrow U hU, putSymbols, if_neg hsym]
        · exact ⟨hpost, hintern⟩
        · exact hpost.elim

/-- **Interning the rows of a group.** -/
theorem wp_internRows (hd : d.Rep S) (s : Schema) (rows : List (List Value × Bytes)) :
    wp (internRows s rows) env (fun e fs' d' ↦
      InterningPost fs d S (S.defineAll (rows.flatMap fun x ↦ rowSymbols 1 s.userFields x.1))
        (fun rows' ↦ ∀ U : Symbols,
          S.defineAll (rows.flatMap fun x ↦ rowSymbols 1 s.userFields x.1) <+: U →
            rows' = rows.map fun x ↦ putSymbols U.encode 1 s.userFields x.1 x.2) e fs' d' ∧
      InternedPost env d S (rows.flatMap fun x ↦ rowSymbols 1 s.userFields x.1) e fs' d')
      ⟨fs, n, d⟩ := by
  induction rows generalizing S d n with
  | nil => exact ⟨⟨rfl, hd, rfl, rfl, fun U _ ↦ rfl⟩, hd, rfl, rfl, id⟩
  | cons x rows ih =>
    obtain ⟨values, row⟩ := x
    rw [internRows, flatMap_cons]
    refine wp_bind ((wp_internFields hd 1 s.userFields values row).mono ?_)
    rintro (row' | e | _) fs' d' ⟨hpost, hintern⟩
    · obtain ⟨rfl, hrep, hschema, hlimit, hrow⟩ := hpost
      intro k
      refine wp_bind ((ih hrep).mono ?_)
      rintro (rows' | e | _) fs'' d'' ⟨hpost', hintern'⟩
      · obtain ⟨hfs, hrep', hschema', hlimit', hrows⟩ := hpost'
        refine fun k' ↦ ⟨⟨hfs, ?_, hschema'.trans hschema, hlimit'.trans hlimit, fun U hU ↦ ?_⟩,
          hintern.trans (e := .ok _) hintern'⟩
        · rwa [Symbols.defineAll_append]
        · rw [Symbols.defineAll_append] at hU
          rw [map_cons, ← hrow U ((Symbols.prefix_defineAll _ _).trans hU), hrows U hU]
      · obtain ⟨V, hV⟩ := Symbols.prefix_defineAll S (rowSymbols 1 s.userFields values)
        exact ⟨InterningPost.fail_of_append ⟨V, hV.symm⟩ hschema hlimit hpost', hintern.trans hintern'⟩
      · exact hpost'.elim
    · exact ⟨hpost, hintern.append _⟩
    · exact hpost.elim

end Interning

/-! ### Building the frame -/

/-- **The group fits into one frame** behind the symbols `S`: the rows and the definitions of the symbols
it adds do, and so do all symbols into the budget of a dictionary. -/
structure FitsBehind (S : Symbols) (g : Group c) : Prop where
  budget : minAlloc c.schema (symbolsAfter S g) ≤ c.options.dictionaryLimitBytes
  size : groupCount g * c.schema.rowWidth +
    (definitions S ((symbolsAfter S g).drop S.length)).length + 96 ≤ maxFrameBytes

theorem length_le_definitionBytes (T : Symbols) : 12 * T.length ≤ definitionBytes T := by
  induction T with
  | nil => simp [definitionBytes]
  | cons x T ih =>
    simp only [definitionBytes, map_cons, sum_cons, length_cons] at ih ⊢
    omega

theorem groupCount_pos (hne : g ≠ []) : 0 < groupCount g := by
  obtain ⟨r, g, rfl⟩ := exists_cons_of_ne_nil hne
  have := r.rowCount_pos
  rw [groupCount_cons]
  omega

/-- **The encoder accepts the frame of an orderly group that fits.** -/
theorem Orderly.frameOk (h : Orderly g) (hne : g ≠ []) {S : Symbols} {first : ℕ}
    (hfirst : first ≠ 0) (hlast : first + groupCount g ≤ 2 ^ 64)
    (hsymbols : ∀ x ∈ symbolsAfter S g, SymbolOk c.schema x) (hnodup : (symbolsAfter S g).Nodup)
    (hfits : FitsBehind S g) : FrameOk S first g := by
  obtain ⟨hbudget, hsize⟩ := hfits
  obtain ⟨T, hT⟩ : ∃ T, (symbolsAfter S g).drop S.length = T := ⟨_, rfl⟩
  have hafter : symbolsAfter S g = S ++ T := by rw [← hT, ← symbolsAfter_eq]
  have hcount : (groupFrame S first g).dictionaryCount = T.length := by
    show (symbolsAfter S g).length - S.length = T.length
    rw [← hT, length_drop]
  have hdict : (groupFrame S first g).dictionary = definitions S T := by rw [← hT]; rfl
  have hlen := length_groupFrame_rows S first g
  have hpos := groupCount_pos hne
  have hclock := h.clock hne
  simp only [groupClock, Bool.and_eq_true, decide_eq_true_eq] at hclock
  rw [hT, length_definitions] at hsize
  have htwelve := length_le_definitionBytes T
  have hpad : definitionBytes T ≤ padded (definitionBytes T) := by
    unfold padded
    omega
  have hu : uint64Max = 2 ^ 64 - 1 := rfl
  have hbytes : (groupFrame S first g).header.dictionaryBytes = padded (definitionBytes T) := by
    show (groupFrame S first g).dictionary.length = _
    rw [hdict, length_definitions]
  refine ⟨⟨hpos.ne', ⟨c.layout.rowWidth_pos.ne', c.layout.width, c.layout.rowWidth_mod⟩, hfirst, ?_,
    hclock.1.1, hclock.1.2, hclock.2, ?_, ?_, ?_, ?_, ?_⟩, ?_, h.timesValid hne S first, hlast, hsymbols,
    hnodup, hbudget⟩
  · show groupCount g - 1 ≤ uint64Max - first
    omega
  · rw [hbytes]
    exact ⟨by unfold padded; omega, by omega⟩
  · rw [hbytes]
    show (groupFrame S first g).dictionaryCount ≤ _
    omega
  · intro hzero
    have hnil : T = [] := length_eq_zero_iff.1 (hcount ▸ hzero)
    rw [hbytes, hnil]
    rfl
  · rw [hbytes, Frame.size, hlen, hdict, length_definitions]
    rfl
  · rw [Frame.size, hlen, hdict, length_definitions]
    exact hsize
  · rw [hcount, hdict]
    refine dictionaryValid_definitions (s := c.schema)
      ⟨fun x hx ↦ hsymbols x (hafter ▸ mem_append_right _ hx), c.layout.count, ?_⟩
    have hall := length_le_minAlloc c.schema (symbolsAfter S g)
    have hlimit := c.dictionaryLimit_bounds.2
    rw [← length_append, ← hafter]
    unfold uint32Max
    omega

theorem FrameOk.encode {S : Symbols} {first : ℕ} (h : FrameOk S first g) :
    frameEncode (groupFrame S first g) = .ok (groupFrame S first g).bytes := by
  rw [frameEncode, frameSizes_eq_some.2 h.sized]
  simp only [h.dictionary, h.times, Bool.and_self, if_true]
  rfl

section Prepare

variable {env : Env Path Dir} {fs : Files} {n : ℕ} {d : Dictionary} {S : Symbols} {g : Group c}

/-- Why the frame of a group cannot be built: memory has run out, or the group does not fit. Only a
dictionary with arrays that earlier groups have left can be full without that. -/
def PrepareCause (env : Env Path Dir) (d : Dictionary) (S : Symbols) (g : Group c) (e : Error) : Prop :=
  e.code = .nomem ∧ ¬ env.Calm ∨ e.code = .limit ∧ (d.Tight S → ¬ FitsBehind S g)

/-- **The writer builds the frame of the group**, or fails and has defined some of its symbols. The
encoder never rejects an orderly group. -/
theorem wp_prepareFrame (hd : d.Rep S) (hschema : d.schema = c.schema)
    (hlimit : d.limit = c.options.dictionaryLimitBytes) {first : ℕ} (hfirst : first ≠ 0)
    (hlast : first + groupCount g ≤ 2 ^ 64)
    (hsize : groupCount g * c.schema.rowWidth ≤ maxFrameBytes - 96) :
    wp (prepareFrame c ⟨first, groupMin g, groupMax g, groupCount g,
        groupCount g * c.schema.rowWidth⟩ g) env (fun e fs' d' ↦
      InterningPost fs d S (symbolsAfter S g) (fun x ↦
        x = (groupFrame S first g, (groupFrame S first g).bytes) ∧ FrameOk S first g) e fs' d' ∧
      (Orderly g → g ≠ [] → ∀ er, e = .fail er → PrepareCause env d S g er)) ⟨fs, n, d⟩ := by
  have hmax : maxFrameBytes = 1048576 := rfl
  unfold prepareFrame
  refine wp_bind (wp_get.2 fun n ↦ ?_)
  refine wp_bind ((wp_internRows hd c.schema (groupRows g)).mono ?_)
  rintro (rows | e | _) fs' d' ⟨hpost, hcause⟩
  rotate_left
  · refine ⟨hpost, fun _ _ er her ↦ ?_⟩
    cases her
    rcases hcause with ⟨-, x, hx, hbad⟩ | hnomem | ⟨he, hlt⟩
    · exact absurd (hschema ▸ symbolOk_of_mem_groupSymbols hx) hbad
    · exact .inl hnomem
    · refine .inr ⟨he, fun htight hfits ↦ ?_⟩
      have := hlt htight
      rw [hschema, hlimit] at this
      exact absurd hfits.budget (not_le.2 this)
  · exact hpost.elim
  obtain ⟨rfl, hrep, hschema', hlimit', hrows⟩ := hpost
  refine fun n ↦ wp_bind (wp_get.2 fun n ↦ ?_)
  have hrep' : d'.Rep (S ++ (symbolsAfter S g).drop S.length) := by
    rw [← symbolsAfter_eq]
    exact hrep
  have hfail {e : Error} (he : e.code ≠ .indeterminate)
      (hcause : Orderly g → g ≠ [] → PrepareCause env d S g e) :
      InterningPost fs' d S (symbolsAfter S g) (fun x ↦
        x = (groupFrame S first g, (groupFrame S first g).bytes) ∧ FrameOk S first g) (.fail e) fs' d' ∧
      (Orderly g → g ≠ [] → ∀ er, Exit.fail (α := Frame × Bytes) e = .fail er →
        PrepareCause env d S g er) :=
    ⟨⟨rfl, ⟨_, hrep'⟩, hschema', hlimit', he⟩, fun hg hne er her ↦ by cases her; exact hcause hg hne⟩
  have hpad : definitionBytes ((symbolsAfter S g).drop S.length) ≤
      padded (definitionBytes ((symbolsAfter S g).drop S.length)) := by
    unfold padded
    omega
  have hu : uint32Max = 2 ^ 32 - 1 := rfl
  rw [hd.count_eq]
  refine wp_bind (wp_dictionaryExportLimit hrep' maxFrameBytes (fun _ n ↦ ?_)
    (fun e he hlt ↦ hfail (by rw [he]; decide) fun _ _ ↦ .inr ⟨he, fun _ hfits ↦ ?_⟩)
    fun e he hcalm ↦ hfail (by rw [he]; decide) fun _ _ ↦ .inl ⟨he, hcalm⟩)
  swap
  · have hsize := hfits.size
    rw [length_definitions] at hsize
    omega
  refine wp_bind (wp_require (fun hroom n ↦ ?_)
    fun hroom ↦ hfail (by decide) fun _ _ ↦ .inr ⟨rfl, fun _ hfits ↦ ?_⟩)
  swap
  · have hsize := hfits.size
    have hroom' := of_decide_eq_false hroom
    simp only at hroom'
    omega
  have hframe : GroupFrame.frame ⟨first, groupMin g, groupMax g, groupCount g,
      groupCount g * c.schema.rowWidth⟩ c.schema rows.flatten
      (definitions S ((symbolsAfter S g).drop S.length))
      ((symbolsAfter S g).drop S.length).length = groupFrame S first g := by
    rw [hrows (symbolsAfter S g) (prefix_refl _), length_drop]
    rfl
  have hvalid : ∀ x ∈ symbolsAfter S g, SymbolOk c.schema x := by
    rw [← hschema, ← hschema']
    exact hrep.valid
  have hbudget : minAlloc c.schema (symbolsAfter S g) ≤ c.options.dictionaryLimitBytes := by
    rw [← hlimit, ← hlimit', ← hschema, ← hschema']
    exact hrep.minAlloc_le.trans hrep.budget
  simp only [hframe]
  refine wp_bind ?_
  cases hencode : frameEncode (groupFrame S first g) with
  | error e =>
    refine hfail ?_ fun hg hne ↦ ?_
    · unfold frameEncode at hencode
      split at hencode
      · cases hencode
        decide
      · split at hencode <;> cases hencode
        decide
    · have hroom' := of_decide_eq_true hroom
      simp only at hroom'
      have hok := hg.frameOk hne hfirst hlast hvalid hrep.nodup ⟨hbudget, by omega⟩
      rw [hok.encode] at hencode
      cases hencode
  | ok p =>
    intro n
    refine wp_bind (wp_allocOr (fun n ↦ ?_) fun hcalm ↦ hfail (by decide) fun _ _ ↦
      .inl ⟨rfl, hcalm⟩)
    obtain ⟨total, hsized, hdict, htimes, rfl⟩ := frameEncode_eq_ok hencode
    have htotal : total = (groupFrame S first g).size := by
      rw [hsized.total_eq, Frame.size, length_groupFrame_rows]
      rfl
    subst htotal
    exact ⟨⟨rfl, hrep, hschema', hlimit', rfl, hsized, hdict, htimes, hlast, hvalid, hrep.nodup,
      hbudget⟩, nofun⟩

end Prepare

/-! ### Faults and exhaustion -/

/-- A call was refused. -/
def Error.Fault (env : Env Path Dir) (e : Error) : Prop :=
  ¬ env.Calm ∧ (e.code = .io ∨ e.code = .nomem ∨ e.code = .indeterminate)

/-- Sequence numbers or segment records have run out. -/
def Error.Exhaustion (e : Error) : Prop :=
  e = ⟨.limit, "row sequences exhausted"⟩ ∨ e = ⟨.limit, "segment metadata exhausted"⟩ ∨
    e = ⟨.limit, "segment IDs exhausted"⟩

theorem Error.Fault.nomem (h : ¬ env.Calm) (message : String) :
    (⟨.nomem, message⟩ : Error).Fault env := ⟨h, .inr (.inl rfl)⟩

theorem Error.Fault.io (h : ¬ env.Calm) (message : String) :
    (⟨.io, message⟩ : Error).Fault env := ⟨h, .inl rfl⟩

theorem Error.Fault.definite (h : ¬ env.Calm) {e : Error}
    (he : e.code = .io ∨ e.code = .nomem) : e.Fault env := ⟨h, he.imp_right .inl⟩

theorem Error.Exhaustion.code {e : Error} (h : e.Exhaustion) : e.code = .limit := by
  rcases h with rfl | rfl | rfl <;> rfl

/-- A program that fails for these errors only, and does not come to its end only after a fault. -/
def Blames {α μ : Type} (env : Env Path Dir) (P : Error → Prop) : Exit Error α → Files → μ → Prop
  | .ok _, _, _ => True
  | .fail e, _, _ => P e
  | .killed, _, _ => ¬ env.Calm

/-- Why a segment cannot be made. -/
def RotateCause (env : Env Path Dir) (e : Error) : Prop := e.Fault env ∨ e.Exhaustion

end WebAnalyticsDb
