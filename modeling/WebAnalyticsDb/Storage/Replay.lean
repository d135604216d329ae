import WebAnalyticsDb.Storage.Interning

/-!
# Replaying the dictionary of a segment

The writer commits the symbols that a group has added as one definition section. Recovery and readers of an
active segment apply the sections one after the other to a new dictionary; a sealed segment has all symbols in
one section, its checkpoint. All of them have the writer's budget.

* **Two charges.** A dictionary that is filled from scratch is charged the least that its symbols can cost
  (`Dictionary.Tight`), and the writer's, with whatever failed groups have left behind, at least that
  (`Dictionary.Sound.minAlloc_le`). The least charge grows with the symbols, so no part of a replay costs more
  than the writer has paid.
* **Two sizes.** A definition takes less room in a section than its symbol does in memory
  (`padded_definitionBytes_le`), so a dictionary within 64 MiB has a checkpoint within 64 MiB.
-/

namespace WebAnalyticsDb

open Bytes List

/-! ### Replay -/

section Programs

variable {μ : Type}

/-- Apply sections, each with its number of definitions, one after the other. -/
def applySections : List (Bytes × ℕ) → Dictionary → Io μ Dictionary
  | [], d => pure d
  | x :: xs, d => do
    let (applied, d) ← Prog.within d (dictionaryApply x.1 x.2)
    Prog.rethrow applied
    applySections xs d

/-- What `recover_segment` and `active_dictionary` do with the sections of a segment, and
`wadb_index_dictionary` with its checkpoint. -/
def replay (s : Schema) (limit : ℕ) (sections : List (Bytes × ℕ)) : Io μ Dictionary := do
  let d ← dictionaryNew s limit
  applySections sections d

end Programs

/-- **A live dictionary**, the sections that have been committed from it and how many symbols these define. -/
structure DictionaryHistory where
  dictionary : Dictionary
  mark : ℕ
  sections : List (Bytes × ℕ)

/-- What the writer does with a live dictionary. -/
inductive HistoryCall
  | intern (field : ℕ) (data : Bytes)
  | rollback (mark : ℕ)
  | commit
  | reopen

/-- **The histories of a live dictionary.** A failed call leaves what it leaves. A group that fails is rolled
back to where it or its request began, which is not before what is committed. -/
def historyMachine (s : Schema) (limit : ℕ) : Machine DictionaryHistory HistoryCall where
  init w := w.dictionary.Created s limit ∧ w.mark = 0 ∧ w.sections = []
  step w call w' := ∃ (env : Env Path Dir) (fs : Files) (n : ℕ),
    match call with
    | .intern field data =>
      w' = { w with dictionary := (dictionaryIntern field data env ⟨fs, n, w.dictionary⟩).2.mem }
    | .rollback mark => w.mark ≤ mark ∧ w' = { w with dictionary := w.dictionary.rollback mark }
    | .commit => ∃ x, ((dictionaryExport w.dictionary w.mark : Io Unit _) env ⟨fs, n, ()⟩).1 = .ok x ∧
        w' = ⟨w.dictionary, w.dictionary.count, w.sections ++ [x]⟩
    | .reopen => ∃ d, ((replay s limit w.sections : Io Unit _) env ⟨fs, n, ()⟩).1 = .ok d ∧
        w' = ⟨d, d.count, w.sections⟩

/-! ### Sections -/

/-- The sections that define the parts of a list of symbols after `S`. -/
def sectionsFrom (S : Symbols) : List Symbols → List (Bytes × ℕ)
  | [] => []
  | T :: parts => (definitions S T, T.length) :: sectionsFrom (S ++ T) parts

section Sections

variable {S T : Symbols} {parts : List Symbols}

theorem sectionsFrom_append (S : Symbols) (parts : List Symbols) (T : Symbols) :
    sectionsFrom S (parts ++ [T]) = sectionsFrom S parts ++ [(definitions (S ++ parts.flatten) T, T.length)] := by
  induction parts generalizing S with
  | nil => simp [sectionsFrom]
  | cons U parts ih => simp [sectionsFrom, ih]

theorem sum_sectionsFrom (S : Symbols) (parts : List Symbols) :
    ((sectionsFrom S parts).map (·.2)).sum = parts.flatten.length := by
  induction parts generalizing S with
  | nil => rfl
  | cons T parts ih => rw [sectionsFrom, map_cons, sum_cons, ih, flatten_cons, length_append]

theorem take_sectionsFrom (S : Symbols) (parts : List Symbols) (k : ℕ) :
    (sectionsFrom S parts).take k = sectionsFrom S (parts.take k) := by
  induction parts generalizing S k with
  | nil => simp [sectionsFrom]
  | cons T parts ih =>
    cases k with
    | zero => rfl
    | succ k => rw [sectionsFrom, take_succ_cons, take_succ_cons, sectionsFrom, ih]

/-- Sections without definitions can be left out. -/
theorem filter_sectionsFrom (S : Symbols) (parts : List Symbols) :
    (sectionsFrom S parts).filter (·.2 ≠ 0) = sectionsFrom S (parts.filter (· ≠ [])) := by
  induction parts generalizing S with
  | nil => rfl
  | cons T parts ih =>
    cases T with
    | nil => simpa [sectionsFrom] using ih S
    | cons x T => simpa [sectionsFrom] using ih (S ++ x :: T)

end Sections

/-! ### A replay stays within the budget -/

section Budget

variable {μ : Type} {m : μ} {d : Dictionary} {S : Symbols} {parts : List Symbols} {s : Schema} {limit : ℕ}
  {env : Env Path Dir} {fs : Files} {n : ℕ}

/-- **How a replay of `S` ends**: with a dictionary for `S`, or for lack of memory. -/
def ReplayPost (env : Env Path Dir) (s : Schema) (limit : ℕ) (S : Symbols) : Exit Error Dictionary → Prop
  | .ok d => d.Rep S ∧ d.schema = s ∧ d.limit = limit
  | .fail e => e.code = .nomem ∧ ¬ env.Calm
  | .killed => False

theorem sectionFits_of_minAlloc_le (hvalid : ∀ x ∈ S, SymbolOk s x) (hs : s.fieldCount ≤ maxFields)
    (hle : minAlloc s S ≤ 64 * 1024 * 1024) : SectionFits s [] S where
  valid := hvalid
  fieldCount := hs
  length := by
    have := length_le_minAlloc s S
    rw [length_nil, uint32Max]
    omega

theorem SectionFits.split {T U : Symbols} (h : SectionFits s S (T ++ U)) :
    SectionFits s S T ∧ SectionFits s (S ++ T) U := by
  have hlen := h.length
  rw [length_append] at hlen
  refine ⟨⟨fun x hx ↦ h.valid x (mem_append_left U hx), h.fieldCount, by omega⟩,
    ⟨fun x hx ↦ h.valid x (mem_append_right T hx), h.fieldCount, ?_⟩⟩
  rw [length_append]
  omega

/-- **Sections are applied one by one**, and none of them exceeds a budget that the last one is within. -/
theorem wp_applySections (h : d.Rep S) (ht : d.Tight S) (hfits : SectionFits d.schema S parts.flatten)
    (hnodup : (S ++ parts.flatten).Nodup) (hbudget : minAlloc d.schema (S ++ parts.flatten) ≤ d.limit) :
    wp (applySections (sectionsFrom S parts) d) env
      (fun e _ _ ↦ ReplayPost env d.schema d.limit (S ++ parts.flatten) e) ⟨fs, n, m⟩ := by
  induction parts generalizing S d fs n with
  | nil =>
    rw [flatten_nil, append_nil]
    exact ⟨h, rfl, rfl⟩
  | cons T parts ih =>
    rw [flatten_cons] at hfits hnodup hbudget ⊢
    rw [← append_assoc] at hnodup hbudget ⊢
    rw [sectionsFrom, applySections]
    obtain ⟨hT, hrest⟩ := hfits.split
    have hmono := minAlloc_mono d.schema (S ++ T) parts.flatten
    refine wp_bind (Prog.wp_within.2 ((wp_dictionaryApply h hT (nodup_append.1 hnodup).1).mono ?_))
    rintro (_ | e | _) fs' d' ⟨rfl, hschema, hlimit, hpost⟩
    · intro n
      refine wp_bind (wp_rethrow.2 fun n ↦ ?_)
      rw [← hschema] at hrest hbudget ⊢
      rw [← hlimit] at hbudget ⊢
      exact ih hpost.1 (hpost.2 ht) hrest hnodup hbudget
    · intro n
      refine wp_bind (wp_rethrow.2 ?_)
      rcases hpost.2 with hnomem | ⟨-, hover⟩
      · exact hnomem
      · -- the part that was applied costs no more than all of them
        have := hover ht
        omega
    · exact hpost.elim

/-- **A replay of symbols that the budget allows.** -/
theorem wp_replay (hlimit : limit ≤ 64 * 1024 * 1024) (hs : s.fieldCount ≤ maxFields)
    (hvalid : ∀ x ∈ parts.flatten, SymbolOk s x) (hnodup : parts.flatten.Nodup)
    (hbudget : minAlloc s parts.flatten ≤ limit) :
    wp (replay s limit (sectionsFrom [] parts)) env
      (fun e _ _ ↦ ReplayPost env s limit parts.flatten e) ⟨fs, n, m⟩ := by
  refine wp_bind (wp_dictionaryNew s hlimit (fun d hrep htight hschema heq _ n ↦ ?_) ?_ ?_)
  · subst hschema heq
    exact wp_applySections hrep htight (sectionFits_of_minAlloc_le hvalid hs (hbudget.trans hlimit)) hnodup
      hbudget
  · intro e _ hover
    have := minAlloc_mono s [] parts.flatten
    rw [nil_append] at this
    omega
  · exact fun e hcode hcalm ↦ ⟨hcode, hcalm⟩

end Budget

/-! ### Histories -/

section Histories

variable {s : Schema} {limit : ℕ} {w w' : DictionaryHistory} {parts : List Symbols} {T : Symbols}
  {env : Env Path Dir} {fs : Files} {n : ℕ}

/-- **What a history keeps**: the dictionary stands for the committed symbols and those of the group, and the
sections are the definitions of the committed ones. -/
structure DictionaryHistory.Keeps (s : Schema) (limit : ℕ) (w : DictionaryHistory) (parts : List Symbols)
    (T : Symbols) : Prop where
  rep : w.dictionary.Rep (parts.flatten ++ T)
  schema : w.dictionary.schema = s
  limit : w.dictionary.limit = limit
  mark : w.mark = parts.flatten.length
  sections : w.sections = sectionsFrom [] parts

namespace DictionaryHistory.Keeps

section

variable (h : w.Keeps s limit parts T)
include h

theorem minAlloc_le : minAlloc s (parts.flatten ++ T) ≤ limit := by
  have hmin := h.rep.toSound.minAlloc_le
  have hbudget := h.rep.budget
  rw [h.schema] at hmin
  rw [h.limit] at hbudget
  exact hmin.trans hbudget

/-- Any symbols that begin those of the dictionary can be replayed, in any parts. -/
theorem replay {parts' : List Symbols} {U : Symbols}
    (hlimit : limit ≤ 64 * 1024 * 1024) (hs : s.fieldCount ≤ maxFields)
    (hsplit : parts.flatten ++ T = parts'.flatten ++ U) {μ : Type} {m : μ} :
    wp (WebAnalyticsDb.replay s limit (sectionsFrom [] parts')) env
      (fun e _ _ ↦ ReplayPost env s limit parts'.flatten e) ⟨fs, n, m⟩ := by
  have hvalid := h.rep.valid
  have hnodup := h.rep.nodup
  have hmin := h.minAlloc_le
  rw [hsplit] at hvalid hnodup hmin
  rw [h.schema] at hvalid
  exact wp_replay hlimit hs (fun x hx ↦ hvalid x (mem_append_left U hx)) (nodup_append.1 hnodup).1
    ((minAlloc_mono s _ U).trans hmin)

theorem intern (field : ℕ) (data : Bytes) :
    ∃ T', ({ w with dictionary := (dictionaryIntern field data env ⟨fs, n, w.dictionary⟩).2.mem } :
      DictionaryHistory).Keeps s limit parts T' := by
  have hwp : wp (dictionaryIntern field data) env _ ⟨fs, n, w.dictionary⟩ :=
    wp_dictionaryIntern h.rep field data
  refine hwp.elim
    (F := fun r ↦ ∃ T', (DictionaryHistory.mk r.2.mem w.mark w.sections).Keeps s limit parts T') ?_
  rintro (id | e | _) ⟨fs', n', d'⟩ ⟨-, hpost⟩
  · obtain ⟨hrep, -, -, hschema, heq, -⟩ := hpost
    obtain ⟨U, hU⟩ := Symbols.prefix_define (parts.flatten ++ T) (field, data)
    rw [← hU, append_assoc] at hrep
    exact ⟨T ++ U, hrep, hschema.trans h.schema, heq.trans h.limit, h.mark, h.sections⟩
  · obtain ⟨hrep, hschema, heq, -⟩ := hpost
    exact ⟨T, hrep, hschema.trans h.schema, heq.trans h.limit, h.mark, h.sections⟩
  · exact hpost.elim

theorem rollback {mark : ℕ} (hmark : w.mark ≤ mark) :
    ({ w with dictionary := w.dictionary.rollback mark } : DictionaryHistory).Keeps s limit parts
      (T.take (mark - w.mark)) := by
  obtain ⟨hsound, hschema, heq⟩ := h.rep.toSound.rollback_take mark
  rw [take_append, take_of_length_le (by rw [← h.mark]; exact hmark), ← h.mark] at hsound
  refine ⟨⟨hsound, ?_⟩, hschema.trans h.schema, heq.trans h.limit, h.mark, h.sections⟩
  exact heq.trans_le h.rep.limit_le

theorem commit {x : Bytes × ℕ}
    (hx : ((dictionaryExport w.dictionary w.mark : Io Unit _) env ⟨fs, n, ()⟩).1 = .ok x) :
    (DictionaryHistory.mk w.dictionary w.dictionary.count (w.sections ++ [x])).Keeps s limit
      (parts ++ [T]) [] := by
  have hflat : (parts ++ [T]).flatten = parts.flatten ++ T := by simp
  have hsection : x = (definitions parts.flatten T, T.length) := by
    have hwp : wp (dictionaryExport w.dictionary w.mark : Io Unit _) env
        (fun e _ _ ↦ ∀ x, e = .ok x → x = (definitions parts.flatten T, T.length)) ⟨fs, n, ()⟩ := by
      rw [h.mark]
      refine wp_dictionaryExportLimit h.rep _ (fun _ x hx ↦ ?_) (fun _ _ _ ↦ nofun) fun _ _ _ ↦ nofun
      cases hx
      rfl
    exact hwp x hx
  refine ⟨?_, h.schema, h.limit, ?_, ?_⟩
  · rw [hflat, append_nil]
    exact h.rep
  · rw [hflat]
    exact h.rep.count_eq
  · rw [sectionsFrom_append, ← h.sections, hsection, nil_append]

theorem reopen (hlimit : limit ≤ 64 * 1024 * 1024) (hs : s.fieldCount ≤ maxFields) {d : Dictionary}
    (hd : ((WebAnalyticsDb.replay s limit w.sections : Io Unit _) env ⟨fs, n, ()⟩).1 = .ok d) :
    (DictionaryHistory.mk d d.count w.sections).Keeps s limit parts [] := by
  have hpost : ReplayPost env s limit parts.flatten (.ok d) := by
    have hwp : wp (WebAnalyticsDb.replay s limit (sectionsFrom [] parts)) env _ ⟨fs, n, ()⟩ :=
      h.replay hlimit hs rfl
    rw [← h.sections] at hwp
    exact hd ▸ hwp
  refine ⟨?_, hpost.2.1, hpost.2.2, hpost.1.count_eq, h.sections⟩
  rw [append_nil]
  exact hpost.1

/-- **One call** of a history. -/
theorem step (hlimit : limit ≤ 64 * 1024 * 1024)
    (hs : s.fieldCount ≤ maxFields) {call : HistoryCall} (hstep : (historyMachine s limit).step w call w') :
    ∃ parts' T', w'.Keeps s limit parts' T' := by
  obtain ⟨env, fs, n, hcall⟩ := hstep
  cases call with
  | intern field data =>
    obtain rfl := hcall
    exact ⟨parts, h.intern field data⟩
  | rollback mark =>
    obtain ⟨hmark, rfl⟩ := hcall
    exact ⟨parts, _, h.rollback hmark⟩
  | commit =>
    obtain ⟨x, hx, rfl⟩ := hcall
    exact ⟨_, [], h.commit hx⟩
  | reopen =>
    obtain ⟨d, hd, rfl⟩ := hcall
    exact ⟨parts, [], h.reopen hlimit hs hd⟩

end

end DictionaryHistory.Keeps

/-- **Every history keeps** its sections replayable. -/
theorem keeps_of_reach (hlimit : limit ≤ 64 * 1024 * 1024) (hs : s.fieldCount ≤ maxFields)
    (h : (historyMachine s limit).Reach w) : ∃ parts T, w.Keeps s limit parts T := by
  refine h.invariant (p := fun w ↦ ∃ parts T, w.Keeps s limit parts T) ?_ ?_
  · rintro w ⟨⟨env, fs, n, hnew⟩, hmark, hsections⟩
    have hwp : wp (dictionaryNew s limit : Io Unit Dictionary) env
        (fun e _ _ ↦ ∀ d, e = .ok d → d.Rep [] ∧ d.schema = s ∧ d.limit = limit) ⟨fs, n, ()⟩ := by
      refine wp_dictionaryNew s hlimit (fun d hrep _ hschema heq _ d' hd ↦ ?_) (fun _ _ _ ↦ nofun)
        fun _ _ _ ↦ nofun
      cases hd
      exact ⟨hrep, hschema, heq⟩
    obtain ⟨hrep, hschema, heq⟩ := hwp w.dictionary hnew
    exact ⟨[], [], hrep, hschema, heq, hmark, hsections⟩
  · rintro w call w' - ⟨parts, T, hw⟩ hstep
    exact hw.step hlimit hs hstep

/-- How a replay ends under a budget that is enough: with a dictionary that nobody can tell from `d`, or for
lack of memory. -/
def EndsAlike (env : Env Path Dir) (d : Dictionary) : Exit Error Dictionary → Prop
  | .ok d' => d'.Alike d
  | .fail e => e.code = .nomem ∧ ¬ env.Calm
  | .killed => False

/-- How an export ends that is not too large. -/
def Exports (env : Env Path Dir) : Exit Error (Bytes × ℕ) → Prop
  | .ok _ => True
  | .fail e => e.code = .nomem ∧ ¬ env.Calm
  | .killed => False

theorem ReplayPost.endsAlike {S : Symbols} {d : Dictionary} {e : Exit Error Dictionary}
    (h : ReplayPost env s limit S e) (hd : d.Sound S) (hschema : d.schema = s) : EndsAlike env d e := by
  cases e with
  | ok d' => exact hd.alike h.1.toSound (h.2.1.trans hschema.symm)
  | fail e => exact h
  | killed => exact h

namespace DictionaryHistory.Keeps

/-- The first `k` sections, of all or of those that define something. -/
theorem replay_take (h : w.Keeps s limit parts T) (hlimit : limit ≤ 64 * 1024 * 1024)
    (hs : s.fieldCount ≤ maxFields) {parts' : List Symbols} (hflat : parts'.flatten = parts.flatten) (k : ℕ) :
    EndsAlike env (w.dictionary.rollback (((sectionsFrom [] parts').take k).map (·.2)).sum)
      ((WebAnalyticsDb.replay s limit ((sectionsFrom [] parts').take k) : Io Unit _) env ⟨fs, n, ()⟩).1 := by
  have hsplit : parts.flatten ++ T = (parts'.take k).flatten ++ ((parts'.drop k).flatten ++ T) := by
    rw [← append_assoc, ← flatten_append, take_append_drop, hflat]
  have hwp : wp (WebAnalyticsDb.replay s limit (sectionsFrom [] (parts'.take k)) : Io Unit _) env _
      ⟨fs, n, ()⟩ := h.replay hlimit hs hsplit
  obtain ⟨hsound, hschema, -⟩ := h.rep.toSound.rollback_take (parts'.take k).flatten.length
  rw [hsplit, take_left] at hsound
  rw [take_sectionsFrom, sum_sectionsFrom]
  exact ReplayPost.endsAlike hwp hsound (hschema.trans h.schema)

/-- **The checkpoint** of the whole dictionary is within 64 MiB, and is replayed under the budget. -/
theorem checkpoint (h : w.Keeps s limit parts T) (hlimit : limit ≤ 64 * 1024 * 1024) :
    wp (dictionaryExportLimit w.dictionary 0 (64 * 1024 * 1024) : Io Unit _) env
      (fun e _ _ ↦ Exports env e ∧ ∀ x, e = .ok x → [x] = sectionsFrom [] [parts.flatten ++ T]) ⟨fs, n, ()⟩ := by
  have hpad := padded_definitionBytes_le s (parts.flatten ++ T)
  have hmin := h.minAlloc_le
  have hrep : w.dictionary.Rep ([] ++ (parts.flatten ++ T)) := h.rep
  refine wp_dictionaryExportLimit hrep _ (fun _ ↦ ⟨trivial, fun x hx ↦ ?_⟩) ?_ ?_
  · cases hx
    rfl
  · rintro e - (hover | hover)
    · omega
    · have hle : definitionBytes (parts.flatten ++ T) ≤ padded (definitionBytes (parts.flatten ++ T)) := by
        unfold padded
        omega
      unfold uint32Max at hover
      omega
  · exact fun e hcode hcalm ↦ ⟨⟨hcode, hcalm⟩, nofun⟩

end DictionaryHistory.Keeps

/-- **What was written under a budget can be replayed under it**: the first sections, however many, with or
without those that define nothing, and the checkpoint. -/
theorem dictionary_replayable (s : Schema) (hs : s.fieldCount ≤ maxFields) (limit : ℕ)
    (hlimit : limit ≤ 64 * 1024 * 1024) (w : DictionaryHistory) (h : (historyMachine s limit).Reach w)
    (env : Env Path Dir) (fs : Files) (n : ℕ) :
    (∀ sections ∈ [w.sections, w.sections.filter (·.2 ≠ 0)], ∀ k,
      EndsAlike env (w.dictionary.rollback ((sections.take k).map (·.2)).sum)
        ((replay s limit (sections.take k) : Io Unit _) env ⟨fs, n, ()⟩).1) ∧
    (w.sections.map (·.2)).sum = w.mark ∧
    Exports env ((dictionaryExportLimit w.dictionary 0 (64 * 1024 * 1024) : Io Unit _) env ⟨fs, n, ()⟩).1 ∧
    ∀ x, ((dictionaryExportLimit w.dictionary 0 (64 * 1024 * 1024) : Io Unit _) env ⟨fs, n, ()⟩).1 = .ok x →
      ∀ (env' : Env Path Dir) (fs' : Files) (n' : ℕ), EndsAlike env' w.dictionary
        ((replay s limit [x] : Io Unit _) env' ⟨fs', n', ()⟩).1 := by
  obtain ⟨parts, T, hw⟩ := keeps_of_reach hlimit hs h
  have hcheck : wp (dictionaryExportLimit w.dictionary 0 (64 * 1024 * 1024) : Io Unit _) env _
      ⟨fs, n, ()⟩ := hw.checkpoint hlimit
  refine ⟨fun sections hmem k ↦ ?_, ?_, hcheck.1, fun x hx env' fs' n' ↦ ?_⟩
  · rcases List.mem_pair.1 hmem with rfl | rfl
    · rw [hw.sections]
      exact hw.replay_take hlimit hs rfl k
    · rw [hw.sections, filter_sectionsFrom]
      exact hw.replay_take hlimit hs (List.flatten_filter_ne_nil) k
  · rw [hw.sections, sum_sectionsFrom, hw.mark]
  · rw [hcheck.2 x hx]
    have hwp : wp (replay s limit (sectionsFrom [] [parts.flatten ++ T]) : Io Unit _) env' _
        ⟨fs', n', ()⟩ := hw.replay hlimit hs (by simp : _ = _ ++ [])
    refine ReplayPost.endsAlike hwp ?_ hw.schema
    simpa using hw.rep.toSound

/-- One symbol has been defined and committed. -/
theorem dictionary_replayable_onePage : ∃ w : DictionaryHistory, w.sections.length = 1 ∧ w.mark = 1 ∧
    Exports (.still Path Dir) ((dictionaryExportLimit w.dictionary 0 (64 * 1024 * 1024) : Io Unit _)
      (.still Path Dir) ⟨fun _ ↦ none, 0, ()⟩).1 := by
  have hnew : (historyMachine onePage 1024).Reach
      ⟨⟨onePage, [], 0, [], List.replicate 2 default, sizeofDictionary + 2 * sizeofColumn, 1024⟩, 0, []⟩ :=
    .init ⟨⟨.still Path Dir, fun _ ↦ none, 0, rfl⟩, rfl, rfl⟩
  have hintern := hnew.step (.intern 1 [104]) ⟨.still Path Dir, fun _ ↦ none, 0, rfl⟩
  have hcommit := hintern.step .commit ⟨.still Path Dir, fun _ ↦ none, 0, _, rfl, rfl⟩
  exact ⟨_, rfl, rfl, (dictionary_replayable onePage (by decide) 1024 (by decide) _ hcommit (.still Path Dir)
    (fun _ ↦ none) 0).2.2.1⟩

end Histories

end WebAnalyticsDb
