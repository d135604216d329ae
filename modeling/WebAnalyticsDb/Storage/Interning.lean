import WebAnalyticsDb.Foundation.Machine
import WebAnalyticsDb.Storage.Definitions

/-!
# Runs of a dictionary

A dictionary under any sequence of `wadb_dictionary_intern`, `wadb_dictionary_rollback` and
`wadb_dictionary_apply` calls, each of which may succeed, exceed the budget or run out of memory halfway.

* **What a caller sees** of a dictionary is two functions: the identifier it holds for a string of a
  column (`Dictionary.idFor`) and the string of an identifier (`dictionaryResolve`). The laws are about
  these two; nothing in them mentions hashes, so strings that collide are as distinct as any others.
* **One invariant.** Every dictionary that a run reaches stands for a list of symbols
  (`Dictionary.Sound`), and every law is read off that list.
* **A mark** is a number of symbols. What a rollback to it restores is what was there when the
  dictionary last had that many, which is to say at any time since which it has not had fewer.

The budget is any number here, so that identifiers may run out before the budget does.
-/

namespace WebAnalyticsDb

open Bytes List

/-! ### Calls -/

/-- The calls that change a dictionary. -/
inductive DictionaryCall
  | intern (field : ℕ) (data : Bytes)
  | rollback (mark : ℕ)
  | apply (dictionary : Bytes) (count : ℕ)

/-- The program of a call. -/
def DictionaryCall.run : DictionaryCall → Io Dictionary Unit
  | .intern field data => do
    let _ ← dictionaryIntern field data
    pure ()
  | .rollback mark => Prog.modify (·.rollback mark)
  | .apply dictionary count => dictionaryApply dictionary count

/-- The dictionary is one that `wadb_dictionary_new` has made. -/
def Dictionary.Created (s : Schema) (limit : ℕ) (d : Dictionary) : Prop :=
  ∃ (env : Env Path Dir) (fs : Files) (n : ℕ),
    ((dictionaryNew s limit : Io Unit Dictionary) env ⟨fs, n, ()⟩).1 = .ok d

/-- **The runs of a dictionary.** A call leaves what it leaves, however it ends. -/
def dictionaryMachine (start : Dictionary → Prop) : Machine Dictionary DictionaryCall where
  init := start
  step d call d' := ∃ (env : Env Path Dir) (fs : Files) (n : ℕ), d' = (call.run env ⟨fs, n, d⟩).2.mem

/-! ### Laws -/

namespace Dictionary

/-- The identifier that a dictionary holds for a string of a column. -/
def idFor (d : Dictionary) (field : ℕ) (data : Bytes) : Option ℕ :=
  match d.lookup field data with
  | some (i + 1) => (d.symbols[i]?).map (·.id)
  | _ => none

/-- How many identifiers a column has. -/
def ids (d : Dictionary) (field : ℕ) : ℕ := (d.column field).indices.length

/-- Nobody can tell the two apart by looking strings up or by resolving identifiers. -/
def Alike (d d' : Dictionary) : Prop :=
  d.idFor = d'.idFor ∧ dictionaryResolve d = dictionaryResolve d'

/-- **The loops over the hash table end**: the lookup, the search for a free slot from any home, and
the same search for each symbol when the table is filled anew. -/
structure ProbesEnd (d : Dictionary) : Prop where
  lookup : ∀ field data, d.lookup field data ≠ none
  free : d.slots ≠ [] → ∀ home < d.slots.length, ∃ r, OpenAddressing.probe d.slots.length
    (fun s ↦ OpenAddressing.look d.slots s == 0) d.slots.length home = some r
  refill : d.slots ≠ [] → ∀ k < d.count, ∀ home < d.slots.length,
    ∃ r, OpenAddressing.probe d.slots.length (fun s ↦ OpenAddressing.look
      (OpenAddressing.fill (List.replicate d.slots.length 0) 0 ((d.symbols.take k).map (·.hash))) s == 0)
      d.slots.length home = some r

/-- **What holds of every dictionary that a run reaches.** -/
structure Lawful (d : Dictionary) : Prop where
  /-- Interning a string that is there returns its identifier and adds nothing. -/
  known : ∀ (env : Env Path Dir) (fs : Files) (n field id : ℕ) (data : Bytes),
    d.idFor field data = some id →
    wp (dictionaryIntern field data) env (fun e _ d' ↦ e = .ok id ∧ d' = d) ⟨fs, n, d⟩
  /-- A new one gets the next identifier of its column, and nothing else changes; or it is not added and
  nothing changes at all. -/
  fresh : ∀ (env : Env Path Dir) (fs : Files) (n field : ℕ) (data : Bytes), d.idFor field data = none →
    wp (dictionaryIntern field data) env (fun e _ d' ↦
      match e with
      | .ok id => id = d.ids field + 1 ∧
          (∀ f b, d'.idFor f b = if f = field ∧ b = data then some id else d.idFor f b) ∧
          (∀ f i, dictionaryResolve d' f i =
            if f = field ∧ i = id then .ok data else dictionaryResolve d f i)
      | .fail _ => d'.Alike d
      | .killed => False) ⟨fs, n, d⟩
  /-- The identifiers of a column are the numbers from one on. -/
  column : ∀ field id, (∃ data, dictionaryResolve d field id = .ok data) ↔ 1 ≤ id ∧ id ≤ d.ids field
  /-- Resolving is the inverse of interning. -/
  inverse : ∀ field id data, d.idFor field data = some id ↔ dictionaryResolve d field id = .ok data
  /-- Different strings of a column have different identifiers. -/
  distinct : ∀ field id a b, d.idFor field a = some id → d.idFor field b = some id → a = b
  /-- A rollback restores what was there when the dictionary had that many symbols. -/
  rollback : ∀ d', ((dictionaryMachine (· = d)).during fun _ _ d' ↦ d.count ≤ d'.count).Reach d' →
    (d'.rollback d.count).Alike d
  /-- A section that is not accepted changes nothing, and one that is takes nothing away. -/
  apply : ∀ (env : Env Path Dir) (fs : Files) (n count : ℕ) (dictionary : Bytes),
    wp (dictionaryApply dictionary count) env (fun e _ d' ↦
      match e with
      | .ok _ => ∀ field data id, d.idFor field data = some id → d'.idFor field data = some id
      | .fail _ => d'.Alike d
      | .killed => False) ⟨fs, n, d⟩
  probes : d.ProbesEnd
  /-- The charge is the sizes of the arrays and of the strings. -/
  allocated : d.allocatedBytes = sizeofDictionary + d.schema.fieldCount * sizeofColumn +
    d.capacity * sizeofSymbol + d.slots.length * sizeofSlot +
    (∑ f ∈ Finset.range d.schema.fieldCount, (d.column f).capacity) * sizeofSlot +
    (d.symbols.map fun s ↦ s.data.length + 1).sum
  budget : d.allocatedBytes ≤ d.limit

end Dictionary

/-! ### What a caller sees of a dictionary that stands for some symbols -/

variable {d d' : Dictionary} {S T : Symbols} {env : Env Path Dir} {fs : Files} {n : ℕ}

namespace Symbols

/-- The identifier of a symbol, if it is defined. -/
def id? (S : Symbols) (field : ℕ) (data : Bytes) : Option ℕ :=
  if (field, data) ∈ S then some (S.idOf field data) else none

theorem id?_of_isPrefix {field id : ℕ} {data : Bytes} (hpre : S <+: T)
    (h : S.id? field data = some id) : T.id? field data = some id := by
  unfold id? at h ⊢
  split at h <;> cases h
  next hmem => rw [if_pos (hpre.subset hmem), idOf_of_isPrefix hpre hmem]

theorem id?_append {field : ℕ} {data : Bytes} (hnew : (field, data) ∉ S) (f : ℕ) (b : Bytes) :
    id? (S ++ [(field, data)]) f b =
      if f = field ∧ b = data then some ((S.column field).length + 1) else S.id? f b := by
  unfold id?
  by_cases heq : f = field ∧ b = data
  · obtain ⟨rfl, rfl⟩ := heq
    rw [if_pos (by simp), if_pos ⟨rfl, rfl⟩, idOf_append_of_notMem hnew]
  · have hmem : (f, b) ∈ S ++ [(field, data)] ↔ (f, b) ∈ S := by
      simp only [mem_append, mem_singleton, Prod.mk.injEq]
      tauto
    rw [if_neg heq]
    by_cases hin : (f, b) ∈ S
    · rw [if_pos (hmem.2 hin), if_pos hin, idOf_of_isPrefix (prefix_append S _) hin]
    · rw [if_neg fun h ↦ hin (hmem.1 h), if_neg hin]

theorem decode_append {s : Schema} {field : ℕ} {data : Bytes} (hok : SymbolOk s (field, data))
    (f i : ℕ) : decode s (S ++ [(field, data)]) f i =
      if f = field ∧ i = (S.column field).length + 1 then .ok data else decode s S f i := by
  obtain ⟨h1, h2, h3, -, -⟩ := hok
  unfold decode
  by_cases hargs : f = 0 ∨ f ≥ s.fieldCount ∨ i = 0 ∨ s.isSymbol f = false
  · rw [if_pos hargs, if_pos hargs, if_neg]
    rintro ⟨rfl, rfl⟩
    simp only at h1 h2 h3
    rcases hargs with h | h | h | h
    · exact h1 h
    · omega
    · omega
    · rw [h3] at h
      cases h
  · rw [if_neg hargs, if_neg hargs, column_append, column_singleton]
    have hi : i ≠ 0 := fun h ↦ hargs (.inr (.inr (.inl h)))
    by_cases hf : f = field
    · subst hf
      by_cases heq : i = (S.column f).length + 1
      · subst heq
        simp
      · rw [if_pos rfl, if_neg fun h ↦ heq h.2]
        rcases lt_or_ge (i - 1) (S.column f).length with hlt | hge
        · rw [getElem?_append_left hlt]
        · rw [getElem?_append_right hge, getElem?_eq_none hge,
            getElem?_eq_none (by simp; omega)]
    · rw [if_neg fun h ↦ hf h.symm, if_neg fun h ↦ hf h.1, append_nil]

end Symbols

namespace Dictionary

theorem Sound.idFor_eq (h : d.Sound S) : d.idFor = S.id? := by
  funext field data
  unfold idFor Symbols.id?
  rcases h.lookup_eq field data with ⟨i, hi, hlookup⟩ | ⟨hnew, hlookup⟩
  · rw [hlookup, if_pos (mem_of_getElem? hi)]
    simp only [h.symbols, Symbols.getElem?_numberFrom [] hi, nil_append, Option.map_some]
    rw [Symbols.idOf_getElem h.nodup hi]
  · rw [hlookup, if_neg hnew]

/-- Dictionaries that stand for the same symbols are alike. -/
theorem Sound.alike (h : d.Sound S) (h' : d'.Sound S) (hschema : d'.schema = d.schema) :
    d'.Alike d := by
  refine ⟨h'.idFor_eq.trans h.idFor_eq.symm, ?_⟩
  rw [h'.resolve_eq, h.resolve_eq, hschema]

theorem Sound.ids_eq (h : d.Sound S) (field : ℕ) : d.ids field = (S.column field).length := by
  by_cases hf : field < d.schema.fieldCount
  · exact h.length_indices hf
  · -- there is no such column, and no symbol of it
    have hnone : d.ids field = 0 := by
      rw [ids, column, getD_eq_getElem?_getD,
        getElem?_eq_none (by rw [h.length_columns]; omega)]
      rfl
    have hnil : S.column field = [] := by
      rw [eq_nil_iff_forall_not_mem]
      intro data hmem
      exact hf (h.valid _ (Symbols.mem_column.1 hmem)).2.1
    rw [hnone, hnil, length_nil]

theorem Sound.inverse (h : d.Sound S) (field id : ℕ) (data : Bytes) :
    d.idFor field data = some id ↔ dictionaryResolve d field id = .ok data := by
  rw [h.idFor_eq, h.resolve_eq, Symbols.decode_eq_ok_iff h.nodup h.valid, Symbols.id?]
  split
  next hmem => exact ⟨fun hid ↦ ⟨hmem, (Option.some.inj hid).symm⟩, fun hid ↦ by rw [hid.2]⟩
  next hmem => exact ⟨nofun, fun hid ↦ absurd hid.1 hmem⟩

theorem Sound.resolves_iff (h : d.Sound S) (field id : ℕ) :
    (∃ data, dictionaryResolve d field id = .ok data) ↔ 1 ≤ id ∧ id ≤ d.ids field := by
  rw [h.ids_eq]
  constructor
  · rintro ⟨data, hdata⟩
    rw [← h.inverse, h.idFor_eq, Symbols.id?] at hdata
    split at hdata <;> cases hdata
    next hmem =>
    have := idxOf_lt_length_iff.2 (Symbols.mem_column.2 hmem)
    unfold Symbols.idOf
    omega
  · rintro ⟨hpos, hle⟩
    have hlt : id - 1 < (S.column field).length := by omega
    have hmem : (field, (S.column field)[id - 1]) ∈ S :=
      Symbols.mem_column.1 (getElem_mem hlt)
    refine ⟨(S.column field)[id - 1], ?_⟩
    rw [← h.inverse, h.idFor_eq, Symbols.id?, if_pos hmem, Symbols.idOf,
      (Symbols.nodup_column h.nodup field).idxOf_getElem, Nat.sub_add_cancel hpos]

/-- A table with a free slot is searched in a bounded number of steps. -/
theorem probe_free {hashes slots : List ℕ} (hc : OpenAddressing.Chained hashes slots)
    (hlt : hashes.length < slots.length) {home : ℕ} (hhome : home < slots.length) :
    ∃ r, OpenAddressing.probe slots.length (fun s ↦ OpenAddressing.look slots s == 0) slots.length
      home = some r := by
  obtain ⟨q, hq, hfree⟩ := hc.exists_free hlt
  exact OpenAddressing.exists_probe_of_lt hc.size _ hhome hq (by simp [hfree])

theorem Sound.probesEnd (h : d.Sound S) : d.ProbesEnd where
  lookup field data := by
    rcases h.lookup_eq field data with ⟨i, -, hlookup⟩ | ⟨-, hlookup⟩ <;> simp [hlookup]
  free hne home hhome := by
    rcases h.table with ⟨hnil, -⟩ | ⟨hchain, hroom, hpos⟩
    · exact absurd hnil hne
    · exact probe_free hchain (by rw [length_map]; omega) hhome
  refill hne k hk home hhome := by
    rcases h.table with ⟨hnil, -⟩ | ⟨hchain, hroom, hpos⟩
    · exact absurd hnil hne
    · rw [h.count_eq] at hk
      have hlen : ((d.symbols.take k).map (·.hash)).length = k := by
        rw [length_map, length_take_of_le]
        rw [← Dictionary.count, h.count_eq]
        omega
      have hfill := @OpenAddressing.chained_fill d.slots.length ((d.symbols.take k).map (·.hash))
        hchain.size (by omega)
      have hhome' : home < (OpenAddressing.fill (List.replicate d.slots.length 0) 0
          ((d.symbols.take k).map (·.hash))).length := by simpa using hhome
      have := probe_free hfill (by rw [hlen]; simp; omega) hhome'
      simpa using this

theorem Sound.allocated_eq_sum (h : d.Sound S) :
    (d.symbols.map fun s ↦ s.data.length + 1).sum = stringBytes S := by
  have hmap (S T : Symbols) : ((Symbols.numberFrom S T).map fun s ↦ s.data.length + 1) =
      T.map fun x ↦ x.2.length + 1 := by
    induction T generalizing S with
    | nil => rfl
    | cons x T ih => simp [Symbols.numberFrom, ih]
  rw [h.symbols, hmap, stringBytes]

/-- A rollback to any mark. -/
theorem Sound.rollback_take (h : d.Sound S) (mark : ℕ) : (d.rollback mark).Sound (S.take mark) ∧
    (d.rollback mark).schema = d.schema ∧ (d.rollback mark).limit = d.limit := by
  rcases lt_or_ge S.length mark with hlt | hge
  · have hrollback : d.rollback mark = d := by
      rw [Dictionary.rollback, if_pos (by rw [h.count_eq]; omega)]
    rw [hrollback, take_of_length_le hlt.le]
    exact ⟨h, rfl, rfl⟩
  · rw [← take_append_drop mark S] at h
    have := h.rollback
    rwa [length_take_of_le hge] at this

end Dictionary

/-! ### Runs -/

/-- **One call** keeps the invariant. What was there before the call begins what is there after it,
unless the call is a rollback. -/
theorem DictionaryCall.sound (h : d.Sound S) (call : DictionaryCall) :
    wp call.run env (fun _ _ d' ↦ d'.schema = d.schema ∧ ∃ T, d'.Sound T ∧
      (S <+: T ∨ T = S.take d'.count)) ⟨fs, n, d⟩ := by
  have hkeep (T : Symbols) {d' : Dictionary} (hT : d'.Sound (S ++ T)) :
      ∃ T, d'.Sound T ∧ (S <+: T ∨ T = S.take d'.count) :=
    ⟨S ++ T, hT, .inl (prefix_append S T)⟩
  have hsame {d' : Dictionary} (hd' : d'.Sound S) : ∃ T, d'.Sound T ∧ (S <+: T ∨ T = S.take d'.count) :=
    ⟨S, hd', .inl (prefix_refl S)⟩
  cases call with
  | intern field data =>
    refine wp_bind ((wp_dictionaryIntern_sound h field data).mono ?_)
    rintro (id | e | _) fs' d' ⟨-, hpost⟩
    · exact fun n ↦ ⟨hpost.2.2.2.1, _, hpost.1, .inl (S.prefix_define (field, data))⟩
    · exact ⟨hpost.2.1, hsame hpost.1⟩
    · exact hpost.elim
  | rollback mark =>
    obtain ⟨hsound, hschema, -⟩ := h.rollback_take mark
    have hcount : S.take mark = S.take (d.rollback mark).count := by
      rw [hsound.count_eq, length_take, take_eq_take_iff]
      omega
    exact ⟨hschema, S.take mark, hsound, .inr hcount⟩
  | apply p k =>
    refine (wp_dictionaryApply_any h p k).mono ?_
    rintro (_ | e | _) fs' d' ⟨hschema, -, hpost⟩
    · obtain ⟨T, hT⟩ := hpost
      exact ⟨hschema, hkeep T hT⟩
    · exact ⟨hschema, hsame hpost⟩
    · exact hpost.elim

theorem Dictionary.Created.sound {s : Schema} {limit : ℕ} (h : d.Created s limit) : d.Sound [] := by
  obtain ⟨env, fs, n, hnew⟩ := h
  have hwp : wp (dictionaryNew s limit : Io Unit Dictionary) env
      (fun e _ _ ↦ ∀ d, e = .ok d → d.Sound []) ⟨fs, n, ()⟩ := by
    refine wp_dictionaryNew_sound s (fun d hsound _ _ _ _ d' heq ↦ ?_) (fun _ _ _ ↦ nofun)
      fun _ _ _ ↦ nofun
    cases heq
    exact hsound
  exact hwp d hnew

/-- A run that never goes below a mark keeps what was there. -/
theorem Dictionary.Sound.extends (h : d.Sound S)
    (hrun : ((dictionaryMachine (· = d)).during fun _ _ d' ↦ d.count ≤ d'.count).Reach d') :
    d'.schema = d.schema ∧ ∃ T, d'.Sound (S ++ T) := by
  refine hrun.invariant (p := fun d' ↦ d'.schema = d.schema ∧ ∃ T, d'.Sound (S ++ T)) ?_ ?_
  · rintro _ rfl
    exact ⟨rfl, [], by rw [append_nil]; exact h⟩
  · rintro d₁ call d₂ - ⟨hschema, T, hT⟩ ⟨⟨env, fs, n, rfl⟩, hcount⟩
    have hwp : wp call.run env _ ⟨fs, n, d₁⟩ := DictionaryCall.sound hT call
    obtain ⟨hschema', T', hT', hcases⟩ := hwp
    refine ⟨hschema'.trans hschema, ?_⟩
    rcases hcases with ⟨U, hU⟩ | htake
    · exact ⟨T ++ U, by rw [← append_assoc, hU]; exact hT'⟩
    · -- a rollback that keeps the mark cuts behind it
      rw [h.count_eq] at hcount
      rw [take_append, take_of_length_le hcount] at htake
      exact ⟨_, by rw [← htake]; exact hT'⟩

/-- A dictionary that stands for some symbols obeys the laws. -/
theorem Dictionary.Sound.lawful (h : d.Sound S) : d.Lawful where
  known env fs n field id data hid := by
    rw [h.idFor_eq, Symbols.id?] at hid
    split at hid <;> cases hid
    next hmem =>
    refine (wp_dictionaryIntern_sound h field data).mono ?_
    rintro (id | e | _) fs' d' ⟨-, hpost⟩
    · obtain ⟨-, hid, -, -, -, -, hsame⟩ := hpost
      rw [Symbols.define_of_mem hmem] at hid
      exact ⟨by rw [hid], hsame hmem⟩
    · -- a string that is there is neither refused nor needs memory
      rcases hpost.2.2.2 with ⟨-, hbad⟩ | ⟨-, hnew, -⟩ | ⟨-, hnew, -⟩
      · exact absurd (h.valid _ hmem) hbad
      · exact absurd hmem hnew
      · exact absurd hmem hnew
    · exact hpost.elim
  fresh env fs n field data hid := by
    have hnew : (field, data) ∉ S := by
      rw [h.idFor_eq, Symbols.id?] at hid
      split at hid
      · cases hid
      · assumption
    refine (wp_dictionaryIntern_sound h field data).mono ?_
    rintro (id | e | _) fs' d' ⟨-, hpost⟩
    · obtain ⟨hsound, hid, hok, hschema, -⟩ := hpost
      rw [Symbols.define_of_notMem hnew] at hsound hid
      rw [Symbols.idOf_append_of_notMem hnew] at hid
      refine ⟨by rw [h.ids_eq, hid], fun f b ↦ ?_, fun f i ↦ ?_⟩
      · rw [hsound.idFor_eq, h.idFor_eq, Symbols.id?_append hnew, hid]
      · rw [hsound.resolve_eq, h.resolve_eq, hschema, Symbols.decode_append hok, hid]
    · exact h.alike hpost.1 hpost.2.1
    · exact hpost.elim
  column := h.resolves_iff
  inverse := h.inverse
  distinct field id a b ha hb := by
    rw [h.inverse] at ha hb
    rw [ha] at hb
    cases hb
    rfl
  rollback d' hrun := by
    obtain ⟨hschema, T, hT⟩ := h.extends hrun
    obtain ⟨hback, hschema', -⟩ := hT.rollback
    rw [h.count_eq]
    exact h.alike hback (hschema'.trans hschema)
  apply env fs n count p := by
    refine (wp_dictionaryApply_any h p count).mono ?_
    rintro (_ | e | _) fs' d' ⟨hschema, -, hpost⟩
    · obtain ⟨T, hT⟩ := hpost
      intro field data id hid
      rw [h.idFor_eq] at hid
      rw [hT.idFor_eq]
      exact Symbols.id?_of_isPrefix (prefix_append S T) hid
    · exact h.alike hpost hschema
    · exact hpost.elim
  probes := h.probesEnd
  allocated := by rw [h.allocated_eq_sum, h.allocated]
  budget := h.budget

/-- A dictionary that a run of calls reaches stands for some symbols. -/
theorem Dictionary.sound_of_reach {s : Schema} {limit : ℕ} {d : Dictionary}
    (h : (dictionaryMachine (Dictionary.Created s limit)).Reach d) : ∃ S, d.Sound S := by
  refine h.invariant (p := fun d ↦ ∃ S, d.Sound S) (fun d hd ↦ ⟨[], hd.sound⟩) ?_
  rintro d call d' - ⟨S, hS⟩ ⟨env, fs, n, rfl⟩
  have hwp : wp call.run env _ ⟨fs, n, d⟩ := DictionaryCall.sound hS call
  obtain ⟨-, T, hT, -⟩ := hwp
  exact ⟨T, hT⟩

/-- **Every dictionary that a run of calls reaches obeys the laws**, whatever the budget and however
the calls end. -/
theorem dictionary_lawful (s : Schema) (limit : ℕ) (d : Dictionary)
    (h : (dictionaryMachine (Dictionary.Created s limit)).Reach d) : d.Lawful := by
  obtain ⟨S, hS⟩ := Dictionary.sound_of_reach h
  exact hS.lawful

/-- A schema with one column of symbols. -/
def onePage : Schema :=
  ⟨16, 0, 0, [timeField, ⟨[112], .symbol32, 0, false, 8, 4, uint32Max⟩]⟩

/-- A budget of 1024 bytes, in which one symbol has been defined. -/
def onePageDefined : Dictionary :=
  match (dictionaryNew onePage 1024 : Io Unit Dictionary) (.still Path Dir) ⟨fun _ ↦ none, 0, ()⟩ with
  | (.ok d, _) => ((DictionaryCall.intern 1 [104]).run (.still Path Dir) ⟨fun _ ↦ none, 0, d⟩).2.mem
  | _ => ⟨onePage, [], 0, [], [], 0, 0⟩

theorem onePageDefined_lawful : onePageDefined.idFor 1 [104] = some 1 ∧ onePageDefined.Lawful := by
  refine ⟨by decide +kernel, dictionary_lawful onePage 1024 _ ?_⟩
  refine Machine.Reach.step (.init ⟨.still Path Dir, fun _ ↦ none, 0, rfl⟩) (.intern 1 [104]) ?_
  exact ⟨.still Path Dir, fun _ ↦ none, 0, rfl⟩

end WebAnalyticsDb
