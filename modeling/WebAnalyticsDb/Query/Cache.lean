import WebAnalyticsDb.Foundation.Machine
import WebAnalyticsDb.Storage.Reader

/-!
# The dictionary cache

Scans of sealed segments share the dictionaries they read: `query/cache.c`. An acquisition is two critical
sections with a load in between. The first one finds an entry, or reserves the most that a dictionary can
need, after evicting entries that nobody uses; the second one replaces the reservation by what the
dictionary really takes.

* **Callers are part of the state.** Beside the cache stand the loads in progress and what the callers
  hold, so that the reservations and the reference counts can be counted against them.
* **The charge is within the reservation** since every dictionary that a reader hands out is within its
  limit (`wp_indexDictionary`). Nothing else keeps the second section from exceeding the budget.
* **Addresses.** Callers keep a pointer to the entry. The model gives every entry a number of its own
  when it is inserted, which is never used again.

Reference counts are not cut to a machine word: each of them is held by a scan of its own.
-/

namespace WebAnalyticsDb

open List

/-- What identifies the dictionary of a reader. -/
structure CacheKey where
  tableId : ℕ
  segmentId : ℕ
  coveredBytes : ℕ
  dictionaryCrc : ℕ
deriving DecidableEq, Repr

/-- The key that `matches` compares. -/
def IndexReader.cacheKey (r : IndexReader) (c : Config) : CacheKey :=
  ⟨c.id, r.segment.id, r.segment.committedBytes, r.dictionaryCrc⟩

/-- `wadb_cache_entry`; `serial` stands for its address. -/
structure CacheEntry where
  serial : ℕ
  key : CacheKey
  used : ℕ
  references : ℕ
  charge : ℕ
  dictionary : Dictionary
deriving DecidableEq, Repr

/-- The part of `wadb_db` that is the cache. -/
structure DictionaryCache where
  entries : List CacheEntry
  bytes : ℕ
  clock : ℕ
  hits : ℕ
  misses : ℕ
  /-- The number of entries that were ever inserted. -/
  allocated : ℕ

/-- What a load may need. -/
def Options.reservation (o : Options) : ℕ := o.dictionaryLimitBytes + sizeofCacheEntry

/-- What the first critical section of an acquisition finds. -/
inductive CacheLookup
  | hit (serial : ℕ)
  | pinned
  | reserved
deriving DecidableEq, Repr

namespace DictionaryCache

/-- The cache of a database that was just opened. -/
def initial : DictionaryCache := ⟨[], 0, 0, 0, 0, 0⟩

/-- The entry with a key, the first of the list. -/
def find (s : DictionaryCache) (key : CacheKey) : Option CacheEntry :=
  s.entries.find? fun p ↦ p.key = key

/-- One more reference to an entry. -/
def pin (s : DictionaryCache) (serial used : ℕ) : DictionaryCache :=
  { s with
    clock := used
    entries := s.entries.map fun p ↦
      if p.serial = serial then { p with references := p.references + 1, used := used } else p }

/-- The better of two entries to evict: one without references that was used less recently. -/
def older (best : Option CacheEntry) (p : CacheEntry) : Option CacheEntry :=
  if p.references = 0 ∧ ∀ q ∈ best, p.used < q.used then some p else best

/-- The loop that looks for the entry to evict. -/
def oldest (entries : List CacheEntry) : Option CacheEntry := entries.foldl older none

/-- Evict an entry. -/
def evict (s : DictionaryCache) (p : CacheEntry) : DictionaryCache :=
  { s with entries := s.entries.erase p, bytes := u64Sub s.bytes p.charge }

/-- There is room for one more load. -/
def hasRoom (s : DictionaryCache) (o : Options) : Bool :=
  o.reservation ≤ u64Sub o.readCacheBytes s.bytes

/-- The loop that makes room, and whether there is room then. Every round removes an entry, so `fuel` is
their number. -/
def makeRoom (o : Options) : ℕ → DictionaryCache → DictionaryCache × Bool
  | 0, s => (s, s.hasRoom o)
  | fuel + 1, s =>
    if s.hasRoom o then (s, true)
    else
      match oldest s.entries with
      | none => (s, false)
      | some p => makeRoom o fuel (s.evict p)

/-- The first critical section of `wadb_cache_acquire`. -/
def enter (s : DictionaryCache) (o : Options) (key : CacheKey) : DictionaryCache × CacheLookup :=
  match s.find key with
  | some p => ({ s.pin p.serial (u64 (s.clock + 1)) with hits := u64 (s.hits + 1) }, .hit p.serial)
  | none =>
    match makeRoom o s.entries.length { s with misses := u64 (s.misses + 1) } with
    | (s, false) => (s, .pinned)
    | (s, true) => ({ s with bytes := u64 (s.bytes + o.reservation) }, .reserved)

/-- The second critical section, and the entry it returns. -/
def finish (s : DictionaryCache) (o : Options) (key : CacheKey) (loaded : Option Dictionary) :
    DictionaryCache × Option ℕ :=
  let s := { s with bytes := u64Sub s.bytes o.reservation }
  match loaded with
  | none => (s, none)
  | some d =>
    let used := u64 (s.clock + 1)
    -- two misses may load at the same time: only one copy is kept
    match s.find key with
    | some p => (s.pin p.serial used, some p.serial)
    | none =>
      let charge := sizeofCacheEntry + d.allocatedBytes
      ({ s with
        entries := ⟨s.allocated, key, used, 1, charge, d⟩ :: s.entries
        bytes := u64 (s.bytes + charge)
        clock := used
        allocated := s.allocated + 1 }, some s.allocated)

/-- `wadb_cache_release`. -/
def release (s : DictionaryCache) (serial : ℕ) : DictionaryCache :=
  { s with entries := s.entries.map fun p ↦
      if p.serial = serial then { p with references := p.references - 1 } else p }

end DictionaryCache

/-! ### Runs -/

/-- A reader as a scan has it when it acquires the dictionary: opened, with what is left of the scan's
budget. -/
def IndexReader.Opened (c : Config) (r : IndexReader) : Prop :=
  ∃ s env w budget deadline left, ∃ w' : World Path IndexReader,
    indexOpenBounded c s budget deadline env w = (.ok (), w') ∧ r = { w'.mem with rebuildBudget := left }

/-- A load in progress: the reader as it was and as it is, and the outcome once there is one. -/
structure CacheLoad (κ : Type) where
  table : κ
  asked : IndexReader
  reader : IndexReader
  outcome : Option (Option Dictionary)

/-- What a caller holds: the entry, and the reader when it asked and when it got it. -/
structure CacheHold (κ : Type) where
  table : κ
  asked : IndexReader
  reader : IndexReader
  serial : ℕ

/-- The cache and its callers. -/
structure CacheRun (κ : Type) where
  cache : DictionaryCache
  loads : List (CacheLoad κ)
  held : List (CacheHold κ)

/-- What can happen. -/
inductive CacheMove (κ : Type)
  | enter (i : κ) (r : IndexReader)
  | load (k : ℕ) (alloc : Bool) (env : Env Path Dir) (fs : Files) (n : ℕ)
  | finish (k : ℕ)
  | release (k : ℕ)

/-- A load, of the memory for the entry and then of the dictionary. A process that ends there is gone. -/
def CacheLoad.run {κ : Type} (C : Catalogue κ) (l : CacheLoad κ) (alloc : Bool) (env : Env Path Dir)
    (fs : Files) (n : ℕ) : CacheLoad κ :=
  if alloc then
    match indexDictionary (C.table l.table) env ⟨fs, n, l.reader⟩ with
    | (.ok d, w) => { l with reader := w.mem, outcome := some (some d) }
    | (.fail _, w) => { l with reader := w.mem, outcome := some none }
    | (.killed, _) => l
  else { l with outcome := some none }

namespace CacheRun

variable {κ : Type}

/-- One step; a move that is not possible changes nothing. -/
def next (C : Catalogue κ) (s : CacheRun κ) : CacheMove κ → CacheRun κ
  | .enter i r =>
    match s.cache.enter C.options (r.cacheKey (C.table i)) with
    | (cache, .hit serial) => { s with cache := cache, held := ⟨i, r, r, serial⟩ :: s.held }
    | (cache, .pinned) => { s with cache := cache }
    | (cache, .reserved) => { s with cache := cache, loads := ⟨i, r, r, none⟩ :: s.loads }
  | .load k alloc env fs n =>
    match s.loads[k]? with
    | some l => if l.outcome = none then
        { s with loads := s.loads.set k (l.run C alloc env fs n) } else s
    | none => s
  | .finish k =>
    match s.loads[k]? with
    | some l =>
      match l.outcome with
      | none => s
      | some loaded =>
        match s.cache.finish C.options (l.reader.cacheKey (C.table l.table)) loaded with
        | (cache, none) => { s with cache := cache, loads := s.loads.eraseIdx k }
        | (cache, some serial) =>
          ⟨cache, s.loads.eraseIdx k, ⟨l.table, l.asked, l.reader, serial⟩ :: s.held⟩
    | none => s
  | .release k =>
    match s.held[k]? with
    | some h => { s with cache := s.cache.release h.serial, held := s.held.eraseIdx k }
    | none => s

/-- Acquisitions start with a reader that was opened. -/
def Possible (C : Catalogue κ) : CacheMove κ → Prop
  | .enter i r => r.Opened (C.table i)
  | .load .. | .finish _ | .release _ => True

/-- **Any order of the critical sections and the loads.** -/
def machine (C : Catalogue κ) : Machine (CacheRun κ) (CacheMove κ) where
  init s := s = ⟨.initial, [], []⟩
  step s move s' := Possible C move ∧ s' = s.next C move

end CacheRun

/-! ### The cache -/

/-- What the entries are charged. -/
def charges (entries : List CacheEntry) : ℕ := (entries.map CacheEntry.charge).sum

/-- The bytes of the cache: what the entries are charged and what is reserved; each key and each address
is there once. -/
structure DictionaryCache.Accounted (s : DictionaryCache) (o : Options) (reserved : ℕ) : Prop where
  bytes : s.bytes = charges s.entries + reserved
  le : s.bytes ≤ o.readCacheBytes
  keys : (s.entries.map CacheEntry.key).Nodup
  serials : (s.entries.map CacheEntry.serial).Nodup
  fresh : ∀ e ∈ s.entries, e.serial < s.allocated

/-- Some entries that nobody uses are gone. -/
structure DictionaryCache.Shrunk (s s' : DictionaryCache) : Prop where
  sublist : s'.entries.Sublist s.entries
  pinned : ∀ e ∈ s.entries, e.references ≠ 0 → e ∈ s'.entries
  allocated : s'.allocated = s.allocated

namespace DictionaryCache

variable {s s' : DictionaryCache} {o : Options} {reserved : ℕ} {key : CacheKey}
variable {p : CacheEntry}

/-- The loop finds nothing but entries without references. -/
theorem mem_of_older {entries l : List CacheEntry} {best : Option CacheEntry}
    (hbest : ∀ q ∈ best, q ∈ entries ∧ q.references = 0) (hsub : l ⊆ entries)
    (h : l.foldl older best = some p) : p ∈ entries ∧ p.references = 0 := by
  induction l generalizing best with
  | nil => exact hbest p h
  | cons q l ih =>
    obtain ⟨hq, hl⟩ := cons_subset.1 hsub
    refine ih (fun x hx ↦ ?_) hl h
    unfold older at hx
    split at hx
    next hfree =>
      obtain rfl := Option.some.inj hx
      exact ⟨hq, hfree.1⟩
    next => exact hbest x hx

theorem Shrunk.refl (s : DictionaryCache) : s.Shrunk s :=
  ⟨.refl _, fun _ he _ ↦ he, rfl⟩

theorem Shrunk.trans {s'' : DictionaryCache} (h : s.Shrunk s') (h' : s'.Shrunk s'') : s.Shrunk s'' :=
  ⟨h'.sublist.trans h.sublist, fun e he hr ↦ h'.pinned e (h.pinned e he hr) hr,
    h'.allocated.trans h.allocated⟩

section

variable (h : s.Accounted o reserved)
include h

/-- **Evicting** an entry without references. -/
theorem Accounted.evict (hfits : o.readCacheBytes < 2 ^ 64)
    (hp : p ∈ s.entries) (hfree : p.references = 0) :
    (s.evict p).Accounted o reserved ∧ s.Shrunk (s.evict p) := by
  have hsub : (s.entries.erase p).Sublist s.entries := erase_sublist
  have hcharge : charges s.entries = p.charge + charges (s.entries.erase p) :=
    ((perm_cons_erase hp).map CacheEntry.charge).sum_eq
  have hbytes := h.bytes
  have hle := h.le
  have hsubtract : u64Sub s.bytes p.charge = s.bytes - p.charge :=
    u64Sub_of_le (by omega) (by omega)
  refine ⟨⟨?_, ?_, h.keys.sublist (hsub.map _), h.serials.sublist (hsub.map _),
    fun e he ↦ h.fresh e (hsub.subset he)⟩, hsub, fun e he hr ↦ ?_, rfl⟩
  · show u64Sub s.bytes p.charge = _
    rw [hsubtract]
    show _ = charges (s.entries.erase p) + reserved
    omega
  · show u64Sub s.bytes p.charge ≤ _
    omega
  · refine (mem_erase_of_ne ?_).2 he
    rintro rfl
    exact hr hfree

/-- **Making room.** -/
theorem Accounted.makeRoom (hfits : o.readCacheBytes < 2 ^ 64) (fuel : ℕ) :
    (makeRoom o fuel s).1.Accounted o reserved ∧ s.Shrunk (makeRoom o fuel s).1 ∧
      ((makeRoom o fuel s).2 = true → (makeRoom o fuel s).1.hasRoom o = true) := by
  induction fuel generalizing s with
  | zero => exact ⟨h, .refl s, id⟩
  | succ fuel ih =>
    unfold DictionaryCache.makeRoom
    split
    next hroom => exact ⟨h, .refl s, fun _ ↦ hroom⟩
    next =>
      split
      · exact ⟨h, .refl s, fun hno ↦ by cases hno⟩
      next p hp =>
        obtain ⟨hmem, hfree⟩ := mem_of_older (fun _ hq ↦ by cases hq) (List.Subset.refl _) hp
        obtain ⟨hevicted, hshrunk⟩ := h.evict hfits hmem hfree
        obtain ⟨hacc, hshrunk', hroom⟩ := ih hevicted
        exact ⟨hacc, hshrunk.trans hshrunk', hroom⟩

/-- A change that leaves charges, keys and addresses. -/
theorem Accounted.map {f : CacheEntry → CacheEntry}
    (hcharge : ∀ e, (f e).charge = e.charge) (hkey : ∀ e, (f e).key = e.key)
    (hserial : ∀ e, (f e).serial = e.serial) (hentries : s'.entries = s.entries.map f)
    (hbytes : s'.bytes = s.bytes) (hallocated : s'.allocated = s.allocated) :
    s'.Accounted o reserved where
  bytes := by
    rw [hbytes, h.bytes, hentries, charges, charges, map_map,
      show CacheEntry.charge ∘ f = CacheEntry.charge from funext hcharge]
  le := hbytes ▸ h.le
  keys := by
    rw [hentries, map_map, show CacheEntry.key ∘ f = CacheEntry.key from funext hkey]
    exact h.keys
  serials := by
    rw [hentries, map_map, show CacheEntry.serial ∘ f = CacheEntry.serial from funext hserial]
    exact h.serials
  fresh e he := by
    rw [hentries] at he
    obtain ⟨e₀, he₀, rfl⟩ := mem_map.1 he
    rw [hserial, hallocated]
    exact h.fresh e₀ he₀

theorem Accounted.pin (serial used : ℕ) : (s.pin serial used).Accounted o reserved := by
  refine h.map (fun e ↦ ?_) (fun e ↦ ?_) (fun e ↦ ?_) rfl rfl rfl <;> split <;> rfl

theorem Accounted.release (serial : ℕ) : (s.release serial).Accounted o reserved := by
  refine h.map (fun e ↦ ?_) (fun e ↦ ?_) (fun e ↦ ?_) rfl rfl rfl <;> split <;> rfl

/-- **A reservation.** -/
theorem Accounted.reserve (hfits : o.readCacheBytes < 2 ^ 64) (hroom : s.hasRoom o = true) :
    Accounted { s with bytes := u64 (s.bytes + o.reservation) } o (reserved + o.reservation) := by
  have hle := h.le
  simp only [hasRoom, decide_eq_true_eq, u64Sub_of_le hfits hle] at hroom
  have hsum : u64 (s.bytes + o.reservation) = s.bytes + o.reservation := u64_of_lt (by omega)
  have hbytes := h.bytes
  exact ⟨by dsimp only; omega, by dsimp only; omega, h.keys, h.serials, h.fresh⟩

end

/-- The reservation is given back. -/
theorem Accounted.unreserve (h : s.Accounted o (reserved + o.reservation))
    (hfits : o.readCacheBytes < 2 ^ 64) :
    Accounted { s with bytes := u64Sub s.bytes o.reservation } o reserved ∧
      u64Sub s.bytes o.reservation + o.reservation = s.bytes := by
  have hle := h.le
  have hbytes := h.bytes
  have hsubtract : u64Sub s.bytes o.reservation = s.bytes - o.reservation :=
    u64Sub_of_le (by omega) (by omega)
  exact ⟨⟨by dsimp only; omega, by dsimp only; omega, h.keys, h.serials, h.fresh⟩, by omega⟩

/-- The entry that is found has the key. -/
theorem find_eq_some (h : s.find key = some p) : p ∈ s.entries ∧ p.key = key :=
  ⟨mem_of_find?_eq_some h, by simpa using find?_some h⟩

/-- **A new entry**, charged at most what was reserved for it. -/
theorem Accounted.insert (h : s.Accounted o reserved) (hfits : o.readCacheBytes < 2 ^ 64)
    (hnone : s.find key = none) {used references charge : ℕ} {d : Dictionary}
    (hle : s.bytes + charge ≤ o.readCacheBytes) :
    Accounted { s with
      entries := ⟨s.allocated, key, used, references, charge, d⟩ :: s.entries
      bytes := u64 (s.bytes + charge)
      clock := used
      allocated := s.allocated + 1 } o reserved where
  bytes := by
    have hsum : u64 (s.bytes + charge) = s.bytes + charge := u64_of_lt (by omega)
    have hbytes := h.bytes
    have hcons : charges (⟨s.allocated, key, used, references, charge, d⟩ :: s.entries) =
        charge + charges s.entries := rfl
    dsimp only
    omega
  le := by
    have hsum : u64 (s.bytes + charge) = s.bytes + charge := u64_of_lt (by omega)
    dsimp only
    omega
  keys := by
    refine nodup_cons.2 ⟨fun hmem ↦ ?_, h.keys⟩
    obtain ⟨e, he, hkey⟩ := mem_map.1 hmem
    have := find?_eq_none.1 hnone e he
    simp [hkey] at this
  serials := by
    refine nodup_cons.2 ⟨fun hmem ↦ ?_, h.serials⟩
    obtain ⟨e, he, hserial⟩ := mem_map.1 hmem
    exact absurd (h.fresh e he) (by rw [hserial]; exact lt_irrefl _)
  fresh e he := by
    rcases mem_cons.1 he with rfl | he
    · exact Nat.lt_succ_self _
    · exact Nat.lt_succ_of_lt (h.fresh e he)

end DictionaryCache

/-! ### The callers -/

/-- The reader goes on with its segment; its checksum may have been reset. -/
structure IndexReader.Continues (asked r : IndexReader) : Prop where
  segment : r.segment = asked.segment
  dictionaryCrc : r.dictionaryCrc = asked.dictionaryCrc ∨ r.dictionaryCrc = 0

theorem IndexReader.Continues.refl (r : IndexReader) : r.Continues r := ⟨rfl, .inl rfl⟩

section Callers

variable {κ : Type} {C : Catalogue κ} {entries entries' : List CacheEntry} {held : List (CacheHold κ)}

/-- How many callers hold the entry. -/
def holders (held : List (CacheHold κ)) (serial : ℕ) : ℕ := held.countP fun h ↦ h.serial = serial

/-- **References are callers.** Every entry counts those that hold it, and what is held is in the cache,
under the key of the reader that got it. -/
structure Referenced (C : Catalogue κ) (entries : List CacheEntry) (held : List (CacheHold κ)) : Prop where
  references : ∀ e ∈ entries, e.references = holders held e.serial
  present : ∀ h ∈ held, ∃ e ∈ entries, e.serial = h.serial ∧ e.key = h.reader.cacheKey (C.table h.table)

theorem holders_cons (h : CacheHold κ) (held : List (CacheHold κ)) (serial : ℕ) :
    holders (h :: held) serial = holders held serial + if h.serial = serial then 1 else 0 := by
  simp [holders, countP_cons]

variable {s : DictionaryCache} {x : CacheHold κ}

theorem Referenced.shrink {s' : DictionaryCache} (h : Referenced C s.entries held) (hs : s.Shrunk s') :
    Referenced C s'.entries held where
  references e he := h.references e (hs.sublist.subset he)
  present x hx := by
    obtain ⟨e, he, hserial, hkey⟩ := h.present x hx
    refine ⟨e, hs.pinned e he ?_, hserial, hkey⟩
    rw [h.references e he, hserial]
    exact (countP_pos_iff.2 ⟨x, hx, by simp⟩).ne'

/-- What a change of counts does: the keys and addresses stay. -/
theorem Referenced.present_map (h : Referenced C entries held) {f : CacheEntry → CacheEntry}
    (hkey : ∀ e, (f e).key = e.key) (hserial : ∀ e, (f e).serial = e.serial)
    (hx : x ∈ held) :
    ∃ e ∈ entries.map f, e.serial = x.serial ∧ e.key = x.reader.cacheKey (C.table x.table) := by
  obtain ⟨e, he, hs, hk⟩ := h.present x hx
  exact ⟨f e, mem_map_of_mem he, (hserial e).trans hs, (hkey e).trans hk⟩

/-- **One more caller** of an entry. -/
theorem Referenced.pin (h : Referenced C s.entries held) {p : CacheEntry}
    (hp : p ∈ s.entries) (hserial : x.serial = p.serial)
    (hkey : p.key = x.reader.cacheKey (C.table x.table)) (used : ℕ) :
    Referenced C (s.pin p.serial used).entries (x :: held) where
  references e he := by
    obtain ⟨e₀, he₀, rfl⟩ := mem_map.1 he
    rw [holders_cons, hserial]
    split
    next heq =>
      dsimp only
      rw [heq, if_pos rfl, h.references e₀ he₀, heq]
    next hne => rw [if_neg (Ne.symm hne), h.references e₀ he₀, add_zero]
  present y hy := by
    rcases mem_cons.1 hy with rfl | hy
    · refine ⟨_, mem_map_of_mem hp, ?_, ?_⟩
      · rw [if_pos rfl]
        exact hserial.symm
      · rw [if_pos rfl]
        exact hkey
    · refine h.present_map (fun e ↦ ?_) (fun e ↦ ?_) hy <;> split <;> rfl

/-- **The first caller** of a new entry. -/
theorem Referenced.insert (h : Referenced C entries held) {e : CacheEntry}
    (hfresh : ∀ e' ∈ entries, e'.serial ≠ e.serial) (hserial : x.serial = e.serial)
    (hone : e.references = 1) (hkey : e.key = x.reader.cacheKey (C.table x.table)) :
    Referenced C (e :: entries) (x :: held) where
  references e' he' := by
    rw [holders_cons, hserial]
    rcases mem_cons.1 he' with rfl | he'
    · -- nobody holds an address that is not in the cache
      have hnone : holders held e'.serial = 0 := by
        refine countP_eq_zero.2 fun y hy ↦ ?_
        obtain ⟨e₀, he₀, hs, -⟩ := h.present y hy
        simpa [← hs] using hfresh e₀ he₀
      rw [hnone, hone, if_pos rfl]
    · rw [if_neg (Ne.symm (hfresh e' he')), h.references e' he', add_zero]
  present y hy := by
    rcases mem_cons.1 hy with rfl | hy
    · exact ⟨e, mem_cons_self, hserial.symm, hkey⟩
    · obtain ⟨e', he', hrest⟩ := h.present y hy
      exact ⟨e', mem_cons_of_mem _ he', hrest⟩

/-- **A caller has released** its entry. -/
theorem Referenced.release (h : Referenced C s.entries held) {k : ℕ} (hx : held[k]? = some x) :
    Referenced C (s.release x.serial).entries (held.eraseIdx k) where
  references e he := by
    obtain ⟨hk, hget⟩ := List.getElem?_eq_some_iff.1 hx
    have hcount (serial : ℕ) : holders held serial =
        holders (held.eraseIdx k) serial + if x.serial = serial then 1 else 0 := by
      rw [← holders_cons, ← hget]
      exact ((getElem_cons_eraseIdx_perm hk).countP_eq _).symm
    obtain ⟨e₀, he₀, rfl⟩ := mem_map.1 he
    have hrefs := h.references e₀ he₀
    rw [hcount] at hrefs
    split
    next heq =>
      rw [if_pos heq.symm] at hrefs
      dsimp only
      omega
    next hne =>
      rw [if_neg (Ne.symm hne)] at hrefs
      exact hrefs
  present y hy := by
    refine h.present_map (fun e ↦ ?_) (fun e ↦ ?_) (mem_of_mem_eraseIdx hy) <;> split <;> rfl

end Callers

/-! ### Every run -/

/-- What is known about a load that has not failed. -/
structure CacheLoad.Ok {κ : Type} (C : Catalogue κ) (l : CacheLoad κ) : Prop where
  keeps : l.outcome ≠ some none → l.reader.Keeps (C.table l.table) l.asked.segment
  continues : l.outcome ≠ some none → l.asked.Continues l.reader
  loaded : ∀ d, l.outcome = some (some d) → d.Within (C.table l.table)

/-- The invariant. -/
structure CacheRun.Inv {κ : Type} (C : Catalogue κ) (s : CacheRun κ) : Prop where
  accounted : s.cache.Accounted C.options (s.loads.length * C.options.reservation)
  referenced : Referenced C s.cache.entries s.held
  held : ∀ h ∈ s.held, h.asked.Continues h.reader
  loads : ∀ l ∈ s.loads, l.Ok C

section Runs

variable {κ : Type} {C : Catalogue κ} {s : CacheRun κ}

theorem IndexReader.Opened.of_run {c : Config} {s : SegmentMeta} {b d : ℕ} {e : Env Path Dir}
    {w w' : World Path IndexReader} (h : indexOpenBounded c s b d e w = (.ok (), w')) : w'.mem.Opened c :=
  ⟨s, e, w, b, d, w'.mem.rebuildBudget, w', h, rfl⟩

theorem IndexReader.Opened.keeps {c : Config} {r : IndexReader} (h : r.Opened c) :
    r.Keeps c r.segment := by
  obtain ⟨m, env, w, budget, deadline, left, w', hrun, rfl⟩ := h
  have hwp : wp (indexOpenBounded c m budget deadline) env _ w := wp_indexOpenBounded
  unfold wp at hwp
  rw [hrun] at hwp
  exact ⟨rfl, (hwp () rfl).rebuilt⟩

/-- **A load**, however it ends. -/
theorem CacheLoad.Ok.run {l : CacheLoad κ} (h : l.Ok C) (hnone : l.outcome = none) (alloc : Bool)
    (env : Env Path Dir) (fs : Files) (n : ℕ) : (l.run C alloc env fs n).Ok C := by
  have hgo : l.outcome ≠ some none := by simp [hnone]
  have hfailed {l' : CacheLoad κ} (hl' : l'.outcome = some none) : l'.Ok C :=
    ⟨fun hne ↦ absurd hl' hne, fun hne ↦ absurd hl' hne, fun d hd ↦ by rw [hl'] at hd; cases hd⟩
  have hwp : wp (indexDictionary (C.table l.table)) env _ ⟨fs, n, l.reader⟩ :=
    wp_indexDictionary (h.keeps hgo)
  unfold wp at hwp
  unfold CacheLoad.run
  split
  · rcases hrun : indexDictionary (C.table l.table) env ⟨fs, n, l.reader⟩ with ⟨d | e | _, w⟩
    · rw [hrun] at hwp
      obtain ⟨hd, hkeeps, hcrc⟩ := hwp d rfl
      refine ⟨fun _ ↦ hkeeps, fun _ ↦ ⟨hkeeps.segment, ?_⟩, fun d' hd' ↦ ?_⟩
      · rcases hcrc with hcrc | hcrc
        · rw [hcrc]
          exact (h.continues hgo).dictionaryCrc
        · exact .inr hcrc
      · cases hd'
        exact hd
    · exact hfailed rfl
    · exact h
  · exact hfailed rfl

/-- A charge is within the reservation. -/
theorem Catalogue.charge_le (C : Catalogue κ) {i : κ} {d : Dictionary} (h : d.Within (C.table i)) :
    sizeofCacheEntry + d.allocatedBytes ≤ C.options.reservation := by
  have hle := h.allocatedBytes_le
  rw [C.shared i] at hle
  unfold Options.reservation
  omega

namespace CacheRun

/-- **The first critical section.** -/
theorem Inv.enter (h : s.Inv C) {i : κ} {r : IndexReader} (hr : r.Opened (C.table i)) :
    (s.next C (.enter i r)).Inv C := by
  have hload : CacheLoad.Ok C ⟨i, r, r, none⟩ :=
    ⟨fun _ ↦ hr.keeps, fun _ ↦ .refl r, fun d hd ↦ by cases hd⟩
  simp only [CacheRun.next, DictionaryCache.enter]
  cases hfind : s.cache.find (r.cacheKey (C.table i)) with
  | some p =>
    obtain ⟨hp, hkey⟩ := DictionaryCache.find_eq_some hfind
    have hacc := h.accounted.pin p.serial (u64 (s.cache.clock + 1))
    refine ⟨⟨hacc.bytes, hacc.le, hacc.keys, hacc.serials, hacc.fresh⟩,
      h.referenced.pin hp rfl hkey _, fun x hx ↦ ?_, h.loads⟩
    rcases mem_cons.1 hx with rfl | hx
    · exact .refl r
    · exact h.held x hx
  | none =>
    have hmiss : DictionaryCache.Accounted { s.cache with misses := u64 (s.cache.misses + 1) } C.options
        (s.loads.length * C.options.reservation) :=
      ⟨h.accounted.bytes, h.accounted.le, h.accounted.keys, h.accounted.serials, h.accounted.fresh⟩
    obtain ⟨hacc, hshrunk, hroom⟩ := hmiss.makeRoom C.cacheFits s.cache.entries.length
    have href : Referenced C (DictionaryCache.makeRoom C.options s.cache.entries.length
        { s.cache with misses := u64 (s.cache.misses + 1) }).1.entries s.held :=
      h.referenced.shrink ⟨hshrunk.sublist, hshrunk.pinned, hshrunk.allocated⟩
    rcases hmake : DictionaryCache.makeRoom C.options s.cache.entries.length
      { s.cache with misses := u64 (s.cache.misses + 1) } with ⟨cache, _ | _⟩
    · rw [hmake] at hacc href
      exact ⟨hacc, href, h.held, h.loads⟩
    · rw [hmake] at hacc href hroom
      have hreserved := hacc.reserve C.cacheFits (hroom rfl)
      refine ⟨?_, href, h.held, fun l hl ↦ ?_⟩
      · rw [length_cons, Nat.succ_mul]
        exact hreserved
      · rcases mem_cons.1 hl with rfl | hl
        · exact hload
        · exact h.loads l hl

/-- **The second critical section.** -/
theorem Inv.finish (h : s.Inv C) (k : ℕ) : (s.next C (.finish k)).Inv C := by
  simp only [CacheRun.next]
  split
  swap
  · exact h
  next l hl =>
  split
  · exact h
  next loaded hout =>
  have hlt := (List.getElem?_eq_some_iff.1 hl).1
  have hok := h.loads l (mem_of_getElem? hl)
  have hloads : ∀ x ∈ s.loads.eraseIdx k, x.Ok C := fun x hx ↦ h.loads x (mem_of_mem_eraseIdx hx)
  have hlen : s.loads.length * C.options.reservation =
      (s.loads.eraseIdx k).length * C.options.reservation + C.options.reservation := by
    rw [← Nat.succ_mul, Nat.succ_eq_add_one, length_eraseIdx_add_one hlt]
  obtain ⟨hacc, hback⟩ := (hlen ▸ h.accounted).unreserve C.cacheFits
  cases loaded with
  | none => exact ⟨hacc, h.referenced, h.held, hloads⟩
  | some d =>
    have hgo : l.outcome ≠ some none := by simp [hout]
    have hheld (serial : ℕ) : ∀ x ∈ (⟨l.table, l.asked, l.reader, serial⟩ : CacheHold κ) :: s.held,
        x.asked.Continues x.reader := by
      intro x hx
      rcases mem_cons.1 hx with rfl | hx
      · exact hok.continues hgo
      · exact h.held x hx
    simp only [DictionaryCache.finish]
    cases hfind : DictionaryCache.find { s.cache with
      bytes := u64Sub s.cache.bytes C.options.reservation } (l.reader.cacheKey (C.table l.table)) with
    | some p =>
      obtain ⟨hp, hkey⟩ := DictionaryCache.find_eq_some hfind
      exact ⟨hacc.pin _ _, Referenced.pin (s := { s.cache with
        bytes := u64Sub s.cache.bytes C.options.reservation }) h.referenced hp rfl hkey _, hheld _,
        hloads⟩
    | none =>
      -- the charge takes the place of the reservation
      have hcharge := C.charge_le (hok.loaded d hout)
      have hle := h.accounted.le
      refine ⟨hacc.insert C.cacheFits hfind ?_, h.referenced.insert (fun e he ↦ ?_) rfl rfl rfl, hheld _, hloads⟩
      · dsimp only
        omega
      · exact (h.accounted.fresh e he).ne

theorem Inv.next (h : s.Inv C) {move : CacheMove κ} (hmove : Possible C move) :
    (s.next C move).Inv C := by
  cases move with
  | enter i r => exact h.enter hmove
  | load k alloc env fs n =>
    simp only [CacheRun.next]
    split
    next l hl =>
      split
      next hnone =>
        refine ⟨?_, h.referenced, h.held, fun x hx ↦ ?_⟩
        · rw [length_set]
          exact h.accounted
        · rcases mem_or_eq_of_mem_set hx with hx | rfl
          · exact h.loads x hx
          · exact (h.loads l (mem_of_getElem? hl)).run hnone alloc env fs n
      next => exact h
    next => exact h
  | finish k => exact h.finish k
  | release k =>
    simp only [CacheRun.next]
    split
    next x hx =>
      exact ⟨h.accounted.release _, h.referenced.release hx,
        fun y hy ↦ h.held y (mem_of_mem_eraseIdx hy), h.loads⟩
    next => exact h

theorem inv_of_reach (h : (machine C).Reach s) : s.Inv C := by
  refine h.invariant ?_ ?_
  · rintro s rfl
    refine ⟨⟨?_, zero_le, nodup_nil, nodup_nil, fun e he ↦ (by cases he)⟩,
      ⟨fun e he ↦ (by cases he), fun x hx ↦ (by cases hx)⟩, fun x hx ↦ (by cases hx),
      fun l hl ↦ (by cases hl)⟩
    simp [charges, DictionaryCache.initial]
  · rintro s move s' - hs ⟨hmove, rfl⟩
    exact hs.next hmove

/-- **An entry that is in use stays.** -/
theorem pinned_stays (h : s.Inv C) {e : CacheEntry} (he : e ∈ s.cache.entries) (hused : e.references ≠ 0)
    (move : CacheMove κ) : ∃ e' ∈ (s.next C move).cache.entries, e'.serial = e.serial := by
  have hmap {f : CacheEntry → CacheEntry} (hserial : ∀ e, (f e).serial = e.serial) :
      ∃ e' ∈ s.cache.entries.map f, e'.serial = e.serial :=
    ⟨f e, mem_map_of_mem he, hserial e⟩
  cases move with
  | enter i r =>
    simp only [CacheRun.next, DictionaryCache.enter]
    cases hfind : s.cache.find (r.cacheKey (C.table i)) with
    | some p => exact hmap fun e ↦ by split <;> rfl
    | none =>
      have hmiss : DictionaryCache.Accounted { s.cache with misses := u64 (s.cache.misses + 1) }
          C.options (s.loads.length * C.options.reservation) :=
        ⟨h.accounted.bytes, h.accounted.le, h.accounted.keys, h.accounted.serials, h.accounted.fresh⟩
      obtain ⟨-, hshrunk, -⟩ := hmiss.makeRoom C.cacheFits s.cache.entries.length
      have hstays := hshrunk.pinned e he hused
      rcases hmake : DictionaryCache.makeRoom C.options s.cache.entries.length
        { s.cache with misses := u64 (s.cache.misses + 1) } with ⟨cache, _ | _⟩ <;>
      · rw [hmake] at hstays
        exact ⟨e, hstays, rfl⟩
  | load k alloc env fs n =>
    simp only [CacheRun.next]
    split
    · split <;> exact ⟨e, he, rfl⟩
    · exact ⟨e, he, rfl⟩
  | finish k =>
    simp only [CacheRun.next]
    split
    swap
    · exact ⟨e, he, rfl⟩
    split
    · exact ⟨e, he, rfl⟩
    next loaded _ =>
    cases loaded with
    | none => exact ⟨e, he, rfl⟩
    | some d =>
      simp only [DictionaryCache.finish]
      split
      next hsome =>
        split at hsome <;> cases hsome
      next hsome =>
        split at hsome <;> cases hsome
        · exact hmap fun e ↦ by split <;> rfl
        · exact ⟨e, mem_cons_of_mem _ he, rfl⟩
  | release k =>
    simp only [CacheRun.next]
    split
    · exact hmap fun e ↦ by split <;> rfl
    · exact ⟨e, he, rfl⟩

/-- **Accounting and pinning.** In every reachable state the bytes of the cache are what its entries are
charged and what the loads in progress have reserved, within the budget; every key is there once; the
references of an entry are the callers that hold it; every caller holds an entry that is in the cache
under the key of its reader, which still has its segment and its checksum unless it was repaired; and no
step removes an entry with references. -/
theorem cache_accounted (h : (machine C).Reach s) :
    s.cache.bytes = charges s.cache.entries + s.loads.length * C.options.reservation ∧
      s.cache.bytes ≤ C.options.readCacheBytes ∧
      (s.cache.entries.map CacheEntry.key).Nodup ∧
      (∀ e ∈ s.cache.entries, e.references = holders s.held e.serial) ∧
      (∀ x ∈ s.held, ∃ e ∈ s.cache.entries, e.serial = x.serial ∧
        e.key = x.reader.cacheKey (C.table x.table) ∧ x.asked.Continues x.reader) ∧
      ∀ move, Possible C move → ∀ e ∈ s.cache.entries, e.references ≠ 0 →
        ∃ e' ∈ (s.next C move).cache.entries, e'.serial = e.serial := by
  have hinv := inv_of_reach h
  refine ⟨hinv.accounted.bytes, hinv.accounted.le, hinv.accounted.keys, hinv.referenced.references,
    fun x hx ↦ ?_, fun move _ e he hused ↦ pinned_stays hinv he hused move⟩
  obtain ⟨e, he, hserial, hkey⟩ := hinv.referenced.present x hx
  exact ⟨e, he, hserial, hkey, hinv.held x hx⟩

theorem reach_next (h : (machine C).Reach s) (move : CacheMove κ) (hmove : Possible C move) :
    (machine C).Reach (s.next C move) :=
  h.step move ⟨hmove, rfl⟩

/-- A sealed segment without rows, and the file of its index. -/
def emptySealed : SegmentMeta := ⟨1, 0, 1, 0, 0, 0, segmentHeaderBytes, .sealed⟩

def emptyIndexFiles : Files := fun p ↦
  if p = emptySealed.idxPath then some ⟨indexImage hits emptySealed [] [] 0, 0⟩ else none

/-- Opening a reader of it. -/
def openedEmpty : Exit Error Unit × World Path IndexReader :=
  indexOpenBounded hits emptySealed 0 0 (Env.still Path Dir) ⟨emptyIndexFiles, 0, .fresh emptySealed⟩

/-- Two scans miss at the same time. -/
def twoMisses : CacheRun Unit :=
  [.enter () openedEmpty.2.mem, .enter () openedEmpty.2.mem,
    .load 0 true (Env.still Path Dir) emptyIndexFiles 0, .finish 0,
    .load 0 true (Env.still Path Dir) emptyIndexFiles 0, .finish 0].foldl (next hitsCatalogue)
      ⟨.initial, [], []⟩

/-- Both hold one entry, with two references. -/
theorem cache_accounted_twoMisses : (machine hitsCatalogue).Reach twoMisses ∧
    twoMisses.held.map CacheHold.serial = [0, 0] ∧
    ∀ e ∈ twoMisses.cache.entries, e.references = holders twoMisses.held e.serial := by
  have hok : openedEmpty.1 = .ok () := by decide +kernel
  have hopened : openedEmpty.2.mem.Opened hits := by
    rcases hrun : openedEmpty with ⟨result, w'⟩
    rw [hrun] at hok
    obtain rfl : result = .ok () := hok
    rw [openedEmpty] at hrun
    exact .of_run hrun
  have hreach : (machine hitsCatalogue).Reach twoMisses := by
    simp only [twoMisses, List.foldl_cons, List.foldl_nil]
    have h₁ := reach_next (C := hitsCatalogue) (.init rfl) (.enter () openedEmpty.2.mem) hopened
    have h₂ := reach_next h₁ (.enter () openedEmpty.2.mem) hopened
    have h₃ := reach_next h₂ (.load 0 true (Env.still Path Dir) emptyIndexFiles 0) trivial
    have h₄ := reach_next h₃ (.finish 0) trivial
    have h₅ := reach_next h₄ (.load 0 true (Env.still Path Dir) emptyIndexFiles 0) trivial
    exact reach_next h₅ (.finish 0) trivial
  exact ⟨hreach, by decide +kernel, (cache_accounted hreach).2.2.2.1⟩

end CacheRun

end Runs

end WebAnalyticsDb
