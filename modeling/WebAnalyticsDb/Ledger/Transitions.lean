import WebAnalyticsDb.Ledger.Live

/-!
# What the engine does to the files

The engine changes one file at a time: it appends to the file of the last segment, it replaces the
manifest or the index of the segment that is being sealed, and it creates the file of a new segment.
For each of these changes, the log that is on disk afterwards. The rules about the engine's functions
are put together from these lemmas.
-/

namespace WebAnalyticsDb

open Bytes List

variable {c : Config}

/-- The file at `p` was replaced; temporary files do not matter. -/
def Replaced (p : Path) (f : File) (fs fs' : Files) : Prop :=
  fs' p = some f ∧ ∀ q, q ≠ p → (∀ r, q ≠ .tmp r) → fs' q = fs q

section Replaced

variable {p : Path} {f f' : File} {fs fs' : Files}

theorem replaced_of_agree (hp : ∀ q, p ≠ .tmp q) (h : Agree (setFile p (some f) fs) fs') :
    Replaced p f fs fs' := by
  refine ⟨by rw [h p hp, setFile_self], fun q hq hqt ↦ ?_⟩
  rw [h q hqt, setFile_of_ne _ _ hq]

theorem replaced_setFile (p : Path) (f : File) (fs : Files) :
    Replaced p f fs (setFile p (some f) fs) :=
  ⟨setFile_self .., fun _ hq _ ↦ setFile_of_ne _ _ hq⟩

theorem replaced_appendTo (hf : fs p = some f) (b : Bytes) :
    Replaced p { f with data := f.data ++ b } fs (appendTo p b fs) := by
  rw [appendTo, hf]
  exact replaced_setFile _ _ _

theorem Replaced.syncTo (h : Replaced p f fs fs') :
    Replaced p { f with synced := f.data.length } fs (syncTo p fs') := by
  rw [Prog.syncTo, h.1]
  exact ⟨setFile_self .., fun q hq hqt ↦ (setFile_of_ne _ _ hq).trans (h.2 q hq hqt)⟩

end Replaced

section Changes

variable {fs fs' : Files} {P L A : Log c} {s : LogSegment c} {f' : File} {tail : Bytes}

/-- A file that no segment of the log uses. -/
theorem SameFiles.of_replaced {p : Path} (h : Replaced p f' fs fs')
    (hp : ∀ a ∈ L, a.retired = false → a.segPath ≠ p ∧ a.idxPath ≠ p) : SameFiles L fs fs' :=
  fun a ha hr ↦ ⟨h.2 _ (hp a ha hr).1 (segPath_ne_tmp a), h.2 _ (hp a ha hr).2 (idxPath_ne_tmp a)⟩

/-- The files of another segment. -/
theorem Replaced.other {p : Path} {a : LogSegment c} (h : Replaced p f' fs fs')
    (hp : p = s.segPath ∨ p = s.idxPath) (hid : a.id ≠ s.id) :
    fs' a.segPath = fs a.segPath ∧ fs' a.idxPath = fs a.idxPath := by
  rcases hp with rfl | rfl
  · exact ⟨h.2 _ (segPath_ne hid) (segPath_ne_tmp a), h.2 _ (segPath_ne_idxPath _ _).symm (idxPath_ne_tmp a)⟩
  · exact ⟨h.2 _ (segPath_ne_idxPath _ _) (segPath_ne_tmp a), h.2 _ (idxPath_ne hid) (idxPath_ne_tmp a)⟩

/-- The files of segments are not the manifest. -/
theorem Replaced.beside_manifest (h : Replaced .manifest f' fs fs') (a : LogSegment c) :
    fs' a.segPath = fs a.segPath ∧ fs' a.idxPath = fs a.idxPath :=
  ⟨h.2 _ (segPath_ne_manifest a) (segPath_ne_tmp a), h.2 _ (idxPath_ne_manifest a) (idxPath_ne_tmp a)⟩

/-- **A file of the last segment is replaced**, which then is `s'`. -/
theorem OnDisk.last_replaced {p : Path} {s' : LogSegment c} {tail' : Bytes}
    (h : OnDisk fs P (A ++ [s]) tail) (hrep : Replaced p f' fs fs')
    (hp : p = s.segPath ∨ p = s.idxPath) (hok : (A ++ [s']).Ok) (hlag : Lag P (A ++ [s']))
    (hfile : s'.retired = false → ∃ f, fs' s'.segPath = some f ∧ f.data = s'.image ++ tail')
    (htorn : Torn c tail') : OnDisk fs' P (A ++ [s']) tail' where
  ok := hok
  okP := h.okP
  recorded := h.recorded.congr <| by
    rcases hp with rfl | rfl <;> exact hrep.2 _ Path.noConfusion fun _ ↦ Path.noConfusion
  lag := hlag
  sealed a ha har := by
    rw [dropLast_concat] at ha
    obtain ⟨hseg, hidx⟩ := hrep.other hp (h.ok.id_ne_last ha)
    exact (h.sealed a (by rwa [dropLast_concat]) har).congr hseg hidx
  active a ha har := by
    rw [getLast?_concat] at ha
    cases ha
    exact hfile har
  torn := htorn

/-- **A whole frame** behind the last segment. -/
theorem OnDisk.appended {e : Entry c} (h : OnDisk fs P (A ++ [s]) []) (hr : s.retired = false)
    (hrep : Replaced s.segPath f' fs fs') (hdata : f'.data = s.image ++ (s.frameOf e.group).bytes)
    (hok : (A ++ [s.push e]).Ok) : OnDisk fs' P (A ++ [s.push e]) [] := by
  refine h.last_replaced hrep (.inl rfl) hok ?_ (fun _ ↦ ⟨f', hrep.1, ?_⟩) (.inl rfl)
  · generalize hL : A ++ [s] = L at h
    have hlag := h.lag
    cases hlag with
    | refl =>
      rw [← hL]
      exact .appended A s [e] hr
    | appended A' s' es hs' =>
      obtain ⟨rfl, hs⟩ := append_inj' hL rfl
      cases hs
      have := Lag.appended A s' (es ++ [e]) hs'
      rwa [← append_assoc] at this
  · rw [hdata, LogSegment.image_push, append_nil]

/-- **A part of a frame** behind the last segment. -/
theorem OnDisk.interrupted (h : OnDisk fs P (A ++ [s]) []) (hrep : Replaced s.segPath f' fs fs')
    (hdata : f'.data = s.image ++ tail) (htorn : Torn c tail) : OnDisk fs' P (A ++ [s]) tail :=
  h.last_replaced hrep (.inl rfl) h.ok h.lag (fun _ ↦ ⟨f', hrep.1, hdata⟩) htorn

/-- **The index of the last segment** does not matter. -/
theorem OnDisk.indexed (h : OnDisk fs P (A ++ [s]) tail) (hrep : Replaced s.idxPath f' fs fs') :
    OnDisk fs' P (A ++ [s]) tail := by
  refine h.last_replaced hrep (.inr rfl) h.ok h.lag (fun hr ↦ ?_) h.torn
  rw [hrep.2 _ (segPath_ne_idxPath _ _) (segPath_ne_tmp s)]
  exact h.active s (by simp) hr

/-- The paths of a new segment are not those of the log. -/
theorem Log.Ok.id_ne_new (h : L.Ok) {id : ℕ} (hid : L.lastId 0 < id) {a : LogSegment c}
    (ha : a ∈ L) : a.id ≠ id :=
  (((h.chain.pairwise_id).2 a ha).2.trans_lt hid).ne

/-- **The file of a segment that is not installed** does not matter. -/
theorem OnDisk.created (h : OnDisk fs P L tail) (hid : L.lastId 0 < s.id)
    (hrep : Replaced s.segPath f' fs fs') : OnDisk fs' P L tail :=
  h.congr (hrep.2 _ Path.noConfusion fun _ ↦ Path.noConfusion)
    (.of_replaced hrep fun _ ha _ ↦
      ⟨segPath_ne (h.ok.id_ne_new hid ha), (segPath_ne_idxPath _ _).symm⟩)

/-- **A new manifest** that records the log as it is. -/
theorem OnDisk.recordedAs (h : OnDisk fs P L tail) (hrep : Replaced .manifest f' fs fs')
    {retentionUs generation : ℕ} (hdata : f'.data = (L.manifest retentionUs generation).image c.id)
    (hret : retentionUs ≤ int64Max) (hgen : 0 < generation ∧ generation < 2 ^ 64) :
    OnDisk fs' L L tail where
  ok := h.ok
  okP := h.ok
  recorded := ⟨f', _, _, hrep.1, hdata, hret, hgen⟩
  lag := .refl L
  sealed a ha har := (h.sealed a ha har).congr (hrep.beside_manifest a).1 (hrep.beside_manifest a).2
  active a ha har := by
    rw [(hrep.beside_manifest a).1]
    exact h.active a ha har
  torn := h.torn

/-- **A rotation**: the last segment has its index, the new one its header, and the manifest names
both. -/
theorem OnDisk.rotated (h : OnDisk fs P L [])
    (hidx : ∀ a ∈ L.getLast?, a.retired = false → ∃ f, fs a.idxPath = some f ∧ f.data = a.derived)
    (hseg : ∃ f, fs s.segPath = some f ∧ f.data = s.image) (hrep : Replaced .manifest f' fs fs')
    {retentionUs generation : ℕ}
    (hdata : f'.data = (Log.manifest (L ++ [s]) retentionUs generation).image c.id)
    (hret : retentionUs ≤ int64Max) (hgen : 0 < generation ∧ generation < 2 ^ 64)
    (hok : (L ++ [s]).Ok) : OnDisk fs' (L ++ [s]) (L ++ [s]) [] where
  ok := hok
  okP := hok
  recorded := ⟨f', _, _, hrep.1, hdata, hret, hgen⟩
  lag := .refl _
  sealed a ha har := by
    rw [dropLast_concat] at ha
    refine SealedAt.congr ?_ (hrep.beside_manifest a).1 (hrep.beside_manifest a).2
    rcases L.eq_nil_or_concat with rfl | ⟨A, b, rfl⟩
    · cases ha
    · rw [concat_eq_append] at ha h hidx
      rcases mem_append.1 ha with ha | ha
      · exact h.sealed a (by rwa [dropLast_concat]) har
      · rw [mem_singleton.1 ha] at har ⊢
        obtain ⟨f, hf, hfdata⟩ := h.active b (by simp) har
        exact ⟨⟨f, hf, by rw [hfdata, append_nil]⟩, hidx b (by simp) har⟩
  active a ha _ := by
    rw [getLast?_concat] at ha
    cases ha
    obtain ⟨f, hf, hfdata⟩ := hseg
    refine ⟨f, by rw [(hrep.beside_manifest s).1, hf], ?_⟩
    rw [hfdata, append_nil]
  torn := .inl rfl

/-- A segment and the same one, perhaps retired, are stored alike. -/
theorem SealedAt.retire {cutoff : ℤ} (h : SealedAt fs s) : SealedAt fs (s.retire cutoff) := h

theorem LogSegment.retired_of_retire {cutoff : ℤ} (h : (s.retire cutoff).retired = false) :
    s.retired = false := by
  cases hs : s.retired
  · rfl
  · rw [LogSegment.retired_retire_of_retired hs] at h
    cases h

/-- **A retirement**: the manifest is the only file that changes. -/
theorem OnDisk.retired {cutoff : ℤ} (h : OnDisk fs P L tail) (hrep : Replaced .manifest f' fs fs')
    {retentionUs generation : ℕ}
    (hdata : f'.data = ((L.retire cutoff).manifest retentionUs generation).image c.id)
    (hret : retentionUs ≤ int64Max) (hgen : 0 < generation ∧ generation < 2 ^ 64) :
    OnDisk fs' (L.retire cutoff) (L.retire cutoff) tail where
  ok := h.ok.retire cutoff
  okP := h.ok.retire cutoff
  recorded := ⟨f', _, _, hrep.1, hdata, hret, hgen⟩
  lag := .refl _
  sealed a ha har := by
    rw [Log.retire, ← map_dropLast] at ha
    obtain ⟨b, hb, rfl⟩ := mem_map.1 ha
    exact (h.sealed b hb (LogSegment.retired_of_retire har)).retire.congr
      (hrep.beside_manifest _).1 (hrep.beside_manifest _).2
  active a ha har := by
    rw [Log.retire, getLast?_map] at ha
    obtain ⟨b, hb, rfl⟩ := Option.map_eq_some_iff.1 ha
    obtain ⟨f, hf, hfdata⟩ := h.active b hb (LogSegment.retired_of_retire har)
    exact ⟨f, by rwa [(hrep.beside_manifest _).1], hfdata⟩
  torn := h.torn

/-! ### The files have grown -/

theorem Grown.manifest (hrep : Replaced .manifest f' fs fs') : Grown L fs fs' :=
  .of_same fun a _ ↦ hrep.beside_manifest a

theorem Grown.created (h : L.Ok) (hid : L.lastId 0 < s.id) (hrep : Replaced s.segPath f' fs fs') :
    Grown L fs fs' :=
  .of_same fun _ ha ↦ hrep.other (.inl rfl) (h.id_ne_new hid ha)

theorem Grown.indexed (h : (A ++ [s]).Ok) (hr : s.retired = false)
    (hrep : Replaced s.idxPath f' fs fs') : Grown (A ++ [s]) fs fs' where
  sealed a ha := by
    rw [dropLast_concat] at ha
    exact hrep.other (.inr rfl) (h.id_ne_last ha)
  active a _ f hf :=
    ⟨f, by rw [hrep.2 _ (segPath_ne_idxPath _ _) (segPath_ne_tmp a), hf], prefix_refl _,
      min_le_left _ _⟩
  ended a ha har := by
    rw [getLast?_concat] at ha
    cases ha
    rw [hr] at har
    cases har

theorem Grown.appended {f : File} (h : (A ++ [s]).Ok) (hr : s.retired = false)
    (hf : fs s.segPath = some f) (hrep : Replaced s.segPath f' fs fs') (hpre : f.data <+: f'.data)
    (hsync : min f.synced f.data.length ≤ f'.synced) :
    Grown (A ++ [s]) fs fs' where
  sealed a ha := by
    rw [dropLast_concat] at ha
    exact hrep.other (.inl rfl) (h.id_ne_last ha)
  active a ha g hg := by
    rw [getLast?_concat] at ha
    cases ha
    rw [hf] at hg
    cases hg
    exact ⟨f', hrep.1, hpre, hsync⟩
  ended a ha har := by
    rw [getLast?_concat] at ha
    cases ha
    rw [hr] at har
    cases har

end Changes

end WebAnalyticsDb
