import WebAnalyticsDb.Ledger.Basic

/-!
# The log on disk

`OnDisk fs P L tail` says that the files are those of the log `L`, except that the manifest may lag
behind: it records the log `P`, which misses groups appended to the last segment since. Behind the last
segment there may be the beginning of a frame, `tail`, left by an interrupted append.

`Backed fs W` is the weaker property that a reader needs who knows the log as it was at some earlier
time: everything it knows about is still there. `Synced fs W` says that it is covered by a sync.

* **Relevant files only.** All three look at the manifest and at the files of segments that are not
  retired; temporary files, files of retired segments and files of segments that were never installed
  do not matter. The `congr` lemmas say so, and everything else follows from the distinctness of paths.
-/

namespace WebAnalyticsDb

open Bytes List

variable {c : Config}

/-! ### Relations -/

/-- **The beginning of a frame**, possibly nothing. -/
def Torn (c : Config) (tail : Bytes) : Prop :=
  tail = [] ∨ ∃ (S : Symbols) (first : ℕ) (g : Group c), FrameOk S first g ∧
    tail.length < (groupFrame S first g).size ∧ tail <+: (groupFrame S first g).bytes

/-- **The manifest's log `P` lags behind `L`**: groups were appended to the last segment since. -/
inductive Lag : Log c → Log c → Prop
  | refl (L : Log c) : Lag L L
  | appended (L : Log c) (s : LogSegment c) (es : List (Entry c)) (hs : s.retired = false) :
      Lag (L ++ [s]) (L ++ [{ s with entries := s.entries ++ es }])

/-- The files of a sealed segment. -/
def SealedAt (fs : Files) (s : LogSegment c) : Prop :=
  (∃ f, fs s.segPath = some f ∧ f.data = s.image) ∧ ∃ f, fs s.idxPath = some f ∧ f.data = s.derived

/-- **What a reader of the log `W` needs is there.** -/
structure Backed (fs : Files) (W : Log c) : Prop where
  sealed : ∀ s ∈ W.dropLast, s.retired = false → SealedAt fs s
  active : ∀ s ∈ W.getLast?, s.retired = false →
    ∃ f, fs s.segPath = some f ∧ s.image <+: f.data

/-- **The rows of the log `W` are covered by a sync.** -/
def Synced (fs : Files) (W : Log c) : Prop :=
  ∀ s ∈ W, s.retired = false → ∀ f, fs s.segPath = some f → s.size ≤ f.synced

/-- The installed manifest records the log `P`. -/
def Recorded (fs : Files) (P : Log c) : Prop :=
  ∃ f retentionUs generation, fs .manifest = some f ∧
    f.data = (P.manifest retentionUs generation).image c.id ∧ retentionUs ≤ int64Max ∧
    0 < generation ∧ generation < 2 ^ 64

/-- **The files are those of the log `L`**, with a manifest that records `P`. -/
structure OnDisk (fs : Files) (P L : Log c) (tail : Bytes) : Prop where
  ok : L.Ok
  okP : P.Ok
  recorded : Recorded fs P
  lag : Lag P L
  sealed : ∀ s ∈ L.dropLast, s.retired = false → SealedAt fs s
  active : ∀ s ∈ L.getLast?, s.retired = false →
    ∃ f, fs s.segPath = some f ∧ f.data = s.image ++ tail
  torn : Torn c tail

/-! ### Paths -/

section Paths

variable {L : Log c} {s : LogSegment c} {prev seq : ℕ} {time : ℤ}

theorem segPath_ne {a b : LogSegment c} (h : a.id ≠ b.id) : a.segPath ≠ b.segPath := by
  intro heq
  cases a
  cases b
  simp_all [LogSegment.segPath]

theorem idxPath_ne {a b : LogSegment c} (h : a.id ≠ b.id) : a.idxPath ≠ b.idxPath := by
  intro heq
  cases a
  cases b
  simp_all [LogSegment.idxPath]

theorem segPath_ne_idxPath (a b : LogSegment c) : a.segPath ≠ b.idxPath := Path.noConfusion

theorem segPath_ne_tmp (a : LogSegment c) (q : Path) : a.segPath ≠ .tmp q := Path.noConfusion

theorem idxPath_ne_tmp (a : LogSegment c) (q : Path) : a.idxPath ≠ .tmp q := Path.noConfusion

theorem segPath_ne_manifest (a : LogSegment c) : a.segPath ≠ .manifest := Path.noConfusion

theorem idxPath_ne_manifest (a : LogSegment c) : a.idxPath ≠ .manifest := Path.noConfusion

/-- The last segment is different from those before. -/
theorem Log.Ok.id_ne_last (h : (L ++ [s]).Ok) {a : LogSegment c} (ha : a ∈ L) : a.id ≠ s.id := by
  have hpair := (pairwise_append.1 h.chain.pairwise_id.1).2.2 a ha s (mem_singleton_self s)
  exact hpair.ne

end Paths

/-! ### Only relevant files matter -/

section Congr

variable {fs fs' : Files} {P L W : Log c} {tail : Bytes}

/-- The files of the segments that are not retired are the same. -/
def SameFiles (W : Log c) (fs fs' : Files) : Prop :=
  ∀ s ∈ W, s.retired = false → fs' s.segPath = fs s.segPath ∧ fs' s.idxPath = fs s.idxPath

theorem SameFiles.of_agree (h : Agree fs fs') (W : Log c) : SameFiles W fs fs' :=
  fun s _ _ ↦ ⟨h _ (segPath_ne_tmp s), h _ (idxPath_ne_tmp s)⟩

theorem SealedAt.congr {s : LogSegment c} (h : SealedAt fs s) (hseg : fs' s.segPath = fs s.segPath)
    (hidx : fs' s.idxPath = fs s.idxPath) : SealedAt fs' s := by
  unfold SealedAt
  rwa [hseg, hidx]

theorem Backed.congr (h : Backed fs W) (hsame : SameFiles W fs fs') : Backed fs' W where
  sealed s hs hr := (h.sealed s hs hr).congr (hsame s (mem_of_mem_dropLast hs) hr).1
    (hsame s (mem_of_mem_dropLast hs) hr).2
  active s hs hr := by
    rw [(hsame s (mem_of_getLast? hs) hr).1]
    exact h.active s hs hr

theorem Synced.congr (h : Synced fs W) (hsame : SameFiles W fs fs') : Synced fs' W := by
  intro s hs hr f hf
  rw [(hsame s hs hr).1] at hf
  exact h s hs hr f hf

theorem Recorded.congr (h : Recorded fs P) (hman : fs' .manifest = fs .manifest) :
    Recorded fs' P := by
  unfold Recorded
  rwa [hman]

theorem OnDisk.congr (h : OnDisk fs P L tail) (hman : fs' .manifest = fs .manifest)
    (hsame : SameFiles L fs fs') : OnDisk fs' P L tail where
  ok := h.ok
  okP := h.okP
  recorded := h.recorded.congr hman
  lag := h.lag
  sealed s hs hr := (h.sealed s hs hr).congr (hsame s (mem_of_mem_dropLast hs) hr).1
    (hsame s (mem_of_mem_dropLast hs) hr).2
  active s hs hr := by
    rw [(hsame s (mem_of_getLast? hs) hr).1]
    exact h.active s hs hr
  torn := h.torn

theorem Backed.of_agree (h : Backed fs W) (ha : Agree fs fs') : Backed fs' W :=
  h.congr (.of_agree ha W)

theorem Synced.of_agree (h : Synced fs W) (ha : Agree fs fs') : Synced fs' W :=
  h.congr (.of_agree ha W)

theorem OnDisk.of_agree (h : OnDisk fs P L tail) (ha : Agree fs fs') : OnDisk fs' P L tail :=
  h.congr (ha _ fun _ ↦ Path.noConfusion) (.of_agree ha L)

/-- The log on disk can be read. -/
theorem OnDisk.backed (h : OnDisk fs P L tail) : Backed fs L where
  sealed := h.sealed
  active s hs hr := by
    obtain ⟨f, hf, hdata⟩ := h.active s hs hr
    exact ⟨f, hf, ⟨tail, hdata.symm⟩⟩

end Congr

end WebAnalyticsDb
