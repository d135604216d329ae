import WebAnalyticsDb.Core.Basic

/-!
# Files

The operating-system layer of `platform/files.c`: complete reads and writes, synchronization, and the
atomic replacement of a file. Each function has one lemma that says everything it can do.

A temporary file is part of the model, so that what is installed is what was written; but nothing
ever reads one, and `Agree` is equality of all other files.
-/

namespace WebAnalyticsDb

open Bytes

variable {μ : Type}

/-! ### Functions -/

/-- `wadb_write_all`. -/
def writeAll (p : Path) (b : Bytes) : Io μ Unit := do
  let ok ← Prog.writeAll p b
  require ok .io "write failed"

/-- `wadb_sync_file`. -/
def syncFile (p : Path) : Io μ Unit := do
  let ok ← Prog.syncFile p
  require ok .io "durable file synchronization failed"

/-- `wadb_pread_all`. -/
def preadAll (p : Path) (off n : ℕ) : Io μ Bytes := do
  require (off ≤ int64Max && n ≤ int64Max - off) .limit "file offset exceeds signed 64-bit range"
  if n = 0 then pure []
  else
    let ok ← Prog.call true (.read p) id
    require ok .io "pread failed"
    let fs ← Prog.files
    let data := (fs p).elim [] File.data
    require (off + n ≤ data.length) .corrupt "unexpected end of file"
    pure (slice data off n)

/-- `wadb_mkdir`. A directory that exists already is as good as one created. -/
def mkdir (dir : Dir) : Io μ Unit := do
  let ok ← Prog.call false (.mkdir dir) id
  require ok .io "cannot create directory"

/-- `wadb_sync_directory`. -/
def syncDirectory (dir : Dir) : Io μ Unit := do
  let ok ← Prog.call true (.syncDir dir) id
  require ok .io "cannot synchronize directory"

/-- Rename the temporary file of `p` to `p`. -/
def renameTmp (p : Path) (fs : Files) : Files :=
  Prog.setFile (.tmp p) none (Prog.setFile p (fs (.tmp p)) fs)

/-- The part of `wadb_atomic_file` during which the temporary file exists. -/
def installTmp (p : Path) (data : Bytes) : Io μ Unit := do
  let written ← Prog.attempt do
    writeAll (.tmp p) data
    syncFile (.tmp p)
  let closed ← Prog.call false (.close (.tmp p)) id
  Prog.rethrow written
  require closed .io "close metadata file"
  let renamed ← Prog.call false (.rename p) (renameTmp p)
  require renamed .io "install metadata file"
  match ← Prog.attempt (syncDirectory p.parent) with
  | .ok () => pure ()
  | .error _ =>
    wadbFail .indeterminate "metadata installed but directory synchronization failed"

/-- `wadb_atomic_file`. -/
def atomicFile (p : Path) (data : Bytes) : Io μ Unit := do
  let temp ← Prog.alloc
  let parent ← Prog.alloc
  require (temp && parent) .nomem "metadata path allocation"
  let created ← Prog.call false (.temp p) (Prog.setFile (.tmp p) (some ⟨[], 0⟩))
  require created .io "create temporary metadata file"
  match ← Prog.attempt (installTmp p data) with
  | .ok () => pure ()
  | .error e =>
    let _ ← Prog.call false (.unlink (.tmp p)) (Prog.setFile (.tmp p) none)
    Prog.fail e

/-- `wadb_read_file`. -/
def readFile (p : Path) (limit : ℕ) : Io μ Bytes := do
  let ok ← Prog.call false (.open p) id
  require ok .io "open"
  let fs ← Prog.files
  match fs p with
  | none => wadbFail .notFound "open"
  | some f =>
    let stat ← Prog.call false (.stat p) id
    require stat .io "stat"
    require (f.data.length ≤ limit) .limit "invalid file type or oversized file"
    allocOr "allocate file buffer"
    preadAll p 0 f.data.length

/-! ### Rules -/

/-- All files that are not temporary are the same. -/
def Agree (fs fs' : Files) : Prop :=
  ∀ p, (∀ q, p ≠ .tmp q) → fs' p = fs p

theorem Agree.refl (fs : Files) : Agree fs fs := fun _ _ ↦ rfl

theorem Agree.trans {fs fs' fs'' : Files} (h : Agree fs fs') (h' : Agree fs' fs'') : Agree fs fs'' :=
  fun p hp ↦ (h' p hp).trans (h p hp)

theorem agree_setFile_tmp (p : Path) (f : Option File) (fs : Files) :
    Agree fs (setFile (.tmp p) f fs) :=
  fun _ hq ↦ setFile_of_ne f fs (hq p)

theorem agree_appendTo_tmp (p : Path) (b : Bytes) (fs : Files) :
    Agree fs (appendTo (.tmp p) b fs) :=
  agree_setFile_tmp p _ fs

section Rules

variable {env : Env Path Dir} {w : World Path μ} {Q : Exit Error Unit → Files → μ → Prop} {p : Path}

theorem wp_writeAll {b : Bytes} (hok : Q (.ok ()) (appendTo p b w.fs) w.mem)
    (hno : ¬ env.Calm → ∀ k < b.length,
      Q (.fail ⟨.io, "write failed"⟩) (appendTo p (b.take k) w.fs) w.mem)
    (hkill : ¬ env.Calm → ∀ k ≤ b.length, Q .killed (appendTo p (b.take k) w.fs) w.mem) :
    wp (writeAll p b) env Q w :=
  wp_bind (Prog.wp_writeAll (fun _ ↦ hok) (fun hcalm k hk _ ↦ hno hcalm k hk) hkill)

/-- A call whose refusal is reported with one error. -/
theorem wp_callOr {retry : Bool} {c : Call Path Dir} {eff : Files → Files} {code : Status}
    {message : String}
    (hok : Q (.ok ()) (eff w.fs) w.mem)
    (hno : ¬ env.Calm → Q (.fail ⟨code, message⟩) w.fs w.mem)
    (hkill : ¬ env.Calm → Q .killed w.fs w.mem)
    (hkill' : ¬ env.Calm → Q .killed (eff w.fs) w.mem) :
    wp (Prog.call retry c eff >>= fun ok ↦ require ok code message) env Q w :=
  wp_bind (wp_call (fun _ ↦ hok) (fun hcalm _ ↦ hno hcalm) hkill hkill')

/-- Such a call and what follows it. -/
theorem wp_callOr_bind {α : Type} {Q : Exit Error α → Files → μ → Prop} {retry : Bool}
    {c : Call Path Dir} {eff : Files → Files} {code : Status} {message : String} {rest : Unit → Io μ α}
    (hok : ∀ n, wp (rest ()) env Q ⟨eff w.fs, n, w.mem⟩)
    (hno : ¬ env.Calm → Q (.fail ⟨code, message⟩) w.fs w.mem)
    (hkill : ¬ env.Calm → Q .killed w.fs w.mem)
    (hkill' : ¬ env.Calm → Q .killed (eff w.fs) w.mem) :
    wp (Prog.call retry c eff >>= fun ok ↦ require ok code message >>= rest) env Q w :=
  wp_bind (wp_call (fun _ ↦ wp_bind fun n ↦ hok n) (fun hcalm _ ↦ wp_bind (hno hcalm)) hkill hkill')

theorem wp_syncFile (hok : Q (.ok ()) (syncTo p w.fs) w.mem)
    (hno : ¬ env.Calm → Q (.fail ⟨.io, "durable file synchronization failed"⟩) w.fs w.mem)
    (hkill : ¬ env.Calm → Q .killed w.fs w.mem)
    (hkill' : ¬ env.Calm → Q .killed (syncTo p w.fs) w.mem) :
    wp (syncFile p) env Q w :=
  wp_callOr hok hno hkill hkill'

theorem wp_mkdir {dir : Dir} (hok : Q (.ok ()) w.fs w.mem)
    (hno : ¬ env.Calm → Q (.fail ⟨.io, "cannot create directory"⟩) w.fs w.mem)
    (hkill : ¬ env.Calm → Q .killed w.fs w.mem) : wp (mkdir dir) env Q w :=
  wp_callOr hok hno hkill hkill

theorem wp_syncDirectory {dir : Dir} (hok : Q (.ok ()) w.fs w.mem)
    (hno : ¬ env.Calm → Q (.fail ⟨.io, "cannot synchronize directory"⟩) w.fs w.mem)
    (hkill : ¬ env.Calm → Q .killed w.fs w.mem) : wp (syncDirectory dir) env Q w :=
  wp_callOr hok hno hkill hkill

/-- **Reading** `n` bytes, if the file has them. -/
theorem wp_preadAll_cases {off n : ℕ} {f : File} (hfile : w.fs p = some f)
    {Q : Exit Error Bytes → Files → μ → Prop} (hok : Q (.ok (slice f.data off n)) w.fs w.mem)
    (hshort : ¬ (off + n ≤ int64Max ∧ off + n ≤ f.data.length) → ∀ e, Q (.fail e) w.fs w.mem)
    (hno : ¬ env.Calm → Q (.fail ⟨.io, "pread failed"⟩) w.fs w.mem)
    (hkill : ¬ env.Calm → Q .killed w.fs w.mem) : wp (preadAll p off n) env Q w := by
  unfold preadAll
  refine wp_bind (wp_require (fun _ k ↦ ?_) fun hbad ↦ hshort (fun hfits ↦ ?_) _)
  swap
  · simp only [Bool.and_eq_false_iff, decide_eq_false_iff_not] at hbad
    omega
  split
  next hn =>
    subst hn
    have hempty : slice f.data off 0 = [] := by simp [slice]
    rw [hempty] at hok
    exact hok
  next hn =>
    refine wp_callOr_bind (fun k ↦ ?_) hno hkill hkill
    refine wp_bind (wp_files.2 fun k ↦ ?_)
    simp only [id_eq, hfile, Option.elim_some]
    exact wp_bind (wp_require (fun _ k ↦ hok) fun hbad ↦
      hshort (fun hfits ↦ of_decide_eq_false hbad hfits.2) _)

theorem wp_preadAll {off n : ℕ} {f : File} (hfile : w.fs p = some f)
    (hrange : off + n ≤ int64Max) (hlen : off + n ≤ f.data.length)
    {Q : Exit Error Bytes → Files → μ → Prop} (hok : Q (.ok (slice f.data off n)) w.fs w.mem)
    (hno : ¬ env.Calm → Q (.fail ⟨.io, "pread failed"⟩) w.fs w.mem)
    (hkill : ¬ env.Calm → Q .killed w.fs w.mem) : wp (preadAll p off n) env Q w :=
  wp_preadAll_cases hfile hok (absurd ⟨hrange, hlen⟩) hno hkill

/-- **Reading a whole file**, if it is there and not too large. -/
theorem wp_readFile_cases {limit : ℕ} {Q : Exit Error Bytes → Files → μ → Prop}
    (hok : ∀ f, w.fs p = some f → Q (.ok f.data) w.fs w.mem)
    (hnone : w.fs p = none → Q (.fail ⟨.notFound, "open"⟩) w.fs w.mem)
    (hlong : ∀ f, w.fs p = some f → ¬ (f.data.length ≤ limit ∧ f.data.length ≤ int64Max) →
      ∀ e, Q (.fail e) w.fs w.mem)
    (hno : ¬ env.Calm → ∀ e : Error, e.code = .io ∨ e.code = .nomem → Q (.fail e) w.fs w.mem)
    (hkill : ¬ env.Calm → Q .killed w.fs w.mem) : wp (readFile p limit) env Q w := by
  unfold readFile
  refine wp_callOr_bind (fun k ↦ ?_) (fun hcalm ↦ hno hcalm _ (.inl rfl)) hkill hkill
  refine wp_bind (wp_files.2 fun k ↦ ?_)
  cases hfile : w.fs p with
  | none =>
    simp only [id_eq, hfile]
    exact wp_wadbFail.2 (hnone hfile)
  | some f =>
    simp only [id_eq, hfile]
    refine wp_callOr_bind (fun k ↦ ?_) (fun hcalm ↦ hno hcalm _ (.inl rfl)) hkill hkill
    refine wp_bind (wp_require (fun _ k ↦ ?_) fun hbad ↦
      hlong f hfile (fun hfits ↦ of_decide_eq_false hbad hfits.1) _)
    refine wp_bind (wp_allocOr (fun k ↦ ?_) fun hcalm ↦ hno hcalm _ (.inr rfl))
    refine wp_preadAll_cases (w := ⟨w.fs, k, w.mem⟩) hfile ?_
      (fun hbad ↦ hlong f hfile fun hfits ↦ hbad (by omega)) (fun hcalm ↦ hno hcalm _ (.inl rfl)) hkill
    rw [slice_zero_length]
    exact hok f hfile

theorem wp_readFile {f : File} {limit : ℕ} (hfile : w.fs p = some f)
    (hlimit : f.data.length ≤ limit) (hrange : f.data.length ≤ int64Max)
    {Q : Exit Error Bytes → Files → μ → Prop} (hok : Q (.ok f.data) w.fs w.mem)
    (hno : ¬ env.Calm → ∀ e : Error, e.code = .io ∨ e.code = .nomem → Q (.fail e) w.fs w.mem)
    (hkill : ¬ env.Calm → Q .killed w.fs w.mem) : wp (readFile p limit) env Q w := by
  have hsame {g : File} (hg : w.fs p = some g) : f = g := Option.some.inj (hfile.symm.trans hg)
  refine wp_readFile_cases (fun g hg ↦ hsame hg ▸ hok) (fun hnone ↦ ?_) (fun g hg hlong ↦ ?_) hno hkill
  · rw [hfile] at hnone
    cases hnone
  · exact absurd (hsame hg ▸ ⟨hlimit, hrange⟩) hlong

/-- The temporary file holds a part of the data, or all of it and was synchronized. -/
def Unfinished (p : Path) (data : Bytes) (fs fs' : Files) : Prop :=
  (∃ k ≤ data.length, fs' = Prog.appendTo (.tmp p) (data.take k) fs) ∨
    fs' = Prog.syncTo (.tmp p) (Prog.appendTo (.tmp p) data fs)

/-- **The calls that install a file**, with what each of them leaves. Only a refused directory
synchronization after the rename is indeterminate. -/
theorem wp_installTmp_calls {data : Bytes}
    {fs' : Files} (hfs' : fs' = renameTmp p (syncTo (.tmp p) (appendTo (.tmp p) data w.fs)))
    (hok : Q (.ok ()) fs' w.mem)
    (hno : ¬ env.Calm → ∀ fs₁, Unfinished p data w.fs fs₁ → ∀ e : Error, e.code = .io →
      Q (.fail e) fs₁ w.mem)
    (hind : ¬ env.Calm → ∀ e : Error, e.code = .indeterminate → Q (.fail e) fs' w.mem)
    (hkill : ¬ env.Calm → ∀ fs₁, Unfinished p data w.fs fs₁ ∨ fs₁ = fs' → Q .killed fs₁ w.mem) :
    wp (installTmp p data) env Q w := by
  subst hfs'
  have hpart {k : ℕ} (hk : k ≤ data.length) :
      Unfinished p data w.fs (appendTo (.tmp p) (data.take k) w.fs) := .inl ⟨k, hk, rfl⟩
  have hall : Unfinished p data w.fs (appendTo (.tmp p) data w.fs) :=
    .inl ⟨data.length, le_rfl, by rw [List.take_length]⟩
  have hsync : Unfinished p data w.fs (syncTo (.tmp p) (appendTo (.tmp p) data w.fs)) :=
    .inr rfl
  unfold installTmp
  -- a failure to write or synchronize is reported after the file is closed
  have hfailed {fs₁ : Files} {k : ℕ} {e : Error} (hcalm : ¬ env.Calm) (hfs : Unfinished p data w.fs fs₁)
      (he : e.code = .io) (rest : Unit → Io μ Unit) :
      wp (Prog.call false (.close (.tmp p)) id >>= fun closed ↦
        Prog.rethrow (.error e : Except Error Unit) >>= fun _ ↦
          (require closed .io "close metadata file" >>= rest)) env Q ⟨fs₁, k, w.mem⟩ := by
    refine wp_bind (wp_call (fun k ↦ ?_) (fun _ k ↦ ?_)
      (fun _ ↦ hkill hcalm _ (.inl hfs)) (fun _ ↦ hkill hcalm _ (.inl hfs)))
    all_goals exact wp_bind (hno hcalm _ hfs e he)
  refine wp_bind (wp_attempt.2 (wp_bind (wp_writeAll (fun k ↦ wp_syncFile ?_ ?_ ?_ ?_)
    ?_ ?_)))
  · intro k
    refine wp_bind (wp_call (fun k ↦ ?_) (fun hcalm k ↦ ?_)
      (fun hcalm ↦ hkill hcalm _ (.inl hsync)) fun hcalm ↦ hkill hcalm _ (.inl hsync))
    swap
    · refine wp_bind fun k ↦ ?_
      exact wp_bind (wp_require (by simp) fun _ ↦ hno hcalm _ hsync _ rfl)
    refine wp_bind fun k ↦ ?_
    refine wp_require_of rfl fun k ↦ ?_
    refine wp_callOr_bind (fun k ↦ ?_) (fun hcalm ↦ hno hcalm _ hsync _ rfl)
      (fun hcalm ↦ hkill hcalm _ (.inl hsync)) fun hcalm ↦ hkill hcalm _ (.inr rfl)
    refine wp_bind (wp_attempt.2 (wp_syncDirectory (fun k ↦ ?_) (fun hcalm k ↦ ?_)
      fun hcalm ↦ hkill hcalm _ (.inr rfl)))
    · exact hok
    · exact hind hcalm _ rfl
  · exact fun hcalm k ↦ hfailed hcalm hall rfl _
  · exact fun hcalm ↦ hkill hcalm _ (.inl hall)
  · exact fun hcalm ↦ hkill hcalm _ (.inl hsync)
  · exact fun hcalm k hk n ↦ hfailed hcalm (hpart hk.le) rfl _
  · exact fun hcalm k hk ↦ hkill hcalm _ (.inl (hpart hk))

/-- **Installing**: the temporary file becomes the file at `p`, whole, or nothing but the temporary
file has changed. -/
theorem wp_installTmp {data : Bytes} (htmp : w.fs (.tmp p) = some ⟨[], 0⟩)
    (hok : ∀ fs', Agree (setFile p (some ⟨data, data.length⟩) w.fs) fs' → Q (.ok ()) fs' w.mem)
    (hno : ¬ env.Calm → ∀ fs', Agree w.fs fs' → ∀ e : Error, e.code = .io → Q (.fail e) fs' w.mem)
    (hind : ¬ env.Calm → ∀ fs', Agree (setFile p (some ⟨data, data.length⟩) w.fs) fs' →
      ∀ e : Error, e.code = .indeterminate → Q (.fail e) fs' w.mem)
    (hkill : ¬ env.Calm → ∀ fs', Agree w.fs fs' ∨
      Agree (setFile p (some ⟨data, data.length⟩) w.fs) fs' → Q .killed fs' w.mem) :
    wp (installTmp p data) env Q w := by
  have hsync : Agree w.fs (syncTo (.tmp p) (appendTo (.tmp p) data w.fs)) :=
    (agree_appendTo_tmp p data w.fs).trans (agree_setFile_tmp p _ _)
  have hunfinished {fs₁ : Files} (h : Unfinished p data w.fs fs₁) : Agree w.fs fs₁ := by
    rcases h with ⟨k, -, rfl⟩ | rfl
    · exact agree_appendTo_tmp p _ w.fs
    · exact hsync
  -- once the data is written and synchronized, the rename puts exactly it at `p`
  have hrename : Agree (setFile p (some ⟨data, data.length⟩) w.fs)
      (renameTmp p (syncTo (.tmp p) (appendTo (.tmp p) data w.fs))) := by
    intro q hq
    rw [renameTmp, setFile_of_ne _ _ (hq p)]
    by_cases hqp : q = p
    · subst hqp
      rw [setFile_self, setFile_self]
      simp [syncTo, appendTo, htmp]
    · rw [setFile_of_ne _ _ hqp, setFile_of_ne _ _ hqp]
      exact hsync q hq
  refine wp_installTmp_calls rfl (hok _ hrename) (fun hcalm fs₁ h ↦ hno hcalm fs₁ (hunfinished h))
    (fun hcalm ↦ hind hcalm _ hrename) fun hcalm fs₁ h ↦ hkill hcalm fs₁ (h.imp hunfinished ?_)
  rintro rfl
  exact hrename

/-- The program replaces the file `p` by `data`, as a whole or not at all. -/
def Installs (prog : Io μ Unit) (p : Path) (data : Bytes) : Prop :=
  ∀ (env : Env Path Dir) (w : World Path μ) (Q : Exit Error Unit → Files → μ → Prop),
    (∀ fs', Agree (Prog.setFile p (some ⟨data, data.length⟩) w.fs) fs' → Q (.ok ()) fs' w.mem) →
    (¬ env.Calm → ∀ fs', Agree w.fs fs' → ∀ e : Error, e.code = .io ∨ e.code = .nomem →
      Q (.fail e) fs' w.mem) →
    (¬ env.Calm → ∀ fs', Agree (Prog.setFile p (some ⟨data, data.length⟩) w.fs) fs' →
      ∀ e : Error, e.code = .indeterminate → Q (.fail e) fs' w.mem) →
    (¬ env.Calm → ∀ fs', Agree w.fs fs' ∨
      Agree (Prog.setFile p (some ⟨data, data.length⟩) w.fs) fs' → Q .killed fs' w.mem) →
    wp prog env Q w

/-- **Replacing a file atomically.** -/
theorem installs_atomicFile (p : Path) (data : Bytes) : Installs (atomicFile p data : Io μ Unit) p data := by
  intro env w Q hok hno hind hkill
  have hcreated := agree_setFile_tmp p (some ⟨[], 0⟩) w.fs
  have hset : Agree (setFile p (some ⟨data, data.length⟩) w.fs)
      (setFile p (some ⟨data, data.length⟩) (setFile (.tmp p) (some ⟨[], 0⟩) w.fs)) := by
    intro q hq
    by_cases hqp : q = p
    · subst hqp
      rw [setFile_self, setFile_self]
    · rw [setFile_of_ne _ _ hqp, setFile_of_ne _ _ hqp]
      exact hcreated q hq
  have hnomem (k : ℕ) (b : Bool) (hb : b = false) (hcalm : ¬ env.Calm) (rest : Unit → Io μ Unit) :
      wp (require b .nomem "metadata path allocation" >>= rest) env Q ⟨w.fs, k, w.mem⟩ :=
    wp_bind (wp_require (by simp [hb]) fun _ ↦ hno hcalm _ (Agree.refl _) _ (.inr rfl))
  unfold atomicFile
  refine wp_bind (wp_alloc (fun k ↦ ?_) fun hcalm k ↦ ?_)
  swap
  · exact wp_bind (wp_alloc (fun k ↦ hnomem k _ rfl hcalm _)
      fun _ k ↦ hnomem k _ rfl hcalm _)
  refine wp_bind (wp_alloc (fun k ↦ ?_) fun hcalm k ↦ hnomem k _ rfl hcalm _)
  refine wp_require_of rfl fun k ↦ ?_
  refine wp_callOr_bind (fun k ↦ ?_) (fun hcalm ↦ hno hcalm _ (.refl _) _ (.inl rfl))
    (fun hcalm ↦ hkill hcalm _ (.inl (.refl _))) fun hcalm ↦ hkill hcalm _ (.inl hcreated)
  -- the temporary file of a failed attempt is removed, whatever becomes of that
  have hfailed {fs' fs₀ : Files} {k : ℕ} {e : Error} (hfs : Agree fs₀ fs')
      (hQ : ∀ fs'', Agree fs₀ fs'' → Q (.fail e) fs'' w.mem)
      (hK : ∀ fs'', Agree fs₀ fs'' → Q .killed fs'' w.mem) :
      wp (Prog.call false (.unlink (.tmp p)) (setFile (.tmp p) none) >>= fun _ ↦
        (Prog.fail e : Io μ Unit)) env Q ⟨fs', k, w.mem⟩ := by
    have hun := hfs.trans (agree_setFile_tmp p none fs')
    exact wp_bind (wp_call (fun _ ↦ hQ _ hun) (fun _ _ ↦ hQ _ hfs) (fun _ ↦ hK _ hfs)
      fun _ ↦ hK _ hun)
  refine wp_bind (wp_attempt.2 (wp_installTmp (setFile_self _ _ _)
    (fun fs' hfs _ ↦ hok fs' (hset.trans hfs)) (fun hcalm fs' hfs e he k ↦ ?_)
    (fun hcalm fs' hfs e he k ↦ ?_) fun hcalm fs' hfs ↦ ?_))
  · exact hfailed (hcreated.trans hfs) (fun fs'' h ↦ hno hcalm fs'' h e (.inl he))
      fun fs'' h ↦ hkill hcalm fs'' (.inl h)
  · exact hfailed (hset.trans hfs) (fun fs'' h ↦ hind hcalm fs'' h e he)
      fun fs'' h ↦ hkill hcalm fs'' (.inr h)
  · exact hkill hcalm fs' (hfs.imp hcreated.trans hset.trans)

/-- The metadata writers allocate a buffer and a path first. -/
theorem installs_allocated (a b : String) (data : Bytes) :
    Installs (do allocOr a; allocOr b; atomicFile p data : Io μ Unit) p data := by
  intro env w Q hok hno hind hkill
  have hnomem (hcalm : ¬ env.Calm) (m : String) : Q (.fail ⟨.nomem, m⟩) w.fs w.mem :=
    hno hcalm w.fs (Agree.refl _) _ (.inr rfl)
  refine wp_bind (wp_allocOr (fun n ↦ ?_) fun hcalm ↦ hnomem hcalm _)
  refine wp_bind (wp_allocOr (fun n ↦ ?_) fun hcalm ↦ hnomem hcalm _)
  exact installs_atomicFile p data env ⟨w.fs, n, w.mem⟩ Q hok hno hind hkill

end Rules

end WebAnalyticsDb
