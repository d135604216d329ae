import Mathlib.Logic.Function.Basic
import WebAnalyticsDb.Foundation.Bytes

/-!
# Programs over a file system that may refuse, interrupt or kill

A program is a function of its environment and of the world it runs in. It ends in one of three
ways: with a value, with an error the caller sees, or **killed**, in which case only the file system
survives. The environment answers every system call and every allocation; a program is executable,
and "for every failure pattern" is a quantifier over environments.

Three decisions shape the proofs.

* **Answers are scripts.** A call that its program retries on interruption, or that transfers bytes
  in several steps, consumes a finite list of answers; past the end of the list the call succeeds.
  So every retry loop is a structural recursion, and the calm environment is the empty script.
* **A kill is an outcome, not an exception.** `attempt` catches errors and never a kill, so what
  holds when a program is killed is a postcondition like any other.
* **Synchronization is part of the file.** A file is its bytes together with the length covered by
  a successful sync; writing never moves that length.

`wp p env Q w` is the postcondition calculus: `wp_bind`, `wp_attempt` and `wp.mono` are the rules,
and each system call has one lemma that says everything it can do.
-/

/-! ### Files, calls and answers -/

/-- A file: its bytes and the length covered by a successful sync. -/
structure File where
  /-- The bytes a reader sees. -/
  data : Bytes
  /-- The length covered by the last successful sync. -/
  synced : ℕ
deriving DecidableEq, Repr

/-- The calls a program makes, with the file or directory each is about. -/
inductive Call (π δ : Type)
  | alloc
  | open (p : π)
  | stat (p : π)
  | read (p : π)
  | create (p : π)
  | temp (p : π)
  | write (p : π)
  | sync (p : π)
  | close (p : π)
  | truncate (p : π)
  | rename (p : π)
  | unlink (p : π)
  | mkdir (d : δ)
  | syncDir (d : δ)
  | list (d : δ)
  | lock (p : π)
  | spawn
deriving DecidableEq, Repr

/-- How the environment answers a call. `part k` ends a transfer after `k` bytes. `die k` kills the
process: before the call has any effect when `k = 0`, otherwise after it (a transfer then stopped
at `k` bytes). -/
inductive Answer
  | done
  | fail
  | intr
  | part (k : ℕ)
  | die (k : ℕ)
deriving DecidableEq, Repr

/-- The environment: the script answering the `n`-th call, and the two clocks at the `n`-th call. -/
structure Env (π δ : Type) where
  /-- The answers to the `n`-th call. -/
  answer : ℕ → Call π δ → List Answer
  /-- The monotonic clock at the `n`-th call. -/
  clock : ℕ → ℕ
  /-- The wall clock at the `n`-th call; it may move in any direction. -/
  wall : ℕ → ℤ

/-- The environment in which every call succeeds at once and the clocks stand still. -/
def Env.still (π δ : Type) : Env π δ where
  answer _ _ := []
  clock _ := 0
  wall _ := 0

/-- Every call of the run is answered with success. -/
def Env.Calm {π δ : Type} (env : Env π δ) : Prop :=
  ∀ n c, env.answer n c = []

theorem Env.calm_still (π δ : Type) : (Env.still π δ).Calm := fun _ _ ↦ rfl

/-- The world of a running program: the files, the number of calls made, and its own memory. -/
structure World (π μ : Type) where
  /-- The visible files. -/
  fs : π → Option File
  /-- How many calls have been made. -/
  calls : ℕ
  /-- The memory of the process. -/
  mem : μ

/-- The three ways a program ends. -/
inductive Exit (ε α : Type)
  | ok (a : α)
  | fail (e : ε)
  | killed
deriving DecidableEq, Repr

/-- A program: a function of the environment and the world. -/
def Prog (π δ μ ε α : Type) : Type :=
  Env π δ → World π μ → Exit ε α × World π μ

namespace Prog

variable {π δ μ ε α β : Type}

/-! ### Sequencing -/

protected def pure (a : α) : Prog π δ μ ε α :=
  fun _ w ↦ (.ok a, w)

protected def bind (p : Prog π δ μ ε α) (f : α → Prog π δ μ ε β) : Prog π δ μ ε β :=
  fun env w ↦
    match p env w with
    | (.ok a, w') => f a env w'
    | (.fail e, w') => (.fail e, w')
    | (.killed, w') => (.killed, w')

instance : Monad (Prog π δ μ ε) where
  pure := Prog.pure
  bind := Prog.bind

protected theorem bind_pure (p : Prog π δ μ ε α) : p.bind Prog.pure = p := by
  funext env w
  unfold Prog.bind
  rcases p env w with ⟨_ | _ | _, w'⟩ <;> rfl

protected theorem bind_assoc {γ : Type} (p : Prog π δ μ ε α) (f : α → Prog π δ μ ε β)
    (g : β → Prog π δ μ ε γ) : (p.bind f).bind g = p.bind fun a ↦ (f a).bind g := by
  funext env w
  unfold Prog.bind
  rcases p env w with ⟨_ | _ | _, w'⟩ <;> rfl

instance : LawfulMonad (Prog π δ μ ε) :=
  LawfulMonad.mk' _ Prog.bind_pure (fun _ _ ↦ rfl) Prog.bind_assoc

/-- End with an error. -/
def fail (e : ε) : Prog π δ μ ε α :=
  fun _ w ↦ (.fail e, w)

/-- End the process. -/
def die : Prog π δ μ ε α :=
  fun _ w ↦ (.killed, w)

/-- Run `p` and hand its error to the caller as a value. A kill is not caught. -/
def attempt (p : Prog π δ μ ε α) : Prog π δ μ ε (Except ε α) :=
  fun env w ↦
    match p env w with
    | (.ok a, w') => (.ok (.ok a), w')
    | (.fail e, w') => (.ok (.error e), w')
    | (.killed, w') => (.killed, w')

/-- Continue with an attempted result: its value, or its error again. -/
def rethrow : Except ε α → Prog π δ μ ε α
  | .ok a => Prog.pure a
  | .error e => fail e

/-- Read the memory. -/
def get : Prog π δ μ ε μ :=
  fun _ w ↦ (.ok w.mem, w)

/-- Change the memory. -/
def modify (f : μ → μ) : Prog π δ μ ε Unit :=
  fun _ w ↦ (.ok (), { w with mem := f w.mem })

/-- Look at the files without making a call. -/
def files : Prog π δ μ ε (π → Option File) :=
  fun _ w ↦ (.ok w.fs, w)

/-- Read the monotonic clock. -/
def clock : Prog π δ μ ε ℕ :=
  fun env w ↦ (.ok (env.clock w.calls), { w with calls := w.calls + 1 })

/-- Read the wall clock. -/
def wall : Prog π δ μ ε ℤ :=
  fun env w ↦ (.ok (env.wall w.calls), { w with calls := w.calls + 1 })

/-- Ask a callback of the client, which may answer differently at every call. -/
def poll (f : ℕ → Bool) : Prog π δ μ ε Bool :=
  fun _ w ↦ (.ok (f w.calls), { w with calls := w.calls + 1 })

/-- Continue only when `b` holds. -/
def ensure (b : Bool) (e : ε) : Prog π δ μ ε Unit :=
  if b then Prog.pure () else fail e

/-- Run `p` on a memory `m` of its own; the caller sees its result and what became of `m`. -/
def within {ν : Type} (m : ν) (p : Prog π δ ν ε α) : Prog π δ μ ε (Except ε α × ν) :=
  fun env w ↦
    match p env ⟨w.fs, w.calls, m⟩ with
    | (.ok a, w') => (.ok (.ok a, w'.mem), ⟨w'.fs, w'.calls, w.mem⟩)
    | (.fail e, w') => (.ok (.error e, w'.mem), ⟨w'.fs, w'.calls, w.mem⟩)
    | (.killed, w') => (.killed, ⟨w'.fs, w'.calls, w.mem⟩)

/-! ### Calls -/

/-- Ask for memory: `false` when the allocation fails. -/
def alloc : Prog π δ μ ε Bool :=
  fun env w ↦ (.ok ((env.answer w.calls .alloc).head? != some .fail), { w with calls := w.calls + 1 })

/-- Play a script for a call whose effect on the files is `eff`. An interrupted call is made again
when `retry` holds and fails otherwise. -/
def play (retry : Bool) (eff : (π → Option File) → π → Option File) (w : World π μ) :
    List Answer → Exit ε Bool × World π μ
  | [] => (.ok true, { w with fs := eff w.fs })
  | .done :: _ => (.ok true, { w with fs := eff w.fs })
  | .part _ :: _ => (.ok true, { w with fs := eff w.fs })
  | .fail :: _ => (.ok false, w)
  | .intr :: rest => if retry then play retry eff w rest else (.ok false, w)
  | .die 0 :: _ => (.killed, w)
  | .die (_ + 1) :: _ => (.killed, { w with fs := eff w.fs })

/-- Make a call with effect `eff`: `true` when it succeeds. -/
def call (retry : Bool) (c : Call π δ) (eff : (π → Option File) → π → Option File) :
    Prog π δ μ ε Bool :=
  fun env w ↦ play retry eff { w with calls := w.calls + 1 } (env.answer w.calls c)

/-! ### Effects on files -/

section Effects

variable [DecidableEq π]

/-- Put a file at `p`, or remove it. -/
def setFile (p : π) (f : Option File) (fs : π → Option File) : π → Option File :=
  Function.update fs p f

@[simp] theorem setFile_self (p : π) (f : Option File) (fs : π → Option File) :
    setFile p f fs p = f := by
  simp [setFile]

theorem setFile_of_ne {p q : π} (f : Option File) (fs : π → Option File) (h : q ≠ p) :
    setFile p f fs q = fs q := by
  simp [setFile, h]

/-- Append bytes to the file at `p`. -/
def appendTo (p : π) (b : Bytes) (fs : π → Option File) : π → Option File :=
  setFile p ((fs p).map fun f ↦ { f with data := f.data ++ b }) fs

/-- Cover everything written to `p` by a sync. -/
def syncTo (p : π) (fs : π → Option File) : π → Option File :=
  setFile p ((fs p).map fun f ↦ { f with synced := f.data.length }) fs

/-- Cut the file at `p` to `n` bytes. -/
def truncateTo (p : π) (n : ℕ) (fs : π → Option File) : π → Option File :=
  setFile p ((fs p).map fun f ↦ { data := f.data.take n, synced := min f.synced n }) fs

/-- Append `b` to `p` in as many steps as the answers dictate. A step that transfers nothing is an
error, as it is for a caller that treats a zero count as one. -/
def playWrite (p : π) (w : World π μ) : Bytes → List Answer → Exit ε Bool × World π μ
  | b, [] => (.ok true, { w with fs := appendTo p b w.fs })
  | b, .done :: _ => (.ok true, { w with fs := appendTo p b w.fs })
  | _, .fail :: _ => (.ok false, w)
  | b, .intr :: rest => playWrite p w b rest
  | b, .part k :: rest =>
    if k = 0 then (.ok false, w)
    else if b.length ≤ k then (.ok true, { w with fs := appendTo p b w.fs })
    else playWrite p { w with fs := appendTo p (b.take k) w.fs } (b.drop k) rest
  | b, .die k :: _ => (.killed, { w with fs := appendTo p (b.take k) w.fs })

/-- Write `b` at the end of `p`: `true` when all of it was accepted. An empty write makes no
call. -/
def writeAll (p : π) (b : Bytes) : Prog π δ μ ε Bool :=
  fun env w ↦
    if b.isEmpty then (.ok true, w)
    else playWrite p { w with calls := w.calls + 1 } b (env.answer w.calls (.write p))

/-- Synchronize `p`, retrying interruptions. -/
def syncFile (p : π) : Prog π δ μ ε Bool :=
  call true (.sync p) (syncTo p)

end Effects

/-! ### Postconditions

A postcondition sees how the program ended, the files and the memory, never the number of calls
made: so a specification proved for one position in a run holds at every position. -/

/-- The program, run in `w`, ends in a way that satisfies `Q`. -/
def wp (p : Prog π δ μ ε α) (env : Env π δ) (Q : Exit ε α → (π → Option File) → μ → Prop)
    (w : World π μ) : Prop :=
  Q (p env w).1 (p env w).2.fs (p env w).2.mem

/-- What is left of a postcondition after the first of two programs: the second must establish it,
or the first has already ended both. -/
def andThen (K : α → (π → Option File) → μ → Prop) (Q : Exit ε β → (π → Option File) → μ → Prop) :
    Exit ε α → (π → Option File) → μ → Prop
  | .ok a, fs, m => K a fs m
  | .fail e, fs, m => Q (.fail e) fs m
  | .killed, fs, m => Q .killed fs m

/-- What a caught program leaves: its value or its error as data, or the kill. -/
def caught (Q : Exit ε (Except ε α) → (π → Option File) → μ → Prop) :
    Exit ε α → (π → Option File) → μ → Prop
  | .ok a, fs, m => Q (.ok (.ok a)) fs m
  | .fail e, fs, m => Q (.ok (.error e)) fs m
  | .killed, fs, m => Q .killed fs m

/-- What a program on its own memory leaves: its result with that memory, or the kill. -/
def localized {ν : Type} (m : μ) (Q : Exit ε (Except ε α × ν) → (π → Option File) → μ → Prop) :
    Exit ε α → (π → Option File) → ν → Prop
  | .ok a, fs, m' => Q (.ok (.ok a, m')) fs m
  | .fail e, fs, m' => Q (.ok (.error e, m')) fs m
  | .killed, fs, _ => Q .killed fs m

section Rules

variable {env : Env π δ} {w : World π μ} {fs : π → Option File} {m : μ} {n : ℕ}
variable {Q : Exit ε α → (π → Option File) → μ → Prop} {p : Prog π δ μ ε α}

theorem wp.mono {Q' : Exit ε α → (π → Option File) → μ → Prop}
    (h : wp p env Q w) (hQ : ∀ e fs m, Q e fs m → Q' e fs m) : wp p env Q' w :=
  hQ _ _ _ h

/-- What holds however a program ends. -/
theorem wp.of_forall (h : ∀ e fs m, Q e fs m) : wp p env Q w :=
  h _ _ _

theorem wp.and {Q' : Exit ε α → (π → Option File) → μ → Prop}
    (h : wp p env Q w) (h' : wp p env Q' w) : wp p env (fun e fs m ↦ Q e fs m ∧ Q' e fs m) w :=
  ⟨h, h'⟩

/-- A specification says all about the result of a run. -/
theorem wp.elim {F : Exit ε α × World π μ → Prop} (h : wp p env Q w)
    (hF : ∀ e w', Q e w'.fs w'.mem → F (e, w')) : F (p env w) :=
  hF _ _ h

/-- **Sequencing.** The second program is taken from every number of calls. -/
theorem wp_bind {f : α → Prog π δ μ ε β} {Q : Exit ε β → (π → Option File) → μ → Prop}
    (h : wp p env (andThen (fun a fs m ↦ ∀ n, wp (f a) env Q ⟨fs, n, m⟩) Q) w) :
    wp (p >>= f) env Q w := by
  show Q (Prog.bind p f env w).1 (Prog.bind p f env w).2.fs (Prog.bind p f env w).2.mem
  unfold wp at h
  unfold Prog.bind
  rcases hp : p env w with ⟨a | e | _, w'⟩ <;> rw [hp] at h
  · exact h w'.calls
  · exact h
  · exact h

@[simp] theorem wp_pure {a : α} : wp (pure a : Prog π δ μ ε α) env Q w ↔ Q (.ok a) w.fs w.mem :=
  Iff.rfl

@[simp] theorem wp_fail {e : ε} : wp (fail e : Prog π δ μ ε α) env Q w ↔ Q (.fail e) w.fs w.mem :=
  Iff.rfl

@[simp] theorem wp_get {Q : Exit ε μ → (π → Option File) → μ → Prop} :
    wp (get : Prog π δ μ ε μ) env Q w ↔ Q (.ok w.mem) w.fs w.mem :=
  Iff.rfl

@[simp] theorem wp_modify {f : μ → μ} {Q : Exit ε Unit → (π → Option File) → μ → Prop} :
    wp (modify f : Prog π δ μ ε Unit) env Q w ↔ Q (.ok ()) w.fs (f w.mem) :=
  Iff.rfl

@[simp] theorem wp_files {Q : Exit ε (π → Option File) → (π → Option File) → μ → Prop} :
    wp (files : Prog π δ μ ε _) env Q w ↔ Q (.ok w.fs) w.fs w.mem :=
  Iff.rfl

@[simp] theorem wp_clock {Q : Exit ε ℕ → (π → Option File) → μ → Prop} :
    wp (clock : Prog π δ μ ε ℕ) env Q w ↔ Q (.ok (env.clock w.calls)) w.fs w.mem :=
  Iff.rfl

@[simp] theorem wp_rethrow {r : Except ε α} : wp (rethrow r : Prog π δ μ ε α) env Q w ↔
      Q (match r with | .ok a => .ok a | .error e => .fail e) w.fs w.mem := by
  cases r <;> rfl

theorem wp_attempt {Q : Exit ε (Except ε α) → (π → Option File) → μ → Prop} :
    wp (attempt p) env Q w ↔ wp p env (caught Q) w := by
  unfold wp attempt
  rcases p env w with ⟨_ | _ | _, w'⟩ <;> rfl

@[simp] theorem wp_wall {Q : Exit ε ℤ → (π → Option File) → μ → Prop} :
    wp (wall : Prog π δ μ ε ℤ) env Q w ↔ Q (.ok (env.wall w.calls)) w.fs w.mem :=
  Iff.rfl

@[simp] theorem wp_poll {f : ℕ → Bool} {Q : Exit ε Bool → (π → Option File) → μ → Prop} :
    wp (poll f : Prog π δ μ ε Bool) env Q w ↔ Q (.ok (f w.calls)) w.fs w.mem :=
  Iff.rfl

theorem wp_ensure {b : Bool} {e : ε} {Q : Exit ε Unit → (π → Option File) → μ → Prop}
    (hok : b = true → Q (.ok ()) w.fs w.mem) (hno : b = false → Q (.fail e) w.fs w.mem) :
    wp (ensure b e : Prog π δ μ ε Unit) env Q w := by
  cases b with
  | true => exact hok rfl
  | false => exact hno rfl

theorem wp_within {ν : Type} {m' : ν} {p : Prog π δ ν ε α}
    {Q : Exit ε (Except ε α × ν) → (π → Option File) → μ → Prop} :
    wp (within m' p) env Q w ↔
      wp p env (localized w.mem Q) ⟨w.fs, w.calls, m'⟩ := by
  unfold wp within
  rcases p env ⟨w.fs, w.calls, m'⟩ with ⟨_ | _ | _, w'⟩ <;> rfl

/-- An allocation succeeds, or the environment was not calm. -/
theorem wp_alloc {Q : Exit ε Bool → (π → Option File) → μ → Prop}
    (hok : Q (.ok true) w.fs w.mem) (hno : ¬ env.Calm → Q (.ok false) w.fs w.mem) :
    wp (alloc : Prog π δ μ ε Bool) env Q w := by
  show Q (.ok ((env.answer w.calls .alloc).head? != some .fail)) w.fs w.mem
  by_cases h : (env.answer w.calls .alloc).head? = some .fail
  · rw [h]
    refine hno fun hcalm ↦ ?_
    rw [hcalm] at h
    simp at h
  · rw [bne_iff_ne.2 h]
    exact hok

/-- **Everything a call can do**: succeed, or, in an environment that is not calm, be refused or end
the process on either side of its effect. -/
theorem wp_call {retry : Bool} {c : Call π δ} {eff : (π → Option File) → π → Option File}
    {Q : Exit ε Bool → (π → Option File) → μ → Prop}
    (hok : Q (.ok true) (eff w.fs) w.mem) (hno : ¬ env.Calm → Q (.ok false) w.fs w.mem)
    (hbefore : ¬ env.Calm → Q .killed w.fs w.mem)
    (hafter : ¬ env.Calm → Q .killed (eff w.fs) w.mem) :
    wp (call retry c eff) env Q w := by
  unfold wp call
  by_cases hcalm : env.Calm
  · rw [hcalm]
    exact hok
  replace hno := hno hcalm
  replace hbefore := hbefore hcalm
  replace hafter := hafter hcalm
  induction env.answer w.calls c with
  | nil => exact hok
  | cons a rest ih =>
    cases a with
    | done => exact hok
    | fail => exact hno
    | part k => exact hok
    | intr =>
      cases retry with
      | true => exact ih
      | false => exact hno
    | die k =>
      cases k with
      | zero => exact hbefore
      | succ k => exact hafter

end Rules

section FileRules

variable [DecidableEq π] {env : Env π δ} {w : World π μ}

theorem appendTo_nil (p : π) (fs : π → Option File) : appendTo p [] fs = fs := by
  unfold appendTo setFile
  refine Function.update_eq_self_iff.2 ?_
  cases fs p <;> simp

theorem appendTo_appendTo (p : π) (a b : Bytes) (fs : π → Option File) :
    appendTo p b (appendTo p a fs) = appendTo p (a ++ b) fs := by
  unfold appendTo setFile
  rw [Function.update_self, Function.update_idem]
  cases fs p <;> simp

/-- A script leaves some prefix of the bytes at the end of the file: all of it when the write
reports success, and a proper prefix when it reports failure. -/
theorem playWrite_cases (p : π) (script : List Answer) (b : Bytes) (hb : b ≠ []) (w : World π μ) :
    ∃ k, k ≤ b.length ∧
      (playWrite p w b script : Exit ε Bool × World π μ).2 =
        { w with fs := appendTo p (b.take k) w.fs } ∧
      ((playWrite p w b script : Exit ε Bool × World π μ).1 = .ok true ∧ k = b.length ∨
        (playWrite p w b script : Exit ε Bool × World π μ).1 = .ok false ∧ k < b.length ∨
        (playWrite p w b script : Exit ε Bool × World π μ).1 = .killed) := by
  have hpos : 0 < b.length := List.length_pos_iff.2 hb
  have hzero : { w with fs := appendTo p (b.take 0) w.fs } = w := by
    rw [List.take_zero, appendTo_nil]
  induction script generalizing b w with
  | nil => exact ⟨b.length, le_rfl, by simp [playWrite], by simp [playWrite]⟩
  | cons a rest ih =>
    cases a with
    | done => exact ⟨b.length, le_rfl, by simp [playWrite], by simp [playWrite]⟩
    | fail => exact ⟨0, Nat.zero_le _, by rw [hzero]; rfl, .inr (.inl ⟨rfl, hpos⟩)⟩
    | intr => exact ih b hb w hpos hzero
    | part k =>
      by_cases hk : k = 0
      · exact ⟨0, Nat.zero_le _, by rw [hzero]; simp [playWrite, hk],
          .inr (.inl ⟨by simp [playWrite, hk], hpos⟩)⟩
      by_cases hle : b.length ≤ k
      · exact ⟨b.length, le_rfl, by simp [playWrite, hk, hle], by simp [playWrite, hk, hle]⟩
      -- the step took `k` bytes; the rest of the script finds the others
      have hdrop : 0 < (b.drop k).length := by
        rw [List.length_drop]
        omega
      obtain ⟨j, hj, hw, hres⟩ := ih (b.drop k) (List.length_pos_iff.1 hdrop)
        { w with fs := appendTo p (b.take k) w.fs } hdrop (by simp [appendTo_nil])
      rw [List.length_drop] at hj hres
      refine ⟨k + j, by omega, ?_, ?_⟩
      · rw [playWrite, if_neg hk, if_neg hle, hw]
        simp only [appendTo_appendTo, List.take_add]
      · rw [playWrite, if_neg hk, if_neg hle]
        rcases hres with ⟨h, hj⟩ | ⟨h, hj⟩ | h
        · exact .inl ⟨h, by omega⟩
        · exact .inr (.inl ⟨h, by omega⟩)
        · exact .inr (.inr h)
    | die k =>
      refine ⟨min k b.length, min_le_right _ _, ?_, .inr (.inr rfl)⟩
      rw [playWrite, ← List.take_eq_take_min]

/-- **Everything a write can do**: append all the bytes, or, in an environment that is not calm,
append a part of them and report failure or end the process. -/
theorem wp_writeAll {p : π} {b : Bytes} {Q : Exit ε Bool → (π → Option File) → μ → Prop}
    (hok : Q (.ok true) (appendTo p b w.fs) w.mem)
    (hno : ¬ env.Calm → ∀ k < b.length, Q (.ok false) (appendTo p (b.take k) w.fs) w.mem)
    (hkill : ¬ env.Calm → ∀ k ≤ b.length, Q .killed (appendTo p (b.take k) w.fs) w.mem) :
    wp (writeAll p b) env Q w := by
  unfold wp writeAll
  by_cases hb : b = []
  · subst hb
    rw [appendTo_nil] at hok
    exact hok
  rw [if_neg (by simpa using hb)]
  by_cases hcalm : env.Calm
  · rw [hcalm]
    exact hok
  replace hno := hno hcalm
  replace hkill := hkill hcalm
  obtain ⟨k, hk, hw, h | h | h⟩ := playWrite_cases (ε := ε) p (env.answer w.calls (.write p)) b hb
    { w with calls := w.calls + 1 }
  · rw [h.1, hw, h.2, List.take_length]
    exact hok
  · rw [h.1, hw]
    exact hno k h.2
  · rw [h, hw]
    exact hkill k hk

end FileRules

/-! ### What a program returns

Often only the value of a program that ends well matters, wherever it runs. -/

/-- Whatever the program returns satisfies `P`. -/
def Yields (p : Prog π δ μ ε α) (P : α → Prop) : Prop :=
  ∀ env w, wp p env (fun e _ _ ↦ ∀ a, e = .ok a → P a) w

namespace Yields

variable {p : Prog π δ μ ε α} {P : α → Prop} {Q : β → Prop}

theorem any (p : Prog π δ μ ε α) : p.Yields fun _ ↦ True :=
  fun _ _ ↦ .of_forall fun _ _ _ _ _ ↦ trivial

theorem pure {a : α} (h : P a) : (pure a : Prog π δ μ ε α).Yields P := by
  rintro env w a' ha
  cases ha
  exact h

theorem fail (e : ε) : (fail e : Prog π δ μ ε α).Yields P := by
  rintro env w a ha
  cases ha

theorem die : (die : Prog π δ μ ε α).Yields P := by
  rintro env w a ha
  cases ha

/-- **Sequencing.** -/
theorem bind {f : α → Prog π δ μ ε β} (h : p.Yields P) (hf : ∀ a, P a → (f a).Yields Q) :
    (p >>= f).Yields Q := by
  refine fun env w ↦ wp_bind ((h env w).mono ?_)
  rintro (a | e | _) fs m ha
  · exact fun n ↦ hf a (ha a rfl) env ⟨fs, n, m⟩
  · intro b hb
    cases hb
  · intro b hb
    cases hb

/-- The first program does not matter. -/
theorem after {f : α → Prog π δ μ ε β} (hf : ∀ a, (f a).Yields Q) : (p >>= f).Yields Q :=
  (any p).bind fun a _ ↦ hf a

/-- A program on its own memory, from what is known about its runs from there. -/
theorem within {ν : Type} {m' : ν} {p : Prog π δ ν ε α} {P : Except ε α × ν → Prop}
    (h : ∀ env fs n, wp p env (fun e _ m ↦
      (∀ a, e = .ok a → P (.ok a, m)) ∧ ∀ x, e = .fail x → P (.error x, m)) ⟨fs, n, m'⟩) :
    (within m' p : Prog π δ μ ε _).Yields P := by
  refine fun env w ↦ wp_within.2 ((h env w.fs w.calls).mono ?_)
  rintro (a | e | _) fs m ⟨hok, hfail⟩
  · rintro r hr
    cases hr
    exact hok a rfl
  · rintro r hr
    cases hr
    exact hfail e rfl
  · rintro r hr
    cases hr

end Yields

/-- Whatever the program does, its memory satisfies `I` if it did before. -/
def Preserves (p : Prog π δ μ ε α) (I : μ → Prop) : Prop :=
  ∀ env w, I w.mem → wp p env (fun _ _ m ↦ I m) w

namespace Preserves

variable {p : Prog π δ μ ε α} {I : μ → Prop}

theorem pure (a : α) : (pure a : Prog π δ μ ε α).Preserves I := fun _ _ h ↦ h

theorem fail (e : ε) : (fail e : Prog π δ μ ε α).Preserves I := fun _ _ h ↦ h

theorem die : (die : Prog π δ μ ε α).Preserves I := fun _ _ h ↦ h

theorem get : (get : Prog π δ μ ε μ).Preserves I := fun _ _ h ↦ h

theorem files : (files : Prog π δ μ ε _).Preserves I := fun _ _ h ↦ h

theorem clock : (clock : Prog π δ μ ε ℕ).Preserves I := fun _ _ h ↦ h

theorem modify {f : μ → μ} (hf : ∀ m, I m → I (f m)) : (modify f : Prog π δ μ ε Unit).Preserves I :=
  fun _ w h ↦ hf w.mem h

theorem rethrow (r : Except ε α) : (rethrow r : Prog π δ μ ε α).Preserves I := by
  cases r with
  | ok a => exact pure a
  | error e => exact fail e

theorem ensure (b : Bool) (e : ε) : (ensure b e : Prog π δ μ ε Unit).Preserves I :=
  fun _ _ h ↦ wp_ensure (fun _ ↦ h) fun _ ↦ h

theorem alloc : (alloc : Prog π δ μ ε Bool).Preserves I :=
  fun _ _ h ↦ wp_alloc h fun _ ↦ h

theorem call (retry : Bool) (c : Call π δ) (eff : (π → Option File) → π → Option File) :
    (call retry c eff : Prog π δ μ ε Bool).Preserves I :=
  fun _ _ h ↦ wp_call h (fun _ ↦ h) (fun _ ↦ h) fun _ ↦ h

/-- **Sequencing.** -/
theorem bind {f : α → Prog π δ μ ε β} (h : p.Preserves I) (hf : ∀ a, (f a).Preserves I) :
    (p >>= f).Preserves I := by
  refine fun env w hw ↦ wp_bind ((h env w hw).mono ?_)
  rintro (a | e | _) fs m hm
  · exact fun n ↦ hf a env ⟨fs, n, m⟩ hm
  · exact hm
  · exact hm

/-- A step that is not made every time. -/
theorem first {b : Prop} [Decidable b] {q : Prog π δ μ ε β} (h : p.Preserves I) (hq : q.Preserves I) :
    (if b then p >>= fun _ ↦ q else q).Preserves I := by
  split
  · exact h.bind fun _ ↦ hq
  · exact hq

theorem attempt (h : p.Preserves I) : (attempt p).Preserves I := by
  refine fun env w hw ↦ wp_attempt.2 ((h env w hw).mono ?_)
  rintro (a | e | _) fs m hm <;> exact hm

/-- A program on its own memory leaves the one around it. -/
theorem within {ν : Type} (m' : ν) (p : Prog π δ ν ε α) :
    (within m' p : Prog π δ μ ε _).Preserves I := by
  refine fun env w hw ↦ wp_within.2 (.of_forall ?_)
  rintro (a | e | _) fs m <;> exact hw

end Preserves

/-- **A triple about the memory.** From a memory that satisfies `P`, the program ends with a value and a
memory that satisfy `Q`, or it ends in another way and its memory satisfies `E`. -/
def Triple (P : μ → Prop) (p : Prog π δ μ ε α) (Q : α → μ → Prop) (E : μ → Prop) : Prop :=
  ∀ env w, P w.mem → wp p env (fun e _ m ↦
    match e with
    | .ok a => Q a m
    | .fail _ => E m
    | .killed => E m) w

namespace Triple

variable {p : Prog π δ μ ε α} {P P' E E' : μ → Prop} {Q Q' : α → μ → Prop} {R : β → μ → Prop}

theorem mono (h : Triple P p Q E) (hP : ∀ m, P' m → P m) (hQ : ∀ a m, Q a m → Q' a m)
    (hE : ∀ m, E m → E' m) : Triple P' p Q' E' := by
  refine fun env w hw ↦ (h env w (hP _ hw)).mono ?_
  rintro (a | e | _) fs m hm
  · exact hQ a m hm
  · exact hE m hm
  · exact hE m hm

theorem any (p : Prog π δ μ ε α) : Triple P p (fun _ _ ↦ True) fun _ ↦ True := by
  refine fun env w _ ↦ .of_forall ?_
  rintro (a | e | _) fs m <;> exact trivial

theorem pure {a : α} (h : ∀ m, P m → Q a m) : Triple P (pure a : Prog π δ μ ε α) Q E :=
  fun _ w hw ↦ h w.mem hw

theorem fail {e : ε} (h : ∀ m, P m → E m) : Triple P (fail e : Prog π δ μ ε α) Q E :=
  fun _ w hw ↦ h w.mem hw

theorem die (h : ∀ m, P m → E m) : Triple P (die : Prog π δ μ ε α) Q E :=
  fun _ w hw ↦ h w.mem hw

theorem modify {f : μ → μ} {Q : Unit → μ → Prop} (h : ∀ m, P m → Q () (f m)) :
    Triple P (modify f : Prog π δ μ ε Unit) Q E :=
  fun _ w hw ↦ h w.mem hw

theorem rethrow {r : Except ε α} (hok : ∀ a, r = .ok a → ∀ m, P m → Q a m) (hE : ∀ m, P m → E m) :
    Triple P (rethrow r : Prog π δ μ ε α) Q E := by
  cases r with
  | ok a => exact pure (hok a rfl)
  | error e => exact fail hE

theorem ensure {b : Bool} {e : ε} {Q : Unit → μ → Prop} (hok : b = true → ∀ m, P m → Q () m)
    (hE : ∀ m, P m → E m) : Triple P (ensure b e : Prog π δ μ ε Unit) Q E :=
  fun _ w hw ↦ wp_ensure (fun hb ↦ hok hb w.mem hw) fun _ ↦ hE w.mem hw

/-- **Sequencing.** -/
theorem bind {f : α → Prog π δ μ ε β} (h : Triple P p Q E) (hf : ∀ a, Triple (Q a) (f a) R E) :
    Triple P (p >>= f) R E := by
  refine fun env w hw ↦ wp_bind ((h env w hw).mono ?_)
  rintro (a | e | _) fs m hm
  · exact fun n ↦ hf a env ⟨fs, n, m⟩ hm
  · exact hm
  · exact hm

theorem attempt (h : Triple P p Q E) : Triple P (attempt p)
    (fun r m ↦ match r with
      | .ok a => Q a m
      | .error _ => E m) E := by
  refine fun env w hw ↦ wp_attempt.2 ((h env w hw).mono ?_)
  rintro (a | e | _) fs m hm <;> exact hm

end Triple

/-- Every error of the program in `env` satisfies `P`. -/
def Errs (p : Prog π δ μ ε α) (env : Env π δ) (P : ε → Prop) : Prop :=
  ∀ w, wp p env (fun e _ _ ↦ ∀ x, e = .fail x → P x) w

namespace Errs

variable {p : Prog π δ μ ε α} {env : Env π δ} {P : ε → Prop}

/-- A program that returns no error. -/
theorem of_ne_fail (h : ∀ w x, (p env w).1 ≠ .fail x) : p.Errs env P :=
  fun w x hx ↦ absurd hx (h w x)

theorem pure (a : α) : (pure a : Prog π δ μ ε α).Errs env P := of_ne_fail nofun

theorem die : (die : Prog π δ μ ε α).Errs env P := of_ne_fail nofun

theorem get : (get : Prog π δ μ ε μ).Errs env P := of_ne_fail nofun

theorem files : (files : Prog π δ μ ε _).Errs env P := of_ne_fail nofun

theorem modify (f : μ → μ) : (modify f : Prog π δ μ ε Unit).Errs env P := of_ne_fail nofun

theorem alloc : (alloc : Prog π δ μ ε Bool).Errs env P := of_ne_fail nofun

theorem fail {e : ε} (h : P e) : (fail e : Prog π δ μ ε α).Errs env P := by
  rintro w x hx
  cases hx
  exact h

theorem ensure {b : Bool} {e : ε} (h : P e) : (ensure b e : Prog π δ μ ε Unit).Errs env P := by
  cases b with
  | true => exact pure ()
  | false => exact fail h

theorem rethrow {r : Except ε α} (h : ∀ e, r = .error e → P e) :
    (rethrow r : Prog π δ μ ε α).Errs env P := by
  cases r with
  | ok a => exact pure a
  | error e => exact fail (h e rfl)

theorem call (retry : Bool) (c : Call π δ) (eff : (π → Option File) → π → Option File) :
    (call retry c eff : Prog π δ μ ε Bool).Errs env P :=
  fun _ ↦ wp_call nofun (fun _ ↦ nofun) (fun _ ↦ nofun) fun _ ↦ nofun

theorem writeAll [DecidableEq π] (q : π) (b : Bytes) :
    (writeAll q b : Prog π δ μ ε Bool).Errs env P :=
  fun _ ↦ wp_writeAll nofun (fun _ _ _ ↦ nofun) fun _ _ _ ↦ nofun

/-- **Sequencing**, where what the first program returns matters for the second. -/
theorem bind_of {f : α → Prog π δ μ ε β} {R : α → Prop} (h : p.Errs env P)
    (hR : ∀ w, wp p env (fun e _ _ ↦ ∀ a, e = .ok a → R a) w)
    (hf : ∀ a, R a → (f a).Errs env P) : (p >>= f).Errs env P := by
  refine fun w ↦ wp_bind (((h w).and (hR w)).mono ?_)
  rintro (a | e | _) fs m ⟨he, ha⟩
  · exact fun n ↦ hf a (ha a rfl) ⟨fs, n, m⟩
  · rintro x hx
    cases hx
    exact he e rfl
  · exact nofun

/-- **Sequencing.** -/
theorem bind {f : α → Prog π δ μ ε β} (h : p.Errs env P) (hf : ∀ a, (f a).Errs env P) :
    (p >>= f).Errs env P :=
  h.bind_of (fun _ ↦ .of_forall fun _ _ _ _ _ ↦ trivial) fun a _ ↦ hf a

/-- A caught program returns no error. -/
theorem attempt (p : Prog π δ μ ε α) : (attempt p).Errs env P := by
  refine fun w ↦ wp_attempt.2 (.of_forall ?_)
  rintro (a | e | _) fs m <;> exact nofun

/-- Nor does one on its own memory. -/
theorem within {ν : Type} (m' : ν) (p : Prog π δ ν ε α) :
    (within m' p : Prog π δ μ ε _).Errs env P := by
  refine fun w ↦ wp_within.2 (.of_forall ?_)
  rintro (a | e | _) fs m <;> exact nofun

/-- The errors of a caught program are its own. -/
theorem wp_attempt (h : p.Errs env P) (w : World π μ) :
    wp (Prog.attempt p) env (fun e _ _ ↦ ∀ r, e = .ok r → ∀ x, r = .error x → P x) w := by
  refine Prog.wp_attempt.2 ((h w).mono ?_)
  rintro (a | e | _) fs m he r hr x hx
  · cases hr
    cases hx
  · cases hr
    cases hx
    exact he e rfl
  · cases hr

/-- So are those of a program on its own memory. -/
theorem wp_within {ν : Type} {m' : ν} {p : Prog π δ ν ε α} (h : p.Errs env P) (w : World π μ) :
    wp (Prog.within m' p) env (fun e _ _ ↦ ∀ r, e = .ok r → ∀ x, r.1 = .error x → P x) w := by
  refine Prog.wp_within.2 ((h ⟨w.fs, w.calls, m'⟩).mono ?_)
  rintro (a | e | _) fs m he r hr x hx
  · cases hr
    cases hx
  · cases hr
    cases hx
    exact he e rfl
  · cases hr

end Errs

/-! ### Programs that only compute

A program that uses its memory and allocates, but makes no other call, has one outcome in every calm
environment. `outcome` is that of the still one. -/

/-- In a calm environment the program leaves the files alone and ends as a function of its memory. -/
def Steady (p : Prog π δ μ ε α) : Prop :=
  ∃ r : μ → Exit ε α × μ, ∀ env : Env π δ, env.Calm → ∀ fs n m,
    ∃ n', p env ⟨fs, n, m⟩ = ((r m).1, ⟨fs, n', (r m).2⟩)

/-- How the program ends in the still environment, and its memory then. -/
def outcome (p : Prog π δ μ ε α) (m : μ) : Exit ε α × μ :=
  let r := p (Env.still π δ) ⟨fun _ ↦ none, 0, m⟩
  (r.1, r.2.mem)

namespace Steady

variable {p : Prog π δ μ ε α}

/-- **The outcome is that in the still environment.** -/
theorem wp_iff (h : Steady p) {env : Env π δ} (hcalm : env.Calm)
    {Q : Exit ε α → (π → Option File) → μ → Prop} {fs : π → Option File} {n : ℕ} {m : μ} :
    wp p env Q ⟨fs, n, m⟩ ↔ Q (outcome p m).1 fs (outcome p m).2 := by
  obtain ⟨r, hr⟩ := h
  obtain ⟨n', hrun⟩ := hr env hcalm fs n m
  obtain ⟨n₀, hstill⟩ := hr (Env.still π δ) (Env.calm_still π δ) (fun _ ↦ none) 0 m
  unfold wp outcome
  rw [hrun, hstill]

theorem pure (a : α) : Steady (pure a : Prog π δ μ ε α) :=
  ⟨fun m ↦ (.ok a, m), fun _ _ _ n _ ↦ ⟨n, rfl⟩⟩

theorem fail (e : ε) : Steady (fail e : Prog π δ μ ε α) :=
  ⟨fun m ↦ (.fail e, m), fun _ _ _ n _ ↦ ⟨n, rfl⟩⟩

theorem die : Steady (die : Prog π δ μ ε α) :=
  ⟨fun m ↦ (.killed, m), fun _ _ _ n _ ↦ ⟨n, rfl⟩⟩

theorem get : Steady (get : Prog π δ μ ε μ) :=
  ⟨fun m ↦ (.ok m, m), fun _ _ _ n _ ↦ ⟨n, rfl⟩⟩

theorem modify (f : μ → μ) : Steady (modify f : Prog π δ μ ε Unit) :=
  ⟨fun m ↦ (.ok (), f m), fun _ _ _ n _ ↦ ⟨n, rfl⟩⟩

theorem ensure (b : Bool) (e : ε) : Steady (ensure b e : Prog π δ μ ε Unit) := by
  cases b with
  | true => exact Steady.pure ()
  | false => exact Steady.fail e

theorem alloc : Steady (alloc : Prog π δ μ ε Bool) := by
  refine ⟨fun m ↦ (.ok true, m), fun env hcalm fs n m ↦ ⟨n + 1, ?_⟩⟩
  show (Exit.ok _, _) = _
  rw [hcalm]
  rfl

theorem bind {f : α → Prog π δ μ ε β} (hp : Steady p) (hf : ∀ a, Steady (f a)) : Steady (p >>= f) := by
  obtain ⟨r, hr⟩ := hp
  choose r' hr' using hf
  refine ⟨fun m ↦ match r m with
    | (.ok a, m') => r' a m'
    | (.fail e, m') => (.fail e, m')
    | (.killed, m') => (.killed, m'), fun env hcalm fs n m ↦ ?_⟩
  obtain ⟨n', hrun⟩ := hr env hcalm fs n m
  show ∃ n', Prog.bind p f env ⟨fs, n, m⟩ = _
  unfold Prog.bind
  rw [hrun]
  dsimp only
  rcases r m with ⟨a | e | _, m'⟩
  · exact hr' a env hcalm fs n' m'
  · exact ⟨n', rfl⟩
  · exact ⟨n', rfl⟩

theorem attempt (hp : Steady p) : Steady (attempt p) := by
  obtain ⟨r, hr⟩ := hp
  refine ⟨fun m ↦ match r m with
    | (.ok a, m') => (.ok (.ok a), m')
    | (.fail e, m') => (.ok (.error e), m')
    | (.killed, m') => (.killed, m'), fun env hcalm fs n m ↦ ?_⟩
  obtain ⟨n', hrun⟩ := hr env hcalm fs n m
  refine ⟨n', ?_⟩
  unfold Prog.attempt
  rw [hrun]
  dsimp only
  rcases r m with ⟨a | e | _, m'⟩ <;> rfl

end Steady

end Prog

/-! ### Directories

Programs that work in one directory can be run in any of several: a path is then a directory together
with a path in it. -/

section Inside

variable {ι π δ μ ε α : Type}

/-- The call, made in the directory `i`. -/
def Call.inside (i : ι) : Call π δ → Call (ι × π) (ι × δ)
  | .alloc => .alloc
  | .open p => .open (i, p)
  | .stat p => .stat (i, p)
  | .read p => .read (i, p)
  | .create p => .create (i, p)
  | .temp p => .temp (i, p)
  | .write p => .write (i, p)
  | .sync p => .sync (i, p)
  | .close p => .close (i, p)
  | .truncate p => .truncate (i, p)
  | .rename p => .rename (i, p)
  | .unlink p => .unlink (i, p)
  | .mkdir d => .mkdir (i, d)
  | .syncDir d => .syncDir (i, d)
  | .list d => .list (i, d)
  | .lock p => .lock (i, p)
  | .spawn => .spawn

/-- The environment as a program in the directory `i` meets it. -/
def Env.inside (env : Env (ι × π) (ι × δ)) (i : ι) : Env π δ where
  answer n c := env.answer n (c.inside i)
  clock := env.clock
  wall := env.wall

theorem Env.Calm.inside {env : Env (ι × π) (ι × δ)} (h : env.Calm) (i : ι) : (env.inside i).Calm :=
  fun n c ↦ h n (c.inside i)

/-- The files of the directory `i`. -/
def filesOf (i : ι) (fs : ι × π → Option File) : π → Option File := fun p ↦ fs (i, p)

variable [DecidableEq ι]

/-- The files with those of the directory `i` replaced. -/
def putFiles (i : ι) (fs' : π → Option File) (fs : ι × π → Option File) : ι × π → Option File :=
  fun q ↦ if q.1 = i then fs' q.2 else fs q

@[simp] theorem putFiles_self (i : ι) (fs' : π → Option File) (fs : ι × π → Option File) (p : π) :
    putFiles i fs' fs (i, p) = fs' p :=
  if_pos rfl

@[simp] theorem filesOf_putFiles_self (i : ι) (fs' : π → Option File) (fs : ι × π → Option File) :
    filesOf i (putFiles i fs' fs) = fs' := by
  funext p
  simp [filesOf, putFiles]

theorem filesOf_putFiles_of_ne {i j : ι} (h : j ≠ i) (fs' : π → Option File)
    (fs : ι × π → Option File) : filesOf j (putFiles i fs' fs) = filesOf j fs := by
  funext p
  simp [filesOf, putFiles, h]

@[simp] theorem putFiles_filesOf (i : ι) (fs : ι × π → Option File) :
    putFiles i (filesOf i fs) fs = fs := by
  funext q
  simp only [putFiles, filesOf]
  split
  next h => rw [← h]
  next => rfl

/-- Run `p` in the directory `i`. -/
def Prog.inside (i : ι) (p : Prog π δ μ ε α) : Prog (ι × π) (ι × δ) μ ε α :=
  fun env w ↦
    let r := p (env.inside i) ⟨filesOf i w.fs, w.calls, w.mem⟩
    (r.1, ⟨putFiles i r.2.fs w.fs, r.2.calls, r.2.mem⟩)

theorem Prog.wp_inside {i : ι} {p : Prog π δ μ ε α} {env : Env (ι × π) (ι × δ)}
    {w : World (ι × π) μ} {Q : Exit ε α → (ι × π → Option File) → μ → Prop} :
    Prog.wp (Prog.inside i p) env Q w ↔
      Prog.wp p (env.inside i) (fun e fs' m ↦ Q e (putFiles i fs' w.fs) m)
        ⟨filesOf i w.fs, w.calls, w.mem⟩ :=
  Iff.rfl

end Inside
