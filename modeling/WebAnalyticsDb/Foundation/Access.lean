import WebAnalyticsDb.Foundation.Program

/-!
# Reading memory that has an end

`slice` and `getLE` read a byte string by offset and give what is there when the string ends earlier. That is
convenient for a format, and it hides the question whether a decoder reads behind the end of what it was
given. The reads below are **undefined** there: `peek` and everything made from it answer `none`, and a
program that asks for such a byte is ended by it (`Prog.reading`).

A decoder is written with these reads in the order in which it makes them, and compared with a decoder that
reads by offset. Equality says both that no read was outside and what was read (`peekRange_eq`, `peekLE_eq`,
`peekZero_eq`); the converse of the first is `peekRange_eq_some`.
-/

namespace Bytes

/-- The byte at an address. -/
def peek (p : Bytes) (a : ℕ) : Option UInt8 := p[a]?

/-- The `n` bytes from an address on, one after the other. -/
def peekRange (p : Bytes) : ℕ → ℕ → Option Bytes
  | _, 0 => some []
  | a, n + 1 => do
    let b ← peek p a
    let rest ← peekRange p (a + 1) n
    some (b :: rest)

/-- The little-endian number of `w` bytes at an address. -/
def peekLE (w : ℕ) (p : Bytes) (a : ℕ) : Option ℕ := (peekRange p a w).map toNatLE

/-- Whether the `n` bytes from an address on are zero. The first that is not ends the search. -/
def peekZero (p : Bytes) : ℕ → ℕ → Option Bool
  | _, 0 => some true
  | a, n + 1 => do
    let b ← peek p a
    if b = 0 then peekZero p (a + 1) n else some false

/-- Checks that are made one after the other until one fails. What comes behind it is not read. -/
def checks : List (Option Bool) → Option Bool
  | [] => some true
  | c :: cs => do
    let b ← c
    if b then checks cs else some false

@[simp] theorem checks_nil : checks [] = some true := rfl

@[simp] theorem checks_cons (b : Bool) (cs : List (Option Bool)) :
    checks (some b :: cs) = if b then checks cs else some false := rfl

@[simp] theorem checks_singleton (b : Bool) : checks [some b] = some b := by
  cases b <;> rfl

/-- Two checks that are both defined. -/
theorem checks_some (b b' : Bool) (cs : List (Option Bool)) :
    checks (some b :: some b' :: cs) = checks (some (b && b') :: cs) := by
  cases b <;> rfl

variable {p : Bytes} {a n : ℕ}

theorem peek_eq (h : a < p.length) : peek p a = some (p.getD a 0) := by
  rw [peek, List.getD_eq_getElem?_getD, List.getElem?_eq_getElem h]
  rfl

/-- A window that is not empty starts with the byte at its address. -/
theorem slice_succ (h : a < p.length) (n : ℕ) :
    slice p a (n + 1) = p.getD a 0 :: slice p (a + 1) n := by
  unfold slice
  rw [List.drop_eq_getElem_cons h, List.take_succ_cons, List.getD_eq_getElem?_getD,
    List.getElem?_eq_getElem h]
  rfl

/-- **Reads inside the string.** -/
theorem peekRange_eq (h : a + n ≤ p.length) : peekRange p a n = some (slice p a n) := by
  induction n generalizing a with
  | zero => simp [peekRange, slice]
  | succ n ih =>
    rw [peekRange, peek_eq (by omega), ih (by omega), slice_succ (by omega)]
    rfl

theorem peekLE_eq {w : ℕ} (h : a + w ≤ p.length) : peekLE w p a = some (getLE w p a) := by
  rw [peekLE, peekRange_eq h]
  rfl

theorem peekZero_eq (h : a + n ≤ p.length) : peekZero p a n = some (isZero (slice p a n)) := by
  induction n generalizing a with
  | zero => simp [peekZero, slice, isZero]
  | succ n ih =>
    rw [peekZero, peek_eq (by omega), slice_succ (by omega), ih (by omega)]
    generalize p.getD a 0 = b
    by_cases hb : b = 0
    · simp [isZero, hb]
    · simp [isZero, hb]

/-- A number in a window. -/
theorem getLE_slice {w off : ℕ} (h : off + w ≤ n) : getLE w (slice p a n) off = getLE w p (a + off) := by
  rw [getLE, slice_slice h, getLE]

/-- The rest of a window. -/
theorem drop_slice (p : Bytes) (a n k : ℕ) : (slice p a n).drop k = slice p (a + k) (n - k) := by
  unfold slice
  rw [List.drop_take, List.drop_drop]

end Bytes

namespace Prog

variable {π δ μ ε α β : Type}

/-- Continue with what was read; a read outside of the memory ends the process. -/
def reading : Option α → Prog π δ μ ε α
  | some a => pure a
  | none => die

/-! ### Programs that are equal -/

@[simp] theorem reading_some (a : α) : (reading (some a) : Prog π δ μ ε α) = pure a := rfl

@[simp] theorem ensure_true (e : ε) : (ensure true e : Prog π δ μ ε Unit) = pure () := rfl

@[simp] theorem ensure_false (e : ε) : (ensure false e : Prog π δ μ ε Unit) = fail e := rfl

@[simp] theorem fail_bind (e : ε) (f : α → Prog π δ μ ε β) : (fail e >>= f) = fail e := rfl

@[simp] theorem map_fail (f : α → β) (e : ε) : f <$> (fail e : Prog π δ μ ε α) = fail e := rfl

/-- What a program returns can be changed before or after its error is caught. -/
theorem attempt_map (f : α → β) (p : Prog π δ μ ε α) : (f <$> p).attempt = Except.map f <$> p.attempt := by
  funext env w
  show attempt (Prog.bind p fun a ↦ Prog.pure (f a)) env w =
    Prog.bind (attempt p) (fun r ↦ Prog.pure (r.map f)) env w
  unfold Prog.bind attempt
  dsimp only
  rcases p env w with ⟨_ | _ | _, w'⟩ <;> rfl

variable {p : Prog π δ μ ε α} {P : α → Prop}

theorem Yields.ensure (b : Bool) (e : ε) : (ensure b e : Prog π δ μ ε Unit).Yields fun _ ↦ b = true :=
  fun _ _ ↦ wp_ensure (fun hb _ _ ↦ hb) fun _ _ h ↦ by cases h

theorem Yields.attempt (h : p.Yields P) : p.attempt.Yields fun r ↦ ∀ a, r = .ok a → P a := by
  intro env w
  refine wp_attempt.2 ((h env w).mono ?_)
  rintro (a | e | _) fs' m' hpost r hr
  · cases hr
    rintro _ ⟨⟩
    exact hpost a rfl
  · cases hr
    exact nofun
  · cases hr

/-- Two continuations that agree on what a program returns. -/
theorem Yields.bind_congr {f g : α → Prog π δ μ ε β} (h : p.Yields P) (hfg : ∀ a, P a → f a = g a) :
    p >>= f = p >>= g := by
  funext env w
  have hpost := h env w
  unfold wp at hpost
  show Prog.bind p f env w = Prog.bind p g env w
  unfold Prog.bind
  generalize p env w = r at hpost ⊢
  rcases r with ⟨a | _ | _, w'⟩
  · exact congrFun (congrFun (hfg a (hpost a rfl)) env) w'
  · rfl
  · rfl

end Prog
