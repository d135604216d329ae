import Mathlib.Data.List.Basic
import WebAnalyticsDb.Core.RowAccess

/-!
# UTF-8

`wadb_utf8` decides by lead bytes, minimum code points and ranges whether a text is well formed. Here it is
compared with the encoding itself: `Char` is the type of Unicode scalar values, `String.utf8EncodeChar` writes
one of them as RFC 3629 prescribes, and a text is well formed if it is a concatenation of such encodings.

One round of the loop reads one sequence (`utf8Head`). **It succeeds exactly on encodings**
(`utf8Head_encode`, `exists_char_of_utf8Head`), and everything else follows by induction on the number of
rounds. The reads are those of `utf8At`, which is undefined as soon as one of them is behind the text.
-/

namespace WebAnalyticsDb

open Bytes List
open Option (bind_eq_bind bind_some)

/-- The RFC 3629 encoding of a sequence of Unicode scalar values. -/
def encodeText (cs : List Char) : Bytes := cs.flatMap String.utf8EncodeChar

/-- One round of the loop of `wadb_utf8`: the code point of the first sequence, and what is behind it. -/
def utf8Head : Bytes → Option (ℕ × Bytes)
  | [] => none
  | c :: p =>
    if c < 0x80 then some (c.toNat, p)
    else do
      let (more, least, cp) ← utf8Lead c.toNat
      let (cp, p) ← utf8Continue more cp p
      if cp < least ∨ cp > 0x10ffff ∨ (0xd800 ≤ cp ∧ cp ≤ 0xdfff) then none else some (cp, p)

/-! ### Continuation bytes -/

section Continuation

variable {c : UInt8} {p q : Bytes} {cp cp' more : ℕ}

/-- A continuation byte. -/
def Continues (c : UInt8) : Prop := 0x80 ≤ c.toNat ∧ c.toNat < 0xc0

/-- The code point with the bits of one more continuation byte. -/
def shiftIn (cp : ℕ) (c : UInt8) : ℕ := cp * 64 + (c.toNat - 0x80)

theorem and_c0_eq_iff (c : UInt8) : c.toNat &&& 0xc0 = 0x80 ↔ Continues c := by
  have hall : ∀ n < 256, n &&& 0xc0 = 0x80 ↔ 0x80 ≤ n ∧ n < 0xc0 := by decide +kernel
  exact hall c.toNat c.toNat_lt

theorem or_and_3f_eq (h : Continues c) (cp : ℕ) : (cp <<< 6) ||| (c.toNat &&& 0x3f) = shiftIn cp c := by
  obtain ⟨hlo, hhi⟩ := h
  have hbits : c.toNat &&& 0x3f = c.toNat - 0x80 := by
    rw [show (0x3f : ℕ) = 2 ^ 6 - 1 by rfl, Nat.and_two_pow_sub_one_eq_mod]
    omega
  rw [hbits, ← Nat.shiftLeft_add_eq_or_of_lt (by omega), Nat.shiftLeft_eq]
  rfl

/-- **The continuation** of a sequence is the bytes that follow, each of them a continuation byte. -/
theorem utf8Continue_eq_some_iff : utf8Continue more cp p = some (cp', q) ↔
    ∃ cs, cs.length = more ∧ (∀ c ∈ cs, Continues c) ∧ p = cs ++ q ∧ cp' = cs.foldl shiftIn cp := by
  induction more generalizing cp p with
  | zero =>
    rw [utf8Continue, Option.some.injEq, Prod.mk.injEq]
    constructor
    · rintro ⟨rfl, rfl⟩
      exact ⟨[], rfl, by simp, rfl, rfl⟩
    · rintro ⟨cs, hlen, -, rfl, rfl⟩
      obtain rfl := eq_nil_of_length_eq_zero hlen
      exact ⟨rfl, rfl⟩
  | succ more ih =>
    cases p with
    | nil =>
      refine ⟨fun h ↦ (by cases h), ?_⟩
      rintro ⟨cs, hlen, -, happ, -⟩
      have hnil := (append_eq_nil_iff.1 happ.symm).1
      rw [hnil] at hlen
      cases hlen
    | cons c p =>
      rw [utf8Continue]
      by_cases hc : Continues c
      · rw [if_neg (not_not.2 ((and_c0_eq_iff c).2 hc)), or_and_3f_eq hc, ih]
        constructor
        · rintro ⟨cs, hlen, hcs, rfl, rfl⟩
          exact ⟨c :: cs, by rw [length_cons, hlen], forall_mem_cons.2 ⟨hc, hcs⟩, rfl,
            (foldl_cons ..).symm⟩
        · rintro ⟨cs, hlen, hcs, happ, rfl⟩
          obtain ⟨d, cs, rfl⟩ := exists_cons_of_length_eq_add_one hlen
          obtain ⟨rfl, rfl⟩ := cons_eq_cons.1 happ
          exact ⟨cs, Nat.succ.inj hlen, fun x hx ↦ hcs x (mem_cons_of_mem c hx), rfl,
            foldl_cons ..⟩
      · rw [if_pos fun h ↦ hc ((and_c0_eq_iff c).1 h)]
        refine ⟨fun h ↦ (by cases h), ?_⟩
        rintro ⟨cs, hlen, hcs, happ, -⟩
        obtain ⟨d, cs, rfl⟩ := exists_cons_of_length_eq_add_one hlen
        obtain ⟨rfl, -⟩ := cons_eq_cons.1 happ
        exact absurd (hcs c (mem_cons_self ..)) hc

end Continuation

/-! ### One sequence -/

section Head

variable {p q : Bytes} {cp : ℕ}

/-- **The lead byte** by its range. -/
theorem utf8Lead_eq_some_iff {n more least cp : ℕ} : utf8Lead n = some (more, least, cp) ↔
    (0xc2 ≤ n ∧ n ≤ 0xdf) ∧ more = 1 ∧ least = 0x80 ∧ cp = n - 0xc0 ∨
    (0xe0 ≤ n ∧ n ≤ 0xef) ∧ more = 2 ∧ least = 0x800 ∧ cp = n - 0xe0 ∨
    (0xf0 ≤ n ∧ n ≤ 0xf4) ∧ more = 3 ∧ least = 0x10000 ∧ cp = n - 0xf0 := by
  have hmod (k : ℕ) : n &&& (2 ^ k - 1) = n % 2 ^ k := Nat.and_two_pow_sub_one_eq_mod n k
  have h₅ := hmod 5
  have h₄ := hmod 4
  have h₃ := hmod 3
  norm_num only at h₅ h₄ h₃
  unfold utf8Lead
  rw [h₅, h₄, h₃]
  split
  · rw [Option.some.injEq, Prod.mk.injEq, Prod.mk.injEq]
    omega
  · split
    · rw [Option.some.injEq, Prod.mk.injEq, Prod.mk.injEq]
      omega
    · split
      · rw [Option.some.injEq, Prod.mk.injEq, Prod.mk.injEq]
        omega
      · refine ⟨nofun, ?_⟩
        omega

/-- A lead byte with its continuation, if the code point is a scalar value in its shortest form. -/
theorem utf8Head_of_lead {c : UInt8} {cs : Bytes} {least cp v : ℕ}
    (hlead : utf8Lead c.toNat = some (cs.length, least, cp)) (hcs : ∀ d ∈ cs, Continues d)
    (hv : v = cs.foldl shiftIn cp) (hleast : least ≤ v) (hvalid : v.isValidChar) :
    utf8Head (c :: (cs ++ q)) = some (v, q) := by
  have hc : ¬ c < 0x80 := by
    have hrange := utf8Lead_eq_some_iff.1 hlead
    show ¬ c.toNat < 128
    omega
  have hcont : utf8Continue cs.length cp (cs ++ q) = some (v, q) :=
    utf8Continue_eq_some_iff.2 ⟨cs, rfl, hcs, rfl, hv⟩
  rw [utf8Head, if_neg hc, hlead, bind_eq_bind, bind_some]
  dsimp only
  rw [hcont, bind_eq_bind, bind_some, if_neg]
  unfold Nat.isValidChar at hvalid
  omega

/-- **The table of RFC 3629**: the bytes of a code point, as numbers. -/
def codeUnits (v : ℕ) : List ℕ :=
  if v ≤ 0x7f then [v]
  else if v ≤ 0x7ff then [0xc0 + v / 64, 0x80 + v % 64]
  else if v ≤ 0xffff then [0xe0 + v / 4096, 0x80 + v / 64 % 64, 0x80 + v % 64]
  else [0xf0 + v / 262144, 0x80 + v / 4096 % 64, 0x80 + v / 64 % 64, 0x80 + v % 64]

theorem map_toNat_utf8EncodeChar (c : Char) :
    (String.utf8EncodeChar c).map UInt8.toNat = codeUnits c.toNat := by
  have hvalid : c.val.toNat < 0xd800 ∨ 0xdfff < c.val.toNat ∧ c.val.toNat < 0x110000 := c.valid
  rw [show c.toNat = c.val.toNat from rfl]
  unfold String.utf8EncodeChar codeUnits
  dsimp only
  generalize c.val.toNat = v at hvalid
  split
  · simp only [map_cons, map_nil, UInt8.toNat_ofNat', List.cons.injEq, and_true]
    omega
  · split
    · simp only [map_cons, map_nil, UInt8.toNat_ofNat', List.cons.injEq, and_true]
      omega
    · split
      · simp only [map_cons, map_nil, UInt8.toNat_ofNat', List.cons.injEq, and_true]
        omega
      · simp only [map_cons, map_nil, UInt8.toNat_ofNat', List.cons.injEq, and_true]
        omega

/-- What one round has read is in the table. -/
theorem codeUnits_of_utf8Head {v : ℕ} (h : utf8Head p = some (v, q)) :
    v.isValidChar ∧ ∃ l : Bytes, l.map UInt8.toNat = codeUnits v ∧ p = l ++ q := by
  unfold Nat.isValidChar codeUnits
  cases p with
  | nil => cases h
  | cons c p =>
    rw [utf8Head] at h
    split at h
    next hc =>
      have hlt : c.toNat < 128 := hc
      rw [Option.some.injEq, Prod.mk.injEq] at h
      obtain ⟨rfl, rfl⟩ := h
      refine ⟨by omega, [c], ?_, rfl⟩
      rw [if_pos (by omega)]
      rfl
    next hc =>
      simp only [bind_eq_bind, Option.bind_eq_some_iff] at h
      obtain ⟨⟨more, least, cp⟩, hlead, ⟨v', q'⟩, hcont, h⟩ := h
      obtain ⟨cs, hlen, hcs, rfl, hv⟩ := utf8Continue_eq_some_iff.1 hcont
      dsimp only at h
      split at h
      · cases h
      next hok =>
        rw [Option.some.injEq, Prod.mk.injEq] at h
        obtain ⟨rfl, rfl⟩ := h
        rcases utf8Lead_eq_some_iff.1 hlead with ⟨hc, hmore, hleast, hcp⟩ | ⟨hc, hmore, hleast, hcp⟩ |
          ⟨hc, hmore, hleast, hcp⟩ <;> rw [hmore] at hlen
        · obtain ⟨d, rfl⟩ := length_eq_one_iff.1 hlen
          simp only [forall_mem_cons, Continues] at hcs
          simp only [foldl_cons, foldl_nil] at hv
          unfold shiftIn at hv
          refine ⟨by omega, [c, d], ?_, rfl⟩
          rw [if_neg (by omega), if_pos (by omega)]
          simp only [map_cons, map_nil, List.cons.injEq, and_true]
          omega
        · obtain ⟨d, e, rfl⟩ := length_eq_two.1 hlen
          simp only [forall_mem_cons, Continues] at hcs
          simp only [foldl_cons, foldl_nil] at hv
          unfold shiftIn at hv
          refine ⟨by omega, [c, d, e], ?_, rfl⟩
          rw [if_neg (by omega), if_neg (by omega), if_pos (by omega)]
          simp only [map_cons, map_nil, List.cons.injEq, and_true]
          omega
        · obtain ⟨d, e, f, rfl⟩ := length_eq_three.1 hlen
          simp only [forall_mem_cons, Continues] at hcs
          simp only [foldl_cons, foldl_nil] at hv
          unfold shiftIn at hv
          refine ⟨by omega, [c, d, e, f], ?_, rfl⟩
          rw [if_neg (by omega), if_neg (by omega), if_neg (by omega)]
          simp only [map_cons, map_nil, List.cons.injEq, and_true]
          omega

/-- What is in the table is read in one round. -/
theorem utf8Head_of_codeUnits {v : ℕ} {l : Bytes} (hvalid : v.isValidChar)
    (hl : l.map UInt8.toNat = codeUnits v) : utf8Head (l ++ q) = some (v, q) := by
  have hrange := hvalid
  unfold Nat.isValidChar at hrange
  unfold codeUnits at hl
  split at hl
  next hv =>
    obtain ⟨c, rest, rfl, hc, hnil⟩ := map_eq_cons_iff.1 hl
    obtain rfl := map_eq_nil_iff.1 hnil
    have hlt : c < 0x80 := show c.toNat < 128 by omega
    rw [singleton_append, utf8Head, if_pos hlt, hc]
  next hv =>
    split at hl
    next hv' =>
      obtain ⟨c, rest, rfl, hc, hl⟩ := map_eq_cons_iff.1 hl
      obtain ⟨d, rest, rfl, hd, hnil⟩ := map_eq_cons_iff.1 hl
      obtain rfl := map_eq_nil_iff.1 hnil
      refine @utf8Head_of_lead q c [d] 0x80 (v / 64) v ?_ ?_ ?_ (by omega) hvalid
      · exact utf8Lead_eq_some_iff.2 (.inl ⟨by omega, rfl, rfl, by omega⟩)
      · exact forall_mem_singleton.2 ⟨by omega, by omega⟩
      · simp only [foldl_cons, foldl_nil]
        unfold shiftIn
        omega
    next hv' =>
      split at hl
      next hv'' =>
        obtain ⟨c, rest, rfl, hc, hl⟩ := map_eq_cons_iff.1 hl
        obtain ⟨d, rest, rfl, hd, hl⟩ := map_eq_cons_iff.1 hl
        obtain ⟨e, rest, rfl, he, hnil⟩ := map_eq_cons_iff.1 hl
        obtain rfl := map_eq_nil_iff.1 hnil
        refine @utf8Head_of_lead q c [d, e] 0x800 (v / 4096) v ?_ ?_ ?_ (by omega) hvalid
        · exact utf8Lead_eq_some_iff.2 (.inr (.inl ⟨by omega, rfl, rfl, by omega⟩))
        · exact forall_mem_cons.2 ⟨⟨by omega, by omega⟩,
            forall_mem_singleton.2 ⟨by omega, by omega⟩⟩
        · simp only [foldl_cons, foldl_nil]
          unfold shiftIn
          omega
      next hv'' =>
        obtain ⟨c, rest, rfl, hc, hl⟩ := map_eq_cons_iff.1 hl
        obtain ⟨d, rest, rfl, hd, hl⟩ := map_eq_cons_iff.1 hl
        obtain ⟨e, rest, rfl, he, hl⟩ := map_eq_cons_iff.1 hl
        obtain ⟨f, rest, rfl, hf, hnil⟩ := map_eq_cons_iff.1 hl
        obtain rfl := map_eq_nil_iff.1 hnil
        refine @utf8Head_of_lead q c [d, e, f] 0x10000 (v / 262144) v ?_ ?_ ?_ (by omega) hvalid
        · exact utf8Lead_eq_some_iff.2 (.inr (.inr ⟨by omega, rfl, rfl, by omega⟩))
        · exact forall_mem_cons.2 ⟨⟨by omega, by omega⟩, forall_mem_cons.2
            ⟨⟨by omega, by omega⟩, forall_mem_singleton.2 ⟨by omega, by omega⟩⟩⟩
        · simp only [foldl_cons, foldl_nil]
          unfold shiftIn
          omega

/-- An encoded scalar value is read in one round. -/
theorem utf8Head_encode (c : Char) (q : Bytes) :
    utf8Head (String.utf8EncodeChar c ++ q) = some (c.toNat, q) :=
  utf8Head_of_codeUnits c.valid (map_toNat_utf8EncodeChar c)

/-- **What one round reads is the encoding of a scalar value.** -/
theorem exists_char_of_utf8Head {v : ℕ} (h : utf8Head p = some (v, q)) :
    ∃ c : Char, p = String.utf8EncodeChar c ++ q := by
  obtain ⟨hvalid, l, hl, rfl⟩ := codeUnits_of_utf8Head h
  refine ⟨Char.ofNatAux v hvalid, congrArg (· ++ q) ?_⟩
  have hmap := map_toNat_utf8EncodeChar (Char.ofNatAux v hvalid)
  exact map_injective_iff.2 (fun _ _ ↦ UInt8.toNat_inj.1) (hl.trans hmap.symm)

end Head

/-! ### The loop -/

theorem encodeText_cons (c : Char) (cs : List Char) :
    encodeText (c :: cs) = String.utf8EncodeChar c ++ encodeText cs := flatMap_cons

theorem encodeText_append (cs ds : List Char) :
    encodeText (cs ++ ds) = encodeText cs ++ encodeText ds := flatMap_append

theorem utf8Loop_succ (fuel : ℕ) (c : UInt8) (p : Bytes) :
    utf8Loop (fuel + 1) (c :: p) = (utf8Head (c :: p)).elim false fun x ↦ utf8Loop fuel x.2 := by
  rw [utf8Loop, utf8Head]
  split
  · rfl
  · rcases utf8Lead c.toNat with _ | ⟨more, least, cp⟩
    · rfl
    · rw [bind_eq_bind, bind_some]
      dsimp only
      rcases utf8Continue more cp p with _ | ⟨cp', q⟩
      · rfl
      · rw [bind_eq_bind, bind_some]
        dsimp only
        split <;> rfl

/-- **The loop accepts exactly the encoded texts**, by induction on the rounds. -/
theorem utf8Loop_eq_true_iff {fuel : ℕ} {p : Bytes} (h : p.length ≤ fuel) :
    utf8Loop fuel p = true ↔ ∃ cs, p = encodeText cs := by
  induction fuel generalizing p with
  | zero =>
    obtain rfl := eq_nil_of_length_eq_zero (Nat.le_zero.1 h)
    exact ⟨fun _ ↦ ⟨[], rfl⟩, fun _ ↦ rfl⟩
  | succ fuel ih =>
    cases p with
    | nil => exact ⟨fun _ ↦ ⟨[], rfl⟩, fun _ ↦ rfl⟩
    | cons b p =>
      rw [utf8Loop_succ]
      have hshort {c : Char} {q : Bytes} (heq : b :: p = String.utf8EncodeChar c ++ q) :
          q.length ≤ fuel := by
        -- a round reads at least one byte, since it reads nothing from the empty text
        have hne : String.utf8EncodeChar c ≠ [] := by
          intro hnil
          have hhead := utf8Head_encode c []
          rw [hnil] at hhead
          cases hhead
        have hlen := congrArg List.length heq
        have hpos := length_pos_iff.2 hne
        rw [length_append] at hlen
        omega
      constructor
      · intro hrest
        cases hhead : utf8Head (b :: p) with
        | none =>
          rw [hhead] at hrest
          cases hrest
        | some x =>
          obtain ⟨c, hc⟩ := exists_char_of_utf8Head hhead
          rw [hhead, Option.elim_some, ih (hshort hc)] at hrest
          obtain ⟨cs, hcs⟩ := hrest
          exact ⟨c :: cs, by rw [encodeText_cons, ← hcs, ← hc]⟩
      · rintro ⟨_ | ⟨c, cs⟩, hcs⟩
        · cases hcs
        · rw [encodeText_cons] at hcs
          rw [hcs, utf8Head_encode, Option.elim_some]
          exact (ih (hshort hcs)).2 ⟨cs, rfl⟩

/-- **`wadb_utf8` is exact.** It accepts the concatenations of RFC 3629 encodings of Unicode scalar values
and nothing else, its reads stay inside a memory that ends with the text, and it accepts the concatenation
of accepted texts. -/
theorem utf8_exact (p : Bytes) :
    (utf8 p = true ↔ ∃ cs : List Char, p = encodeText cs) ∧
      (∀ before : Bytes, p.length < 2 ^ 64 →
        utf8At (before ++ p) before.length p.length = some (utf8 p)) ∧
      ∀ q, utf8 p = true → utf8 q = true → utf8 (p ++ q) = true := by
  have haccepts (p : Bytes) : utf8 p = true ↔ ∃ cs, p = encodeText cs := utf8Loop_eq_true_iff le_rfl
  refine ⟨haccepts p, fun before hlen ↦ ?_, fun q hp hq ↦ ?_⟩
  · have hslice : slice (before ++ p) before.length p.length = p := by
      simp [slice]
    rw [utf8At_eq hlen (by rw [List.length_append]), hslice]
  · obtain ⟨cs, rfl⟩ := (haccepts p).1 hp
    obtain ⟨ds, rfl⟩ := (haccepts q).1 hq
    exact (haccepts _).2 ⟨cs ++ ds, (encodeText_append cs ds).symm⟩

/-- The euro sign behind a letter; the same bytes in a longer form are refused. -/
theorem utf8_exact_euro : utf8At [0, 65, 0xe2, 0x82, 0xac] 1 4 = some true ∧
    (∃ cs, [65, 0xe2, 0x82, 0xac] = encodeText cs) ∧ utf8 [0xf0, 0x82, 0x82, 0xac] = false := by
  have haccepted : utf8 [65, 0xe2, 0x82, 0xac] = true := by decide
  obtain ⟨hexact, hreads, -⟩ := utf8_exact [65, 0xe2, 0x82, 0xac]
  exact ⟨(hreads [0] (by decide)).trans (congrArg some haccepted), hexact.1 haccepted, by decide⟩

end WebAnalyticsDb
