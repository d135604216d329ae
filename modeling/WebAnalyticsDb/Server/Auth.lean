import Mathlib.Data.List.Nodup
import Mathlib.Data.Nat.Bitwise
import WebAnalyticsDb.Core.Basic
import WebAnalyticsDb.Foundation.Bytes
import WebAnalyticsDb.Foundation.Machine

/-!
# Sessions

`server/auth.c`: a login exchanges the token for a session and its CSRF text, a check looks the session up,
a logout removes it. There are 32 slots, and a login takes the one that expires first.

* **Secrets are texts or missing.** A secret that a client sends is a C string or a null pointer, so it
  is an optional text; a text never has a zero byte. An empty slot holds the empty text, which is never
  equal to anything because it has the wrong length.
* **The history is part of the state.** A `Grant` is a session that was issued, with the time and with
  what has happened to it since. The slots are shown to hold exactly the grants that are still open.
* **Expiry is computed in 64 bits.** A login in the last twelve hours of the 64-bit clock would get an
  expiry that has wrapped; the results are about runs without such a login.
-/

namespace WebAnalyticsDb

open List

/-! ### Secrets -/

/-- The digits of `wadb_random_hex`. -/
def hexDigits : Bytes := "0123456789abcdef".toList.map fun ch ↦ ch.toNat.toUInt8

/-- The text of random bytes. -/
def randomHex (bytes : Bytes) : Bytes :=
  bytes.flatMap fun b ↦ [hexDigits.getD (b.toNat >>> 4) 0, hexDigits.getD (b.toNat &&& 15) 0]

/-- Random bytes for one secret. -/
abbrev Entropy : Type := { bytes : Bytes // bytes.length = 32 }

/-- `secret_equal`. -/
def secretEqual : Option Bytes → Option Bytes → Bool
  | some a, some b =>
    a.length = 64 && b.length = 64 &&
      (a.zip b).foldl (fun difference p ↦ difference ||| (p.1.toNat ^^^ p.2.toNat)) 0 = 0
  | _, _ => false

/-- The differences are collected in one number, which stays zero as long as there are none. -/
theorem foldl_difference_eq_zero {a b : Bytes} (h : a.length = b.length) (d : ℕ) :
    (a.zip b).foldl (fun difference p ↦ difference ||| (p.1.toNat ^^^ p.2.toNat)) d = 0 ↔
      d = 0 ∧ a = b := by
  induction a generalizing b d with
  | nil =>
    obtain rfl := length_eq_zero_iff.1 h.symm
    simp
  | cons x a ih =>
    cases b with
    | nil => simp at h
    | cons y b =>
      rw [zip_cons_cons, foldl_cons, ih (by simpa using h), Nat.or_eq_zero_iff,
        Nat.xor_eq_zero_iff, UInt8.toNat_inj, List.cons.injEq, and_assoc]

/-- **Secrets are equal** when both are there, of the right length and the same. -/
theorem secretEqual_iff {a : Bytes} {b : Option Bytes} :
    secretEqual (some a) b = true ↔ b = some a ∧ a.length = 64 := by
  cases b with
  | none => simp [secretEqual]
  | some b =>
    simp only [secretEqual, Bool.and_eq_true, decide_eq_true_eq, Option.some.injEq]
    constructor
    · rintro ⟨⟨ha, hb⟩, hd⟩
      exact ⟨((foldl_difference_eq_zero (ha.trans hb.symm) 0).1 hd).2.symm, ha⟩
    · rintro ⟨rfl, hlen⟩
      exact ⟨⟨hlen, hlen⟩, (foldl_difference_eq_zero rfl 0).2 ⟨rfl, rfl⟩⟩

theorem length_randomHex (e : Entropy) : (randomHex e.1).length = 64 := by
  have hlen : ∀ bytes : Bytes, (randomHex bytes).length = bytes.length * 2 := by
    intro bytes
    simp [randomHex, length_flatMap]
  rw [hlen, e.2]

/-! ### The slots -/

/-- `WADB_SESSION_LIMIT`. -/
abbrev sessionLimit : ℕ := 32

/-- Twelve hours. -/
def sessionNs : ℕ := 43200000000000

/-- `wadb_credentials`. -/
structure Credentials where
  session : Bytes
  csrf : Bytes
  expiresNs : ℕ
deriving DecidableEq, Repr

/-- An empty slot. -/
def Credentials.zero : Credentials := ⟨[], [], 0⟩

/-- `wadb_auth`. -/
structure Auth where
  token : Bytes
  sessions : Fin sessionLimit → Credentials
  loginWindow : ℕ
  loginAttempts : ℕ

namespace Auth

/-- The state that `wadb_auth_open` makes for a token. -/
def opened (token : Bytes) : Auth := ⟨token, fun _ ↦ .zero, 0, 0⟩

/-- The start of `wadb_auth_login`: the attempt is counted, in a window of one second. -/
def countLogin (a : Auth) (now : ℕ) : Auth :=
  let a := if 1000000000 ≤ u64Sub now a.loginWindow then
    { a with loginWindow := now, loginAttempts := 0 } else a
  { a with loginAttempts := (a.loginAttempts + 1) % 2 ^ 32 }

/-- The slot that a login takes: the first of those that expire first. -/
def slot (a : Auth) : Fin sessionLimit :=
  (List.finRange sessionLimit).tail.foldl
    (fun slot i ↦ if (a.sessions i).expiresNs < (a.sessions slot).expiresNs then i else slot) 0

/-- `wadb_auth_login` at the time `now`; the last two arguments are what `wadb_random_hex` reads, if it
can. -/
def login (a : Auth) (now : ℕ) (token : Option Bytes) (length : ℕ) (session csrf : Option Entropy) :
    Except Error Credentials × Auth :=
  let a := a.countLogin now
  if 10 < a.loginAttempts then
    (.error ⟨.backpressure, "login rate limit; retry in one second"⟩, a)
  else if token.isNone || length ≠ 64 || !secretEqual (some a.token) token then
    (.error ⟨.invalid, "invalid admin token"⟩, a)
  else
    match session, csrf with
    | some session, some csrf =>
      let c : Credentials := ⟨randomHex session.1, randomHex csrf.1, u64 (now + sessionNs)⟩
      (.ok c, { a with sessions := Function.update a.sessions a.slot c })
    | _, _ => (.error ⟨.io, "generate session secret"⟩, a)

/-- `wadb_auth_session`: the credentials of the slot that answers. -/
def session (a : Auth) (now : ℕ) (session csrf : Option Bytes) (mutation : Bool) :
    Option Credentials :=
  ((List.finRange sessionLimit).map a.sessions).find? fun c ↦
    now < c.expiresNs && secretEqual (some c.session) session &&
      (!mutation || secretEqual (some c.csrf) csrf)

/-- `wadb_auth_logout`. -/
def logout (a : Auth) (session : Option Bytes) : Auth :=
  { a with sessions := fun i ↦
      if secretEqual (some (a.sessions i).session) session then .zero else a.sessions i }

@[simp] theorem sessions_countLogin (a : Auth) (now : ℕ) : (a.countLogin now).sessions = a.sessions := by
  unfold countLogin
  dsimp only
  split <;> rfl

@[simp] theorem slot_countLogin (a : Auth) (now : ℕ) : (a.countLogin now).slot = a.slot := by
  simp [slot]

/-- **The slot that a login takes expires first.** -/
theorem slot_le (a : Auth) (i : Fin sessionLimit) :
    (a.sessions a.slot).expiresNs ≤ (a.sessions i).expiresNs := by
  have hfold : ∀ (l : List (Fin sessionLimit)) (j : Fin sessionLimit) (k : Fin sessionLimit),
      k ∈ j :: l → (a.sessions (l.foldl (fun slot i ↦
        if (a.sessions i).expiresNs < (a.sessions slot).expiresNs then i else slot) j)).expiresNs ≤
          (a.sessions k).expiresNs := by
    intro l
    induction l with
    | nil =>
      intro j k hk
      rw [mem_singleton.1 hk]
      exact le_rfl
    | cons x l ih =>
      intro j k hk
      -- the better one of the first two is compared with the rest
      have hhead := ih _ _ (mem_cons_self (a := if (a.sessions x).expiresNs <
        (a.sessions j).expiresNs then x else j) (l := l))
      rw [foldl_cons]
      rcases mem_cons.1 hk with rfl | hk
      · refine hhead.trans ?_
        split <;> omega
      · rcases mem_cons.1 hk with rfl | hk
        · refine hhead.trans ?_
          split <;> omega
        · exact ih _ _ (mem_cons_of_mem _ hk)
  exact hfold _ 0 i (by revert i; decide)

/-- **What a login does**: it fails and leaves the slots alone, or it fills one. -/
theorem login_cases (a : Auth) (now : ℕ) (token : Option Bytes) (length : ℕ)
    (session csrf : Option Entropy) :
    (∃ e a', a.login now token length session csrf = (.error e, a') ∧ a'.sessions = a.sessions) ∨
      ∃ x y a', session = some x ∧ csrf = some y ∧ a.login now token length session csrf =
        (.ok ⟨randomHex x.1, randomHex y.1, u64 (now + sessionNs)⟩, a') ∧
        a'.sessions = Function.update a.sessions a.slot
          ⟨randomHex x.1, randomHex y.1, u64 (now + sessionNs)⟩ := by
  unfold login
  dsimp only
  split
  · exact .inl ⟨_, _, rfl, a.sessions_countLogin now⟩
  · split
    · exact .inl ⟨_, _, rfl, a.sessions_countLogin now⟩
    · split
      next x y => exact .inr ⟨x, y, _, rfl, rfl, rfl, by simp⟩
      next => exact .inl ⟨_, _, rfl, a.sessions_countLogin now⟩

/-- **What a check answers.** -/
theorem session_isSome_iff {a : Auth} {now : ℕ} {session csrf : Option Bytes} {mutation : Bool} :
    (a.session now session csrf mutation).isSome = true ↔ ∃ i, now < (a.sessions i).expiresNs ∧
      session = some (a.sessions i).session ∧ (a.sessions i).session.length = 64 ∧
      (mutation = true → csrf = some (a.sessions i).csrf ∧ (a.sessions i).csrf.length = 64) := by
  unfold Auth.session
  rw [find?_isSome]
  simp only [mem_map, mem_finRange, true_and, exists_exists_eq_and, Bool.and_eq_true,
    decide_eq_true_eq, secretEqual_iff, Bool.or_eq_true, Bool.not_eq_true']
  refine exists_congr fun i ↦ ?_
  cases mutation <;> simp [and_assoc]

end Auth

/-! ### What has been issued -/

/-- A session that was issued, and what has happened to it since. -/
structure Grant where
  session : Bytes
  csrf : Bytes
  issuedNs : ℕ
  loggedOut : Bool
  evicted : Bool
deriving DecidableEq, Repr

namespace Grant

/-- The credentials that were issued. -/
def credentials (g : Grant) : Credentials := ⟨g.session, g.csrf, g.issuedNs + sessionNs⟩

/-- The session was neither logged out nor evicted. -/
def Open (g : Grant) : Prop := g.loggedOut = false ∧ g.evicted = false

/-- The session was not used up at the time `now`. -/
def Unexpired (g : Grant) (now : ℕ) : Prop := now < g.issuedNs + sessionNs

end Grant

/-- The sessions of a server, the time of the last call, and what was issued so far. -/
structure Sessions where
  auth : Auth
  clock : ℕ
  grants : List Grant

/-- The calls. Each reads the clock, except a logout. -/
inductive AuthCall
  | login (now : ℕ) (token : Option Bytes) (length : ℕ) (session csrf : Option Entropy)
  | logout (session : Option Bytes)
  | check (now : ℕ) (session csrf : Option Bytes) (mutation : Bool)

namespace Sessions

/-- A login gives the slot of `old` to a new session. -/
def evict (grants : List Grant) (old : Credentials) : List Grant :=
  grants.map fun g ↦ if g.session = old.session then { g with evicted := true } else g

/-- The session is logged out. -/
def close (grants : List Grant) (session : Option Bytes) : List Grant :=
  grants.map fun g ↦ if session = some g.session then { g with loggedOut := true } else g

/-- What a call does. -/
def next (s : Sessions) : AuthCall → Sessions
  | .login now token length session csrf =>
    match s.auth.login now token length session csrf with
    | (.ok c, a) =>
      ⟨a, now, evict s.grants (s.auth.sessions s.auth.slot) ++ [⟨c.session, c.csrf, now, false, false⟩]⟩
    | (.error _, a) => ⟨a, now, s.grants⟩
  | .logout session => ⟨s.auth.logout session, s.clock, close s.grants session⟩
  | .check now _ _ _ => { s with clock := now }

/-- The clock is a 64-bit number and does not go back, and a session that is drawn is a new one. -/
def Admits (s : Sessions) : AuthCall → Prop
  | .login now _ _ session _ => s.clock ≤ now ∧ now < 2 ^ 64 ∧
      ∀ e, session = some e → ∀ g ∈ s.grants, g.session ≠ randomHex e.1
  | .logout _ => True
  | .check now _ _ _ => s.clock ≤ now ∧ now < 2 ^ 64

/-- **The calls of a server**, in any order. -/
def machine (token : Bytes) : Machine Sessions AuthCall where
  init s := s = ⟨.opened token, 0, []⟩
  step s a s' := s.Admits a ∧ s' = s.next a

/-- No login comes in the last twelve hours of the clock. -/
def Timely : Sessions → AuthCall → Sessions → Prop
  | _, .login now _ _ _ _, _ => now + sessionNs < 2 ^ 64
  | _, _, _ => True

/-! ### The slots hold the open grants -/

/-- **The invariant**: a slot is empty or holds an open grant, every open grant has a slot, and no two
slots hold the same session. -/
structure Kept (s : Sessions) : Prop where
  texts : ∀ g ∈ s.grants, g.session.length = 64 ∧ g.csrf.length = 64
  distinct : (s.grants.map Grant.session).Nodup
  held : ∀ i, s.auth.sessions i = .zero ∨ ∃ g ∈ s.grants, g.Open ∧ s.auth.sessions i = g.credentials
  placed : ∀ g ∈ s.grants, g.Open → ∃ i, s.auth.sessions i = g.credentials
  apart : ∀ i j, (s.auth.sessions i).session = (s.auth.sessions j).session →
    (s.auth.sessions i).session ≠ [] → i = j

theorem kept_opened (token : Bytes) : Kept ⟨.opened token, 0, []⟩ where
  texts g hg := by cases hg
  distinct := .nil
  held _ := .inl rfl
  placed g hg := by cases hg
  apart _ _ _ hne := absurd rfl hne

section Steps

variable {s : Sessions} {g : Grant} {old : Credentials} {session : Option Bytes}

theorem map_session_evict (grants : List Grant) (old : Credentials) :
    (evict grants old).map Grant.session = grants.map Grant.session := by
  simp only [evict, map_map]
  refine map_congr_left fun g _ ↦ ?_
  simp only [Function.comp_apply]
  split <;> rfl

theorem map_session_close (grants : List Grant) (session : Option Bytes) :
    (close grants session).map Grant.session = grants.map Grant.session := by
  simp only [close, map_map]
  refine map_congr_left fun g _ ↦ ?_
  simp only [Function.comp_apply]
  split <;> rfl

variable {grants : List Grant}

/-- Grants that are open after an eviction were open before, and were not in the slot. -/
theorem open_of_mem_evict (hg : g ∈ evict grants old) (ho : g.Open) :
    g ∈ grants ∧ g.session ≠ old.session := by
  obtain ⟨x, hx, rfl⟩ := mem_map.1 hg
  split at ho
  next => cases ho.2
  next hne =>
    rw [if_neg hne]
    exact ⟨hx, hne⟩

theorem texts_evict (h : ∀ g ∈ grants, g.session.length = 64 ∧ g.csrf.length = 64) :
    ∀ g ∈ evict grants old, g.session.length = 64 ∧ g.csrf.length = 64 := by
  intro g hg
  obtain ⟨x, hx, rfl⟩ := mem_map.1 hg
  split <;> exact h x hx

theorem texts_close (h : ∀ g ∈ grants, g.session.length = 64 ∧ g.csrf.length = 64) :
    ∀ g ∈ close grants session, g.session.length = 64 ∧ g.csrf.length = 64 := by
  intro g hg
  obtain ⟨x, hx, rfl⟩ := mem_map.1 hg
  split <;> exact h x hx

/-- A slot that holds an open grant is not empty. -/
theorem Kept.session_ne_nil (h : s.Kept) (hg : g ∈ s.grants) : g.session ≠ [] := by
  intro hnil
  have := (h.texts g hg).1
  rw [hnil] at this
  cases this

/-- What the invariant says depends on the slots and the grants only. -/
theorem Kept.congr (h : s.Kept) {a : Auth} (ha : a.sessions = s.auth.sessions) (clock : ℕ) :
    Kept ⟨a, clock, s.grants⟩ where
  texts := h.texts
  distinct := h.distinct
  held i := by
    show a.sessions i = _ ∨ _
    rw [ha]
    exact h.held i
  placed g hg ho := by
    obtain ⟨i, hi⟩ := h.placed g hg ho
    exact ⟨i, (congrFun ha i).trans hi⟩
  apart := by
    show ∀ i j, (a.sessions i).session = (a.sessions j).session → (a.sessions i).session ≠ [] → i = j
    rw [ha]
    exact h.apart

/-- **A login** gives a slot to a new grant. -/
theorem Kept.grant (h : s.Kept) {a : Auth} {now : ℕ} {slot : Fin sessionLimit} (hg : g.Open)
    (htexts : g.session.length = 64 ∧ g.csrf.length = 64) (hfresh : ∀ x ∈ s.grants, x.session ≠ g.session)
    (ha : a.sessions = Function.update s.auth.sessions slot g.credentials) :
    Kept ⟨a, now, evict s.grants (s.auth.sessions slot) ++ [g]⟩ where
  texts x hx := by
    rcases mem_append.1 hx with hx | hx
    · exact texts_evict h.texts x hx
    · rwa [mem_singleton.1 hx]
  distinct := by
    rw [map_append, map_session_evict, map_singleton]
    refine nodup_append.2 ⟨h.distinct, nodup_singleton _, ?_⟩
    intro x hx y hy
    obtain ⟨z, hz, rfl⟩ := mem_map.1 hx
    rw [mem_singleton.1 hy]
    exact hfresh z hz
  held i := by
    show a.sessions i = _ ∨ ∃ x ∈ _, _ ∧ a.sessions i = _
    rw [ha]
    by_cases hi : i = slot
    · subst hi
      rw [Function.update_self]
      exact .inr ⟨g, by simp, hg, rfl⟩
    · rw [Function.update_of_ne hi]
      refine (h.held i).imp id ?_
      rintro ⟨x, hx, ho, hxi⟩
      refine ⟨x, mem_append_left _ (mem_map.2 ⟨x, hx, if_neg fun heq ↦ ?_⟩), ho, hxi⟩
      -- another slot with the same session would be the same slot
      refine hi (h.apart i slot ?_ ?_)
      · rw [hxi]
        exact heq
      · rw [hxi]
        exact h.session_ne_nil hx
  placed x hx ho := by
    show ∃ i, a.sessions i = _
    rw [ha]
    rcases mem_append.1 hx with hx | hx
    · obtain ⟨hx, hne⟩ := open_of_mem_evict hx ho
      obtain ⟨i, hi⟩ := h.placed x hx ho
      refine ⟨i, ?_⟩
      rw [Function.update_of_ne, hi]
      rintro rfl
      exact hne (by rw [hi]; rfl)
    · rw [mem_singleton.1 hx]
      exact ⟨slot, Function.update_self ..⟩
  apart i j hij hne := by
    have hother {k : Fin sessionLimit} (hk : (s.auth.sessions k).session = g.session) : False := by
      rcases h.held k with hz | ⟨x, hx, -, hxk⟩
      · rw [hz] at hk
        rw [← hk] at htexts
        cases htexts.1
      · rw [hxk] at hk
        exact hfresh x hx hk
    simp only [ha] at hij hne
    by_cases hi : i = slot <;> by_cases hj : j = slot
    · rw [hi, hj]
    · subst hi
      rw [Function.update_self, Function.update_of_ne hj] at hij
      exact (hother hij.symm).elim
    · subst hj
      rw [Function.update_self, Function.update_of_ne hi] at hij
      exact (hother hij).elim
    · rw [Function.update_of_ne hi, Function.update_of_ne hj] at hij
      rw [Function.update_of_ne hi] at hne
      exact h.apart i j hij hne

/-- **A logout** empties the slot of its session. -/
theorem Kept.logout (h : s.Kept) (session : Option Bytes) :
    Kept ⟨s.auth.logout session, s.clock, close s.grants session⟩ where
  texts := texts_close h.texts
  distinct := by
    rw [map_session_close]
    exact h.distinct
  held i := by
    simp only [Auth.logout]
    split
    next => exact .inl rfl
    next hne =>
      refine (h.held i).imp id ?_
      rintro ⟨x, hx, ho, hxi⟩
      refine ⟨x, mem_map.2 ⟨x, hx, if_neg fun heq ↦ hne ?_⟩, ho, hxi⟩
      rw [secretEqual_iff, hxi]
      exact ⟨heq, (h.texts x hx).1⟩
  placed x hx ho := by
    obtain ⟨y, hy, rfl⟩ := mem_map.1 hx
    split at ho
    next => cases ho.1
    next hne =>
      rw [if_neg hne]
      obtain ⟨i, hi⟩ := h.placed y hy ho
      refine ⟨i, ?_⟩
      simp only [Auth.logout]
      rw [if_neg, hi]
      rw [secretEqual_iff, hi]
      exact fun heq ↦ hne heq.1
  apart i j hij hne := by
    simp only [Auth.logout] at hij hne
    split at hij
    next heq => rw [if_pos heq] at hne; exact absurd rfl hne
    next hi =>
      rw [if_neg hi] at hne
      split at hij
      next => rw [hij] at hne; exact absurd rfl hne
      next => exact h.apart i j hij hne

/-- **Every call keeps the invariant.** -/
theorem Kept.next (h : s.Kept) {call : AuthCall} (ha : s.Admits call)
    (ht : Timely s call (s.next call)) : (s.next call).Kept := by
  cases call with
  | login now token length session csrf =>
    have hexpires : u64 (now + sessionNs) = now + sessionNs := u64_of_lt ht
    simp only [Sessions.next]
    rcases s.auth.login_cases now token length session csrf with
      ⟨e, a', heq, hsame⟩ | ⟨x, y, a', rfl, rfl, heq, hfill⟩
    · rw [heq]
      exact h.congr hsame now
    · rw [heq]
      rw [hexpires] at hfill
      exact h.grant ⟨rfl, rfl⟩ ⟨length_randomHex x, length_randomHex y⟩ (ha.2.2 x rfl) hfill
  | logout session => exact h.logout session
  | check now session csrf mutation => exact h.congr rfl now

theorem kept_of_reach {token : Bytes} (h : ((machine token).during Timely).Reach s) : s.Kept := by
  refine h.invariant ?_ ?_
  · rintro s rfl
    exact kept_opened token
  · rintro s call s' - hs ⟨⟨hadmits, rfl⟩, htimely⟩
    exact hs.next hadmits htimely

/-- **A check is answered by the open grant** of its session, until it expires. -/
theorem Kept.session_iff (h : s.Kept) (now : ℕ) (session csrf : Option Bytes) (mutation : Bool) :
    (s.auth.session now session csrf mutation).isSome = true ↔
      ∃ g ∈ s.grants, session = some g.session ∧ g.Unexpired now ∧ g.loggedOut = false ∧
        g.evicted = false ∧ (mutation = true → csrf = some g.csrf) := by
  rw [Auth.session_isSome_iff]
  constructor
  · rintro ⟨i, hexp, hsession, -, hcsrf⟩
    rcases h.held i with hz | ⟨g, hg, ⟨hout, hev⟩, hi⟩
    · rw [hz] at hexp
      exact absurd hexp (Nat.not_lt_zero now)
    · rw [hi] at hexp hsession hcsrf
      exact ⟨g, hg, hsession, hexp, hout, hev, fun hm ↦ (hcsrf hm).1⟩
  · rintro ⟨g, hg, hsession, hexp, hout, hev, hcsrf⟩
    obtain ⟨i, hi⟩ := h.placed g hg ⟨hout, hev⟩
    obtain ⟨hlen, hlen'⟩ := h.texts g hg
    refine ⟨i, ?_⟩
    rw [hi]
    exact ⟨hexp, hsession, hlen, fun hm ↦ ⟨hcsrf hm, hlen'⟩⟩

/-- **A login that evicts an unexpired session** finds no other slot, and takes the one that expires
first. -/
theorem Kept.evicts (h : s.Kept) {now : ℕ} (hg : g ∈ s.grants) (ho : g.Open) (hexp : g.Unexpired now)
    (hslot : g.session = (s.auth.sessions s.auth.slot).session) (i : Fin sessionLimit) :
    ∃ x ∈ s.grants, x.Open ∧ x.Unexpired now ∧ s.auth.sessions i = x.credentials ∧
      g.issuedNs ≤ x.issuedNs := by
  obtain ⟨j, hj⟩ := h.placed g hg ho
  obtain rfl : j = s.auth.slot := by
    refine h.apart j _ ?_ ?_
    · rw [hj]
      exact hslot
    · rw [hj]
      exact h.session_ne_nil hg
  have hle := s.auth.slot_le i
  rw [hj] at hle
  have hfirst : g.issuedNs + sessionNs ≤ (s.auth.sessions i).expiresNs := hle
  unfold Grant.Unexpired at hexp
  rcases h.held i with hz | ⟨x, hx, hox, hi⟩
  · -- an empty slot would have been taken instead
    rw [hz] at hfirst
    have : g.issuedNs + sessionNs ≤ 0 := hfirst
    omega
  · rw [hi] at hfirst
    have hle' : g.issuedNs + sessionNs ≤ x.issuedNs + sessionNs := hfirst
    exact ⟨x, hx, hox, by unfold Grant.Unexpired; omega, hi, by omega⟩

end Steps

/-- **The life of a session.** In every state that calls reach, a check answers true exactly for a session
that was issued less than twelve hours ago and was neither logged out nor evicted, with its own CSRF text
where that is asked for; and if the next call evicts such a session, it is a login, all slots hold such
sessions, and none of them expires earlier. -/
theorem session_lifecycle {token : Bytes} {s : Sessions}
    (h : ((machine token).during Timely).Reach s) :
    (∀ now session csrf mutation, s.clock ≤ now → now < 2 ^ 64 →
      ((s.auth.session now session csrf mutation).isSome = true ↔
        ∃ g ∈ s.grants, session = some g.session ∧ g.Unexpired now ∧ g.loggedOut = false ∧
          g.evicted = false ∧ (mutation = true → csrf = some g.csrf))) ∧
    ∀ (call : AuthCall) (s' : Sessions) (k : ℕ) (g g' : Grant), ((machine token).during Timely).step s call s' →
      s.grants[k]? = some g → s'.grants[k]? = some g' →
      g.Open → g.Unexpired s'.clock → g'.evicted = true →
        (∃ t n x y, call = .login s'.clock t n x y) ∧ ∀ i : Fin sessionLimit,
          ∃ x ∈ s.grants, x.Open ∧ x.Unexpired s'.clock ∧ s.auth.sessions i = x.credentials ∧
            g.issuedNs ≤ x.issuedNs := by
  have hkept := kept_of_reach h
  refine ⟨fun now session csrf mutation _ _ ↦ hkept.session_iff now session csrf mutation, ?_⟩
  rintro call s' k g g' ⟨⟨-, rfl⟩, -⟩ hk hk' ho hexp hev
  have hsame (hgrants : (s.next call).grants = s.grants) : False := by
    rw [hgrants, hk] at hk'
    cases hk'
    rw [ho.2] at hev
    cases hev
  cases call with
  | login now t n x y =>
    rcases s.auth.login_cases now t n x y with ⟨e, a', heq, -⟩ | ⟨x, y, a', rfl, rfl, heq, -⟩
    · exact (hsame (by simp only [next, heq])).elim
    · simp only [next, heq] at hk' hexp ⊢
      refine ⟨⟨t, n, _, _, rfl⟩, hkept.evicts (List.mem_of_getElem? hk) ho hexp ?_⟩
      rw [List.getElem?_append_left (by simpa [evict] using (List.getElem?_eq_some_iff.1 hk).1), evict,
        List.getElem?_map, hk] at hk'
      by_contra hne
      rw [Option.map_some, if_neg hne] at hk'
      cases hk'
      rw [ho.2] at hev
      cases hev
  | logout session =>
    simp only [next, close, List.getElem?_map, hk, Option.map_some, Option.some.injEq] at hk'
    subst hk'
    split at hev <;> (rw [ho.2] at hev; cases hev)
  | check now session csrf mutation => exact (hsame rfl).elim

/-- Random bytes that are all the same. -/
def allBytes (b : UInt8) : Entropy := ⟨.replicate 32 b, List.length_replicate⟩

/-- A login with the right token. -/
def goodLogin (now : ℕ) : AuthCall :=
  .login now (some (randomHex (allBytes 0).1)) 64 (some (allBytes 1)) (some (allBytes 2))

/-- The server after its first call, a login at the given time. -/
def loggedIn (now : ℕ) : Sessions := next ⟨.opened (randomHex (allBytes 0).1), 0, []⟩ (goodLogin now)

/-- The session that was issued then. -/
def issuedAt (now : ℕ) : Grant :=
  ⟨randomHex (allBytes 1).1, randomHex (allBytes 2).1, now, false, false⟩

/-- A session answers until one nanosecond before twelve hours have passed. -/
theorem session_lifecycle_loggedIn :
    ((machine (randomHex (allBytes 0).1)).during Timely).Reach (loggedIn 0) ∧
      ((loggedIn 0).auth.session (sessionNs - 1) (some (issuedAt 0).session) none false).isSome
        = true := by
  have hreach : ((machine (randomHex (allBytes 0).1)).during Timely).Reach (loggedIn 0) :=
    .step (.init rfl) (goodLogin 0)
      ⟨⟨⟨Nat.zero_le 0, by decide, fun _ _ g hg ↦ by cases hg⟩, rfl⟩,
        show 0 + sessionNs < 2 ^ 64 by decide⟩
  have hgrants : (loggedIn 0).grants = [issuedAt 0] := by decide +kernel
  refine ⟨hreach, ((session_lifecycle hreach).1 (sessionNs - 1) _ none false (Nat.zero_le _)
    (by decide)).2 ⟨issuedAt 0, by simp [hgrants], rfl, ?_, rfl, rfl, fun h ↦ by cases h⟩⟩
  exact show sessionNs - 1 < 0 + sessionNs by decide

/-- **Without the bound on the clock** a session may be refused when it was just issued: the expiry of a
login at the last nanosecond of the clock has wrapped. -/
theorem session_refused_at_wrap :
    (machine (randomHex (allBytes 0).1)).Reach (loggedIn uint64Max) ∧
      (loggedIn uint64Max).clock = uint64Max ∧ issuedAt uint64Max ∈ (loggedIn uint64Max).grants ∧
      (issuedAt uint64Max).Open ∧ (issuedAt uint64Max).Unexpired uint64Max ∧
      (loggedIn uint64Max).auth.session uint64Max (some (issuedAt uint64Max).session) none false =
        none := by
  refine ⟨.step (.init rfl) (goodLogin uint64Max)
    ⟨⟨Nat.zero_le _, by decide, fun _ _ g hg ↦ by cases hg⟩, rfl⟩, by decide +kernel, ?_,
    ⟨rfl, rfl⟩, ?_, by decide +kernel⟩
  · have hgrants : (loggedIn uint64Max).grants = [issuedAt uint64Max] := by decide +kernel
    simp [hgrants]
  · exact show uint64Max < uint64Max + sessionNs by decide

end Sessions

end WebAnalyticsDb
