import WebAnalyticsDb.Server.Json
import WebAnalyticsDb.Storage.Retention

/-!
# The retention endpoint

`POST /api/v1/tables/{id}/retention` may set the policy of a table, and previews or applies it: `retention`
of `server/api.c`. The arguments are parsed first, then the policy is set in a new manifest, and only then
does the preview look at the time it was given.

* **Errors before the manifest** change nothing, and neither does a policy that is refused.
* **The time is checked last.** A request with a good policy and a negative time has its policy installed
  and is then answered with status 400. `rejected_unchanged_iff` says that this is the only way for a
  rejected request to leave something behind.
-/

namespace WebAnalyticsDb

variable {c : Config} {μ : Type}

/-! ### Arguments -/

/-- An object that `wadb_json_init` has accepted: its keys are different. -/
abbrev JsonObject : Type := List (Bytes × JsonValue)

/-- `yyjson_obj_get`. -/
def JsonObject.get? (root : JsonObject) (key : Bytes) : Option JsonValue :=
  (root.find? (·.1 = key)).map (·.2)

/-- `wadb_json_allowed`. -/
def jsonAllowed (root : JsonObject) (fields : List Bytes) : Except Error Unit :=
  match root.find? (·.1 ∉ fields) with
  | none => .ok ()
  | some m => badJson ("unknown argument: " ++ showName m.1)

/-- `int_option`. -/
def intOption (root : JsonObject) (name : Bytes) (value : ℤ) : Except Error ℤ :=
  match root.get? name with
  | none => .ok value
  | some v => jsonI64 v

/-- `wadb_json_bool`. -/
def jsonBool (root : JsonObject) (key : Bytes) (out : Bool) : Except Error Bool :=
  match root.get? key with
  | none => .ok out
  | some (.bool b) => .ok b
  | some _ => badJson "expected boolean argument"

/-- The arguments of `retention`. -/
structure RetentionArguments where
  now : ℤ
  apply : Bool
  /-- The new policy, if there is one. -/
  duration : Option ℕ
deriving DecidableEq, Repr

/-- The parsing in `retention`; `clock` is the time it has read. -/
def retentionArguments (previewOnly : Bool) (root : JsonObject) (clock : ℤ) :
    Except Error RetentionArguments := do
  jsonAllowed root
    (if previewOnly then [ascii "now_us"] else [ascii "now_us", ascii "retention_us", ascii "apply"])
  let now ← intOption root (ascii "now_us") clock
  let apply ← jsonBool root (ascii "apply") false
  match root.get? (ascii "retention_us") with
  | none => pure ⟨now, apply, none⟩
  | some v =>
    let us ← jsonU64 v
    pure ⟨now, apply, some us⟩

/-! ### The endpoint -/

/-- `wadb_retention_apply` or `wadb_retention_preview`. -/
def applyOrPreview (apply : Bool) (now : ℤ) : Io (Table c) RetentionStats :=
  if apply then do
    let (status, stats) ← retentionApply now
    Prog.rethrow status
    pure stats
  else retentionPreview now

/-- `retention`, on what `wadb_json_init` has made of the body: the statistics, and whether the policy was
applied. -/
def retention (previewOnly : Bool) (body : Except Error JsonObject) :
    Io (Table c) (RetentionStats × Bool) := do
  let root ← Prog.rethrow body
  let clock ← Prog.wall
  let args ← Prog.rethrow (retentionArguments previewOnly root clock)
  match args.duration with
  | none => pure ()
  | some us => setRetention us
  let stats ← applyOrPreview (args.apply && !previewOnly) args.now
  pure (stats, args.apply && !previewOnly)

/-- The status of the reply. -/
def replyStatus {α : Type} : Exit Error α → Option ℕ
  | .ok _ => some 200
  | .fail e => some e.code.http
  | .killed => none

/-! ### Errors that are not the client's -/

/-- The error is answered with a status other than 400. -/
def Error.Blameless (e : Error) : Prop := e.code.http ≠ 400

variable {env : Env Path Dir} {fs : Files} {n : ℕ} {t : Table c}

theorem errs_require_blameless {code : Status} (h : code.http ≠ 400) (b : Bool) (message : String) :
    (require b code message : Io μ Unit).Errs env Error.Blameless :=
  .ensure h

theorem errs_allocOr_blameless (message : String) :
    (allocOr message : Io μ Unit).Errs env Error.Blameless :=
  .bind .alloc fun _ ↦ errs_require_blameless (by decide) _ _

theorem errs_saveManifest_blameless (t : Table c) :
    (saveManifest t : Io μ Unit).Errs env Error.Blameless := by
  have hcode {e : Error} (h : e.code = .io ∨ e.code = .nomem ∨ e.code = .indeterminate) :
      e.Blameless := by
    unfold Error.Blameless
    rcases h with h | h | h <;> rw [h] <;> decide
  intro w
  by_cases hcount : t.segments.length ≤ maxSegments
  · refine installs_saveManifest hcount _ _ _ (fun _ _ ↦ nofun) (fun _ _ _ e he x hx ↦ ?_)
      (fun _ _ _ e he x hx ↦ ?_) fun _ _ _ ↦ nofun
    · cases hx
      exact hcode (he.imp_right .inl)
    · cases hx
      exact hcode (.inr (.inr he))
  · refine wp_bind (wp_require (fun h ↦ absurd (of_decide_eq_true h) hcount) fun _ x hx ↦ ?_)
    cases hx
    show Status.http .limit ≠ 400
    decide

theorem errs_removeFile_blameless (p : Path) :
    (removeFile p : Io μ Bool).Errs env Error.Blameless :=
  .bind (errs_allocOr_blameless _) fun _ ↦ .bind .files fun _ ↦ .bind (.call _ _ _) fun _ ↦
    .bind (errs_require_blameless (by decide) _ _) fun _ ↦ .pure _

/-- A program that returns its status beside its result: the errors it returns and those it stops with
satisfy `P`. -/
structure Reports {α : Type} (P : Error → Prop) (p : Io μ (Except Error Unit × α)) (env : Env Path Dir) :
    Prop where
  errs : p.Errs env P
  returns : ∀ w, wp p env (fun e _ _ ↦ ∀ r, e = .ok r → ∀ x, r.1 = .error x → P x) w

namespace Reports

variable {α β : Type} {P : Error → Prop}

theorem pure {r : Except Error Unit × α} (h : ∀ x, r.1 = .error x → P x) :
    Reports P (pure r : Io μ _) env where
  errs := .pure r
  returns w r' hr x hx := by
    cases hr
    exact h x hx

/-- **Sequencing**, where what the first program returns matters for the second. -/
theorem bind_of {p : Io μ β} {f : β → Io μ (Except Error Unit × α)} {R : β → Prop}
    (herrs : p.Errs env P) (hp : ∀ w, wp p env (fun e _ _ ↦ ∀ a, e = .ok a → R a) w)
    (hf : ∀ a, R a → Reports P (f a) env) : Reports P (p >>= f) env where
  errs := herrs.bind_of hp fun a ha ↦ (hf a ha).errs
  returns w := by
    refine wp_bind ((hp w).mono ?_)
    rintro (a | e | _) fs m ha
    · exact fun n ↦ (hf a (ha a rfl)).returns ⟨fs, n, m⟩
    · exact nofun
    · exact nofun

/-- **Sequencing.** -/
theorem bind {p : Io μ β} {f : β → Io μ (Except Error Unit × α)} (herrs : p.Errs env P)
    (hf : ∀ a, Reports P (f a) env) : Reports P (p >>= f) env :=
  bind_of herrs (fun _ ↦ .of_forall fun _ _ _ _ _ ↦ trivial) fun a _ ↦ hf a

end Reports

theorem reports_removeSegment (s : SegmentMeta) :
    Reports Error.Blameless (removeSegment s : Io μ _) env := by
  have hrest : (do let _ ← removeFile s.idxPath; syncDirectory s.idxPath.parent :
      Io μ Unit).Errs env Error.Blameless :=
    .bind (errs_removeFile_blameless _) fun _ ↦ .bind (.call _ _ _) fun _ ↦
      errs_require_blameless (by decide) _ _
  unfold removeSegment
  refine .bind_of (.attempt _) (errs_removeFile_blameless s.segPath).wp_attempt fun r hr ↦ ?_
  cases r with
  | error e =>
    refine .pure fun x hx ↦ ?_
    cases hx
    exact hr e rfl
  | ok removed => exact .bind_of (.attempt _) hrest.wp_attempt fun rest h ↦ .pure h

theorem reports_cleanupLoop (segments : List SegmentMeta) (deleted : ℕ) :
    Reports Error.Blameless (cleanupLoop segments deleted : Io μ _) env := by
  induction segments generalizing deleted with
  | nil => exact .pure nofun
  | cons s segments ih =>
    unfold cleanupLoop
    split
    · exact ih deleted
    · have hsegment : Reports Error.Blameless (removeSegment s : Io μ _) env := reports_removeSegment s
      refine .bind_of hsegment.errs hsegment.returns fun r hr ↦ ?_
      obtain ⟨status, removed⟩ := r
      cases status with
      | error e =>
        refine .pure fun x hx ↦ ?_
        cases hx
        exact hr e rfl
      | ok _ => exact ih _

theorem reports_retentionCleanup :
    Reports Error.Blameless (retentionCleanup : Io (Table c) _) env := by
  unfold retentionCleanup
  refine .bind .get fun t ↦ ?_
  split
  · exact .pure nofun
  · have hloop : Reports Error.Blameless (cleanupLoop t.segments 0 : Io (Table c) _) env :=
      reports_cleanupLoop _ _
    exact .bind_of hloop.errs hloop.returns fun r hr ↦ .bind (.modify _) fun _ ↦ .pure hr

theorem errs_retireSegments_blameless (stats : RetentionStats) :
    (retireSegments stats : Io (Table c) Unit).Errs env Error.Blameless := by
  unfold retireSegments
  refine .bind .get fun t ↦ .bind (errs_require_blameless (by decide) _ _) fun _ ↦ ?_
  split
  · exact .pure _
  · exact .bind (errs_require_blameless (by decide) _ _) fun _ ↦
      .bind (errs_allocOr_blameless _) fun _ ↦ .bind (errs_saveManifest_blameless _) fun _ ↦
      .modify _

theorem errs_protectUncertain {α : Type} {P : Error → Prop} (status : Except Error α) :
    (protectUncertain status : Io (Table c) Unit).Errs env P := by
  unfold protectUncertain
  split
  · exact .modify _
  · exact .pure _

/-- **With a time that is not negative**, the policy is previewed or applied without any fault of the
client's. -/
theorem errs_applyOrPreview_blameless (apply : Bool) {now : ℤ} (hnow : 0 ≤ now) :
    (applyOrPreview apply now : Io (Table c) RetentionStats).Errs env Error.Blameless := by
  have htime (message : String) :
      (require (0 ≤ now) .invalid message : Io (Table c) Unit).Errs env Error.Blameless := by
    rw [decide_eq_true hnow]
    exact .pure ()
  unfold applyOrPreview
  cases apply with
  | false => exact .bind (htime _) fun _ ↦ .bind .get fun _ ↦ .pure _
  | true =>
    have happly : Reports Error.Blameless (retentionApply now : Io (Table c) _) env := by
      unfold retentionApply
      refine .bind (htime _) fun _ ↦ .bind .get fun t ↦ ?_
      refine .bind_of (.attempt _) (errs_retireSegments_blameless _).wp_attempt fun status hstatus ↦ ?_
      refine .bind (errs_protectUncertain _) fun _ ↦ ?_
      -- both branches hand their status on, beside the statistics
      cases status with
      | ok _ =>
        have hclean : Reports Error.Blameless (retentionCleanup : Io (Table c) _) env :=
          reports_retentionCleanup
        exact .bind_of hclean.errs hclean.returns fun r hr ↦ .bind .get fun _ ↦ .pure hr
      | error e =>
        have hstop : Reports Error.Blameless
            (pure (.error e, 0) : Io (Table c) (Except Error Unit × ℕ)) env := by
          refine .pure fun x hx ↦ ?_
          cases hx
          exact hstatus e rfl
        exact .bind_of hstop.errs hstop.returns fun r hr ↦ .bind .get fun _ ↦ .pure hr
    exact .bind_of happly.errs happly.returns fun r hr ↦ .bind (.rethrow hr) fun _ ↦ .pure _

/-! ### Setting the policy -/

/-- What setting a policy comes to: it is installed, or the client is at fault and nothing has changed, or
the fault is not the client's. Without faults of the system, a policy that the table takes is installed. -/
def Outcome (env : Env Path Dir) (t : Table c) (us : ℕ) : Exit Error Unit → Files → Table c → Prop
  | .ok _, _, t' => t.Takes us ∧ t' = t.withPolicy us
  | .fail e, _, t' => (e.Blameless ∨ t' = t) ∧ (env.Calm → ¬ t.Takes us)
  | .killed, _, _ => ¬ env.Calm

theorem wp_setRetention_any (us : ℕ) :
    wp (setRetention us) env (Outcome env t us) ⟨fs, n, t⟩ := by
  refine wp_setRetention_cases (fun hus e ↦ ⟨.inr rfl, fun _ h ↦ hus h.duration⟩)
    (fun htakes e he fs' _ ↦ ⟨.inl ?_, htakes⟩) (fun htakes fs' _ ↦ ?_) fun hcalm _ _ ↦ hcalm
  · unfold Error.Blameless
    generalize e.code = code at he ⊢
    revert he
    cases code <;> decide
  · refine ⟨⟨htakes, rfl⟩, fun hcalm ↦ ⟨hcalm, fun e he ↦ ⟨.inl ?_, fun h ↦ absurd h hcalm⟩⟩⟩
    rw [Error.Blameless, he]
    decide

/-! ### Rejected requests -/

/-- What a request that is rejected should leave alone. -/
structure Table.SameRecord (t t' : Table c) : Prop where
  retentionUs : t'.retentionUs = t.retentionUs
  manifestGeneration : t'.manifestGeneration = t.manifestGeneration
  preservedSequence : t'.preservedSequence = t.preservedSequence
  preservedTime : t'.preservedTime = t.preservedTime
  states : t'.segments.map (·.state) = t.segments.map (·.state)

/-- A reply with status 400 means that nothing has changed. -/
def Harmless (t : Table c) (e : Exit Error (RetentionStats × Bool)) (_ : Files) (t' : Table c) : Prop :=
  replyStatus e = some 400 → t.SameRecord t'

/-- **The policy overtakes the rejection**: the arguments are well-formed, the table takes the policy, and
the time is negative. -/
def Overtaken (t : Table c) (body : Except Error JsonObject) (clock : ℤ) : Prop :=
  ∃ root args us, body = .ok root ∧ retentionArguments false root clock = .ok args ∧
    args.duration = some us ∧ t.Takes us ∧ args.now < 0

theorem Table.SameRecord.refl (t : Table c) : t.SameRecord t := ⟨rfl, rfl, rfl, rfl, rfl⟩

/-- A negative time is refused by both, before anything else. -/
theorem wp_applyOrPreview_of_neg (apply : Bool) {now : ℤ} (hnow : now < 0) :
    wp (applyOrPreview apply now) env
      (fun e _ t' ↦ (∃ message, e = .fail ⟨.invalid, message⟩) ∧ t' = t) ⟨fs, n, t⟩ := by
  have hneg : ¬ 0 ≤ now := not_le.2 hnow
  unfold applyOrPreview
  cases apply with
  | false =>
    refine wp_bind (wp_require (fun h ↦ ?_) fun _ ↦ ⟨⟨_, rfl⟩, rfl⟩)
    exact absurd (of_decide_eq_true h) hneg
  | true =>
    refine wp_bind (wp_bind (wp_require (fun h ↦ ?_) fun _ ↦ ⟨⟨_, rfl⟩, rfl⟩))
    exact absurd (of_decide_eq_true h) hneg

/-- **A request that is not overtaken** is harmless, whatever the system does. -/
theorem wp_retention_harmless {body : Except Error JsonObject} {clock : ℤ}
    (hclock : ∀ k, env.wall k = clock) (hbody : ¬ Overtaken t body clock) :
    wp (retention false body) env (Harmless t) ⟨fs, n, t⟩ := by
  have hrefl (e : Exit Error (RetentionStats × Bool)) (fs : Files) : Harmless t e fs t :=
    fun _ ↦ .refl t
  -- the rest of the request, if the table is as before or the time is right
  have hrest (args : RetentionArguments) (t' : Table c) (h : t' = t ∨ 0 ≤ args.now) (fs : Files)
      (n : ℕ) :
      wp (do
        let stats ← applyOrPreview (args.apply && !false) args.now
        pure (stats, args.apply && !false)) env (Harmless t) ⟨fs, n, t'⟩ := by
    by_cases hnow : 0 ≤ args.now
    · refine wp_bind ((errs_applyOrPreview_blameless _ hnow ⟨fs, n, t'⟩).mono ?_)
      rintro (stats | e | _) fs m he
      · exact fun n (h : some 200 = some 400) ↦ absurd h (by decide)
      · exact fun h ↦ absurd (Option.some.inj h) (he e rfl)
      · exact fun h ↦ absurd h (by decide)
    · obtain rfl := h.resolve_right hnow
      refine wp_bind ((wp_applyOrPreview_of_neg _ (not_le.1 hnow)).mono ?_)
      rintro e fs m ⟨⟨message, rfl⟩, rfl⟩
      exact hrefl _ fs
  unfold retention
  cases body with
  | error e => exact hrefl _ _
  | ok root =>
    refine wp_bind (wp_rethrow.2 fun n ↦ wp_bind (Prog.wp_wall.2 fun n ↦ ?_))
    rw [hclock]
    cases hargs : retentionArguments false root clock with
    | error e => exact hrefl _ _
    | ok args =>
      refine wp_bind (wp_rethrow.2 fun n ↦ ?_)
      cases hus : args.duration with
      | none => exact hrest args t (.inl rfl) _ _
      | some us =>
        refine wp_bind ((wp_setRetention_any us).mono ?_)
        rintro (_ | e | _) fs t' h
        · obtain ⟨htakes, rfl⟩ := h
          refine fun n ↦ hrest args _ (.inr (not_lt.1 fun hneg ↦ hbody ?_)) fs n
          exact ⟨root, args, us, rfl, hargs, hus, htakes, hneg⟩
        · rcases h.1 with hblameless | rfl
          · exact fun h ↦ absurd (Option.some.inj h) hblameless
          · exact hrefl _ fs
        · exact fun h ↦ absurd h (by decide)

/-- **A request that is overtaken** is rejected with its policy in force. -/
theorem wp_retention_overtaken {body : Except Error JsonObject} {clock : ℤ} (hcalm : env.Calm)
    (hclock : ∀ k, env.wall k = clock) (hbody : Overtaken t body clock) :
    wp (retention false body) env
      (fun e _ t' ↦ replyStatus e = some 400 ∧ ∃ us, t' = t.withPolicy us) ⟨fs, n, t⟩ := by
  obtain ⟨root, args, us, rfl, hargs, hus, htakes, hneg⟩ := hbody
  unfold retention
  refine wp_bind (wp_rethrow.2 fun n ↦ wp_bind (Prog.wp_wall.2 fun n ↦ ?_))
  rw [hclock, hargs]
  refine wp_bind (wp_rethrow.2 fun n ↦ ?_)
  rw [hus]
  refine wp_bind ((wp_setRetention_any us).mono ?_)
  rintro (_ | e | _) fs t' h
  · obtain ⟨-, rfl⟩ := h
    refine fun n ↦ wp_bind ((wp_applyOrPreview_of_neg _ hneg).mono ?_)
    rintro e fs m ⟨⟨message, rfl⟩, rfl⟩
    exact ⟨rfl, us, rfl⟩
  · exact absurd htakes (h.2 hcalm)
  · exact absurd hcalm h

/-- **When a rejected request has changed nothing.** For a table, a body and a time on the clock: a reply
with status 400 leaves the policy, the generation, the watermarks and the states of the segments as they
were, in every environment, exactly if the request is not overtaken by its own policy. -/
theorem rejected_unchanged_iff (t : Table c) (body : Except Error JsonObject) (clock : ℤ) :
    (∀ env : Env Path Dir, (∀ k, env.wall k = clock) → ∀ fs n,
      Prog.wp (retention false body) env (Harmless t) ⟨fs, n, t⟩) ↔ ¬ Overtaken t body clock := by
  refine ⟨fun h hbody ↦ ?_, fun hbody env hclock fs n ↦ wp_retention_harmless hclock hbody⟩
  let env : Env Path Dir := { Env.still Path Dir with wall := fun _ ↦ clock }
  have hcalm : env.Calm := fun _ _ ↦ rfl
  obtain ⟨hstatus, us, hus⟩ :
      replyStatus (retention false body env ⟨fun _ ↦ none, 0, t⟩).1 = some 400 ∧
        ∃ us, (retention false body env ⟨fun _ ↦ none, 0, t⟩).2.mem = t.withPolicy us :=
    wp_retention_overtaken hcalm (fun _ ↦ rfl) hbody
  have hsame := h env (fun _ ↦ rfl) (fun _ ↦ none) 0 hstatus
  rw [hus] at hsame
  -- the generation has moved
  exact absurd hsame.manifestGeneration (Nat.succ_ne_self _)

/-- A policy of one millisecond, at a time before the epoch. -/
def beforeEpoch : JsonObject :=
  [(ascii "now_us", .sint (-1)), (ascii "retention_us", .uint 1000)]

/-- The request is rejected, and the new table has its policy, in its second manifest. -/
theorem beforeEpoch_overtaken :
    let r := retention false (.ok beforeEpoch) (Env.still Path Dir)
      ⟨fun _ ↦ none, 0, (Table.created 0 : Table hits)⟩
    replyStatus r.1 = some 400 ∧ r.2.mem.retentionUs = 1000 ∧ r.2.mem.manifestGeneration = 2 := by
  decide +kernel

end WebAnalyticsDb
