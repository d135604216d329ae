import Mathlib.Algebra.BigOperators.Group.List.Basic
import Mathlib.Algebra.Group.Action.Defs
import Mathlib.Algebra.Order.BigOperators.Group.List
import WebAnalyticsDb.Foundation.Machine
import WebAnalyticsDb.Core.Encoding
import WebAnalyticsDb.Server.Feed

/-!
# The budget of responses

The server bounds the memory of replies that clients have not read yet: `server/server.c`, with
`server/json.c` and the routing of `server/api.c`.

* **A charge changes its meaning.** A request that is queued for a worker is charged the limit of its
  endpoint; when the worker has the reply, the charge shrinks to its length; the response that is sent
  takes the charge along, and gives it back when the library frees it. A reply that is made without a
  worker is charged when it is sent.
* **Shrinking subtracts.** It is safe only if no reply is longer than the limit of its endpoint. What the
  endpoints write is left open here, since `wadb_json_finish` checks its length; what it cannot check is the
  error it then reports instead, so the text of errors is modelled down to the escapes of the JSON writer.
* **The library.** It does not call the handler and does not complete a request while its connection is
  suspended; it completes every request once and frees every response once.
-/

namespace WebAnalyticsDb

open Bytes List

/-! ### Errors as texts -/

/-- `wadb_status_name`. -/
def Status.name : Status → String
  | .invalid => "invalid"
  | .nomem => "out_of_memory"
  | .io => "io_error"
  | .corrupt => "corrupt"
  | .version => "unsupported_version"
  | .exists => "already_exists"
  | .notFound => "not_found"
  | .locked => "locked"
  | .schemaMismatch => "schema_mismatch"
  | .backpressure => "backpressure"
  | .limit => "resource_limit"
  | .indeterminate => "indeterminate_commit"
  | .expired => "expired"
  | .readOnly => "read_only"
  | .cancelled => "cancelled"

/-- `wadb_http_status`. -/
def Status.http : Status → ℕ
  | .invalid | .schemaMismatch => 400
  | .notFound => 404
  | .exists | .locked => 409
  | .expired => 410
  | .limit => 422
  | .backpressure => 429
  | .nomem | .io | .corrupt | .version | .indeterminate | .readOnly | .cancelled => 503

/-- The digits of the writer. -/
def upperHexDigits : Bytes := ascii "0123456789ABCDEF"

/-- A byte of a text as the JSON writer puts it; text beyond ASCII is copied. -/
def escapeByte (b : UInt8) : Bytes :=
  match b.toNat with
  | 8 => ascii "\\b"
  | 9 => ascii "\\t"
  | 10 => ascii "\\n"
  | 12 => ascii "\\f"
  | 13 => ascii "\\r"
  | 34 => ascii "\\\""
  | 92 => ascii "\\\\"
  | n =>
    if n < 32 then
      ascii "\\u00" ++ [upperHexDigits.getD (n / 16) 0, upperHexDigits.getD (n % 16) 0]
    else [b]

/-- A text in quotes. The writer refuses what is not UTF-8. -/
def jsonString (s : Bytes) : Option Bytes :=
  if utf8 s then some (ascii "\"" ++ s.flatMap escapeByte ++ ascii "\"") else none

def jsonMember (key : String) (value : Bytes) : Bytes := ascii "\"" ++ ascii key ++ ascii "\":" ++ value

def jsonObject (members : List Bytes) : Bytes :=
  ascii "\x7b" ++ List.intercalate (ascii ",") members ++ ascii "\x7d"

/-- Which allocations of `wadb_http_error` succeed. -/
structure ErrorMemory where
  document : Bool
  root : Bool
  okField : Bool
  errorField : Bool
  codeField : Bool
  messageField : Bool
  write : Bool
  fallback : Bool
deriving DecidableEq, Repr

/-- A member that could not be added is missing. -/
def addMember (added : Bool) (key : String) (value : Option Bytes) : Option (List Bytes) :=
  if added then value.map ([jsonMember key ·]) else some []

/-- The error object. -/
def errorObject (code : Status) (message : Bytes) (m : ErrorMemory) : Option Bytes := do
  let codes ← addMember m.codeField "code" (jsonString (ascii code.name))
  let messages ← addMember m.messageField "message" (jsonString message)
  return jsonObject (codes ++ messages)

/-- The document of an error, as far as it could be built and written. -/
def errorDocument (code : Status) (message : Bytes) (m : ErrorMemory) : Option Bytes :=
  if m.document && m.root && m.write then do
    let oks ← addMember m.okField "ok" (some (ascii "false"))
    let errors ← addMember m.errorField "error" (errorObject code message m)
    return jsonObject (oks ++ errors)
  else none

/-- The text when there is no memory for another one. -/
def outOfMemoryText : Bytes :=
  ascii ("\x7b\"ok\":false,\"error\":\x7b\"code\":\"out_of_memory\"," ++
    "\"message\":\"Response allocation failed\"\x7d\x7d")

/-- `wadb_http_error`. -/
def httpError (status : ℕ) (code : Status) (message : Bytes) (m : ErrorMemory) : HttpReply :=
  match errorDocument code message m with
  | some body => ⟨status, body⟩
  | none => ⟨503, if m.fallback then outOfMemoryText else []⟩

/-- The `message` of `wadb_error`, which has 256 bytes with the one that ends it. -/
structure ErrorText where
  bytes : Bytes
  length_le : bytes.length ≤ 255

/-- `wadb_fail` cuts what it formats. -/
def ErrorText.format (text : Bytes) : ErrorText := ⟨text.take 255, List.length_take_le _ _⟩

/-! ### Replies of the interface -/

/-- `WADB_HTTP_REPLY_LIMIT`. -/
def httpReplyLimit : ℕ := 4 * 1024 * 1024

/-- `WADB_HTTP_APPEND_REPLY_LIMIT`. -/
def httpAppendReplyLimit : ℕ := 4096

/-- `wadb_json`, as far as `wadb_json_finish` reads it. -/
structure Json where
  failure : Option Status
  replyLimit : ℕ
  error : Option (Status × ErrorText)

/-- The body of a reply, or why there is none: `text` is what the writer has written, if it could. -/
def Json.body (j : Json) (text : Option Bytes) (alloc : Bool) : Except (Status × ErrorText) Bytes :=
  match j.error, j.failure, text with
  | some e, _, _ => .error e
  | none, some code, _ => .error (code, .format (ascii "JSON memory budget exhausted"))
  | none, none, none =>
    .error (.limit, .format (ascii "response size limit exceeded; request fewer rows"))
  | none, none, some body =>
    if j.replyLimit < body.length then
      .error (.limit, .format (ascii "response size limit exceeded; request fewer rows"))
    else if alloc then .ok body
    else .error (.nomem, .format (ascii "response allocation"))

/-- `wadb_json_finish`. -/
def jsonFinish (j : Json) (status : ℕ) (text : Option Bytes) (alloc : Bool) (m : ErrorMemory) :
    HttpReply :=
  match j.body text alloc with
  | .ok body => ⟨status, body⟩
  | .error (code, message) => httpError code.http code message.bytes m

/-- The loop of `wadb_decimal_u64`. -/
def decimalLoop : ℕ → Bytes → Option ℕ
  | value, [] => some value
  | value, c :: s =>
    if c < 48 ∨ 57 < c then none
    else
      let digit := c.toNat - 48
      if (uint64Max - digit) / 10 < value then none else decimalLoop (value * 10 + digit) s

/-- `wadb_decimal_u64`. -/
def decimalU64 (s : Bytes) : Option ℕ := if s = [] ∨ 20 < s.length then none else decimalLoop 0 s

/-- `route_id`: the number behind `base`, and what follows it. -/
def routeId (path base : Bytes) : Option (ℕ × Bytes) :=
  if path.take base.length = base then
    let p := path.drop base.length
    match decimalU64 (p.takeWhile (· ≠ 47)) with
    | some id => if id = 0 then none else some (id, p.dropWhile (· ≠ 47))
    | none => none
  else none

/-- `wadb_api_reply_limit`. -/
def apiReplyLimit (method path : Bytes) : ℕ :=
  if method = ascii "POST" ∧
      (routeId path (ascii "/api/v1/tables/")).any fun x ↦ x.2 = ascii "/append" then
    httpAppendReplyLimit
  else httpReplyLimit

/-- The status of an endpoint that succeeds. -/
inductive SuccessStatus
  | ok
  | created
  | accepted
deriving DecidableEq, Repr

def SuccessStatus.code : SuccessStatus → ℕ
  | .ok => 200
  | .created => 201
  | .accepted => 202

/-- What an endpoint has left in `wadb_json`, and what the writer then writes. -/
structure Handled where
  status : SuccessStatus
  failure : Option Status
  error : Option (Status × ErrorText)
  text : Option Bytes
  alloc : Bool
  memory : ErrorMemory

/-- `wadb_api_dispatch`, for any body and whatever the endpoint does. -/
def apiDispatch (method path : Bytes) (initialized : Bool) (h : Handled) : HttpReply :=
  let json : Json := ⟨h.failure, apiReplyLimit method path, h.error⟩
  if !initialized then jsonFinish json 400 h.text h.alloc h.memory
  else if method ≠ ascii "GET" ∧ method ≠ ascii "POST" then
    let error := (.invalid, .format (ascii "method not allowed"))
    { jsonFinish { json with error := some error } 405 h.text h.alloc h.memory with status := 405 }
  else jsonFinish json h.status.code h.text h.alloc h.memory

/-! ### No reply is longer than its limit -/

theorem length_escapeByte_le (b : UInt8) : (escapeByte b).length ≤ 6 := by
  unfold escapeByte
  split
  any_goals decide
  split
  · exact Nat.le_refl 6
  · exact Nat.le_of_ble_eq_true rfl

theorem length_jsonString_le {s t : Bytes} (h : jsonString s = some t) : t.length ≤ 6 * s.length + 2 := by
  unfold jsonString at h
  split at h
  · cases h
    have hsum : (s.flatMap escapeByte).length ≤ 6 * s.length := by
      rw [length_flatMap]
      refine (sum_le_card_nsmul _ 6 fun n hn ↦ ?_).trans_eq ?_
      · obtain ⟨b, -, rfl⟩ := mem_map.1 hn
        exact length_escapeByte_le b
      · rw [length_map, smul_eq_mul, mul_comm]
    simp only [length_append]
    have hquote : (ascii "\"").length = 1 := rfl
    omega
  · cases h

theorem length_jsonObject_le (members : List Bytes) :
    (jsonObject members).length ≤ 2 + (members.map fun m ↦ m.length + 1).sum := by
  have hcommas : (List.intercalate (ascii ",") members).length ≤
      (members.map fun m ↦ m.length + 1).sum := by
    induction members with
    | nil => exact zero_le
    | cons m members ih =>
      cases members with
      | nil => simp [List.intercalate]
      | cons m' members =>
        have hone : (ascii ",").length = 1 := rfl
        simp only [List.intercalate, intersperse_cons_cons, flatten_cons, length_append,
          map_cons, sum_cons] at ih ⊢
        omega
  have hopen : (ascii "\x7b").length = 1 := rfl
  have hclose : (ascii "\x7d").length = 1 := rfl
  unfold jsonObject
  simp only [length_append]
  omega

theorem length_addMember_le {added : Bool} {key : String} {value : Option Bytes} {members : List Bytes}
    {n : ℕ} (h : addMember added key value = some members)
    (hvalue : ∀ v, value = some v → v.length ≤ n) :
    (members.map fun m ↦ m.length + 1).sum ≤ (ascii key).length + n + 4 := by
  unfold addMember at h
  split at h
  · obtain ⟨v, hv, rfl⟩ := Option.map_eq_some_iff.1 h
    have hlen := hvalue v hv
    have hquote : (ascii "\"").length = 1 := rfl
    have hcolon : (ascii "\":").length = 2 := rfl
    simp only [map_cons, map_nil, sum_cons, sum_nil, jsonMember,
      length_append]
    omega
  · cases h
    exact zero_le

theorem length_errorObject_le {code : Status} {message object : Bytes} {m : ErrorMemory}
    (h : errorObject code message m = some object) : object.length ≤ 6 * message.length + 145 := by
  have hname : (ascii code.name).length ≤ 20 := by cases code <;> decide
  obtain ⟨codes, hcodes, h⟩ := Option.bind_eq_some_iff.1 h
  obtain ⟨messages, hmessages, h⟩ := Option.bind_eq_some_iff.1 h
  cases h
  have hfirst := length_addMember_le hcodes fun v hv ↦ length_jsonString_le hv
  have hsecond := length_addMember_le hmessages fun v hv ↦ length_jsonString_le hv
  have hcode : (ascii "code").length = 4 := rfl
  have hmessage : (ascii "message").length = 7 := rfl
  refine (length_jsonObject_le _).trans ?_
  rw [map_append, sum_append]
  omega

/-- **The document of an error** is short if its message is. -/
theorem length_errorDocument_le {code : Status} {message body : Bytes} {m : ErrorMemory}
    (h : errorDocument code message m = some body) : body.length ≤ 6 * message.length + 200 := by
  unfold errorDocument at h
  split at h
  swap
  · cases h
  obtain ⟨oks, hoks, h⟩ := Option.bind_eq_some_iff.1 h
  obtain ⟨errors, herrors, h⟩ := Option.bind_eq_some_iff.1 h
  cases h
  have hfirst := length_addMember_le (n := 5) hoks fun v hv ↦ by cases hv; decide
  have hsecond := length_addMember_le herrors fun v hv ↦ length_errorObject_le hv
  have hok : (ascii "ok").length = 2 := rfl
  have herror : (ascii "error").length = 5 := rfl
  refine (length_jsonObject_le _).trans ?_
  rw [map_append, sum_append]
  omega

theorem length_httpError_le (status : ℕ) (code : Status) (message : Bytes) (m : ErrorMemory) :
    (httpError status code message m).body.length ≤ 6 * message.length + 200 := by
  unfold httpError
  split
  next body hbody => exact length_errorDocument_le hbody
  next =>
    have hfallback : (if m.fallback then outOfMemoryText else []).length ≤ 200 := by
      cases m.fallback <;> decide
    exact hfallback.trans (Nat.le_add_left _ _)

/-- **A reply fits into a limit that fits an error.** -/
theorem length_jsonFinish_le {j : Json} (hlimit : httpAppendReplyLimit ≤ j.replyLimit) (status : ℕ)
    (text : Option Bytes) (alloc : Bool) (m : ErrorMemory) :
    (jsonFinish j status text alloc m).body.length ≤ j.replyLimit := by
  unfold jsonFinish
  split
  next body hbody =>
    unfold Json.body at hbody
    split at hbody
    any_goals cases hbody
    split at hbody
    · cases hbody
    next hfits =>
      split at hbody
      · cases hbody
        exact Nat.le_of_not_lt hfits
      · cases hbody
  next code message _ =>
    have herror := length_httpError_le code.http code message.bytes m
    have hmessage := message.length_le
    unfold httpAppendReplyLimit at hlimit
    omega

theorem apiReplyLimit_bounds (method path : Bytes) :
    httpAppendReplyLimit ≤ apiReplyLimit method path ∧ apiReplyLimit method path ≤ httpReplyLimit := by
  unfold apiReplyLimit
  split <;> decide

/-- **No reply of the interface is longer than the limit of its endpoint.** -/
theorem length_apiDispatch_le (method path : Bytes) (initialized : Bool) (h : Handled) :
    (apiDispatch method path initialized h).body.length ≤ apiReplyLimit method path := by
  have hlimit := (apiReplyLimit_bounds method path).1
  unfold apiDispatch
  dsimp only
  split
  · exact length_jsonFinish_le (j := ⟨h.failure, apiReplyLimit method path, h.error⟩) hlimit _ _ _ _
  · split
    · exact length_jsonFinish_le (j := ⟨h.failure, apiReplyLimit method path, _⟩) hlimit _ _ _ _
    · exact length_jsonFinish_le (j := ⟨h.failure, apiReplyLimit method path, h.error⟩) hlimit _ _ _ _

theorem Status.http_ne_zero (code : Status) : code.http ≠ 0 := by
  cases code <;> decide

theorem status_jsonFinish_ne_zero (j : Json) {status : ℕ} (hstatus : status ≠ 0) (text : Option Bytes)
    (alloc : Bool) (m : ErrorMemory) : (jsonFinish j status text alloc m).status ≠ 0 := by
  unfold jsonFinish
  split
  · exact hstatus
  · unfold httpError
    split
    · exact Status.http_ne_zero _
    · exact (by decide : 503 ≠ 0)

/-- Every reply has a status. -/
theorem status_apiDispatch_ne_zero (method path : Bytes) (initialized : Bool) (h : Handled) :
    (apiDispatch method path initialized h).status ≠ 0 := by
  unfold apiDispatch
  dsimp only
  split
  · exact status_jsonFinish_ne_zero _ (by decide) _ _ _
  · split
    · exact (by decide : 405 ≠ 0)
    · exact status_jsonFinish_ne_zero _ (by cases h.status <;> decide) _ _ _

/-! ### Requests and responses -/

/-- `RESPONSE_BUDGET`. -/
def responseBudget : ℕ := 32 * 1024 * 1024

/-- `QUEUE_LIMIT`. -/
def queueLimit : ℕ := 32

/-- `WORKERS`. -/
def workerCount : ℕ := 4

/-- Where a request is. -/
inductive RequestPhase
  /-- With the library, which may call the handler or complete it. -/
  | idle
  /-- In `send_reply`, after its reply was charged. -/
  | sending
  /-- Suspended, waiting for a worker. -/
  | queued
  /-- Suspended, with a worker. -/
  | working
deriving DecidableEq, Repr

/-- `request`. A reply that was not made yet has the status zero. -/
structure HttpRequest where
  method : Bytes
  path : Bytes
  phase : RequestPhase
  ready : Bool
  charge : ℕ
  reply : HttpReply
deriving DecidableEq, Repr

/-- The reply of a zeroed request. -/
def HttpReply.zeroed : HttpReply := ⟨0, []⟩

/-- `response_holder`. -/
structure ResponseHolder where
  reply : HttpReply
  reserved : Bool
deriving DecidableEq, Repr

/-- What a holder gives back. -/
def ResponseHolder.length (h : ResponseHolder) : ℕ := if h.reserved then h.reply.body.length else 0

/-- The server as far as replies are concerned. -/
structure ResponseServer where
  responseBytes : ℕ
  stopping : Bool
  requests : List HttpRequest
  holders : List ResponseHolder
deriving DecidableEq, Repr

/-- What can happen; requests and responses are given by their places in the lists. -/
inductive ResponseMove
  /-- The first call of the handler. -/
  | arrive (method path : Bytes)
  /-- The handler makes a reply itself: an error, a session, or one of `wadb_json_finish`. -/
  | answer (k : ℕ) (reply : HttpReply)
  /-- The critical section of `send_reply`. -/
  | send (k : ℕ)
  /-- Its end: the holder is allocated or not. -/
  | hold (k : ℕ) (alloc : Bool)
  /-- A request is queued and its connection suspended. -/
  | enqueue (k : ℕ)
  /-- A worker takes a request. -/
  | take (k : ℕ)
  /-- The worker has the reply, and the connection is resumed. -/
  | finish (k : ℕ) (initialized : Bool) (h : Handled)
  /-- `release_response`: the response could not be created, or the library frees it. -/
  | release (k : ℕ)
  /-- `completed`. -/
  | complete (k : ℕ)
  | stop

namespace ResponseServer

/-- One step; a move that is not possible changes nothing. -/
def next (s : ResponseServer) : ResponseMove → ResponseServer
  | .arrive method path =>
    { s with requests := ⟨method, path, .idle, false, 0, .zeroed⟩ :: s.requests }
  | .answer k reply =>
    match s.requests[k]? with
    | some r =>
      if r.phase = .idle ∧ r.ready = false ∧ r.reply.status = 0 ∧ reply.status ≠ 0 then
        { s with requests := s.requests.set k { r with reply := reply } }
      else s
    | none => s
  | .send k =>
    match s.requests[k]? with
    | some r =>
      if r.phase = .idle ∧ (r.ready = true ∨ r.reply.status ≠ 0) then
        if r.charge = 0 then
          -- a reply that does not fit closes the connection
          if u64Sub responseBudget s.responseBytes < r.reply.body.length then s
          else { s with
            responseBytes := u64 (s.responseBytes + r.reply.body.length)
            requests := s.requests.set k
              { r with charge := r.reply.body.length, phase := .sending } }
        else { s with requests := s.requests.set k { r with phase := .sending } }
      else s
    | none => s
  | .hold k alloc =>
    match s.requests[k]? with
    | some r =>
      if r.phase = .sending then
        if alloc then { s with
          requests := s.requests.set k { r with reply := .zeroed, charge := 0, phase := .idle }
          holders := ⟨r.reply, r.charge ≠ 0⟩ :: s.holders }
        else { s with requests := s.requests.set k { r with phase := .idle } }
      else s
    | none => s
  | .enqueue k =>
    match s.requests[k]? with
    | some r =>
      let limit := apiReplyLimit r.method r.path
      if r.phase = .idle ∧ r.ready = false ∧ r.reply.status = 0 then
        if s.stopping ∨ queueLimit ≤ s.requests.countP (·.phase = .queued) ∨
            u64Sub responseBudget s.responseBytes < limit + 65536 then s
        else { s with
          responseBytes := u64 (s.responseBytes + limit)
          requests := s.requests.set k { r with charge := limit, phase := .queued } }
      else s
    | none => s
  | .take k =>
    match s.requests[k]? with
    | some r =>
      if r.phase = .queued ∧ s.requests.countP (·.phase = .working) < workerCount then
        { s with requests := s.requests.set k { r with phase := .working } }
      else s
    | none => s
  | .finish k initialized h =>
    match s.requests[k]? with
    | some r =>
      if r.phase = .working then
        let reply := apiDispatch r.method r.path initialized h
        { s with
          responseBytes := u64Sub s.responseBytes (u64Sub r.charge reply.body.length)
          requests := s.requests.set k
            { r with reply := reply, charge := reply.body.length, ready := true, phase := .idle } }
      else s
    | none => s
  | .release k =>
    match s.holders[k]? with
    | some h => { s with
        responseBytes := if h.reserved then u64Sub s.responseBytes h.reply.body.length
          else s.responseBytes
        holders := s.holders.eraseIdx k }
    | none => s
  | .complete k =>
    match s.requests[k]? with
    | some r =>
      if r.phase = .idle then { s with
        responseBytes := u64Sub s.responseBytes r.charge
        requests := s.requests.eraseIdx k }
      else s
    | none => s
  | .stop => { s with stopping := true }

def initial : ResponseServer := ⟨0, false, [], []⟩

/-- **Any order of the critical sections** of the handler, the workers and the callbacks. -/
def machine : Machine ResponseServer ResponseMove where
  init s := s = initial
  step s move s' := s' = s.next move

/-! ### What is charged -/

/-- The charge of a request says what it stands for: the limit of its endpoint while a worker is to answer
it, and otherwise its reply, if that is charged yet. -/
structure Sound (r : HttpRequest) : Prop where
  fresh : r.reply.status = 0 → r.reply.body = []
  idle : r.phase = .idle → r.charge = 0 ∨ r.charge = r.reply.body.length
  sending : r.phase = .sending → r.charge = r.reply.body.length
  suspended : r.phase = .queued ∨ r.phase = .working → r.charge = apiReplyLimit r.method r.path

namespace Sound

variable {r : HttpRequest}

theorem of_idle (hphase : r.phase = .idle) (hfresh : r.reply.status = 0 → r.reply.body = [])
    (hcharge : r.charge = 0 ∨ r.charge = r.reply.body.length) : Sound r where
  fresh := hfresh
  idle _ := hcharge
  sending hno := absurd (hphase.symm.trans hno) (by decide)
  suspended hno := by
    rcases hno with hno | hno <;> exact absurd (hphase.symm.trans hno) (by decide)

theorem of_sending (hphase : r.phase = .sending) (hfresh : r.reply.status = 0 → r.reply.body = [])
    (hcharge : r.charge = r.reply.body.length) : Sound r where
  fresh := hfresh
  idle hno := absurd (hphase.symm.trans hno) (by decide)
  sending _ := hcharge
  suspended hno := by
    rcases hno with hno | hno <;> exact absurd (hphase.symm.trans hno) (by decide)

theorem of_suspended (hphase : r.phase = .queued ∨ r.phase = .working)
    (hfresh : r.reply.status = 0 → r.reply.body = [])
    (hcharge : r.charge = apiReplyLimit r.method r.path) : Sound r where
  fresh := hfresh
  idle hno := by rcases hphase with hphase | hphase <;> exact absurd (hphase.symm.trans hno) (by decide)
  sending hno := by
    rcases hphase with hphase | hphase <;> exact absurd (hphase.symm.trans hno) (by decide)
  suspended _ := hcharge

/-- A request that has no reply yet is not charged. -/
theorem charge_eq_zero (h : Sound r) (hphase : r.phase = .idle) (hstatus : r.reply.status = 0) :
    r.charge = 0 := by
  rcases h.idle hphase with hzero | hlength
  · exact hzero
  · rw [hlength, h.fresh hstatus]
    rfl

end Sound

/-- **The invariant.** -/
structure Inv (s : ResponseServer) : Prop where
  bytes_eq : s.responseBytes =
    (s.requests.map HttpRequest.charge).sum + (s.holders.map ResponseHolder.length).sum
  bytes_le : s.responseBytes ≤ responseBudget
  sound : ∀ r ∈ s.requests, Sound r

section Steps

variable {s : ResponseServer} {r q : HttpRequest} {k : ℕ}

theorem Inv.bytes_lt (h : s.Inv) : s.responseBytes < 2 ^ 64 := by
  have := h.bytes_le
  unfold responseBudget at this
  omega

theorem sum_set (hk : s.requests[k]? = some r) (q : HttpRequest) :
    ((s.requests.set k q).map HttpRequest.charge).sum + r.charge =
      (s.requests.map HttpRequest.charge).sum + q.charge := by
  generalize s.requests = l at hk
  induction l generalizing k with
  | nil => simp at hk
  | cons x l ih =>
    cases k with
    | zero =>
      cases hk
      simp only [set_cons_zero, map_cons, sum_cons]
      omega
    | succ k =>
      have := ih hk
      simp only [set_cons_succ, map_cons, sum_cons]
      omega

section

variable (h : s.Inv)
include h

theorem Inv.charge_le (hr : r ∈ s.requests) : r.charge ≤ s.responseBytes := by
  rw [h.bytes_eq]
  exact (le_sum_of_mem (mem_map_of_mem hr)).trans (Nat.le_add_right _ _)

/-- **A step of one request.** -/
theorem Inv.set (hk : s.requests[k]? = some r) (hsound : Sound q) {bytes : ℕ}
    {holders : List ResponseHolder}
    (hbytes : bytes + r.charge + (s.holders.map ResponseHolder.length).sum =
      s.responseBytes + q.charge + (holders.map ResponseHolder.length).sum)
    (hle : bytes ≤ responseBudget) :
    Inv { s with responseBytes := bytes, requests := s.requests.set k q, holders := holders } where
  bytes_eq := by
    have hsum := sum_set hk q
    have heq := h.bytes_eq
    dsimp only
    omega
  bytes_le := hle
  sound x hx := by
    rcases mem_or_eq_of_mem_set hx with hx | rfl
    · exact h.sound x hx
    · exact hsound

/-- A step that charges nothing. -/
theorem Inv.set_same (hk : s.requests[k]? = some r) (hsound : Sound q)
    (hcharge : q.charge = r.charge) : Inv { s with requests := s.requests.set k q } :=
  h.set hk hsound (by rw [hcharge]) h.bytes_le

/-- **A request is charged more**, if that fits. -/
theorem Inv.charged (hk : s.requests[k]? = some r) (hzero : r.charge = 0)
    (hsound : Sound q) (hfits : ¬ u64Sub responseBudget s.responseBytes < q.charge) :
    Inv { s with
      responseBytes := u64 (s.responseBytes + q.charge)
      requests := s.requests.set k q } := by
  have hle := h.bytes_le
  have hbudget : responseBudget < 2 ^ 64 := by decide
  rw [u64Sub_of_le hbudget hle] at hfits
  have hsum : u64 (s.responseBytes + q.charge) = s.responseBytes + q.charge := u64_of_lt (by omega)
  rw [hsum]
  exact h.set hk hsound (by omega) (by omega)

/-- **The handler has made a reply.** -/
theorem Inv.answered (hk : s.requests[k]? = some r) (hphase : r.phase = .idle)
    (hstatus : r.reply.status = 0) {reply : HttpReply} (hreply : reply.status ≠ 0) :
    Inv { s with requests := s.requests.set k { r with reply := reply } } := by
  have hsound := h.sound r (mem_of_getElem? hk)
  have hzero := hsound.charge_eq_zero hphase hstatus
  exact h.set_same hk (.of_idle hphase (fun hno ↦ absurd hno hreply) (.inl hzero)) rfl

/-- **A reply is charged when it is sent**, unless it is charged already. -/
theorem Inv.sent (k : ℕ) : (s.next (.send k)).Inv := by
  simp only [next]
  split
  swap
  · exact h
  next r hk =>
    have hsound := h.sound r (mem_of_getElem? hk)
    split
    swap
    · exact h
    next hcan =>
      split
      next hzero =>
        split
        · exact h
        next hfits =>
          exact h.charged hk hzero
            (q := { r with charge := r.reply.body.length, phase := .sending })
            (.of_sending rfl hsound.fresh rfl) hfits
      next hcharged =>
        have hlength := (hsound.idle hcan.1).resolve_left hcharged
        exact h.set_same hk (.of_sending rfl hsound.fresh hlength) rfl

/-- **The response takes the charge along.** -/
theorem Inv.held (hk : s.requests[k]? = some r) (hphase : r.phase = .sending) : Inv { s with
      requests := s.requests.set k { r with reply := .zeroed, charge := 0, phase := .idle }
      holders := ⟨r.reply, r.charge ≠ 0⟩ :: s.holders } := by
  have hcharge := (h.sound r (mem_of_getElem? hk)).sending hphase
  have hlength : ResponseHolder.length ⟨r.reply, r.charge ≠ 0⟩ = r.charge := by
    unfold ResponseHolder.length
    by_cases hzero : r.charge = 0
    · simp [hzero]
    · simp only [hzero, not_false_eq_true, decide_true, if_true, ne_eq]
      exact hcharge.symm
  refine h.set hk (.of_idle rfl (fun _ ↦ rfl) (.inl rfl)) ?_ h.bytes_le
  rw [map_cons, sum_cons, hlength]
  dsimp only
  omega

/-- **A worker has the reply**, and the charge shrinks to its length. -/
theorem Inv.finished (hk : s.requests[k]? = some r) (hphase : r.phase = .working)
    {reply : HttpReply} (hlength : reply.body.length ≤ apiReplyLimit r.method r.path)
    (hreply : reply.status ≠ 0) :
    Inv { s with
      responseBytes := u64Sub s.responseBytes (u64Sub r.charge reply.body.length)
      requests := s.requests.set k
        { r with reply := reply, charge := reply.body.length, ready := true, phase := .idle } } := by
  have hmem := mem_of_getElem? hk
  have hcharge := (h.sound r hmem).suspended (.inr hphase)
  have hle := h.charge_le hmem
  have hlt := h.bytes_lt
  have hbytes := h.bytes_le
  rw [u64Sub_of_le (hle.trans_lt hlt) (by omega), u64Sub_of_le hlt (by omega)]
  refine h.set hk (.of_idle rfl (fun hno ↦ absurd hno hreply) (.inr rfl)) ?_ ?_
  · dsimp only
    omega
  · omega

/-- **A response is released.** -/
theorem Inv.released {x : ResponseHolder} (hx : s.holders[k]? = some x) : Inv { s with
      responseBytes := if x.reserved then u64Sub s.responseBytes x.reply.body.length
        else s.responseBytes
      holders := s.holders.eraseIdx k } := by
  obtain ⟨hk, rfl⟩ := List.getElem?_eq_some_iff.1 hx
  have hsum := ((getElem_cons_eraseIdx_perm hk).map ResponseHolder.length).sum_eq
  rw [map_cons, sum_cons] at hsum
  have heq := h.bytes_eq
  have hle := h.bytes_le
  have hlt := h.bytes_lt
  have hgiven : (if s.holders[k].reserved then
      u64Sub s.responseBytes s.holders[k].reply.body.length else s.responseBytes) =
      s.responseBytes - s.holders[k].length := by
    by_cases hreserved : s.holders[k].reserved = true
    · have hlength : s.holders[k].length = s.holders[k].reply.body.length := if_pos hreserved
      rw [if_pos hreserved, ← hlength]
      exact u64Sub_of_le hlt (by omega)
    · have hlength : s.holders[k].length = 0 := if_neg hreserved
      rw [if_neg hreserved, hlength, Nat.sub_zero]
  rw [hgiven]
  refine ⟨?_, ?_, h.sound⟩ <;> dsimp only <;> omega

/-- **A request is completed.** -/
theorem Inv.completed (hk : s.requests[k]? = some r) : Inv { s with
      responseBytes := u64Sub s.responseBytes r.charge
      requests := s.requests.eraseIdx k } := by
  have hle := h.charge_le (mem_of_getElem? hk)
  obtain ⟨hlt, rfl⟩ := List.getElem?_eq_some_iff.1 hk
  have hsum := ((getElem_cons_eraseIdx_perm hlt).map HttpRequest.charge).sum_eq
  rw [map_cons, sum_cons] at hsum
  have heq := h.bytes_eq
  have hbytes := h.bytes_le
  rw [u64Sub_of_le h.bytes_lt hle]
  refine ⟨?_, ?_, fun x hx ↦ h.sound x (mem_of_mem_eraseIdx hx)⟩ <;> dsimp only <;> omega

theorem Inv.next (move : ResponseMove) : (s.next move).Inv := by
  cases move with
  | arrive method path =>
    refine ⟨?_, h.bytes_le, fun r hr ↦ ?_⟩
    · simp only [ResponseServer.next, map_cons, sum_cons, zero_add]
      exact h.bytes_eq
    · rcases mem_cons.1 hr with rfl | hr
      · exact .of_idle rfl (fun _ ↦ rfl) (.inl rfl)
      · exact h.sound r hr
  | answer k reply =>
    simp only [ResponseServer.next]
    split
    next r hk =>
      split
      next hcan => exact h.answered hk hcan.1 hcan.2.2.1 hcan.2.2.2
      · exact h
    · exact h
  | send k => exact h.sent k
  | hold k alloc =>
    simp only [ResponseServer.next]
    split
    next r hk =>
      have hsound := h.sound r (mem_of_getElem? hk)
      split
      next hphase =>
        split
        · exact h.held hk hphase
        · exact h.set_same hk (.of_idle rfl hsound.fresh (.inr (hsound.sending hphase))) rfl
      · exact h
    · exact h
  | enqueue k =>
    simp only [ResponseServer.next]
    split
    next r hk =>
      have hsound := h.sound r (mem_of_getElem? hk)
      split
      next hcan =>
        split
        · exact h
        next hfits =>
          push Not at hfits
          have hzero := hsound.charge_eq_zero hcan.1 hcan.2.2
          refine h.charged hk hzero
            (q := { r with charge := apiReplyLimit r.method r.path, phase := .queued })
            (.of_suspended (.inl rfl) hsound.fresh rfl) ?_
          have := hfits.2.2
          dsimp only
          omega
      · exact h
    · exact h
  | take k =>
    simp only [ResponseServer.next]
    split
    next r hk =>
      have hsound := h.sound r (mem_of_getElem? hk)
      split
      next hcan =>
        have hcharge := hsound.suspended (.inl hcan.1)
        exact h.set_same hk (.of_suspended (.inr rfl) hsound.fresh hcharge) rfl
      · exact h
    · exact h
  | finish k initialized handled =>
    simp only [ResponseServer.next]
    split
    next r hk =>
      split
      next hphase =>
        exact h.finished hk hphase (length_apiDispatch_le _ _ _ _) (status_apiDispatch_ne_zero _ _ _ _)
      · exact h
    · exact h
  | release k =>
    simp only [ResponseServer.next]
    split
    next x hx => exact h.released hx
    · exact h
  | complete k =>
    simp only [ResponseServer.next]
    split
    next r hk =>
      split
      · exact h.completed hk
      · exact h
    · exact h
  | stop => exact ⟨h.bytes_eq, h.bytes_le, h.sound⟩

end

theorem inv_of_reach (h : machine.Reach s) : s.Inv := by
  refine h.invariant ?_ ?_
  · rintro s rfl
    exact ⟨rfl, zero_le, fun r hr ↦ by cases hr⟩
  · rintro s move s' - hs rfl
    exact hs.next move

/-- **The budget of responses is conserved.** In every reachable state `response_bytes` is what the
requests are charged and what the reserved responses hold, within the budget; while a worker has a request,
whatever the endpoint does its reply is no longer than the charge; and no reply of the interface is longer
than the limit of its method and path. -/
theorem responses_conserved (h : machine.Reach s) :
    s.responseBytes =
        (s.requests.map HttpRequest.charge).sum + (s.holders.map ResponseHolder.length).sum ∧
      s.responseBytes ≤ responseBudget ∧
      (∀ r ∈ s.requests, r.phase = .working → ∀ initialized handled,
        (apiDispatch r.method r.path initialized handled).body.length ≤ r.charge) ∧
      ∀ method path initialized handled,
        (apiDispatch method path initialized handled).body.length ≤ apiReplyLimit method path := by
  have hinv := inv_of_reach h
  refine ⟨hinv.bytes_eq, hinv.bytes_le, fun r hr hphase initialized handled ↦ ?_,
    length_apiDispatch_le⟩
  rw [(hinv.sound r hr).suspended (Or.inr hphase)]
  exact length_apiDispatch_le _ _ _ _

end Steps

/-- Which allocations succeed: all of them. -/
def fullMemory : ErrorMemory := ⟨true, true, true, true, true, true, true, true⟩

/-- An endpoint that fails with a message of 255 control characters. -/
def worstError : Handled :=
  ⟨.created, none, some (.invalid, .format (List.replicate 300 1)), none, true, fullMemory⟩

/-- An append that fails in this way, up to the end of its request. -/
def worstAppend : List ResponseMove :=
  [.arrive (ascii "POST") (ascii "/api/v1/tables/7/append"), .enqueue 0, .take 0,
    .finish 0 true worstError, .send 0, .hold 0 true, .complete 0]

/-- The response is still held, with less than the 4096 bytes that were reserved. -/
theorem responses_conserved_worstAppend :
    (worstAppend.foldl next initial).requests = [] ∧
      (worstAppend.foldl next initial).responseBytes = 1582 ∧
      (worstAppend.foldl next initial).responseBytes ≤ responseBudget := by
  have hreach : machine.Reach (worstAppend.foldl next initial) :=
    .foldl (fun _ _ ↦ rfl) (.init rfl) _
  exact ⟨by decide +kernel, by decide +kernel, (responses_conserved hreach).2.1⟩

end ResponseServer

end WebAnalyticsDb
