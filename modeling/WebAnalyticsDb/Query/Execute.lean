import WebAnalyticsDb.Foundation.MergeSort
import WebAnalyticsDb.Query.Plan

/-!
# Executing queries

A plan is run over a snapshot: rows that match are copied to the result, or are reduced to one value per
aggregate in the group of their key, and the groups are put in order at the end: `query/query.c`.

* **The execution** is the context of the scan's callback. Its memory is charged to the budget of the
  query: rows, groups, the table that finds groups by their key, and copied byte strings.
* **Errors** of the callback are kept in the execution, because the scan that it stops reports only their
  status.
* **Half-filled rows and groups** are not modelled: a row or a group is added when its values are copied,
  and where that fails the whole result is dropped.
* **Binary64 arithmetic** is a parameter. It is used for averages and for sums of floating-point fields;
  comparisons do not need it.

What the engine counts about queries (`wadb_record_query`) is left out.
-/

namespace WebAnalyticsDb

open Bytes

variable {c : Config} {α : Type}

/-! ### Executions -/

/-- The arithmetic of binary64 numbers, on their bits. -/
structure F64 where
  add : ℕ → ℕ → ℕ
  mul : ℕ → ℕ → ℕ
  div : ℕ → ℕ → ℕ
  ofInt : ℤ → ℕ

/-- `query_result` with its `wadb_result`. The columns are those of the plan. -/
structure QueryResult where
  rows : List (List Value)
  /-- The sequence numbers of the rows of a scan. -/
  sequences : List ℕ
  capacity : ℕ
  matchedRows : ℕ
  totalGroups : ℕ
  stats : ScanStats
  hasMore : Bool
deriving DecidableEq, Repr

/-- `query_group`. -/
structure QueryGroup where
  hash : ℕ
  keys : List Value
  aggregates : List Value
  /-- How many values each aggregate has taken. -/
  nonnull : List ℕ
deriving DecidableEq, Repr, Inhabited

/-- `execution`, without the plan. -/
structure Execution where
  result : QueryResult
  groups : List QueryGroup
  groupCapacity : ℕ
  slots : List ℕ
  used : ℕ
  lastSequence : ℕ
  deadline : ℕ
  stopped : Bool
  error : Option Error
deriving DecidableEq, Repr

def sizeofValue : ℕ := 24
def sizeofQueryGroup : ℕ := 736
def sizeofQueryResult : ℕ := 160
def sizeofResultColumn : ℕ := 68
/-- `sizeof(size_t)`. -/
def sizeofSize : ℕ := 8

/-- The execution before the first row. -/
def Execution.start (used after deadline : ℕ) : Execution :=
  ⟨⟨[], [], 0, 0, 0, .zero, false⟩, [], 0, [], used, after, deadline, false, none⟩

/-- `return wadb_fail(&x->error, code, …)`. -/
def execFail (code : Status) (message : String) : Io Execution α := do
  Prog.modify fun x ↦ { x with error := some ⟨code, message⟩ }
  wadbFail code message

/-- `if (!b) return wadb_fail(&x->error, code, …)`. -/
def execRequire (b : Bool) (code : Status) (message : String) : Io Execution Unit :=
  if b then pure () else execFail code message

/-- An allocation of the query. -/
def execAlloc (message : String) : Io Execution Unit := do
  let ok ← Prog.alloc
  execRequire ok .nomem message

/-- The clock has not reached the deadline of the query. -/
def execDeadline (message : String) : Io Execution Unit := do
  let now ← Prog.clock
  let x ← Prog.get
  execRequire (now < x.deadline) .limit message

/-- `charge`. -/
def charge (p : QueryPlan) (n : ℕ) : Io Execution Unit := do
  let x ← Prog.get
  execRequire (n ≤ u64Sub p.options.memoryLimitBytes x.used) .limit "query memory budget exceeded"
  Prog.modify fun x ↦ { x with used := u64 (x.used + n) }

/-- `copy_value`: byte strings are copied. -/
def copyValue (p : QueryPlan) (type : FieldType) (v : Value) : Io Execution Unit :=
  if !v.isNull && typeBytes type then do
    charge p (v.bytes.length + 1)
    execAlloc "query string"
  else pure ()

/-- The values of the first columns are copied. -/
def copyValues (p : QueryPlan) : List (ResultColumn × Value) → Io Execution Unit
  | [] => pure ()
  | (column, v) :: rest => do
    copyValue p column.type v
    copyValues p rest

/-- An array of rows that is full doubles, up to the number of rows that are wanted. -/
def QueryPlan.rowCapacity (p : QueryPlan) (capacity : ℕ) : ℕ :=
  min (if capacity ≠ 0 then capacity * 2 else 16) p.options.scan.limit

/-- The bytes of a row without its byte strings. -/
def QueryPlan.rowWidth (p : QueryPlan) : ℕ :=
  p.columns.length * sizeofValue + if p.options.aggregates.isEmpty then 8 else 0

/-- The array of rows grows if it is full. -/
def growRows (p : QueryPlan) : Io Execution Unit := do
  let x ← Prog.get
  if x.result.rows.length = x.result.capacity then
    let cap := p.rowCapacity x.result.capacity
    charge p ((cap - x.result.capacity) * p.rowWidth)
    execAlloc "query result cells"
    if p.options.aggregates.isEmpty then execAlloc "query result sequences"
    Prog.modify fun x ↦ { x with result := { x.result with capacity := cap } }

/-- The result with one more row. -/
def QueryResult.add (r : QueryResult) (p : QueryPlan) (values : List Value) (sequence : ℕ) :
    QueryResult :=
  { r with
    rows := r.rows ++ [values]
    sequences := if p.options.aggregates.isEmpty then r.sequences ++ [sequence] else r.sequences }

/-- `result_row`. -/
def resultRow (p : QueryPlan) (values : List Value) (sequence : ℕ) : Io Execution Unit := do
  growRows p
  copyValues p (p.columns.zip values)
  Prog.modify fun x ↦ { x with result := x.result.add p values sequence }

/-! ### Matching -/

/-- The comparison of a filter holds. -/
def FilterOp.accepts (op : FilterOp) (cmp : ℤ) : Bool :=
  match op with
  | .eq => cmp = 0
  | .ne => cmp ≠ 0
  | .lt => cmp < 0
  | .le => cmp ≤ 0
  | .gt => cmp > 0
  | _ => cmp ≥ 0

/-- The type of a field. -/
def Schema.typeOf (s : Schema) (field : ℕ) : FieldType := (s.fields[field]?.map (·.type)).getD .unknown

/-- The value of a field in a row. -/
def valueAt (values : List Value) (field : ℕ) : Value := values.getD field .null

/-- One filter. -/
def Predicate.holds (s : Schema) (f : Predicate) (values : List Value) : Bool :=
  let v := valueAt values f.field
  if f.op = .isNull then v.isNull
  else if f.op = .isNotNull then !v.isNull
  else !v.isNull && f.op.accepts (valueCompare (s.typeOf f.field) v f.value)

/-- `matches`. -/
def QueryPlan.matches (p : QueryPlan) (s : Schema) (values : List Value) : Bool :=
  p.filters.all fun f ↦ f.holds s values

/-! ### Groups -/

/-- The 64 bits of a key that is not null: the length of a byte string, a number, or a floating-point
number, of which there is only one zero. -/
def keyBits (type : FieldType) (v : Value) : ℕ :=
  if typeBytes type then v.bytes.length
  else if typeFloat type then (if v.u64 % 2 ^ 63 = 0 then 0 else v.u64)
  else v.u64

/-- What one key adds to the hash. -/
def hashKey (hash : UInt64) (x : ResultColumn × Value) : UInt64 :=
  let (column, v) := x
  if v.isNull then hashBytes [1] hash
  else
    let hash := hashBytes (0 :: ofNatLE 8 (keyBits column.type v)) hash
    if typeBytes column.type then hashBytes v.bytes hash else hash

/-- `hash_keys`. -/
def hashKeys (p : QueryPlan) (keys : List Value) : ℕ :=
  ((p.keyColumns.zip keys).foldl hashKey hashBasis).toNat

/-- The keys are equal, column by column. -/
def QueryPlan.sameKeys (p : QueryPlan) (a b : List Value) : Bool :=
  (p.keyColumns.zip (a.zip b)).all fun x ↦ valueCompare x.1.type x.2.1 x.2.2 = 0

/-- The group at position `i` is the one looked for. -/
def Execution.isGroup (x : Execution) (p : QueryPlan) (keys : List Value) (i : ℕ) : Bool :=
  match x.groups[i]? with
  | none => false
  | some g => g.hash = hashKeys p keys && p.sameKeys g.keys keys

/-- The lookup of `group_for`: the position of the group plus one, or zero. -/
def Execution.findGroup (x : Execution) (p : QueryPlan) (keys : List Value) : Option ℕ :=
  if x.slots.length ≠ 0 then OpenAddressing.find x.slots (hashKeys p keys) (x.isGroup p keys)
  else some 0

/-- The array of groups grows if it is full. -/
def growGroups (p : QueryPlan) : Io Execution Unit := do
  let x ← Prog.get
  if x.groups.length = x.groupCapacity then
    let cap := min (if x.groupCapacity ≠ 0 then x.groupCapacity * 2 else 16) p.options.maxGroups
    charge p ((cap - x.groupCapacity) * sizeofQueryGroup)
    execAlloc "query groups"
    Prog.modify fun x ↦ { x with groupCapacity := cap }

/-- The table of groups doubles when it would be more than half full. Both tables are charged while one
is filled from the other. -/
def growTable (p : QueryPlan) : Io Execution Unit := do
  let x ← Prog.get
  if x.slots.length < (x.groups.length + 1) * 2 then
    let count := if x.slots.length ≠ 0 then x.slots.length * 2 else 32
    charge p (count * sizeofSlot)
    execAlloc "group hash index"
    Prog.modify fun x ↦ { x with
      slots := OpenAddressing.fill (List.replicate count 0) 0 (x.groups.map (·.hash))
      used := u64Sub x.used (x.slots.length * sizeofSlot) }

/-- A group that has taken no row. -/
def QueryGroup.empty (p : QueryPlan) (keys : List Value) : QueryGroup where
  hash := hashKeys p keys
  keys := keys
  aggregates := p.aggregates.map fun a ↦ ⟨!a.op.counts, 0, []⟩
  nonnull := p.aggregates.map fun _ ↦ 0

/-- The execution with one more group. -/
def Execution.addGroup (x : Execution) (p : QueryPlan) (keys : List Value) : Execution :=
  { x with
    groups := x.groups ++ [.empty p keys]
    slots := OpenAddressing.insert x.slots (hashKeys p keys) (x.groups.length + 1) }

/-- `group_for`: the position of the group of some keys. -/
def groupFor (p : QueryPlan) (keys : List Value) : Io Execution ℕ := do
  let x ← Prog.get
  match x.findGroup p keys with
  | none => Prog.die
  | some (i + 1) => pure i
  | some 0 =>
    execRequire (x.groups.length ≠ p.options.maxGroups) .limit "group count exceeds query budget"
    growGroups p
    growTable p
    copyValues p (p.keyColumns.zip keys)
    Prog.modify (·.addGroup p keys)
    pure x.groups.length

/-! ### Aggregates -/

/-- The sum of two values, if it is in the range of the result. -/
def sumValues (F : F64) (type : FieldType) (out v : Value) : Option Value :=
  if typeFloat type then
    let r := F.add out.u64 v.u64
    if f64Finite r then some { out with word := UInt64.ofNat r } else none
  else if typeSigned type then
    if (v.i64 > 0 ∧ out.i64 > int64Max - v.i64) ∨ (v.i64 < 0 ∧ out.i64 < -2 ^ 63 - v.i64) then none
    else some { out with word := UInt64.ofNat (i64Bits (out.i64 + v.i64)) }
  else if v.u64 > uint64Max - out.u64 then none
  else some { out with word := UInt64.ofNat (out.u64 + v.u64) }

/-- The mean after the `n`-th value. -/
def averageValues (F : F64) (type : FieldType) (n : ℕ) (out v : Value) : Option Value :=
  let value := if typeFloat type then v.u64 else if typeSigned type then F.ofInt v.i64 else F.ofInt v.u64
  let r := if n = 1 then value
    else F.add (F.mul out.u64 (F.div (F.ofInt (n - 1)) (F.ofInt n))) (F.div value (F.ofInt n))
  if f64Finite r then some { out with word := UInt64.ofNat r } else none

/-- What an aggregate holds after one more row, and how many values it has taken; nothing if a number
leaves its range. -/
def reduceValue (F : F64) (s : Schema) (a : Reduction) (values : List Value) (held : Value × ℕ) :
    Option (Value × ℕ) :=
  let (out, taken) := held
  let v := valueAt values a.field
  let type := s.typeOf a.field
  let n := taken + 1
  if a.op ≠ .countAll ∧ v.isNull then some held
  else if taken = uint64Max then none
  else if a.op.counts then some ({ out with word := UInt64.ofNat n }, n)
  else
    let next : Option Value :=
      if a.op = .avg then averageValues F type n out v
      else if n = 1 then some v
      else if a.op = .sum then sumValues F type out v
      else
        let cmp := valueCompare type v out
        some (if (a.op = .min ∧ cmp < 0) ∨ (a.op = .max ∧ cmp > 0) then v else out)
    next.map fun out ↦ ({ out with isNull := false }, n)

/-- The loop over the aggregates. -/
def reduceAll (F : F64) (s : Schema) (values : List Value) :
    List Reduction → List (Value × ℕ) → Option (List (Value × ℕ))
  | a :: as, held :: rest =>
    match reduceValue F s a values held with
    | none => none
    | some held => (reduceAll F s values as rest).map (held :: ·)
  | _, held => some held

/-- A group with the given values of its aggregates. -/
def QueryGroup.holding (g : QueryGroup) (held : List (Value × ℕ)) : QueryGroup :=
  { g with aggregates := held.map (·.1), nonnull := held.map (·.2) }

/-- `reduce`. -/
def reduce (F : F64) (s : Schema) (p : QueryPlan) (i : ℕ) (values : List Value) : Io Execution Unit := do
  let x ← Prog.get
  let g := x.groups.getD i default
  match reduceAll F s values p.aggregates (g.aggregates.zip g.nonnull) with
  | none => execFail .limit "aggregate arithmetic overflow"
  | some held => Prog.modify fun x ↦ { x with groups := x.groups.set i (g.holding held) }

/-! ### Rows -/

/-- The keys of a row. -/
def rowKeys (p : QueryPlan) (values : List Value) : Io Execution (List Value) := do
  let keys := p.groups.map (valueAt values)
  if p.options.bucketWidthUs = 0 then pure keys
  else
    match bucketFloor (valueAt values 0).i64 p.options.bucketWidthUs p.options.bucketOriginUs with
    | none => Prog.die
    | some (.error e) => execFail e.code e.message
    | some (.ok bucket) => pure (.ofInt bucket :: keys)

/-- `consume`: the callback of the scan. A scan that has its rows stops with `WADB_CANCELLED`. -/
def consume (F : F64) (s : Schema) (p : QueryPlan) : Consumer Execution := fun sequence values ↦ do
  Prog.modify fun x ↦ { x with lastSequence := sequence }
  if p.matches s values then
    let x ← Prog.get
    execRequire (x.result.matchedRows ≠ uint64Max) .limit "matched row count overflow"
    Prog.modify fun x ↦
      { x with result := { x.result with matchedRows := x.result.matchedRows + 1 } }
    if p.options.aggregates.isEmpty then
      resultRow p (p.projection.map (valueAt values)) sequence
      let x ← Prog.get
      if x.result.rows.length = p.options.scan.limit then
        Prog.modify fun x ↦ { x with stopped := true }
        wadbFail .cancelled ""
    else
      let keys ← rowKeys p values
      let i ← groupFor p keys
      reduce F s p i values

/-! ### The order of the groups -/

/-- The value of a group in a column of the result. -/
def QueryGroup.cell (p : QueryPlan) (g : QueryGroup) (column : ℕ) : Value :=
  if column < p.keyCount then valueAt g.keys column else valueAt g.aggregates (column - p.keyCount)

/-- `compare_groups`. -/
def compareGroups (p : QueryPlan) (groups : List QueryGroup) (column a b : ℕ) : ℤ :=
  let va := (groups.getD a default).cell p column
  let vb := (groups.getD b default).cell p column
  let type := (p.columns[column]?.map (·.type)).getD .unknown
  let cmp := valueCompare type va vb
  let cmp := if !va.isNull && !vb.isNull && p.options.descending then -cmp else cmp
  if cmp ≠ 0 then cmp else compareInt a b

/-- The comparison of the sort, as a decision. -/
def groupLe (p : QueryPlan) (groups : List QueryGroup) (column a b : ℕ) : Bool :=
  compareGroups p groups column a b ≤ 0

/-- The passes of the sort. Each doubles the width, so there are fewer than groups. -/
def sortGroups (p : QueryPlan) (groups : List QueryGroup) (column : ℕ) :
    ℕ → ℕ → List ℕ → Io Execution (List ℕ)
  | 0, _, order => pure order
  | fuel + 1, width, order =>
    if width < order.length then do
      execDeadline "query sort deadline exceeded"
      sortGroups p groups column fuel (width * 2)
        (MergeSort.mergePass (groupLe p groups column) order width order.length 0)
    else pure order

/-- The loop over the groups that are put out, from number `i` on. -/
def emitRows (p : QueryPlan) (groups : List QueryGroup) : ℕ → List ℕ → Io Execution Unit
  | _, [] => pure ()
  | i, k :: order => do
    if i % 256 = 0 then execDeadline "query output deadline exceeded"
    let g := groups.getD k default
    resultRow p (g.keys ++ g.aggregates) 0
    emitRows p groups (i + 1) order

/-- `emit_groups`. -/
def emitGroups (p : QueryPlan) : Io Execution Unit := do
  let x ← Prog.get
  let n := x.groups.length
  Prog.modify fun x ↦ { x with result := { x.result with totalGroups := n } }
  if n = 0 then pure ()
  else
    charge p (n * 2 * sizeofSize)
    execAlloc "group ordering"
    execAlloc "group ordering"
    let order ← match p.order with
      | none => pure (List.range n)
      | some column => sortGroups p x.groups column n 1 (List.range n)
    emitRows p x.groups 0 (order.take (min n p.options.scan.limit))

/-! ### Queries -/

/-- The groups that are there before the first row, `k` of them from the `i`-th on: one per bucket of the
range, or a single one without a key. -/
def precreate (p : QueryPlan) : ℕ → ℕ → ℤ → Io Execution Unit
  | 0, _, _ => pure ()
  | k + 1, i, bucket => do
    if i % 256 = 0 then execDeadline "query bucket deadline exceeded"
    let _ ← groupFor p ([Value.ofInt bucket].take p.keyCount)
    if k = 0 then pure ()
    else
      match i64Result (bucket + p.options.bucketWidthUs) with
      | none => Prog.die
      | some bucket => precreate p k (i + 1) bucket

/-- The groups that a query starts with. -/
def initialGroups (p : QueryPlan) : Io Execution Unit :=
  if !p.options.aggregates.isEmpty && p.options.groupBy.isEmpty then
    precreate p (if p.options.bucketWidthUs ≠ 0 then p.bucketCount else 1) 0 p.firstBucket
  else pure ()

/-- Work on the execution. -/
def withContext {κ : Type} (p : Io κ α) : Io (ScanMemory c κ) α := do
  let m ← Prog.get
  let (result, context) ← Prog.within m.context p
  Prog.modify fun m ↦ { m with context := context }
  Prog.rethrow result

/-- The scan that a query makes. -/
def QueryPlan.scanOptions (p : QueryPlan) (after bytes timeoutMs : ℕ) : ScanOptions :=
  { p.options.scan with
    limit := uint32Max
    afterSequence := after
    maxScanBytes := bytes
    timeoutMs := timeoutMs }

/-- The rows are read and put together. -/
def queryRows (F : F64) (p : QueryPlan) (S : Snapshot) (after bytes timeoutMs : ℕ) :
    Io (ScanMemory c Execution) Unit := do
  withContext (initialGroups p)
  match ← Prog.attempt (scanSnapshot S (p.scanOptions after bytes timeoutMs) (consume F c.schema p)) with
  | .ok () =>
    let m ← Prog.get
    require (m.context.stopped || !m.stats.limitReached) .limit "query examined too many rows"
  | .error e =>
    let m ← Prog.get
    require (e.code = .cancelled && m.context.stopped) e.code e.message
  if !p.options.aggregates.isEmpty then withContext (emitGroups p)

/-- The result with what the scan says about it. -/
def Execution.finish (x : Execution) (p : QueryPlan) (S : Snapshot) (stats : ScanStats) : QueryResult :=
  let hasMore := x.stopped && x.lastSequence < S.sequence
  { x.result with
    hasMore := hasMore
    stats := { stats with
      limitReached := if p.options.aggregates.isEmpty then hasMore
        else decide (x.result.totalGroups > x.result.rows.length)
      rowsReturned := x.result.rows.length
      lastSequence := x.lastSequence } }

/-- `wadb_query_execute`. -/
def queryExecute (F : F64) (p : QueryPlan) (S : Snapshot) (after bytes timeoutMs : ℕ) :
    Io (ScanMemory c Execution) QueryResult := do
  let now ← Prog.clock
  Prog.modify fun m ↦
    { m with context := .start p.allocatedBytes after (u64 (now + timeoutMs * 1000000)) }
  withContext (charge p (sizeofQueryResult + p.columns.length * sizeofResultColumn))
  allocOr "query result"
  allocOr "result columns"
  Prog.modify fun m ↦ { m with stats := .zero }
  match ← Prog.attempt (queryRows F p S after bytes timeoutMs) with
  | .ok () =>
    let m ← Prog.get
    pure (m.context.finish p S m.stats)
  | .error e =>
    -- an error of the execution is reported in place of the scan's
    let m ← Prog.get
    Prog.fail ⟨e.code, (m.context.error.getD e).message⟩

/-- `wadb_query`. -/
def query (F : F64) (options : Option QueryOptions) : Io (ScanMemory c Execution) QueryResult := do
  let p ← queryCompile c.schema options
  let S ← withTable (snapshotAcquire (some p.options.scan))
  let result ← Prog.attempt (queryExecute F p S p.options.scan.afterSequence p.options.scan.maxScanBytes
    p.options.scan.timeoutMs)
  withTable (snapshotRelease S)
  Prog.rethrow result

/-! ### Rules -/

section Rules

variable {env : Env Path Dir} {fs : Files} {n : ℕ} {x : Execution} {p : QueryPlan}

/-- The execution after an error. -/
def Execution.failed (x : Execution) (code : Status) (message : String) : Execution :=
  { x with error := some ⟨code, message⟩ }

variable {Q : Exit Error Unit → Files → Execution → Prop} {message : String}

theorem wp_execRequire {b : Bool} {code : Status} (hok : b = true → Q (.ok ()) fs x)
    (hno : b = false → Q (.fail ⟨code, message⟩) fs (x.failed code message)) :
    wp (execRequire b code message) env Q ⟨fs, n, x⟩ := by
  unfold execRequire
  cases b with
  | true => exact hok rfl
  | false => exact wp_bind (wp_modify.2 fun _ ↦ hno rfl)

theorem wp_execAlloc (hok : Q (.ok ()) fs x)
    (hno : ¬ env.Calm → Q (.fail ⟨.nomem, message⟩) fs (x.failed .nomem message)) :
    wp (execAlloc message) env Q ⟨fs, n, x⟩ := by
  refine wp_bind (wp_alloc (fun n ↦ ?_) fun hcalm n ↦ ?_)
  · exact wp_execRequire (fun _ ↦ hok) nofun
  · exact wp_execRequire nofun fun _ ↦ hno hcalm

theorem wp_execDeadline (hok : Q (.ok ()) fs x)
    (hno : (∃ k, x.deadline ≤ env.clock k) →
      Q (.fail ⟨.limit, message⟩) fs (x.failed .limit message)) :
    wp (execDeadline message) env Q ⟨fs, n, x⟩ := by
  refine wp_bind (Prog.wp_clock.2 fun n' ↦ ?_)
  refine wp_bind (wp_get.2 fun n'' ↦ ?_)
  refine wp_execRequire (fun _ ↦ hok) fun hlate ↦ hno ⟨n, ?_⟩
  simpa using hlate

/-- The deadline is looked at before every 256th round. -/
theorem wp_deadlineFirst {b : Prop} [Decidable b] {q : Io Execution Unit}
    (hno : (∃ k, x.deadline ≤ env.clock k) →
      Q (.fail ⟨.limit, message⟩) fs (x.failed .limit message))
    (hq : ∀ n, wp q env Q ⟨fs, n, x⟩) :
    wp (if b then execDeadline message >>= fun _ ↦ q else q) env Q ⟨fs, n, x⟩ := by
  split
  · exact wp_bind (wp_execDeadline hq hno)
  · exact hq n

/-- **A charge** is made if the budget allows it. -/
theorem wp_charge {k : ℕ}
    (hused : x.used ≤ p.options.memoryLimitBytes) (hlimit : p.options.memoryLimitBytes < 2 ^ 64)
    (hok : x.used + k ≤ p.options.memoryLimitBytes → Q (.ok ()) fs { x with used := x.used + k })
    (hno : p.options.memoryLimitBytes < x.used + k →
      Q (.fail ⟨.limit, "query memory budget exceeded"⟩) fs
        (x.failed .limit "query memory budget exceeded")) :
    wp (charge p k) env Q ⟨fs, n, x⟩ := by
  refine wp_bind (wp_get.2 fun n ↦ ?_)
  have hleft : u64Sub p.options.memoryLimitBytes x.used = p.options.memoryLimitBytes - x.used :=
    u64Sub_of_le hlimit hused
  refine wp_bind (wp_execRequire (fun hfits n ↦ ?_) fun hover ↦ ?_)
  · rw [decide_eq_true_eq, hleft] at hfits
    have hsum : x.used + k ≤ p.options.memoryLimitBytes := by omega
    have heq : u64 (x.used + k) = x.used + k := u64_of_lt (by omega)
    show Q (.ok ()) fs { x with used := u64 (x.used + k) }
    rw [heq]
    exact hok hsum
  · rw [decide_eq_false_iff_not, hleft] at hover
    exact hno (by omega)

/-- What can keep a query from going on: a budget below the cost, memory or the deadline. -/
def Hampered (env : Env Path Dir) (p : QueryPlan) (x : Execution) (cost : ℕ) : Prop :=
  p.options.memoryLimitBytes < cost ∨ ¬ env.Calm ∨ ∃ k, x.deadline ≤ env.clock k

/-- The bytes of the strings in some columns. -/
def stringCost (row : List (ResultColumn × Value)) : ℕ :=
  (row.map fun x ↦ if !x.2.isNull && typeBytes x.1.type then x.2.bytes.length + 1 else 0).sum

theorem wp_copyValues {row : List (ResultColumn × Value)}
    (hused : x.used ≤ p.options.memoryLimitBytes) (hlimit : p.options.memoryLimitBytes < 2 ^ 64)
    (hok : x.used + stringCost row ≤ p.options.memoryLimitBytes →
      Q (.ok ()) fs { x with used := x.used + stringCost row })
    (hover : p.options.memoryLimitBytes < x.used + stringCost row → ∀ e x', Q (.fail e) fs x')
    (hnomem : ¬ env.Calm → ∀ e x', Q (.fail e) fs x') :
    wp (copyValues p row) env Q ⟨fs, n, x⟩ := by
  induction row generalizing x n with
  | nil => exact hok hused
  | cons v row ih =>
    obtain ⟨column, v⟩ := v
    have hcons : stringCost ((column, v) :: row) =
        (if !v.isNull && typeBytes column.type then v.bytes.length + 1 else 0) + stringCost row := by
      rw [stringCost, List.map_cons, List.sum_cons, ← stringCost]
    rw [hcons, ← add_assoc] at hok hover
    rw [copyValues]
    refine wp_bind ?_
    unfold copyValue
    split
    next hcopy =>
      rw [if_pos hcopy] at hok hover
      refine wp_bind (wp_charge hused hlimit (fun hfits n ↦ ?_) fun hno ↦ ?_)
      · refine wp_execAlloc (fun n ↦ ?_) fun hcalm ↦ hnomem hcalm _ _
        exact ih hfits hok hover
      · exact hover (by omega) _ _
    next hcopy =>
      rw [if_neg hcopy, add_zero] at hok hover
      exact fun n ↦ ih hused hok hover

/-- The execution is within its budget, and has room for no more rows than are wanted. -/
structure Execution.Funded (p : QueryPlan) (x : Execution) : Prop where
  used : x.used ≤ p.options.memoryLimitBytes
  capacity : x.result.capacity ≤ p.options.scan.limit

/-- What is charged, and what would be if all rows that are wanted had room. -/
def Execution.bill (x : Execution) (p : QueryPlan) : ℕ :=
  x.used + (p.options.scan.limit - x.result.capacity) * p.rowWidth

theorem wp_growRows (hx : x.Funded p) (hlimit : p.options.memoryLimitBytes < 2 ^ 64)
    (hok : ∀ cap used, cap ≤ p.options.scan.limit → used ≤ p.options.memoryLimitBytes →
      used + (p.options.scan.limit - cap) * p.rowWidth = x.bill p →
      Q (.ok ()) fs { x with used := used, result := { x.result with capacity := cap } })
    (hover : p.options.memoryLimitBytes < x.bill p → ∀ e x', Q (.fail e) fs x')
    (hnomem : ¬ env.Calm → ∀ e x', Q (.fail e) fs x') :
    wp (growRows p) env Q ⟨fs, n, x⟩ := by
  obtain ⟨hused, hcapacity⟩ := hx
  refine wp_bind (wp_get.2 fun n ↦ ?_)
  dsimp only
  split
  next hfull =>
    have hcap : x.result.capacity ≤ p.rowCapacity x.result.capacity ∧
        p.rowCapacity x.result.capacity ≤ p.options.scan.limit := by
      unfold QueryPlan.rowCapacity
      split <;> omega
    generalize p.rowCapacity x.result.capacity = cap at hcap
    have hsplit : (cap - x.result.capacity) * p.rowWidth +
        (p.options.scan.limit - cap) * p.rowWidth =
          (p.options.scan.limit - x.result.capacity) * p.rowWidth := by
      rw [← add_mul]
      congr 1
      omega
    have hgrown (hfits : x.used + (cap - x.result.capacity) * p.rowWidth ≤
        p.options.memoryLimitBytes) := hok cap (x.used + (cap - x.result.capacity) * p.rowWidth) hcap.2
        hfits (by unfold Execution.bill; omega)
    refine wp_bind (wp_charge hused hlimit (fun hfits n ↦ ?_) fun hno ↦ ?_)
    · refine wp_bind (wp_execAlloc (fun n ↦ ?_) fun hcalm ↦ hnomem hcalm _ _)
      split
      · refine wp_bind (wp_execAlloc (fun n ↦ ?_) fun hcalm ↦ hnomem hcalm _ _)
        exact hgrown hfits
      · exact hgrown hfits
    · exact hover (by unfold Execution.bill; omega) _ _
  next hroom => exact hok x.result.capacity x.used hcapacity hused rfl

/-- **A row is added**, or memory or the budget does not allow it. -/
theorem wp_resultRow {values : List Value} {sequence : ℕ} (hx : x.Funded p)
    (hlimit : p.options.memoryLimitBytes < 2 ^ 64)
    (hok : ∀ cap used, cap ≤ p.options.scan.limit → used ≤ p.options.memoryLimitBytes →
      used + (p.options.scan.limit - cap) * p.rowWidth =
        x.bill p + stringCost (p.columns.zip values) →
      Q (.ok ()) fs { x with
        used := used
        result := QueryResult.add { x.result with capacity := cap } p values sequence })
    (hover : p.options.memoryLimitBytes < x.bill p + stringCost (p.columns.zip values) →
      ∀ e x', Q (.fail e) fs x')
    (hnomem : ¬ env.Calm → ∀ e x', Q (.fail e) fs x') :
    wp (resultRow p values sequence) env Q ⟨fs, n, x⟩ := by
  refine wp_bind (wp_growRows hx hlimit (fun cap used hcap hused hbill n ↦ ?_)
    (fun hno ↦ hover (by omega)) hnomem)
  refine wp_bind (wp_copyValues hused hlimit (fun hfits n ↦ ?_) (fun hno ↦ ?_) hnomem)
  · exact hok cap (used + stringCost (p.columns.zip values)) hcap hfits (by omega)
  · refine hover ?_
    simp only at hno
    omega

end Rules

end WebAnalyticsDb
