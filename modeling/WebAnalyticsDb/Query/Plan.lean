import Mathlib.Data.Int.ModEq
import WebAnalyticsDb.Query.Scan

/-!
# Query plans

A query names fields; its plan has their numbers, the values its rows are compared with, and the columns
of its result: `query/plan.c`.

* **Signed arithmetic** in time buckets is that of `int64_t`: a result outside the range is undefined,
  which is `none` here. `bucketFloor_eq` says what a bucket is and that nothing undefined happens, and
  `bucketPlan_spec` that the buckets of a plan are those of the times in its range.
* **Comparisons** order byte strings as `memcmp` does, shorter strings first, and floating-point numbers
  by their bits, in which a number is its sign and its magnitude.
* **Names** are byte strings; an argument that may be a null pointer is an option, and an array with its
  length is a list.
-/

namespace WebAnalyticsDb

open Bytes

/-! ### Types and comparisons -/

/-- `wadb_type_bytes`. -/
def typeBytes (t : FieldType) : Bool := t = .uuid || t = .bytes || t = .text || t = .symbol32

/-- `wadb_type_signed`. -/
def typeSigned (t : FieldType) : Bool :=
  t = .i8 || t = .i16 || t = .i32 || t = .i64 || t = .timestampUs

/-- `wadb_type_float`. -/
def typeFloat (t : FieldType) : Bool := t = .f32 || t = .f64

/-- `memcmp` of the first `n` bytes, reduced to its sign. -/
def memcmp : ℕ → Bytes → Bytes → ℤ
  | n + 1, x :: xs, y :: ys => if x = y then memcmp n xs ys else if y < x then 1 else -1
  | _, _, _ => 0

/-- `(a > b) - (a < b)`. -/
def compareInt (a b : ℤ) : ℤ := (if b < a then 1 else 0) - (if a < b then 1 else 0)

/-- The number that the bits of a binary64 number are ordered by: the magnitude, with the sign. -/
def f64Rank (u : ℕ) : ℤ := if u < 2 ^ 63 then u else -(u - 2 ^ 63 : ℤ)

/-- The bits are those of no number. -/
def f64Nan (u : ℕ) : Bool := f64Finite u = false && u % 2 ^ 52 ≠ 0

/-- `(a > b) - (a < b)` of binary64 numbers. -/
def compareF64 (a b : ℕ) : ℤ := if f64Nan a || f64Nan b then 0 else compareInt (f64Rank a) (f64Rank b)

/-- `wadb_value_compare`. -/
def valueCompare (t : FieldType) (a b : Value) : ℤ :=
  if a.isNull || b.isNull then (if a.isNull then 1 else 0) - (if b.isNull then 1 else 0)
  else if typeBytes t then
    let cmp := memcmp (min a.bytes.length b.bytes.length) a.bytes b.bytes
    if cmp ≠ 0 then (if cmp > 0 then 1 else -1) else compareInt a.bytes.length b.bytes.length
  else if typeSigned t then compareInt a.i64 b.i64
  else if typeFloat t then compareF64 a.u64 b.u64
  else compareInt a.u64 b.u64

/-! ### Buckets -/

/-- The result of a signed 64-bit operation, undefined outside the range. -/
def i64Result (x : ℤ) : Option ℤ := if -2 ^ 63 ≤ x ∧ x < 2 ^ 63 then some x else none

/-- `if (a < 0) a += width`. -/
def i64Wrap (a width : ℤ) : Option ℤ := if a < 0 then i64Result (a + width) else some a

/-- `wadb_bucket_floor`. -/
def bucketFloor (time width origin : ℤ) : Option (Except Error ℤ) := do
  let a ← i64Wrap (time.tmod width) width
  let b ← i64Wrap (origin.tmod width) width
  let distance ← if b ≤ a then i64Result (a - b) else do
    let ahead ← i64Result (b - a)
    i64Result (width - ahead)
  let lowest ← i64Result (-2 ^ 63 + distance)
  if time < lowest then pure (.error ⟨.limit, "bucket boundary underflows timestamp"⟩)
  else do
    let bucket ← i64Result (time - distance)
    pure (.ok bucket)

/-- The numbers that an `int64_t` can hold. -/
def InI64 (x : ℤ) : Prop := -2 ^ 63 ≤ x ∧ x < 2 ^ 63

instance (x : ℤ) : Decidable (InI64 x) := inferInstanceAs (Decidable (_ ∧ _))

theorem i64Result_of_inI64 {x : ℤ} (h : InI64 x) : i64Result x = some x := if_pos h

/-- The bucket that a time is in, as an integer. -/
def bucketOf (time width origin : ℤ) : ℤ := time - (time - origin) % width

section Buckets

variable {time width origin : ℤ}

theorem bucketOf_le (hwidth : 0 < width) : bucketOf time width origin ≤ time := by
  have := Int.emod_nonneg (time - origin) hwidth.ne'
  unfold bucketOf
  omega

theorem lt_bucketOf_add (hwidth : 0 < width) : time < bucketOf time width origin + width := by
  have := Int.emod_lt_of_pos (time - origin) hwidth
  unfold bucketOf
  omega

/-- Buckets are numbered from the origin. -/
theorem bucketOf_eq (time width origin : ℤ) :
    bucketOf time width origin = origin + (time - origin) / width * width := by
  have := Int.emod_add_ediv_mul (time - origin) width
  unfold bucketOf
  omega

theorem bucketOf_modEq (time width origin : ℤ) : bucketOf time width origin ≡ origin [ZMOD width] := by
  rw [bucketOf_eq]
  exact Int.add_mul_emod_self_right _ _ _

/-- A boundary starts its own bucket. -/
theorem bucketOf_boundary (hwidth : 0 < width) (k : ℤ) :
    bucketOf (origin + k * width) width origin = origin + k * width := by
  rw [bucketOf_eq, add_sub_cancel_left, Int.mul_ediv_cancel _ hwidth.ne']

theorem i64Wrap_tmod (hwidth : 0 < width) (hrange : InI64 width) (x : ℤ) :
    i64Wrap (x.tmod width) width = some (x % width) := by
  have hpos := Int.emod_nonneg x hwidth.ne'
  have hlt := Int.emod_lt_of_pos x hwidth
  have hmod := Int.tmod_eq_emod (a := x) (b := width)
  unfold i64Wrap
  by_cases hcase : 0 ≤ x ∨ width ∣ x
  · rw [if_pos hcase] at hmod
    rw [if_neg (by omega)]
    congr 1
    omega
  · rw [if_neg hcase] at hmod
    rw [if_pos (by omega), i64Result_of_inI64]
    · congr 1
      omega
    · unfold InI64 at *
      omega

/-- The distance to the start of a bucket, from the two remainders. -/
theorem emod_sub_eq (hwidth : 0 < width) (x y : ℤ) : (x - y) % width =
    if y % width ≤ x % width then x % width - y % width
    else width - (y % width - x % width) := by
  have hx := Int.emod_nonneg x hwidth.ne'
  have hy := Int.emod_nonneg y hwidth.ne'
  have hx' := Int.emod_lt_of_pos x hwidth
  have hy' := Int.emod_lt_of_pos y hwidth
  rw [Int.sub_emod]
  split
  · exact Int.emod_eq_of_lt (by omega) (by omega)
  · rw [← Int.add_emod_right]
    rw [Int.emod_eq_of_lt (by omega) (by omega)]
    omega

/-- **The bucket of a time is found without undefined operations**, and reported as an error exactly
if it starts before the first time there is. -/
theorem bucketFloor_eq (hwidth : 0 < width) (hrange : InI64 width) (htime : InI64 time) :
    bucketFloor time width origin = some (if bucketOf time width origin < -2 ^ 63 then
      .error ⟨.limit, "bucket boundary underflows timestamp"⟩
      else .ok (bucketOf time width origin)) := by
  have hpos := Int.emod_nonneg (time - origin) hwidth.ne'
  have hlt := Int.emod_lt_of_pos (time - origin) hwidth
  have htime₀ := Int.emod_nonneg time hwidth.ne'
  have horigin₀ := Int.emod_nonneg origin hwidth.ne'
  have htime₁ := Int.emod_lt_of_pos time hwidth
  have horigin₁ := Int.emod_lt_of_pos origin hwidth
  -- what is left to do once the distance to the start of the bucket is known
  have hend (d : ℤ) (hd : d = (time - origin) % width) : (do
      let lowest ← i64Result (-2 ^ 63 + d)
      if time < lowest then pure (.error ⟨.limit, "bucket boundary underflows timestamp"⟩)
      else do
        let bucket ← i64Result (time - d)
        pure (.ok bucket)) = some (if bucketOf time width origin < -2 ^ 63 then
      Except.error (⟨.limit, "bucket boundary underflows timestamp"⟩ : Error)
      else .ok (bucketOf time width origin)) := by
    unfold bucketOf InI64 at *
    rw [← hd] at hpos hlt ⊢
    rw [i64Result_of_inI64 ⟨by omega, by omega⟩, Option.bind_eq_bind, Option.bind_some]
    by_cases hlow : time - d < -2 ^ 63
    · rw [if_pos hlow, if_pos (by omega)]
      rfl
    · rw [if_neg hlow, if_neg (by omega), i64Result_of_inI64 ⟨by omega, by omega⟩]
      rfl
  have hsub := emod_sub_eq hwidth time origin
  unfold bucketFloor
  rw [i64Wrap_tmod hwidth hrange, i64Wrap_tmod hwidth hrange]
  simp only [Option.bind_eq_bind, Option.bind_some] at hend ⊢
  unfold InI64 at hrange
  split
  next h =>
    rw [if_pos h] at hsub
    rw [i64Result_of_inI64 ⟨by omega, by omega⟩, Option.bind_some]
    exact hend _ hsub.symm
  next h =>
    rw [if_neg h] at hsub
    rw [i64Result_of_inI64 ⟨by omega, by omega⟩, Option.bind_some,
      i64Result_of_inI64 ⟨by omega, by omega⟩, Option.bind_some]
    exact hend _ hsub.symm

end Buckets

/-! ### Queries -/

def maxFilters : ℕ := 32
def maxGroupFields : ℕ := 8
def maxAggregates : ℕ := 16

/-- `wadb_filter_op`; `unknown` stands for every other code. -/
inductive FilterOp
  | eq
  | ne
  | lt
  | le
  | gt
  | ge
  | isNull
  | isNotNull
  | unknown
deriving DecidableEq, Repr

/-- `wadb_filter`. -/
structure Filter where
  field : Option Bytes
  op : FilterOp
  value : Value
deriving DecidableEq, Repr

/-- `wadb_aggregate_op`; `unknown` stands for every other code. -/
inductive AggregateOp
  | countAll
  | count
  | sum
  | min
  | max
  | avg
  | unknown
deriving DecidableEq, Repr

/-- `op <= WADB_COUNT`. -/
def AggregateOp.counts (op : AggregateOp) : Bool := op = .countAll || op = .count

/-- `wadb_aggregate`. -/
structure Aggregate where
  op : AggregateOp
  field : Option Bytes
  name : Option Bytes
deriving DecidableEq, Repr

/-- `wadb_query_options`. -/
structure QueryOptions where
  scan : ScanOptions
  projection : List Bytes
  filters : List Filter
  groupBy : List Bytes
  aggregates : List Aggregate
  bucketWidthUs : ℤ
  bucketOriginUs : ℤ
  maxGroups : ℕ
  maxBuckets : ℕ
  memoryLimitBytes : ℕ
  orderBy : Option Bytes
  descending : Bool
deriving DecidableEq, Repr

/-- `wadb_query_options_default`. -/
def queryOptionsDefault : QueryOptions where
  scan := scanOptionsDefault
  projection := []
  filters := []
  groupBy := []
  aggregates := []
  bucketWidthUs := 0
  bucketOriginUs := 0
  maxGroups := 10000
  maxBuckets := 10000
  memoryLimitBytes := 64 * 1024 * 1024
  orderBy := none
  descending := false

/-- `wadb_predicate`. -/
structure Predicate where
  field : ℕ
  op : FilterOp
  value : Value
deriving DecidableEq, Repr

/-- `wadb_reduction`. -/
structure Reduction where
  field : ℕ
  op : AggregateOp
deriving DecidableEq, Repr

/-- `wadb_result_column`. -/
structure ResultColumn where
  name : Bytes
  type : FieldType
deriving DecidableEq, Repr

/-- `wadb_query_plan`. Of the options only what is not a pointer is used after compilation. -/
structure QueryPlan where
  options : QueryOptions
  projection : List ℕ
  groups : List ℕ
  filters : List Predicate
  aggregates : List Reduction
  columns : List ResultColumn
  keyCount : ℕ
  allocatedBytes : ℕ
  /-- The column the groups are ordered by. -/
  order : Option ℕ
  firstBucket : ℤ
  bucketCount : ℕ
deriving DecidableEq, Repr

/-- The columns of the keys. -/
def QueryPlan.keyColumns (p : QueryPlan) : List ResultColumn := p.columns.take p.keyCount

/-- `sizeof(wadb_query_plan)`. -/
def sizeofQueryPlan : ℕ := 19824

/-! ### Compilation -/

variable {μ : Type}

/-- `wadb_schema_find`. -/
def schemaFind (s : Schema) (name : Option Bytes) : Option ℕ :=
  name.bind fun name ↦ s.fields.findIdx? fun f ↦ f.name == name

/-- `add_column`. -/
def addColumn (columns : List ResultColumn) (name : Option Bytes) (type : FieldType) :
    Except Error (List ResultColumn) :=
  match name with
  | none => .error ⟨.invalid, "invalid result column name or count"⟩
  | some name =>
    if !identifier name || columns.length ≥ maxFields then
      .error ⟨.invalid, "invalid result column name or count"⟩
    else if columns.any (·.name == name) then
      .error ⟨.invalid, "duplicate result column: " ++ showName name⟩
    else .ok (columns ++ [⟨name, type⟩])

/-- The shapes and resource limits that are accepted. -/
def QueryOptions.acceptable (o : QueryOptions) : Bool :=
  o.filters.length ≤ maxFilters && o.groupBy.length ≤ maxGroupFields &&
    o.aggregates.length ≤ maxAggregates && o.projection.length ≤ maxFields &&
    o.scan.startTime ≤ o.scan.endTime && o.scan.limit ≠ 0 && o.scan.limit ≤ 1000000 &&
    o.scan.maxScanBytes ≠ 0 && o.scan.timeoutMs ≠ 0 && o.scan.timeoutMs ≤ 3600000 &&
    0 ≤ o.bucketWidthUs && o.maxGroups ≠ 0 && o.maxGroups ≤ 1000000 && o.maxBuckets ≠ 0 &&
    o.maxBuckets ≤ 1000000 && sizeofQueryPlan ≤ o.memoryLimitBytes &&
    o.memoryLimitBytes ≤ 1024 * 1024 * 1024 && (o.aggregates.isEmpty || o.projection.isEmpty) &&
    (!o.aggregates.isEmpty || (o.groupBy.isEmpty && o.bucketWidthUs = 0 && o.orderBy.isNone))

/-- The value that a filter compares with: that of a `float` field is rounded as the field's are. -/
def predicateValue (f : Field) (v : Value) : Value :=
  if f.type = .f32 then { v with word := UInt64.ofNat (widen (narrow v.u64)) } else v

/-- One filter, with the bytes that the plan has allocated so far. -/
def compileFilter (s : Schema) (limit allocated : ℕ) (f : Filter) : Io μ (Predicate × ℕ) :=
  let wrong : Error :=
    ⟨.invalid, "filter requires an existing field and typed value; use IS_NULL for null"⟩
  match schemaFind s f.field with
  | none => Prog.fail wrong
  | some index =>
    match s.fields[index]? with
    | none => Prog.fail wrong
    | some field => do
      let tests := f.op = .isNull ∨ f.op = .isNotNull
      Prog.ensure (f.op ≠ .unknown && !(decide ¬ tests && f.value.isNull)) wrong
      if tests then pure (⟨index, f.op, .ofNat 0⟩, allocated)
      else
        -- the value has to be one that could be stored; symbols get an identifier that is not used
        let _ ← Prog.rethrow (encodeField field f.value index (some fun _ _ ↦ .ok 1))
        if typeBytes field.type then
          require (f.value.bytes.length + 1 ≤ limit - allocated) .limit "filter memory budget"
          allocOr "filter string"
          pure (⟨index, f.op, predicateValue field f.value⟩, allocated + (f.value.bytes.length + 1))
        else pure (⟨index, f.op, predicateValue field f.value⟩, allocated)

/-- The loop over the filters. -/
def compileFilters (s : Schema) (limit : ℕ) : ℕ → List Filter → Io μ (List Predicate × ℕ)
  | allocated, [] => pure ([], allocated)
  | allocated, f :: filters => do
    let (p, allocated) ← compileFilter s limit allocated f
    let (ps, allocated) ← compileFilters s limit allocated filters
    pure (p :: ps, allocated)

/-- The loops over fields that become columns: those of a projection and those of a grouping. -/
def compileFields (s : Schema) (unknown : String) :
    List ResultColumn → List (Option ℕ) → Except Error (List ResultColumn × List ℕ)
  | columns, [] => .ok (columns, [])
  | _, none :: _ => .error ⟨.invalid, unknown⟩
  | columns, some index :: fields =>
    match s.fields[index]? with
    | none => .error ⟨.invalid, unknown⟩
    | some f =>
      match addColumn columns (some f.name) f.type with
      | .error e => .error e
      | .ok columns =>
        match compileFields s unknown columns fields with
        | .error e => .error e
        | .ok (columns, indices) => .ok (columns, index :: indices)

/-- The type of an aggregate's result. -/
def aggregateType (op : AggregateOp) (type : FieldType) : FieldType :=
  if op.counts then .u64
  else if op = .avg ∨ (op = .sum ∧ typeFloat type) then .f64
  else if op = .sum then (if typeSigned type then .i64 else .u64)
  else type

/-- The loop over the aggregates. -/
def compileAggregates (s : Schema) :
    List ResultColumn → List Aggregate → Except Error (List ResultColumn × List Reduction)
  | columns, [] => .ok (columns, [])
  | columns, a :: aggregates =>
    match if a.op = .countAll then some 0 else schemaFind s a.field with
    | none => .error ⟨.invalid, "invalid aggregate operation or field"⟩
    | some index =>
      if a.op = .unknown ∨ (a.op = .countAll ∧ a.field.isSome) then
        .error ⟨.invalid, "invalid aggregate operation or field"⟩
      else
        let type := (s.fields[index]?.map (·.type)).getD .unknown
        if !a.op.counts && typeBytes type then
          .error ⟨.invalid, "numeric aggregate requires numeric field"⟩
        else
          match addColumn columns a.name (aggregateType a.op type) with
          | .error e => .error e
          | .ok columns =>
            match compileAggregates s columns aggregates with
            | .error e => .error e
            | .ok (columns, reductions) => .ok (columns, ⟨index, a.op⟩ :: reductions)

/-- The first bucket of a range of times and how many there are. -/
def bucketPlan (o : QueryOptions) : Option (Except Error (ℤ × ℕ)) :=
  if o.scan.startTime = o.scan.endTime then some (.ok (0, 0))
  else do
    match ← bucketFloor o.scan.startTime o.bucketWidthUs o.bucketOriginUs with
    | .error e => pure (.error e)
    | .ok first =>
      let latest ← i64Result (o.scan.endTime - 1)
      match ← bucketFloor latest o.bucketWidthUs o.bucketOriginUs with
      | .error e => pure (.error e)
      | .ok last =>
        let intervals := u64Sub (i64Bits last) (i64Bits first) / i64Bits o.bucketWidthUs
        if intervals ≥ o.maxBuckets then
          pure (.error ⟨.limit, "bucket count exceeds query budget"⟩)
        else pure (.ok (first, (intervals % 2 ^ 32 + 1) % 2 ^ 32))

section Plans

variable {o : QueryOptions}

/-- The times of the options are those of their types. -/
structure QueryOptions.InRange (o : QueryOptions) : Prop where
  start : InI64 o.scan.startTime
  stop : InI64 o.scan.endTime
  width : InI64 o.bucketWidthUs
  origin : InI64 o.bucketOriginUs
  maxBuckets : o.maxBuckets ≤ uint32Max

/-- The bucket of a time, under some options. -/
def QueryOptions.bucket (o : QueryOptions) (time : ℤ) : ℤ :=
  bucketOf time o.bucketWidthUs o.bucketOriginUs

/-- The buckets `first`, `first + width`, …, `count` of them, are those of the times of the range. -/
structure Tiling (o : QueryOptions) (first : ℤ) (count : ℕ) : Prop where
  pos : 0 < count
  first_eq : first = o.bucket o.scan.startTime
  last_eq : first + (count - 1 : ℕ) * o.bucketWidthUs = o.bucket (o.scan.endTime - 1)
  lowest : -2 ^ 63 ≤ first

theorem QueryOptions.bucket_mono (hwidth : 0 < o.bucketWidthUs) {t u : ℤ} (h : t ≤ u) :
    o.bucket t ≤ o.bucket u := by
  rw [bucket, bucket, bucketOf_eq, bucketOf_eq]
  have hdiv : (t - o.bucketOriginUs) / o.bucketWidthUs ≤ (u - o.bucketOriginUs) / o.bucketWidthUs :=
    Int.ediv_le_ediv hwidth (by omega)
  have := Int.mul_le_mul_of_nonneg_right hdiv hwidth.le
  omega

theorem QueryOptions.dvd_bucket_sub (o : QueryOptions) (t u : ℤ) :
    o.bucketWidthUs ∣ o.bucket u - o.bucket t :=
  ⟨(u - o.bucketOriginUs) / o.bucketWidthUs - (t - o.bucketOriginUs) / o.bucketWidthUs, by
    rw [bucket, bucket, bucketOf_eq, bucketOf_eq]
    grind⟩

/-- The number of steps from one boundary to another, computed without a sign. -/
theorem intervals_eq {first last width : ℤ} (hfirst : InI64 first) (hlast : InI64 last)
    (hwidth : 0 < width) (hrange : InI64 width) (hle : first ≤ last) :
    ((u64Sub (i64Bits last) (i64Bits first) / i64Bits width : ℕ) : ℤ) = (last - first) / width := by
  have hw : (i64Bits width : ℤ) = width := by
    unfold i64Bits InI64 at *
    omega
  have hdiff : ((u64Sub (i64Bits last) (i64Bits first) : ℕ) : ℤ) = last - first := by
    unfold u64Sub u64 i64Bits InI64 at *
    omega
  rw [Int.natCast_ediv, hw, hdiff]

/-- **What the buckets of a plan are**, if they are accepted. Nothing undefined happens in any case. -/
theorem bucketPlan_spec (hrange : o.InRange) (hwidth : 0 < o.bucketWidthUs)
    (hlt : o.scan.startTime < o.scan.endTime) :
    ∃ r, bucketPlan o = some r ∧ ∀ first count, r = .ok (first, count) → Tiling o first count := by
  obtain ⟨hstart, hstop, hw, -, hmax⟩ := hrange
  have hlatest : InI64 (o.scan.endTime - 1) := by
    unfold InI64 at *
    omega
  have hmono : o.bucket o.scan.startTime ≤ o.bucket (o.scan.endTime - 1) :=
    QueryOptions.bucket_mono hwidth (by omega)
  have hstart' : o.bucket o.scan.startTime ≤ o.scan.startTime := bucketOf_le hwidth
  have hlatest' : o.bucket (o.scan.endTime - 1) ≤ o.scan.endTime - 1 := bucketOf_le hwidth
  have hfloor (t : ℤ) (ht : InI64 t) : bucketFloor t o.bucketWidthUs o.bucketOriginUs =
      some (if o.bucket t < -2 ^ 63 then .error ⟨.limit, "bucket boundary underflows timestamp"⟩
        else .ok (o.bucket t)) := bucketFloor_eq hwidth hw ht
  unfold bucketPlan
  rw [if_neg hlt.ne, hfloor _ hstart, i64Result_of_inI64 hlatest]
  simp only [Option.bind_eq_bind, Option.bind_some]
  rw [hfloor _ hlatest]
  simp only [Option.bind_some]
  by_cases hlow : o.bucket o.scan.startTime < -2 ^ 63
  · rw [if_pos hlow]
    exact ⟨_, rfl, nofun⟩
  rw [if_neg hlow, if_neg (by omega)]
  dsimp only
  split
  · exact ⟨_, rfl, nofun⟩
  next hfits =>
    refine ⟨_, rfl, fun first count heq ↦ ?_⟩
    obtain ⟨rfl, rfl⟩ := Prod.mk.inj (Except.ok.inj heq)
    unfold InI64 at hstart hstop
    have hintervals := intervals_eq ⟨not_lt.1 hlow, by omega⟩ ⟨by omega, by omega⟩ hwidth hw hmono
    have hcancel := Int.ediv_mul_cancel (o.dvd_bucket_sub o.scan.startTime (o.scan.endTime - 1))
    rw [← hintervals] at hcancel
    generalize u64Sub _ _ / _ = intervals at *
    unfold uint32Max at hmax
    have hcount : (intervals % 2 ^ 32 + 1) % 2 ^ 32 = intervals + 1 := by omega
    rw [hcount]
    exact ⟨Nat.succ_pos _, rfl, by rw [Nat.add_sub_cancel]; omega, not_lt.1 hlow⟩

namespace Tiling

variable {first : ℤ} {count : ℕ}

/-- Every boundary is a number that can be stored. -/
theorem inI64 (h : Tiling o first count) (hrange : o.InRange) (hwidth : 0 < o.bucketWidthUs) {i : ℕ}
    (hi : i < count) : InI64 (first + i * o.bucketWidthUs) := by
  have hlast : o.bucket (o.scan.endTime - 1) ≤ o.scan.endTime - 1 := bucketOf_le hwidth
  have hstop := hrange.stop.2
  have hle : (i : ℤ) * o.bucketWidthUs ≤ (count - 1 : ℕ) * o.bucketWidthUs :=
    Int.mul_le_mul_of_nonneg_right (by omega) hwidth.le
  have hpos : 0 ≤ (i : ℤ) * o.bucketWidthUs := Int.mul_nonneg (by omega) hwidth.le
  have := h.last_eq
  have := h.lowest
  constructor <;> omega

/-- The times of the range have buckets that can be stored. -/
theorem bucketFloor_eq_ok (h : Tiling o first count) (hrange : o.InRange)
    (hwidth : 0 < o.bucketWidthUs) {t : ℤ} (hstart : o.scan.startTime ≤ t) (hstop : t < o.scan.endTime) :
    bucketFloor t o.bucketWidthUs o.bucketOriginUs = some (.ok (o.bucket t)) := by
  have hmono := QueryOptions.bucket_mono hwidth hstart
  have hlowest := h.lowest
  rw [h.first_eq] at hlowest
  rw [bucketFloor_eq hwidth hrange.width ⟨hrange.start.1.trans hstart, hstop.trans hrange.stop.2⟩,
    if_neg (by unfold QueryOptions.bucket at *; omega), QueryOptions.bucket]

/-- **The boundaries of the plan are those of the times of its range.** -/
theorem keys_eq (h : Tiling o first count) (hwidth : 0 < o.bucketWidthUs)
    (hlt : o.scan.startTime < o.scan.endTime) :
    {b | ∃ t, o.scan.startTime ≤ t ∧ t < o.scan.endTime ∧ o.bucket t = b} =
      {b | ∃ i < count, b = first + (i : ℕ) * o.bucketWidthUs} := by
  ext b
  constructor
  · rintro ⟨t, hstart, hstop, rfl⟩
    have hlo := QueryOptions.bucket_mono hwidth hstart
    have hhi : o.bucket t ≤ o.bucket (o.scan.endTime - 1) := QueryOptions.bucket_mono hwidth (by omega)
    obtain ⟨k, hk⟩ := o.dvd_bucket_sub o.scan.startTime t
    rw [← h.first_eq] at hlo hk
    rw [← h.last_eq] at hhi
    -- the number of the bucket, counted from the first one
    have hk₀ : 0 ≤ k := by
      by_contra hneg
      have := Int.mul_neg_of_pos_of_neg hwidth (not_le.1 hneg)
      omega
    have hk₁ : k ≤ (count - 1 : ℕ) := by
      refine Int.le_of_mul_le_mul_right ?_ hwidth
      rw [Int.mul_comm] at hk
      omega
    have hpos := h.pos
    refine ⟨k.toNat, by omega, ?_⟩
    rw [Int.toNat_of_nonneg hk₀, Int.mul_comm, ← hk]
    omega
  · rintro ⟨i, hi, rfl⟩
    cases i with
    | zero => exact ⟨o.scan.startTime, le_rfl, hlt, by rw [h.first_eq]; simp⟩
    | succ i =>
      -- a later boundary lies in the range, and starts its own bucket
      have hboundary : o.bucket (first + (i + 1 : ℕ) * o.bucketWidthUs) =
          first + (i + 1 : ℕ) * o.bucketWidthUs := by
        have hfirst := h.first_eq.trans (bucketOf_eq o.scan.startTime _ _)
        have hown : o.bucket (o.bucketOriginUs +
            ((o.scan.startTime - o.bucketOriginUs) / o.bucketWidthUs + (i + 1 : ℕ)) *
              o.bucketWidthUs) = _ := bucketOf_boundary hwidth _
        rwa [Int.add_mul, ← Int.add_assoc, ← hfirst] at hown
      have hafter : o.scan.startTime < o.bucket o.scan.startTime + o.bucketWidthUs :=
        lt_bucketOf_add hwidth
      have hlast : o.bucket (o.scan.endTime - 1) ≤ o.scan.endTime - 1 := bucketOf_le hwidth
      have hle : ((i + 1 : ℕ) : ℤ) * o.bucketWidthUs ≤ (count - 1 : ℕ) * o.bucketWidthUs :=
        Int.mul_le_mul_of_nonneg_right (by omega) hwidth.le
      have hge : 1 * o.bucketWidthUs ≤ ((i + 1 : ℕ) : ℤ) * o.bucketWidthUs :=
        Int.mul_le_mul_of_nonneg_right (by omega) hwidth.le
      have hfirst := h.first_eq
      have hcount := h.last_eq
      exact ⟨_, by omega, by omega, hboundary⟩

end Tiling

end Plans

/-- A computation that may be undefined, after which the process may do anything. -/
def definedOr {α : Type} : Option (Except Error α) → Io μ α
  | none => Prog.die
  | some r => Prog.rethrow r

/-- The last column of that name. -/
def orderColumn (columns : List ResultColumn) (name : Bytes) : Option ℕ :=
  ((columns.zipIdx.filter fun x ↦ x.1.name == name).getLast?).map (·.2)

/-- The columns and the rest of the plan of a scan. -/
def compileScan (s : Schema) (o : QueryOptions) (filters : List Predicate) (allocated : ℕ) :
    Io μ QueryPlan := do
  let fields :=
    if o.projection.isEmpty then (List.range s.fieldCount).map some
    else o.projection.map fun name ↦ schemaFind s (some name)
  let (columns, projection) ← Prog.rethrow (compileFields s "unknown projection field" [] fields)
  pure {
    options := o
    projection := projection
    groups := []
    filters := filters
    aggregates := []
    columns := columns
    keyCount := 0
    allocatedBytes := allocated
    order := none
    firstBucket := 0
    bucketCount := 0 }

/-- `_bucket`. -/
def bucketName : Bytes := [95, 98, 117, 99, 107, 101, 116]

/-- The bucket column and the buckets, if the query has them. -/
def compileBuckets (o : QueryOptions) : Io μ (List ResultColumn × ℤ × ℕ) :=
  if o.bucketWidthUs = 0 then pure ([], 0, 0)
  else do
    let columns ← Prog.rethrow (addColumn [] (some bucketName) .timestampUs)
    let (first, count) ← definedOr (bucketPlan o)
    pure (columns, first, count)

/-- The columns that follow that of the buckets, and the rest of the plan of an aggregation. -/
def compileColumns (s : Schema) (o : QueryOptions) (filters : List Predicate) (allocated : ℕ)
    (columns : List ResultColumn) (first : ℤ) (count : ℕ) : Io μ QueryPlan := do
  let (columns, groups) ← Prog.rethrow (compileFields s "unknown grouping field" columns
    (o.groupBy.map fun name ↦ schemaFind s (some name)))
  let keyCount := columns.length
  let (columns, reductions) ← Prog.rethrow (compileAggregates s columns o.aggregates)
  let order := o.orderBy.bind (orderColumn columns)
  require (o.orderBy.isNone || order.isSome) .invalid "unknown order_by result column"
  pure {
    options := o
    projection := []
    groups := groups
    filters := filters
    aggregates := reductions
    columns := columns
    keyCount := keyCount
    allocatedBytes := allocated
    order := order
    firstBucket := first
    bucketCount := count }

/-- The plan of an aggregation. -/
def compileAggregation (s : Schema) (o : QueryOptions) (filters : List Predicate) (allocated : ℕ) :
    Io μ QueryPlan := do
  let (columns, first, count) ← compileBuckets o
  compileColumns s o filters allocated columns first count

/-- `wadb_query_compile`. -/
def queryCompile (s : Schema) (options : Option QueryOptions) : Io μ QueryPlan := do
  let o := options.getD queryOptionsDefault
  require o.acceptable .invalid "invalid query shape or resource limits"
  allocOr "query plan"
  let (filters, allocated) ← compileFilters s o.memoryLimitBytes sizeofQueryPlan o.filters
  if o.aggregates.isEmpty then compileScan s o filters allocated
  else compileAggregation s o filters allocated

/-! ### What a plan is -/

section Compiled

variable {s : Schema} {o : QueryOptions}

theorem isPrefix_addColumn {columns columns' : List ResultColumn} {name : Option Bytes} {type : FieldType}
    (h : addColumn columns name type = .ok columns') : columns <+: columns' := by
  unfold addColumn at h
  split at h
  · cases h
  split at h
  · cases h
  split at h
  · cases h
  · obtain rfl := Except.ok.inj h
    exact List.prefix_append _ _

theorem isPrefix_compileAggregates {aggregates : List Aggregate} {columns : List ResultColumn}
    {r : List ResultColumn × List Reduction} (h : compileAggregates s columns aggregates = .ok r) :
    columns <+: r.1 := by
  induction aggregates generalizing columns r with
  | nil =>
    obtain rfl := Except.ok.inj h
    exact List.prefix_rfl
  | cons a aggregates ih =>
    unfold compileAggregates at h
    split at h
    · cases h
    split at h
    · cases h
    dsimp only at h
    split at h
    · cases h
    split at h
    · cases h
    next columns' hadd =>
      split at h
      · cases h
      next columns'' reductions hrest =>
        have hcolumns := ih hrest
        obtain rfl := Except.ok.inj h
        exact (isPrefix_addColumn hadd).trans hcolumns

/-- What is known of an accepted plan. -/
structure Compiled (o : QueryOptions) (p : QueryPlan) : Prop where
  options : p.options = o
  acceptable : o.acceptable = true
  buckets : o.bucketWidthUs ≠ 0 → bucketPlan o = some (.ok (p.firstBucket, p.bucketCount))
  /-- Without fields to group by, the only key is the bucket. -/
  keys : o.aggregates ≠ [] → o.groupBy = [] → p.keyCount = p.keyColumns.length ∧
    p.keyColumns = if o.bucketWidthUs = 0 then [] else [⟨bucketName, .timestampUs⟩]

variable {env : Env Path Dir} {fs : Files} {n : ℕ} {m : μ} {α : Type}

theorem wp_compileFilters {filters : List Filter} {limit allocated : ℕ}
    {Q : Exit Error (List Predicate × ℕ) → Files → μ → Prop} (hok : ∀ r, Q (.ok r) fs m)
    (hno : ∀ e, Q (.fail e) fs m) :
    wp (compileFilters s limit allocated filters) env Q ⟨fs, n, m⟩ := by
  induction filters generalizing allocated n Q with
  | nil => exact hok _
  | cons f filters ih =>
    refine wp_bind ?_
    have hrest (r : Predicate × ℕ) (n : ℕ) : wp (do
        let (ps, allocated) ← compileFilters s limit r.2 filters
        pure (r.1 :: ps, allocated)) env Q ⟨fs, n, m⟩ :=
      wp_bind (ih (fun r n ↦ hok _) hno)
    unfold compileFilter
    dsimp only
    split
    · exact hno _
    split
    · exact hno _
    refine wp_bind (wp_ensure (fun _ n ↦ ?_) fun _ ↦ hno _)
    split
    · exact hrest _
    refine wp_bind (wp_rethrow.2 ?_)
    generalize encodeField _ _ _ _ = encoded
    cases encoded with
    | error e => exact hno e
    | ok _ =>
      intro n
      split
      · refine wp_bind (wp_require (fun _ n ↦ ?_) fun _ ↦ hno _)
        refine wp_bind (wp_allocOr (fun n ↦ ?_) fun _ ↦ hno _)
        exact hrest _
      · exact hrest _

theorem wp_compileBuckets {Q : Exit Error (List ResultColumn × ℤ × ℕ) → Files → μ → Prop}
    (hrange : o.InRange) (hwidth : 0 ≤ o.bucketWidthUs) (hle : o.scan.startTime ≤ o.scan.endTime)
    (hnone : o.bucketWidthUs = 0 → Q (.ok ([], 0, 0)) fs m)
    (hok : ∀ first count, o.bucketWidthUs ≠ 0 → bucketPlan o = some (.ok (first, count)) →
      Q (.ok ([⟨bucketName, .timestampUs⟩], first, count)) fs m)
    (hno : ∀ e, Q (.fail e) fs m) : wp (compileBuckets o) env Q ⟨fs, n, m⟩ := by
  unfold compileBuckets
  split
  next hzero => exact hnone hzero
  next hsome =>
    have hdefined : ∃ r, bucketPlan o = some r := by
      rcases hle.eq_or_lt with heq | hlt
      · exact ⟨_, if_pos heq⟩
      · obtain ⟨r, hr, -⟩ := bucketPlan_spec hrange (by omega) hlt
        exact ⟨r, hr⟩
    obtain ⟨r, hr⟩ := hdefined
    have hname : addColumn [] (some bucketName) .timestampUs = .ok [⟨bucketName, .timestampUs⟩] := rfl
    rw [hname, hr]
    refine wp_bind (wp_rethrow.2 fun n ↦ wp_bind (wp_rethrow.2 ?_))
    cases r with
    | error e => exact hno e
    | ok r => exact fun n ↦ hok r.1 r.2 hsome hr

/-- The bucket is the first column, and further columns only follow. -/
theorem wp_compileColumns {filters : List Predicate} {allocated : ℕ} {columns : List ResultColumn}
    {first : ℤ} {count : ℕ} {Q : Exit Error QueryPlan → Files → μ → Prop} (haccept : o.acceptable = true)
    (hcolumns : columns = if o.bucketWidthUs = 0 then [] else [⟨bucketName, .timestampUs⟩])
    (hbuckets : o.bucketWidthUs ≠ 0 → bucketPlan o = some (.ok (first, count)))
    (hok : ∀ p, Compiled o p → Q (.ok p) fs m) (hno : ∀ e, Q (.fail e) fs m) :
    wp (compileColumns s o filters allocated columns first count) env Q ⟨fs, n, m⟩ := by
  refine wp_bind (wp_rethrow.2 ?_)
  rcases hfields : compileFields s "unknown grouping field" columns
    (o.groupBy.map fun name ↦ schemaFind s (some name)) with e | ⟨keys, groups⟩
  · exact hno e
  intro n
  refine wp_bind (wp_rethrow.2 ?_)
  rcases haggregates : compileAggregates s keys o.aggregates with e | ⟨all, reductions⟩
  · exact hno e
  intro n
  refine wp_bind (wp_require (fun _ n ↦ ?_) fun _ ↦ hno _)
  refine hok _ ⟨rfl, haccept, hbuckets, fun _ hgroup ↦ ?_⟩
  have hkeys : all.take keys.length = keys :=
    List.prefix_iff_eq_take.1 (isPrefix_compileAggregates haggregates) |>.symm
  rw [hgroup, List.map_nil] at hfields
  obtain ⟨rfl, -⟩ := Prod.mk.inj (Except.ok.inj hfields)
  unfold QueryPlan.keyColumns
  dsimp only
  rw [hkeys]
  exact ⟨rfl, hcolumns⟩

/-- What the shape of accepted options says about the plan. -/
theorem QueryOptions.acceptable_shape (h : o.acceptable = true) :
    o.scan.startTime ≤ o.scan.endTime ∧ 0 ≤ o.bucketWidthUs ∧
      o.memoryLimitBytes ≤ 1024 * 1024 * 1024 ∧ (o.aggregates = [] → o.bucketWidthUs = 0) := by
  simp only [acceptable, Bool.and_eq_true, Bool.or_eq_true, Bool.not_eq_true', decide_eq_true_eq,
    List.isEmpty_eq_false_iff, List.isEmpty_iff] at h
  obtain ⟨⟨⟨⟨⟨⟨⟨⟨⟨⟨⟨⟨⟨⟨⟨-, hle⟩, -⟩, -⟩, -⟩, -⟩, -⟩, hwidth⟩, -⟩, -⟩, -⟩, -⟩, -⟩, hmemory⟩, -⟩,
    hscan⟩ := h
  exact ⟨hle, hwidth, hmemory, fun hempty ↦ (hscan.resolve_left (absurd hempty)).1.2⟩

/-- **What an accepted query's plan is.** Nothing undefined happens while it is made. -/
theorem wp_queryCompile {options : Option QueryOptions} {Q : Exit Error QueryPlan → Files → μ → Prop}
    (hrange : (options.getD queryOptionsDefault).InRange)
    (hok : ∀ p, Compiled (options.getD queryOptionsDefault) p → Q (.ok p) fs m)
    (hno : ∀ e, Q (.fail e) fs m) : wp (queryCompile s options) env Q ⟨fs, n, m⟩ := by
  generalize ho : options.getD queryOptionsDefault = o at hrange hok
  unfold queryCompile
  rw [ho]
  refine wp_bind (wp_require (fun haccept n ↦ ?_) fun _ ↦ hno _)
  obtain ⟨hle, hwidth, -, hscan⟩ := QueryOptions.acceptable_shape haccept
  refine wp_bind (wp_allocOr (fun n ↦ ?_) fun _ ↦ hno _)
  refine wp_bind (wp_compileFilters (fun r n ↦ ?_) hno)
  obtain ⟨filters, allocated⟩ := r
  dsimp only
  split
  next hempty =>
    -- a scan has no buckets
    rw [List.isEmpty_iff] at hempty
    have hzero : o.bucketWidthUs = 0 := hscan hempty
    refine wp_bind (wp_rethrow.2 ?_)
    generalize compileFields _ _ _ _ = fields
    cases fields with
    | error e => exact hno e
    | ok r => exact fun n ↦ hok _ ⟨rfl, haccept, fun h ↦ absurd hzero h, fun h ↦ absurd hempty h⟩
  next hsome =>
    refine wp_bind (wp_compileBuckets hrange hwidth hle (fun hzero n ↦ ?_)
      (fun first count hbucket hplan n ↦ ?_) hno)
    · exact wp_compileColumns haccept (if_pos hzero).symm (absurd hzero) hok hno
    · exact wp_compileColumns haccept (if_neg hbucket).symm (fun _ ↦ hplan) hok hno

end Compiled

end WebAnalyticsDb
