import Mathlib.Data.Prod.Lex
import WebAnalyticsDb.Query.Execute

/-!
# The order of the groups of a result

`emit_groups` sorts the groups by one column of the result and puts out the first ones.

* **The order** (`GroupPrecedes`) is the requested direction of the values, nulls after all values in
  both directions, and the position of the group where that says nothing. It is a strict total order on
  positions, so there is exactly one way to put the groups in order, whatever the sort compares.
* **The sort** is the bottom-up merge sort of `Foundation/MergeSort.lean`. Its comparisons agree with the
  order (`compareGroups_le_iff`) for every column that does not hold floating-point numbers.
* **Failures** are those of the budget of the query, of memory and of the deadline.
-/

namespace WebAnalyticsDb

open List

/-! ### The order of values -/

namespace Value

/-- The values of a column in ascending order. -/
def Below (t : FieldType) (a b : Value) : Prop :=
  if typeBytes t then a.bytes < b.bytes else if typeSigned t then a.i64 < b.i64 else a.u64 < b.u64

/-- Two values of a column are the same. -/
def Same (t : FieldType) (a b : Value) : Prop :=
  if typeBytes t then a.bytes = b.bytes else if typeSigned t then a.i64 = b.i64 else a.u64 = b.u64

end Value

theorem bytes_lt_iff (a b : Bytes) : a < b ↔ a.map UInt8.toNat < b.map UInt8.toNat := by
  induction a generalizing b with
  | nil =>
    cases b with
    | nil => simp
    | cons y b => simp
  | cons x a ih =>
    cases b with
    | nil => simp
    | cons y b =>
      rw [map_cons, map_cons, cons_lt_cons_iff, cons_lt_cons_iff, ih,
        UInt8.lt_iff_toNat_lt, UInt8.toNat_inj]

theorem bytes_eq_iff (a b : Bytes) : a = b ↔ a.map UInt8.toNat = b.map UInt8.toNat :=
  (map_injective_iff.2 fun _ _ h ↦ UInt8.toNat_inj.1 h).eq_iff.symm

/-- The values of a column are ordered as the elements of some linear order are. -/
theorem exists_sortKey (t : FieldType) : ∃ (L : Type) (_ : LinearOrder L) (k : Value → L),
    (∀ a b, Value.Below t a b ↔ k a < k b) ∧ ∀ a b, Value.Same t a b ↔ k a = k b := by
  unfold Value.Below Value.Same
  by_cases hbytes : typeBytes t = true
  · exact ⟨List ℕ, inferInstance, fun v ↦ v.bytes.map UInt8.toNat,
      fun a b ↦ by rw [if_pos hbytes, bytes_lt_iff], fun a b ↦ by rw [if_pos hbytes, bytes_eq_iff]⟩
  by_cases hsigned : typeSigned t = true
  · exact ⟨ℤ, inferInstance, Value.i64, fun a b ↦ by rw [if_neg hbytes, if_pos hsigned],
      fun a b ↦ by rw [if_neg hbytes, if_pos hsigned]⟩
  · exact ⟨ℕ, inferInstance, Value.u64, fun a b ↦ by rw [if_neg hbytes, if_neg hsigned],
      fun a b ↦ by rw [if_neg hbytes, if_neg hsigned]⟩

/-- What the sign of a comparison says. -/
structure Compares (cmp : ℤ) (below same above : Prop) : Prop where
  neg : cmp < 0 ↔ below
  zero : cmp = 0 ↔ same
  pos : 0 < cmp ↔ above

theorem compares_compareInt (a b : ℤ) : Compares (compareInt a b) (a < b) (a = b) (b < a) := by
  constructor <;> unfold compareInt <;> split <;> split <;> omega

theorem compares_bytes (a b : Bytes) : Compares
    (let cmp := memcmp (min a.length b.length) a b
      if cmp ≠ 0 then (if cmp > 0 then 1 else -1) else compareInt a.length b.length)
    (a < b) (a = b) (b < a) := by
  induction a generalizing b with
  | nil =>
    cases b with
    | nil => constructor <;> simp [memcmp, compareInt]
    | cons y b => constructor <;> simp [memcmp, compareInt] <;> omega
  | cons x a ih =>
    cases b with
    | nil => constructor <;> simp [memcmp, compareInt] <;> omega
    | cons y b =>
      have hmin : min (x :: a).length (y :: b).length = min a.length b.length + 1 := by simp
      rw [hmin, memcmp]
      by_cases hxy : x = y
      · -- the strings go on being equal
        subst hxy
        have hlen : compareInt (x :: a).length (x :: b).length = compareInt a.length b.length := by
          unfold compareInt
          simp
        have hirrefl : ¬ x < x := by rw [UInt8.lt_iff_toNat_lt]; omega
        simpa only [if_true, hlen, cons_lt_cons_iff, List.cons.injEq, true_and, hirrefl, false_or]
          using ih b
      · have hne : x.toNat ≠ y.toNat := fun h ↦ hxy (UInt8.toNat_inj.1 h)
        rw [if_neg hxy]
        constructor <;>
          simp only [cons_lt_cons_iff, List.cons.injEq, hxy, Ne.symm hxy, false_and, or_false,
            UInt8.lt_iff_toNat_lt] <;> split <;> simp <;> omega

/-- **What a comparison of two values says**, if they are not floating-point numbers. -/
theorem compares_valueCompare {t : FieldType} (ht : typeFloat t = false) {a b : Value}
    (ha : a.isNull = false) (hb : b.isNull = false) :
    Compares (valueCompare t a b) (Value.Below t a b) (Value.Same t a b) (Value.Below t b a) := by
  unfold valueCompare Value.Below Value.Same
  rw [if_neg (by simp [ha, hb])]
  split
  · exact compares_bytes a.bytes b.bytes
  split
  · exact compares_compareInt a.i64 b.i64
  · have := compares_compareInt a.u64 b.u64
    simp only [ht, Bool.false_eq_true, if_false]
    constructor
    · rw [this.neg]
      omega
    · rw [this.zero]
      omega
    · rw [this.pos]
      omega

/-! ### The order of groups -/

/-- **The group at position `i` comes before that at position `j`**, by their values in the column. -/
def GroupPrecedes (t : FieldType) (descending : Bool) (cell : ℕ → Value) (i j : ℕ) : Prop :=
  if (cell i).isNull then (cell j).isNull = true ∧ i < j
  else (cell j).isNull = true ∨
    (if descending then Value.Below t (cell j) (cell i) else Value.Below t (cell i) (cell j)) ∨
    Value.Same t (cell i) (cell j) ∧ i < j

section Order

variable {t : FieldType} {descending : Bool} {cell : ℕ → Value}

/-- The order is that of a linear order, in which different positions have different places: nulls at the
top, the other values as they are or reversed, and then the positions. -/
theorem exists_rank (t : FieldType) (descending : Bool) (cell : ℕ → Value) :
    ∃ (K : Type) (_ : LinearOrder K) (rank : ℕ → K), Function.Injective rank ∧
      ∀ i j, GroupPrecedes t descending cell i j ↔ rank i < rank j := by
  obtain ⟨L, _, key, hbelow, hsame⟩ := exists_sortKey t
  -- either direction is the ascending one of some order of the values
  obtain ⟨M, _, place, hplace, heq⟩ : ∃ (M : Type) (_ : LinearOrder M) (place : Value → M),
      (∀ a b, (if descending then Value.Below t b a else Value.Below t a b) ↔ place a < place b) ∧
        ∀ a b, Value.Same t a b ↔ place a = place b := by
    cases descending with
    | false => exact ⟨L, inferInstance, key, hbelow, hsame⟩
    | true => exact ⟨Lᵒᵈ, inferInstance, fun v ↦ OrderDual.toDual (key v), fun a b ↦ hbelow b a,
        fun a b ↦ hsame a b⟩
  refine ⟨Lex (WithTop M × ℕ), inferInstance,
    fun i ↦ toLex (if (cell i).isNull then ⊤ else ((place (cell i) : M) : WithTop M), i), ?_, ?_⟩
  · intro i j h
    exact congrArg (fun x ↦ (ofLex x).2) h
  · intro i j
    rw [Prod.Lex.toLex_lt_toLex, GroupPrecedes, hplace, heq]
    cases (cell i).isNull <;> cases (cell j).isNull <;> simp

end Order

/-- The cells of a column. -/
def cellAt (p : QueryPlan) (groups : List QueryGroup) (column i : ℕ) : Value :=
  (groups.getD i default).cell p column

/-- The type of a column of the result. -/
def QueryPlan.columnType (p : QueryPlan) (column : ℕ) : FieldType :=
  (p.columns[column]?.map (·.type)).getD .unknown

variable {column : ℕ} {groups : List QueryGroup}

/-- **The comparisons of the sort agree with the order.** -/
theorem compareGroups_le_iff {p : QueryPlan} (ht : typeFloat (p.columnType column) = false)
    (groups : List QueryGroup) (i j : ℕ) : compareGroups p groups column i j ≤ 0 ↔
      i = j ∨ GroupPrecedes (p.columnType column) p.options.descending (cellAt p groups column) i j := by
  have hpos := compares_compareInt i j
  have hle : compareInt i j ≤ 0 ↔ i ≤ j := by
    have h1 := hpos.pos
    omega
  show (let va := cellAt p groups column i
    let vb := cellAt p groups column j
    let cmp := valueCompare (p.columnType column) va vb
    let cmp := if !va.isNull && !vb.isNull && p.options.descending then -cmp else cmp
    if cmp ≠ 0 then cmp else compareInt i j) ≤ 0 ↔ _
  unfold GroupPrecedes
  generalize cellAt p groups column = cell
  dsimp only
  by_cases hi : (cell i).isNull = true <;> by_cases hj : (cell j).isNull = true
  · simp [hi, hj, valueCompare, hle]
    omega
  · simp [hi, hj, valueCompare]
    rintro rfl
    exact hj hi
  · simp [hi, hj, valueCompare]
  · simp only [Bool.not_eq_true] at hi hj
    have hcmp := compares_valueCompare ht hi hj
    obtain ⟨L, _, key, hbelow, hsame⟩ := exists_sortKey (p.columnType column)
    have hneg := hcmp.neg
    have hzero := hcmp.zero
    have hpos := hcmp.pos
    rw [hbelow] at hneg hpos
    rw [hsame] at hzero
    simp only [hi, hj, hbelow, hsame]
    have hself : i = j → key (cell i) = key (cell j) := fun h ↦ by rw [h]
    generalize key (cell i) = a at *
    generalize key (cell j) = b at *
    generalize valueCompare (p.columnType column) (cell i) (cell j) = cmp at *
    rcases lt_trichotomy a b with h | h | h
    · have hc := hneg.2 h
      have hij : i ≠ j := fun heq ↦ h.ne (hself heq)
      cases p.options.descending <;> simp [hc.ne, hij, h, h.ne, h.not_gt] <;> omega
    · have hc := hzero.2 h
      simp [hc, h, hle]
      omega
    · have hc := hpos.2 h
      have hij : i ≠ j := fun heq ↦ h.ne' (hself heq)
      cases p.options.descending <;> simp [hc.ne', hij, h, h.ne', h.not_gt] <;> omega

/-! ### Sorting -/

variable {p : QueryPlan} {env : Env Path Dir} {fs : Files} {n : ℕ} {x : Execution}

/-- The groups are in order. -/
structure Arranged (p : QueryPlan) (groups : List QueryGroup) (column : ℕ) (σ : List ℕ) : Prop where
  perm : σ.Perm (List.range groups.length)
  sorted : σ.Pairwise
    (GroupPrecedes (p.columnType column) p.options.descending (cellAt p groups column))

/-- **There is only one order.** -/
theorem Arranged.unique {σ τ : List ℕ}
    (hσ : Arranged p groups column σ) (hτ : Arranged p groups column τ) : τ = σ := by
  obtain ⟨K, _, rank, -, hrank⟩ :=
    exists_rank (p.columnType column) p.options.descending (cellAt p groups column)
  refine List.Perm.eq_of_pairwise (fun i j _ _ hij hji ↦ ?_) hτ.sorted hσ.sorted
    (hτ.perm.trans hσ.perm.symm)
  rw [hrank] at hij hji
  exact absurd (hij.trans hji) (lt_irrefl _)

section Sorting

variable {groups : List QueryGroup} {column : ℕ} (ht : typeFloat (p.columnType column) = false)

include ht

theorem groupLe_iff (a b : ℕ) : groupLe p groups column a b = true ↔
    a = b ∨ GroupPrecedes (p.columnType column) p.options.descending (cellAt p groups column) a b := by
  rw [groupLe, decide_eq_true_eq]
  exact compareGroups_le_iff ht groups a b

theorem groupLe_trans (a b c : ℕ) (hab : groupLe p groups column a b = true)
    (hbc : groupLe p groups column b c = true) : groupLe p groups column a c = true := by
  obtain ⟨K, _, rank, -, hrank⟩ :=
    exists_rank (p.columnType column) p.options.descending (cellAt p groups column)
  rw [groupLe_iff ht, hrank] at *
  rcases hab with rfl | hab
  · exact hbc
  rcases hbc with rfl | hbc
  · exact .inr hab
  · exact .inr (hab.trans hbc)

theorem groupLe_total (a b : ℕ) : (groupLe p groups column a b || groupLe p groups column b a) = true := by
  obtain ⟨K, _, rank, hinj, hrank⟩ :=
    exists_rank (p.columnType column) p.options.descending (cellAt p groups column)
  rw [Bool.or_eq_true, groupLe_iff ht, groupLe_iff ht, hrank, hrank]
  rcases lt_trichotomy (rank a) (rank b) with h | h | h
  · exact .inl (.inr h)
  · exact .inl (.inl (hinj h))
  · exact .inr (.inr h)

/-- A sorted permutation of the positions is the order. -/
theorem arranged_of_sorted {σ : List ℕ} (hperm : σ.Perm (List.range groups.length))
    (hsorted : σ.Pairwise (groupLe p groups column · ·)) : Arranged p groups column σ := by
  refine ⟨hperm, ?_⟩
  have hne : σ.Pairwise (· ≠ ·) := hperm.nodup_iff.2 nodup_range
  refine (hsorted.and hne).imp fun {a b} hab ↦ ?_
  rw [groupLe_iff ht] at hab
  exact hab.1.resolve_left hab.2

/-- **The sort** puts the groups in order, or ends at the deadline. -/
theorem wp_sortGroups {fuel width : ℕ} {order : List ℕ} (hwidth : 0 < width)
    (hfuel : order.length ≤ width + fuel) (hperm : order.Perm (List.range groups.length))
    (hruns : MergeSort.Runs (groupLe p groups column · ·) width order) :
    wp (sortGroups p groups column fuel width order) env (fun e fs' x' ↦ fs' = fs ∧
      match e with
      | .ok σ => x' = x ∧ Arranged p groups column σ
      | .fail _ => ∃ k, x.deadline ≤ env.clock k
      | .killed => False) ⟨fs, n, x⟩ := by
  induction fuel generalizing width order n with
  | zero => exact ⟨rfl, rfl, arranged_of_sorted ht hperm (hruns.pairwise (by omega))⟩
  | succ fuel ih =>
    rw [sortGroups]
    split
    next hlt =>
      have hpass : (MergeSort.mergePass (groupLe p groups column) order width order.length 0).Perm
          (order.drop 0) := MergeSort.mergePass_perm hwidth (by omega)
      rw [drop_zero] at hpass
      have hruns' := MergeSort.runs_mergePass hwidth (groupLe_trans ht) (groupLe_total ht) hruns
      rw [mul_comm] at hruns'
      refine wp_bind (wp_execDeadline (fun n ↦ ?_) fun hlate ↦ ⟨rfl, hlate⟩)
      exact ih (by omega) (by rw [hpass.length_eq]; omega) (hpass.trans hperm) hruns'
    next hge => exact ⟨rfl, rfl, arranged_of_sorted ht hperm (hruns.pairwise (by omega))⟩

end Sorting

/-! ### Output -/

/-- The row that a group becomes. -/
def groupRow (groups : List QueryGroup) (k : ℕ) : List Value :=
  (groups.getD k default).keys ++ (groups.getD k default).aggregates

/-- What it takes to put out groups in some order: the two arrays of the sort, room for as many rows as
are wanted, and the strings of the rows. -/
def outputCost (p : QueryPlan) (groups : List QueryGroup) (order : List ℕ) : ℕ :=
  groups.length * 2 * sizeofSize + p.options.scan.limit * p.rowWidth +
    (order.map fun k ↦ stringCost (p.columns.zip (groupRow groups k))).sum

/-- **The rows** are put out in the order given, from position `i` on. -/
theorem wp_emitRows {order : List ℕ} {i : ℕ} (hx : x.Funded p)
    (hlimit : p.options.memoryLimitBytes < 2 ^ 64) :
    wp (emitRows p groups i order) env (fun e fs' x' ↦ fs' = fs ∧
      match e with
      | .ok _ => x'.result.totalGroups = x.result.totalGroups ∧
        x'.result.rows = x.result.rows ++ order.map (groupRow groups)
      | .fail _ => Hampered env p x
        (x.bill p + (order.map fun k ↦ stringCost (p.columns.zip (groupRow groups k))).sum)
      | .killed => False) ⟨fs, n, x⟩ := by
  induction order generalizing i n x with
  | nil => exact ⟨rfl, rfl, (append_nil _).symm⟩
  | cons k order ih =>
    rw [emitRows, map_cons, map_cons, sum_cons]
    refine wp_deadlineFirst (fun hlate ↦ ⟨rfl, .inr (.inr hlate)⟩) fun n ↦ ?_
    show wp (resultRow p (groupRow groups k) 0 >>= fun _ ↦ emitRows p groups (i + 1) order) _ _ _
    refine wp_bind (wp_resultRow hx hlimit (fun cap used hcap hused hbill n ↦ ?_)
      (fun hover e x' ↦ ⟨rfl, .inl (by omega)⟩) fun hcalm e x' ↦ ⟨rfl, .inr (.inl hcalm)⟩)
    refine (ih ⟨hused, hcap⟩).mono fun e fs' x' h ↦ ⟨h.1, ?_⟩
    cases e with
    | ok _ =>
      refine ⟨h.2.1, ?_⟩
      rw [h.2.2]
      simp [QueryResult.add]
    | fail e =>
      obtain hover | hrest := h.2
      · refine .inl (lt_of_lt_of_eq hover ?_)
        rw [← add_assoc, ← hbill]
        rfl
      · exact .inr hrest
    | killed => exact h.2

/-- There is an order. -/
theorem exists_arranged
    (ht : typeFloat (p.columnType column) = false) : ∃ σ, Arranged p groups column σ :=
  ⟨(List.range groups.length).mergeSort (groupLe p groups column), arranged_of_sorted ht
    (mergeSort_perm _ _) (pairwise_mergeSort (groupLe_trans ht) (groupLe_total ht) _)⟩

/-- An aggregation before its groups are put out. -/
structure Execution.Collected (p : QueryPlan) (x : Execution) : Prop where
  rows : x.result.rows = []
  capacity : x.result.capacity = 0
  used : x.used ≤ p.options.memoryLimitBytes

/-- **The groups are put out in order.** There is exactly one order of them in which the values go in the
requested direction, nulls come last and equal values keep the positions of their groups. The rows of the
result are the first groups in that order, as many as are wanted, and the number of groups is counted in
full. Nothing but the budget of the query, memory and the deadline keeps them from being put out. -/
theorem emitGroups_ordered (p : QueryPlan) (hlimit : p.options.memoryLimitBytes < 2 ^ 64) (column : ℕ)
    (horder : p.order = some column) (htype : typeFloat (p.columnType column) = false) (x : Execution)
    (hx : x.Collected p) :
    ∃ σ, Arranged p x.groups column σ ∧ (∀ τ, Arranged p x.groups column τ → τ = σ) ∧
      ∀ env fs n, Prog.wp (emitGroups p) env (fun e fs' x' ↦ fs' = fs ∧
        match e with
        | .ok _ => x'.result.totalGroups = x.groups.length ∧
          x'.result.rows = (σ.take (min p.options.scan.limit x.groups.length)).map (groupRow x.groups)
        | .fail _ => Hampered env p x (x.used + outputCost p x.groups
          (σ.take (min p.options.scan.limit x.groups.length)))
        | .killed => False) ⟨fs, n, x⟩ := by
  obtain ⟨σ, hσ⟩ : ∃ σ, Arranged p x.groups column σ := exists_arranged htype
  refine ⟨σ, hσ, fun τ hτ ↦ hσ.unique hτ, fun env fs n ↦ ?_⟩
  refine wp_bind (wp_get.2 fun n ↦ ?_)
  refine wp_bind (wp_modify.2 fun n ↦ ?_)
  dsimp only
  split
  next hnone =>
    rw [hnone, Nat.min_zero]
    exact ⟨rfl, rfl, hx.rows⟩
  next hsome =>
    have hcost (order : List ℕ) : x.groups.length * 2 * sizeofSize ≤ outputCost p x.groups order := by
      unfold outputCost
      omega
    refine wp_bind (wp_charge hx.used hlimit (fun hfits n ↦ ?_) fun hno ↦ ⟨rfl, Or.inl ?_⟩)
    rotate_left
    · exact lt_of_lt_of_le hno (Nat.add_le_add_left (hcost _) _)
    refine wp_bind (wp_execAlloc (fun n ↦ ?_) fun hcalm ↦ ⟨rfl, Or.inr (Or.inl hcalm)⟩)
    refine wp_bind (wp_execAlloc (fun n ↦ ?_) fun hcalm ↦ ⟨rfl, Or.inr (Or.inl hcalm)⟩)
    rw [horder]
    have hsorted := MergeSort.runs_one (groupLe p x.groups column · ·) (List.range x.groups.length)
    refine wp_bind ((wp_sortGroups htype one_pos (by simp) (List.Perm.refl _) hsorted).mono ?_)
    rintro (τ | e | _) fs' x' ⟨rfl, h⟩
    · -- the sort has found the order, since there is only one
      obtain ⟨rfl, hτ⟩ := h
      obtain rfl := hσ.unique hτ
      intro n
      rw [Nat.min_comm]
      refine (wp_emitRows ⟨hfits, by rw [hx.capacity]; exact Nat.zero_le _⟩ hlimit).mono ?_
      rintro (_ | e | _) fs' x' ⟨rfl, h⟩
      · refine ⟨rfl, h.1, ?_⟩
        rw [h.2, hx.rows, List.nil_append]
      · refine ⟨rfl, h.imp_left fun hover ↦ ?_⟩
        unfold outputCost
        unfold Execution.bill at hover
        dsimp only at hover
        rw [hx.capacity, Nat.sub_zero] at hover
        omega
      · exact h.elim
    · exact ⟨rfl, Or.inr (Or.inr h)⟩
    · exact h.elim

/-- A plan that orders its groups by their only key, the largest first, and wants two of them. -/
def largestTwo : QueryPlan where
  options :=
    { queryOptionsDefault with
      scan := { scanOptionsDefault with limit := 2 }
      descending := true }
  projection := []
  groups := [1]
  filters := []
  aggregates := []
  columns := [⟨[], .u32⟩]
  keyCount := 1
  allocatedBytes := sizeofQueryPlan
  order := some 0
  firstBucket := 0
  bucketCount := 0

/-- Three groups, the second of which has no value. -/
def threeGroups : Execution :=
  { Execution.start sizeofQueryPlan 0 0 with
    groups := [⟨0, [.ofNat 4], [], []⟩, ⟨0, [.null], [], []⟩, ⟨0, [.ofNat 7], [], []⟩] }

theorem largestTwo_ordered : Arranged largestTwo threeGroups.groups 0 [2, 0, 1] ∧
    ∃ σ, Arranged largestTwo threeGroups.groups 0 σ ∧
      (∀ τ, Arranged largestTwo threeGroups.groups 0 τ → τ = σ) ∧
      ∀ env fs n, Prog.wp (emitGroups largestTwo) env (fun e fs' x' ↦ fs' = fs ∧
        match e with
        | .ok _ => x'.result.totalGroups = 3 ∧
          x'.result.rows = (σ.take 2).map (groupRow threeGroups.groups)
        | .fail _ => Hampered env largestTwo threeGroups (threeGroups.used +
          outputCost largestTwo threeGroups.groups (σ.take 2))
        | .killed => False) ⟨fs, n, threeGroups⟩ :=
  ⟨arranged_of_sorted rfl (by decide) (by decide),
    emitGroups_ordered largestTwo (by decide) 0 rfl rfl threeGroups ⟨rfl, rfl, by decide⟩⟩

end WebAnalyticsDb
