import WebAnalyticsDb.Query.Ordering

/-!
# The groups of a query

`group_for` finds the group of some keys in an open-addressed table, or adds it. The table doubles when it
would be more than half full, and every byte of it is charged to the budget of the query.

* **Lookups** (`findGroup_spec`) are exact: a group is found if and only if one has the keys.
* **Accounting** (`Execution.Indexed`): what is charged is what the groups and their table take. While a
  table is filled from a smaller one, both are charged (`tableCost`).
* **Buckets** (`buckets_tile`): a query that groups by time alone starts with one group for each bucket
  of its range. These are exactly the buckets of the times in the range, and none of the signed
  operations that compute them overflows.
-/

namespace WebAnalyticsDb

open List

variable {p : QueryPlan} {env : Env Path Dir} {fs : Files} {n base : ℕ} {x : Execution}

/-! ### The table of groups -/

/-- The groups of an execution, their table and what is charged for them. Other things have been charged
`base` bytes. -/
structure Execution.Indexed (p : QueryPlan) (base : ℕ) (x : Execution) : Prop where
  hash : ∀ g ∈ x.groups, g.hash = hashKeys p g.keys
  table : x.slots = [] ∨ OpenAddressing.Chained (x.groups.map (·.hash)) x.slots
  half : x.groups.length * 2 ≤ x.slots.length
  size : x.slots.length ≤ 32 + 4 * x.groups.length
  room : x.groups.length ≤ x.groupCapacity
  capacity : x.groupCapacity ≤ p.options.maxGroups
  used : x.used = base + x.groupCapacity * sizeofQueryGroup + x.slots.length * sizeofSlot
  budget : x.used ≤ p.options.memoryLimitBytes

theorem indexed_start {after deadline : ℕ} (h : base ≤ p.options.memoryLimitBytes) :
    (Execution.start base after deadline).Indexed p base where
  hash := nofun
  table := .inl rfl
  half := le_rfl
  size := by simp [Execution.start]
  room := le_rfl
  capacity := zero_le
  used := by simp [Execution.start]
  budget := h

/-- The bytes of the tables that `k` groups need, with the one that is replaced. -/
def tableCost (k : ℕ) : ℕ := (32 + 6 * k) * sizeofSlot

/-- What keeps a query from having `k` groups, the strings of whose keys take some bytes. -/
def GroupsHampered (env : Env Path Dir) (p : QueryPlan) (x : Execution) (base k : ℕ) : Prop :=
  p.options.maxGroups < k ∨
    Hampered env p x (base + p.options.maxGroups * sizeofQueryGroup + tableCost k)

theorem GroupsHampered.mono {k k' : ℕ} (h : GroupsHampered env p x base k) (hk : k ≤ k') :
    GroupsHampered env p x base k' := by
  have htable : tableCost k ≤ tableCost k' := Nat.mul_le_mul_right _ (by omega)
  exact h.imp (fun hmax ↦ hmax.trans_le hk) (Or.imp_left fun hover ↦ by omega)

namespace Execution.Indexed

theorem lt_slots (hx : x.Indexed p base) (h : x.slots ≠ []) : x.groups.length < x.slots.length := by
  have hpos := length_pos_iff.2 h
  have := hx.half
  omega

/-- **Lookups are exact.** -/
theorem findGroup_spec (hx : x.Indexed p base) (keys : List Value) :
    (∃ i < x.groups.length, x.isGroup p keys i = true ∧ x.findGroup p keys = some (i + 1)) ∨
      (∀ i < x.groups.length, x.isGroup p keys i = false) ∧ x.findGroup p keys = some 0 := by
  unfold Execution.findGroup
  split
  next hslots =>
    have hne : x.slots ≠ [] := fun h ↦ hslots (by rw [h]; rfl)
    have hchained := hx.table.resolve_left hne
    have hhash (i : ℕ) (hi : i < (x.groups.map (·.hash)).length) (hsame : x.isGroup p keys i = true) :
        (x.groups.map (·.hash))[i] = hashKeys p keys := by
      rw [length_map] at hi
      unfold Execution.isGroup at hsame
      rw [getElem?_eq_getElem hi] at hsame
      rw [getElem_map]
      simpa using (Bool.and_eq_true_iff.1 hsame).1
    have hspec := OpenAddressing.find_spec hchained (by simpa using hx.lt_slots hne) hhash
    simpa only [length_map] using hspec
  next hslots =>
    have hnone : x.groups.length = 0 := by
      have := hx.half
      omega
    exact .inr ⟨fun i hi ↦ by omega, rfl⟩

end Execution.Indexed

/-- There is room for one more group. -/
theorem wp_growGroups {Q : Exit Error Unit → Files → Execution → Prop} (hx : x.Indexed p base)
    (hlimit : p.options.memoryLimitBytes < 2 ^ 64) (hmax : x.groups.length ≠ p.options.maxGroups)
    (hok : ∀ cap used, x.groups.length < cap →
      ({ x with groupCapacity := cap, used := used } : Execution).Indexed p base →
      Q (.ok ()) fs { x with groupCapacity := cap, used := used })
    (hno : GroupsHampered env p x base (x.groups.length + 1) → ∀ e x', Q (.fail e) fs x') :
    wp (growGroups p) env Q ⟨fs, n, x⟩ := by
  have hroom := hx.room
  have hcapacity := hx.capacity
  refine wp_bind (wp_get.2 fun n ↦ ?_)
  dsimp only
  split
  next hfull =>
    have hcap : x.groupCapacity <
        min (if x.groupCapacity ≠ 0 then x.groupCapacity * 2 else 16) p.options.maxGroups := by
      split <;> omega
    have hcap' := Nat.min_le_right (if x.groupCapacity ≠ 0 then x.groupCapacity * 2 else 16)
      p.options.maxGroups
    generalize min (if x.groupCapacity ≠ 0 then x.groupCapacity * 2 else 16) p.options.maxGroups = cap
      at hcap hcap' ⊢
    have hsplit : x.groupCapacity * sizeofQueryGroup + (cap - x.groupCapacity) * sizeofQueryGroup =
        cap * sizeofQueryGroup := by
      rw [← add_mul]
      congr 1
      omega
    have hbytes : cap * sizeofQueryGroup ≤ p.options.maxGroups * sizeofQueryGroup :=
      Nat.mul_le_mul_right _ hcap'
    have hused := hx.used
    refine wp_bind (wp_charge hx.budget hlimit (fun hfits n ↦ ?_) fun hover ↦ ?_)
    · refine wp_bind (wp_execAlloc (fun n ↦ ?_) fun hcalm ↦
        hno (.inr (.inr (.inl hcalm))) _ _)
      exact hok cap _ (by omega)
        { hx with room := by dsimp only; omega, capacity := hcap', used := by dsimp only; omega,
                  budget := hfits }
    · refine hno (.inr (.inl ?_)) _ _
      have hslots : x.slots.length * sizeofSlot ≤ tableCost (x.groups.length + 1) := by
        have := hx.size
        unfold tableCost
        exact Nat.mul_le_mul_right _ (by omega)
      omega
  next hspace => exact hok x.groupCapacity x.used (by omega) hx

/-- The table has a free slot for one more group. -/
theorem wp_growTable {Q : Exit Error Unit → Files → Execution → Prop} (hx : x.Indexed p base)
    (hlimit : p.options.memoryLimitBytes < 2 ^ 64)
    (hok : ∀ slots used, OpenAddressing.Chained (x.groups.map (·.hash)) slots →
      (x.groups.length + 1) * 2 ≤ slots.length → slots.length ≤ 32 + 4 * (x.groups.length + 1) →
      used = base + x.groupCapacity * sizeofQueryGroup + slots.length * sizeofSlot →
      used ≤ p.options.memoryLimitBytes → Q (.ok ()) fs { x with slots := slots, used := used })
    (hno : GroupsHampered env p x base (x.groups.length + 1) → ∀ e x', Q (.fail e) fs x') :
    wp (growTable p) env Q ⟨fs, n, x⟩ := by
  have hhalf := hx.half
  have hused := hx.used
  refine wp_bind (wp_get.2 fun n ↦ ?_)
  dsimp only
  split
  next hfull =>
    have hpower : ∃ k, (if x.slots.length ≠ 0 then x.slots.length * 2 else 32) = 2 ^ k := by
      split
      next hne =>
        obtain ⟨k, hk⟩ := (hx.table.resolve_left fun h ↦ hne (by rw [h]; rfl)).size
        exact ⟨k + 1, by rw [hk, Nat.pow_succ]⟩
      next => exact ⟨5, rfl⟩
    have hcount : (x.groups.length + 1) * 2 ≤ (if x.slots.length ≠ 0 then x.slots.length * 2 else 32) ∧
        (if x.slots.length ≠ 0 then x.slots.length * 2 else 32) ≤ 32 + 4 * (x.groups.length + 1) := by
      split <;> omega
    generalize (if x.slots.length ≠ 0 then x.slots.length * 2 else 32) = count at hpower hcount ⊢
    have hgroups : x.groupCapacity * sizeofQueryGroup ≤ p.options.maxGroups * sizeofQueryGroup :=
      Nat.mul_le_mul_right _ hx.capacity
    refine wp_bind (wp_charge hx.budget hlimit (fun hfits n ↦ ?_) fun hover ↦ ?_)
    · refine wp_bind (wp_execAlloc (fun n ↦ ?_) fun hcalm ↦
        hno (.inr (.inr (.inl hcalm))) _ _)
      have hback : u64Sub (x.used + count * sizeofSlot) (x.slots.length * sizeofSlot) =
          base + x.groupCapacity * sizeofQueryGroup + count * sizeofSlot := by
        rw [u64Sub_of_le (by omega) (by omega)]
        omega
      have hchained : OpenAddressing.Chained (x.groups.map (·.hash))
          (OpenAddressing.fill (List.replicate count 0) 0 (x.groups.map (·.hash))) :=
        OpenAddressing.chained_fill hpower (by rw [length_map]; omega)
      have hlength : (OpenAddressing.fill (List.replicate count 0) 0
          (x.groups.map (·.hash))).length = count := by simp
      refine hok _ _ hchained (by rw [hlength]; exact hcount.1) (by rw [hlength]; exact hcount.2) ?_ ?_
      · rw [hlength]
        exact hback
      · dsimp only
        omega
    · refine hno (.inr (.inl (lt_of_lt_of_le hover ?_))) _ _
      have htables : x.slots.length * sizeofSlot + count * sizeofSlot ≤
          tableCost (x.groups.length + 1) := by
        rw [← add_mul]
        exact Nat.mul_le_mul_right _ (by omega)
      omega
  next hspace =>
    have hne : x.slots ≠ [] := fun h ↦ by
      rw [h] at hspace
      simp at hspace
    exact hok x.slots x.used (hx.table.resolve_left hne) (by omega) (hx.size.trans (by omega)) hused
      hx.budget

/-- A group is added where there is room for it. -/
theorem indexed_addGroup {keys : List Value} (hhash : ∀ g ∈ x.groups, g.hash = hashKeys p g.keys)
    (hchained : OpenAddressing.Chained (x.groups.map (·.hash)) x.slots)
    (hhalf : (x.groups.length + 1) * 2 ≤ x.slots.length)
    (hsize : x.slots.length ≤ 32 + 4 * (x.groups.length + 1)) (hroom : x.groups.length < x.groupCapacity)
    (hcapacity : x.groupCapacity ≤ p.options.maxGroups)
    (hused : x.used = base + x.groupCapacity * sizeofQueryGroup + x.slots.length * sizeofSlot)
    (hbudget : x.used ≤ p.options.memoryLimitBytes) : (x.addGroup p keys).Indexed p base where
  hash g hg := by
    rcases mem_append.1 hg with hg | hg
    · exact hhash g hg
    · rw [mem_singleton.1 hg]
      rfl
  table := by
    have h := hchained.insert (by rw [length_map]; omega) (hashKeys p keys)
    rw [length_map] at h
    exact .inr (by simpa [Execution.addGroup, QueryGroup.empty] using h)
  half := by simpa [Execution.addGroup] using hhalf
  size := by simpa [Execution.addGroup] using hsize
  room := by
    rw [Execution.addGroup, length_append]
    exact hroom
  capacity := hcapacity
  used := by simpa [Execution.addGroup] using hused
  budget := hbudget

/-- **The group of some keys** is found, or added at the end, or there is no room for it. -/
theorem wp_groupFor {keys : List Value} {Q : Exit Error ℕ → Files → Execution → Prop}
    (hx : x.Indexed p base) (hlimit : p.options.memoryLimitBytes < 2 ^ 64)
    (hfound : ∀ i < x.groups.length, x.isGroup p keys i = true → Q (.ok i) fs x)
    (hnew : (∀ i < x.groups.length, x.isGroup p keys i = false) → ∀ x', x'.result = x.result →
      x'.deadline = x.deadline → x'.groups = x.groups ++ [.empty p keys] →
      x'.Indexed p (base + stringCost (p.keyColumns.zip keys)) → Q (.ok x.groups.length) fs x')
    (hno : GroupsHampered env p x (base + stringCost (p.keyColumns.zip keys)) (x.groups.length + 1) →
      ∀ e x', Q (.fail e) fs x') :
    wp (groupFor p keys) env Q ⟨fs, n, x⟩ := by
  have hno' (h : GroupsHampered env p x base (x.groups.length + 1)) :=
    hno (h.imp_right (Or.imp_left fun hover ↦ by omega))
  refine wp_bind (wp_get.2 fun n ↦ ?_)
  rcases hx.findGroup_spec keys with ⟨i, hi, hsame, hfind⟩ | ⟨hnone, hfind⟩
  · rw [hfind]
    exact hfound i hi hsame
  rw [hfind]
  dsimp only
  refine wp_bind (wp_execRequire (fun hmax n ↦ ?_) fun hmax ↦ ?_)
  · rw [decide_eq_true_eq] at hmax
    refine wp_bind (wp_growGroups hx hlimit hmax (fun cap used hcap hx' n ↦ ?_) hno')
    refine wp_bind (wp_growTable hx' hlimit
      (fun slots used hchained hhalf hsize hused hbudget n ↦ ?_) hno')
    refine wp_bind (wp_copyValues hbudget hlimit (fun hfits n ↦ ?_) (fun hover ↦ hno ?_)
      fun hcalm ↦ hno (.inr (.inr (.inl hcalm))))
    · refine wp_bind (wp_modify.2 fun n ↦ hnew hnone _ rfl rfl rfl ?_)
      exact indexed_addGroup hx.hash hchained hhalf hsize hcap hx'.capacity
        (by dsimp only at hused ⊢; omega) hfits
    · have hslots : slots.length * sizeofSlot ≤ tableCost (x.groups.length + 1) :=
        Nat.mul_le_mul_right _ (by dsimp only at hsize; omega)
      have hgroups : cap * sizeofQueryGroup ≤ p.options.maxGroups * sizeofQueryGroup :=
        Nat.mul_le_mul_right _ hx'.capacity
      dsimp only at hover hused
      exact .inr (.inl (by omega))
  · rw [decide_eq_false_iff_not, not_not] at hmax
    exact hno (.inl (by omega)) _ _

/-! ### Buckets -/

/-- The groups of the first `k` buckets. -/
def bucketGroups (p : QueryPlan) (k : ℕ) : List QueryGroup :=
  (List.range k).map fun i ↦ .empty p [.ofInt (p.firstBucket + (i : ℕ) * p.options.bucketWidthUs)]

theorem Value.i64_ofInt {a : ℤ} (h : InI64 a) : (Value.ofInt a).i64 = a := by
  rw [Value.i64, Value.word_ofInt, i64OfBits_i64Bits h.1 h.2]

/-- The keys of two buckets are the same only if the buckets are. -/
theorem sameKeys_bucket {name : Bytes} (hkeys : p.keyColumns = [⟨name, .timestampUs⟩]) {a b : ℤ}
    (ha : InI64 a) (hb : InI64 b) : p.sameKeys [.ofInt a] [.ofInt b] = true ↔ a = b := by
  have hcmp : Compares (valueCompare .timestampUs (.ofInt a) (.ofInt b)) _
    (Value.Same .timestampUs (.ofInt a) (.ofInt b)) _ := compares_valueCompare rfl rfl rfl
  have hsame : Value.Same .timestampUs (.ofInt a) (.ofInt b) ↔ a = b := by
    show (Value.ofInt a).i64 = (Value.ofInt b).i64 ↔ a = b
    rw [Value.i64_ofInt ha, Value.i64_ofInt hb]
  rw [QueryPlan.sameKeys, hkeys]
  simpa using hcmp.zero.trans hsame

section Precreated

variable {count : ℕ} (hkeys : p.keyColumns = [⟨bucketName, .timestampUs⟩]) (hcount : p.keyCount = 1)
  (hlimit : p.options.memoryLimitBytes < 2 ^ 64) (hwidth : 0 < p.options.bucketWidthUs)
  (hrange : ∀ i < count, InI64 (p.firstBucket + (i : ℕ) * p.options.bucketWidthUs))

include hkeys hwidth hrange in
/-- A later bucket is none of those that are there. -/
theorem isGroup_bucket_eq_false {i k : ℕ} (hgroups : x.groups = bucketGroups p k) (hk : k < count)
    (hi : i < x.groups.length) :
    x.isGroup p [.ofInt (p.firstBucket + (k : ℕ) * p.options.bucketWidthUs)] i = false := by
  rw [hgroups, bucketGroups, length_map, length_range] at hi
  have hne : p.firstBucket + (i : ℕ) * p.options.bucketWidthUs ≠
      p.firstBucket + (k : ℕ) * p.options.bucketWidthUs := by
    intro h
    have := Int.eq_of_mul_eq_mul_right hwidth.ne' (Int.add_left_cancel h)
    omega
  have hsame := (sameKeys_bucket hkeys (hrange i (hi.trans hk)) (hrange k hk)).not.2 hne
  unfold Execution.isGroup
  rw [hgroups, bucketGroups]
  simp [hi, QueryGroup.empty, hsame]

include hkeys hcount hlimit hwidth hrange in
/-- **The groups of the buckets are made one after the other.** -/
theorem wp_precreate {k i : ℕ} (hik : i + k = count) (hx : x.Indexed p base)
    (hgroups : x.groups = bucketGroups p i) :
    wp (precreate p k i (p.firstBucket + (i : ℕ) * p.options.bucketWidthUs)) env
      (fun e fs' x' ↦ fs' = fs ∧
        match e with
        | .ok _ => x'.groups = bucketGroups p count ∧ x'.result = x.result ∧ x'.Indexed p base
        | .fail _ => GroupsHampered env p x base count
        | .killed => False) ⟨fs, n, x⟩ := by
  induction k generalizing i n x with
  | zero =>
    obtain rfl : i = count := hik
    exact ⟨rfl, hgroups, rfl, hx⟩
  | succ k ih =>
    have hi : i < count := by omega
    have htake : [Value.ofInt (p.firstBucket + (i : ℕ) * p.options.bucketWidthUs)].take p.keyCount =
        [.ofInt (p.firstBucket + (i : ℕ) * p.options.bucketWidthUs)] := by
      rw [hcount]
      rfl
    have hstrings : stringCost (p.keyColumns.zip
        [.ofInt (p.firstBucket + (i : ℕ) * p.options.bucketWidthUs)]) = 0 := by
      rw [hkeys]
      rfl
    have hlength : x.groups.length = i := by simp [hgroups, bucketGroups]
    rw [precreate, htake]
    refine wp_deadlineFirst (fun hlate ↦ ⟨rfl, .inr (.inr (.inr hlate))⟩) fun n ↦ ?_
    refine wp_bind (wp_groupFor hx hlimit (fun j hj hsame ↦ ?_)
      (fun _ x' hresult hdeadline hgroups' hx' n ↦ ?_) fun h e x' ↦ ⟨rfl, ?_⟩)
    · rw [isGroup_bucket_eq_false hkeys hwidth hrange hgroups hi hj] at hsame
      cases hsame
    · rw [hstrings, add_zero] at hx'
      have hnext : x'.groups = bucketGroups p (i + 1) := by
        rw [hgroups', hgroups, bucketGroups, bucketGroups, range_succ, map_append]
        rfl
      split
      next hlast =>
        obtain rfl : i + 1 = count := by omega
        exact ⟨rfl, hnext, hresult, hx'⟩
      next hmore =>
        have hstep : p.firstBucket + (i : ℕ) * p.options.bucketWidthUs + p.options.bucketWidthUs =
            p.firstBucket + (i + 1 : ℕ) * p.options.bucketWidthUs := by
          push_cast
          ring
        rw [hstep, i64Result_of_inI64 (hrange (i + 1) (by omega))]
        refine (ih (by omega) hx' hnext).mono ?_
        rintro (_ | e | _) fs' x'' ⟨rfl, h⟩
        · exact ⟨rfl, h.1, h.2.1.trans hresult, h.2.2⟩
        · refine ⟨rfl, ?_⟩
          unfold GroupsHampered Hampered at h ⊢
          rwa [hdeadline] at h
        · exact h.elim
    · rw [hstrings, add_zero, hlength] at h
      exact h.mono hi

end Precreated

/-- The boundaries `first`, `first + width`, …, `count` of them, are the buckets of the range. -/
structure TimeBuckets (o : QueryOptions) (first : ℤ) (count : ℕ) : Prop where
  /-- Every time of the range has a bucket that starts at a boundary and ends after the time. -/
  floor : ∀ t, o.scan.startTime ≤ t → t < o.scan.endTime →
    ∃ b, bucketFloor t o.bucketWidthUs o.bucketOriginUs = some (.ok b) ∧ b ≤ t ∧
      t < b + o.bucketWidthUs ∧ b ≡ o.bucketOriginUs [ZMOD o.bucketWidthUs]
  keys : {b | ∃ t, o.scan.startTime ≤ t ∧ t < o.scan.endTime ∧
      bucketFloor t o.bucketWidthUs o.bucketOriginUs = some (.ok b)} =
    {b | ∃ i < count, b = first + (i : ℕ) * o.bucketWidthUs}
  steps : ∀ i < count, InI64 (first + (i : ℕ) * o.bucketWidthUs)

theorem Tiling.timeBuckets {o : QueryOptions} {first : ℤ} {count : ℕ} (h : Tiling o first count)
    (hrange : o.InRange) (hwidth : 0 < o.bucketWidthUs) (hlt : o.scan.startTime < o.scan.endTime) :
    TimeBuckets o first count where
  floor t hstart hstop := ⟨o.bucket t, h.bucketFloor_eq_ok hrange hwidth hstart hstop,
    bucketOf_le hwidth, lt_bucketOf_add hwidth, bucketOf_modEq _ _ _⟩
  keys := by
    rw [← h.keys_eq hwidth hlt]
    ext b
    refine exists_congr fun t ↦ and_congr_right fun hstart ↦ and_congr_right fun hstop ↦ ?_
    rw [h.bucketFloor_eq_ok hrange hwidth hstart hstop]
    simp
  steps _ hi := h.inI64 hrange hwidth hi

/-- A query that groups by time alone starts with the groups of its buckets. -/
def StartsWithBuckets (p : QueryPlan) : Prop :=
  ∀ env fs n used after deadline, used ≤ p.options.memoryLimitBytes →
    wp (initialGroups p) env (fun e _ x ↦
      match e with
      | .ok _ => x.groups.map (·.keys) = (List.range p.bucketCount).map fun i ↦
        [Value.ofInt (p.firstBucket + (i : ℕ) * p.options.bucketWidthUs)]
      | .fail _ => GroupsHampered env p (.start used after deadline) used p.bucketCount
      | .killed => False) ⟨fs, n, .start used after deadline⟩

theorem Compiled.startsWithBuckets {o : QueryOptions} (hp : Compiled o p) (hrange : o.InRange)
    (hwidth : 0 < o.bucketWidthUs) (hlt : o.scan.startTime < o.scan.endTime) (hgroup : o.groupBy = []) :
    StartsWithBuckets p := by
  obtain ⟨rfl, haccept, hbuckets, hkeys⟩ := hp
  obtain ⟨-, -, hmemory, hscan⟩ := QueryOptions.acceptable_shape haccept
  have haggregates : p.options.aggregates ≠ [] := fun h ↦ hwidth.ne' (hscan h)
  obtain ⟨hcount, hcolumns⟩ := hkeys haggregates hgroup
  rw [if_neg hwidth.ne'] at hcolumns
  rw [hcolumns] at hcount
  obtain ⟨r, hr, htiling⟩ := bucketPlan_spec hrange hwidth hlt
  rw [hbuckets hwidth.ne', Option.some.injEq] at hr
  have htiles := htiling _ _ hr.symm
  intro env fs n used after deadline hused
  have hfirst : precreate p p.bucketCount 0 p.firstBucket = precreate p p.bucketCount 0
      (p.firstBucket + (0 : ℕ) * p.options.bucketWidthUs) := by simp
  unfold initialGroups
  rw [if_pos (by simp [haggregates, hgroup]), if_pos hwidth.ne', hfirst]
  refine (wp_precreate hcolumns hcount (by omega) hwidth
    (fun i hi ↦ htiles.inI64 hrange hwidth hi) (zero_add p.bucketCount)
    (indexed_start hused) rfl).mono ?_
  rintro (_ | e | _) fs' x' ⟨-, h⟩
  · dsimp only
    rw [h.1, bucketGroups, map_map]
    rfl
  · exact h
  · exact h

/-- **Time buckets tile the range.** For every width, origin and range of times, the bucket of a time is
found without an undefined operation, and is an error exactly if it would start before the first time
there is. If the buckets of a range are accepted, those of its times are exactly the boundaries from the
first one on, and a query that groups by time alone starts with a group for each of them. -/
theorem buckets_tile (o : QueryOptions) (hrange : o.InRange) (hwidth : 0 < o.bucketWidthUs)
    (hlt : o.scan.startTime < o.scan.endTime) :
    (∀ t, InI64 t → ∃ r, bucketFloor t o.bucketWidthUs o.bucketOriginUs = some r ∧
      ((∃ e, r = .error e) ↔ t - (t - o.bucketOriginUs) % o.bucketWidthUs < -2 ^ 63)) ∧
    (∃ r, bucketPlan o = some r ∧ ∀ first count, r = .ok (first, count) → TimeBuckets o first count) ∧
    ∀ (s : Schema) (μ : Type) env fs n (m : μ), Prog.wp (queryCompile s (some o)) env (fun e _ _ ↦
      match e with
      | .ok p => p.options = o ∧ bucketPlan o = some (.ok (p.firstBucket, p.bucketCount)) ∧
        (o.groupBy = [] → StartsWithBuckets p)
      | .fail _ => True
      | .killed => False) ⟨fs, n, m⟩ := by
  refine ⟨fun t ht ↦ ⟨_, bucketFloor_eq hwidth hrange.width ht, ?_⟩, ?_, fun s μ env fs n m ↦ ?_⟩
  · rw [← bucketOf]
    split
    next hlow => exact iff_of_true ⟨_, rfl⟩ hlow
    next hlow => exact iff_of_false nofun hlow
  · obtain ⟨r, hr, htiling⟩ := bucketPlan_spec hrange hwidth hlt
    exact ⟨r, hr, fun first count h ↦ (htiling first count h).timeBuckets hrange hwidth hlt⟩
  · exact wp_queryCompile hrange (fun p hp ↦ ⟨hp.options, hp.buckets hwidth.ne', fun hgroup ↦
      hp.startsWithBuckets hrange hwidth hlt hgroup⟩) fun _ ↦ trivial

/-- A query for the number of rows in each bucket of ten microseconds, with boundaries at 3. -/
def tenMicroseconds : QueryOptions :=
  { queryOptionsDefault with
    scan := { scanOptionsDefault with startTime := -5, endTime := 17 }
    aggregates := [⟨.countAll, none, some [110]⟩]
    bucketWidthUs := 10
    bucketOriginUs := 3 }

theorem tenMicroseconds_tile : TimeBuckets tenMicroseconds (-7) 3 ∧
    ∃ p, ((queryCompile ⟨8, 0, 0, []⟩ (some tenMicroseconds) : Io Unit QueryPlan) (Env.still Path Dir)
      ⟨fun _ ↦ none, 0, ()⟩).1 = .ok p ∧ p.firstBucket = -7 ∧ p.bucketCount = 3 := by
  have hplan : bucketPlan tenMicroseconds = some (.ok (-7, 3)) := by decide
  obtain ⟨-, ⟨r, hr, htiles⟩, -⟩ := buckets_tile tenMicroseconds
    ⟨by decide, by decide, by decide, by decide, by decide⟩ (by decide) (by decide)
  rw [hplan, Option.some.injEq] at hr
  exact ⟨htiles (-7) 3 hr.symm, _, rfl, rfl, rfl⟩

end WebAnalyticsDb
