import WebAnalyticsDb.Foundation.Machine
import WebAnalyticsDb.Query.Budget

/-!
# The memory of a query

A query charges what it allocates to its budget, `charge` before each allocation. This module says what the
charge stands for.

* **Steps.** The allocations are made by a few helpers: one grows the rows, one copies a value, two grow the
  groups and their table, one makes the buffers of the sort. They are the steps of a machine (`queryMachine`),
  which takes them in any order; whatever else a query does leaves its memory alone (`QueryStep.keep`).
* **What is allocated** is read off the state (`QueryMeter.live`). A row that is being copied is not yet in
  the execution, so the machine keeps the values of half-filled rows and groups on the side.
* **One invariant** (`QueryMeter.Accounted`): the charge is within the limit and is what is allocated, until an
  allocation fails. After that it is at least what is allocated.
* **Queries are runs** of the machine, with every snapshot and every row that a scan can find
  (`tracked_queryExecute`).
-/

namespace WebAnalyticsDb

open Bytes List

variable {c : Config} {α κ : Type}

/-! ### The machine -/

/-- The buffers of `emit_groups`. -/
def orderBuffers (p : QueryPlan) (n : ℕ) : Io Execution Unit := do
  charge p (n * 2 * sizeofSize)
  execAlloc "group ordering"
  execAlloc "group ordering"

/-- The result without rows, and its columns. -/
def QueryPlan.headerBytes (p : QueryPlan) : ℕ := sizeofQueryResult + p.columns.length * sizeofResultColumn

/-- An execution with what it does not show of the query's memory. -/
structure QueryMeter where
  execution : Execution
  /-- The values that have been copied for rows and groups that are not complete. -/
  filling : List (ResultColumn × Value)
  /-- The bytes of the buffers of the sort. -/
  ordering : ℕ
  /-- An allocation has failed. -/
  starved : Bool

/-- What a query does to its memory. -/
inductive QueryStep
  /-- An allocation fails that is not one of the execution's. -/
  | starve
  | growRows
  | copy (cell : ResultColumn × Value)
  | addRow (values : List Value) (sequence : ℕ)
  | growGroups
  | growTable
  | addGroup (keys : List Value)
  | order (n : ℕ)
  /-- A change that is not one of the memory. -/
  | keep (y : Execution)

/-- The program of a step. -/
def QueryStep.run (p : QueryPlan) : QueryStep → Io Execution Unit
  | .starve => pure ()
  | .growRows => WebAnalyticsDb.growRows p
  | .copy cell => copyValue p cell.1.type cell.2
  | .addRow values sequence => Prog.modify fun x ↦ { x with result := x.result.add p values sequence }
  | .growGroups => WebAnalyticsDb.growGroups p
  | .growTable => WebAnalyticsDb.growTable p
  | .addGroup keys => Prog.modify (·.addGroup p keys)
  | .order n => orderBuffers p n
  | .keep y => Prog.modify fun _ ↦ y

/-- The executions hold the same memory. -/
structure Execution.SameMemory (y x : Execution) : Prop where
  used : y.used = x.used
  rows : y.result.rows = x.result.rows
  capacity : y.result.capacity = x.result.capacity
  groups : y.groups.map (·.keys) = x.groups.map (·.keys)
  groupCapacity : y.groupCapacity = x.groupCapacity
  slots : y.slots.length = x.slots.length

/-- When a step is taken: the values of a row or a group were copied before. -/
def QueryStep.Allowed (p : QueryPlan) (m : QueryMeter) : QueryStep → Prop
  | .addRow values _ => p.columns.zip values <:+ m.filling
  | .addGroup keys => p.keyColumns.zip keys <:+ m.filling
  | .keep y => y.SameMemory m.execution
  | _ => True

namespace QueryMeter

/-- The last `k` values that were copied now belong to a row or a group. -/
def filled (m : QueryMeter) (x : Execution) (k : ℕ) : QueryMeter :=
  { m with execution := x, filling := m.filling.take (m.filling.length - k) }

/-- After a step that has succeeded. -/
def done (m : QueryMeter) (p : QueryPlan) (x : Execution) : QueryStep → QueryMeter
  | .starve => { m with execution := x, starved := true }
  | .copy cell => { m with execution := x, filling := m.filling ++ [cell] }
  | .addRow values _ => m.filled x (p.columns.zip values).length
  | .addGroup keys => m.filled x (p.keyColumns.zip keys).length
  | .order n => { m with execution := x, ordering := m.ordering + n * 2 * sizeofSize }
  | _ => { m with execution := x }

/-- After a step. -/
def after (m : QueryMeter) (p : QueryPlan) (s : QueryStep) : Exit Error Unit → Execution → QueryMeter
  | .ok _, x => m.done p x s
  | .fail e, x => { m with execution := x, starved := m.starved || e.code = .nomem }
  | .killed, x => { m with execution := x }

/-- The bytes of the strings that have been copied. -/
def strings (m : QueryMeter) (p : QueryPlan) : ℕ :=
  (m.execution.result.rows.map fun row ↦ stringCost (p.columns.zip row)).sum +
    (m.execution.groups.map fun g ↦ stringCost (p.keyColumns.zip g.keys)).sum + stringCost m.filling

/-- **What is allocated**: the plan, the result, its cells, the strings, the groups, their table and the
buffers of the sort. -/
def live (m : QueryMeter) (p : QueryPlan) : ℕ :=
  p.allocatedBytes + p.headerBytes + m.execution.result.capacity * p.rowWidth + m.strings p +
    m.execution.groupCapacity * sizeofQueryGroup + m.execution.slots.length * sizeofSlot + m.ordering

/-- **The charge is what is allocated**, until an allocation fails, and within the limit. -/
structure Accounted (p : QueryPlan) (m : QueryMeter) : Prop where
  used : m.execution.used ≤ p.options.memoryLimitBytes
  covered : m.live p ≤ m.execution.used
  exact : m.starved = false → m.execution.used = m.live p
  capacity : m.execution.result.capacity ≤ p.options.scan.limit
  groupCapacity : m.execution.groupCapacity ≤ p.options.maxGroups

end QueryMeter

/-- **The steps of a query**, in any order, once the result without rows has been charged. -/
def queryMachine (p : QueryPlan) : Machine QueryMeter QueryStep where
  init m := p.allocatedBytes + p.headerBytes ≤ p.options.memoryLimitBytes ∧ ∃ start deadline,
    m = ⟨.start (p.allocatedBytes + p.headerBytes) start deadline, [], 0, false⟩
  step m s m' := s.Allowed p m ∧ ∃ (env : Env Path Dir) (fs : Files) (n : ℕ),
    m' = m.after p s (s.run p env ⟨fs, n, m.execution⟩).1 (s.run p env ⟨fs, n, m.execution⟩).2.mem

/-! ### One step -/

theorem stringCost_append (a b : List (ResultColumn × Value)) :
    stringCost (a ++ b) = stringCost a + stringCost b := by
  rw [stringCost, map_append, sum_append, ← stringCost, ← stringCost]

theorem stringCost_singleton (cell : ResultColumn × Value) : stringCost [cell] =
    if !cell.2.isNull && typeBytes cell.1.type then cell.2.bytes.length + 1 else 0 := by
  rw [stringCost, map_singleton, sum_singleton]

namespace QueryMeter.Accounted

variable {p : QueryPlan} {m : QueryMeter} {env : Env Path Dir} {fs : Files} {n k : ℕ}
variable {message : String} {s : QueryStep}

section

variable (h : m.Accounted p)
include h

/-- A step that fails before it has charged anything, or without memory after it has. -/
theorem failed {code : Status}
    (hfits : m.execution.used + k ≤ p.options.memoryLimitBytes) (hk : k = 0 ∨ code = .nomem) (s : QueryStep) :
    (m.after p s (.fail ⟨code, message⟩)
      (({ m.execution with used := m.execution.used + k } : Execution).failed code message)).Accounted p where
  used := hfits
  covered := h.covered.trans (Nat.le_add_right _ k)
  exact hstarved := by
    simp only [after, Bool.or_eq_false_iff, decide_eq_false_iff_not] at hstarved
    obtain rfl := hk.resolve_right hstarved.2
    exact h.exact hstarved.1
  capacity := h.capacity
  groupCapacity := h.groupCapacity

/-- **A charge** and what follows it. -/
theorem wp_charge_bind (hlimit : p.options.memoryLimitBytes < 2 ^ 64)
    {rest : Io Execution Unit} (hok : m.execution.used + k ≤ p.options.memoryLimitBytes → ∀ n,
      wp rest env (fun e _ x ↦ (m.after p s e x).Accounted p)
        ⟨fs, n, { m.execution with used := m.execution.used + k }⟩) :
    wp (charge p k >>= fun _ ↦ rest) env (fun e _ x ↦ (m.after p s e x).Accounted p)
      ⟨fs, n, m.execution⟩ :=
  wp_bind (wp_charge h.used hlimit hok fun _ ↦ h.failed (k := 0) h.used (.inl rfl) s)

/-- **An allocation** that has been charged. -/
theorem wp_alloc (hfits : m.execution.used + k ≤ p.options.memoryLimitBytes)
    (hok : (m.after p s (.ok ()) { m.execution with used := m.execution.used + k }).Accounted p) :
    wp (execAlloc message) env (fun e _ x ↦ (m.after p s e x).Accounted p)
      ⟨fs, n, { m.execution with used := m.execution.used + k }⟩ :=
  wp_execAlloc hok fun _ ↦ h.failed hfits (.inr rfl) s

theorem wp_alloc_bind (hfits : m.execution.used + k ≤ p.options.memoryLimitBytes)
    {rest : Io Execution Unit} (hok : ∀ n,
      wp rest env (fun e _ x ↦ (m.after p s e x).Accounted p)
        ⟨fs, n, { m.execution with used := m.execution.used + k }⟩) :
    wp (execAlloc message >>= fun _ ↦ rest) env (fun e _ x ↦ (m.after p s e x).Accounted p)
      ⟨fs, n, { m.execution with used := m.execution.used + k }⟩ :=
  wp_bind (wp_execAlloc hok fun _ ↦ h.failed hfits (.inr rfl) s)

/-- The invariant after a step that has charged what it has allocated. -/
theorem of_live {m' : QueryMeter} (hstarved : m'.starved = m.starved)
    (hused : m'.execution.used ≤ p.options.memoryLimitBytes)
    (hlive : m'.live p + m.execution.used = m.live p + m'.execution.used)
    (hcapacity : m'.execution.result.capacity ≤ p.options.scan.limit)
    (hgroups : m'.execution.groupCapacity ≤ p.options.maxGroups) : m'.Accounted p where
  used := hused
  covered := by
    have := h.covered
    omega
  exact hs := by
    have := h.exact (hstarved.symm.trans hs)
    omega
  capacity := hcapacity
  groupCapacity := hgroups

theorem growRows (hlimit : p.options.memoryLimitBytes < 2 ^ 64) :
    wp (WebAnalyticsDb.growRows p) env (fun e _ x ↦ (m.after p .growRows e x).Accounted p)
      ⟨fs, n, m.execution⟩ := by
  refine wp_bind (wp_get.2 fun n ↦ ?_)
  dsimp only
  split
  next hfull =>
    have hcap : m.execution.result.capacity ≤ p.rowCapacity m.execution.result.capacity ∧
        p.rowCapacity m.execution.result.capacity ≤ p.options.scan.limit := by
      have := h.capacity
      unfold QueryPlan.rowCapacity
      split <;> omega
    generalize p.rowCapacity m.execution.result.capacity = cap at hcap
    refine h.wp_charge_bind hlimit fun hfits n ↦ h.wp_alloc_bind hfits fun n ↦ ?_
    have hgrown : (m.after p .growRows (.ok ()) { m.execution with
        used := m.execution.used + (cap - m.execution.result.capacity) * p.rowWidth
        result := { m.execution.result with capacity := cap } }).Accounted p := by
      refine h.of_live rfl hfits ?_ hcap.2 h.groupCapacity
      have hsplit : cap * p.rowWidth = m.execution.result.capacity * p.rowWidth +
          (cap - m.execution.result.capacity) * p.rowWidth := by
        rw [← add_mul, Nat.add_sub_cancel' hcap.1]
      simp only [after, done, live, strings, hsplit]
      omega
    split
    · exact h.wp_alloc_bind hfits fun n ↦ hgrown
    · exact hgrown
  next hroom => exact h

theorem copy (hlimit : p.options.memoryLimitBytes < 2 ^ 64) (cell : ResultColumn × Value) :
    wp (copyValue p cell.1.type cell.2) env (fun e _ x ↦ (m.after p (.copy cell) e x).Accounted p)
      ⟨fs, n, m.execution⟩ := by
  have hcost := stringCost_singleton cell
  unfold copyValue
  split
  next hcopy =>
    rw [if_pos hcopy] at hcost
    refine h.wp_charge_bind hlimit fun hfits n ↦ h.wp_alloc hfits ?_
    refine h.of_live rfl hfits ?_ h.capacity h.groupCapacity
    simp only [after, done, live, strings, stringCost_append, hcost]
    omega
  next hcopy =>
    rw [if_neg hcopy] at hcost
    rw [wp_pure]
    refine h.of_live rfl h.used ?_ h.capacity h.groupCapacity
    simp only [after, done, live, strings, stringCost_append, hcost]
    omega

/-- Values that were copied become a row or a group. -/
theorem filled {x : Execution} {row : List (ResultColumn × Value)} (hrow : row <:+ m.filling)
    (hused : x.used = m.execution.used) (hcapacity : x.result.capacity = m.execution.result.capacity)
    (hgroups : x.groupCapacity = m.execution.groupCapacity)
    (hslots : x.slots.length = m.execution.slots.length)
    (hstrings : (x.result.rows.map fun row ↦ stringCost (p.columns.zip row)).sum +
        (x.groups.map fun g ↦ stringCost (p.keyColumns.zip g.keys)).sum =
      (m.execution.result.rows.map fun row ↦ stringCost (p.columns.zip row)).sum +
        (m.execution.groups.map fun g ↦ stringCost (p.keyColumns.zip g.keys)).sum + stringCost row) :
    (m.filled x row.length).Accounted p := by
  obtain ⟨rest, hrest⟩ := hrow
  have htake : m.filling.take (m.filling.length - row.length) = rest := by
    rw [← hrest, length_append, Nat.add_sub_cancel, take_left]
  have hcost : stringCost m.filling = stringCost rest + stringCost row := by rw [← hrest, stringCost_append]
  refine h.of_live rfl ?_ ?_ ?_ ?_
  · exact hused.trans_le h.used
  · simp only [QueryMeter.filled, live, strings, htake, hcost, hused, hcapacity, hgroups, hslots]
    omega
  · exact hcapacity.trans_le h.capacity
  · exact hgroups.trans_le h.groupCapacity

theorem addRow {values : List Value} (hrow : p.columns.zip values <:+ m.filling)
    (sequence : ℕ) : (m.filled { m.execution with result := m.execution.result.add p values sequence }
      (p.columns.zip values).length).Accounted p := by
  refine h.filled hrow rfl rfl rfl rfl ?_
  simp only [QueryResult.add, map_append, sum_append, map_singleton, sum_singleton]
  omega

theorem addGroup {keys : List Value} (hkeys : p.keyColumns.zip keys <:+ m.filling) :
    (m.filled (m.execution.addGroup p keys) (p.keyColumns.zip keys).length).Accounted p := by
  refine h.filled hkeys rfl rfl rfl (OpenAddressing.length_insert _ _ _) ?_
  simp only [Execution.addGroup, QueryGroup.empty, map_append, sum_append, map_singleton,
    sum_singleton]
  omega

section

variable (hlimit : p.options.memoryLimitBytes < 2 ^ 64)
include hlimit

theorem growGroups :
    wp (WebAnalyticsDb.growGroups p) env (fun e _ x ↦ (m.after p .growGroups e x).Accounted p)
      ⟨fs, n, m.execution⟩ := by
  refine wp_bind (wp_get.2 fun n ↦ ?_)
  dsimp only
  split
  next hfull =>
    have hcap : m.execution.groupCapacity ≤
          min (if m.execution.groupCapacity ≠ 0 then m.execution.groupCapacity * 2 else 16) p.options.maxGroups ∧
        min (if m.execution.groupCapacity ≠ 0 then m.execution.groupCapacity * 2 else 16) p.options.maxGroups ≤
          p.options.maxGroups := by
      have := h.groupCapacity
      split <;> omega
    generalize min _ p.options.maxGroups = cap at hcap ⊢
    refine h.wp_charge_bind hlimit fun hfits n ↦ h.wp_alloc_bind hfits fun n ↦ ?_
    refine h.of_live rfl hfits ?_ h.capacity hcap.2
    have hsplit : cap * sizeofQueryGroup = m.execution.groupCapacity * sizeofQueryGroup +
        (cap - m.execution.groupCapacity) * sizeofQueryGroup := by
      rw [← add_mul, Nat.add_sub_cancel' hcap.1]
    show live { m with execution := { m.execution with
        used := m.execution.used + (cap - m.execution.groupCapacity) * sizeofQueryGroup
        groupCapacity := cap } } p + _ =
      _ + (m.execution.used + (cap - m.execution.groupCapacity) * sizeofQueryGroup)
    simp only [live, strings, hsplit]
    omega
  next hroom => exact h

/-- The table that is replaced is given back. -/
theorem growTable :
    wp (WebAnalyticsDb.growTable p) env (fun e _ x ↦ (m.after p .growTable e x).Accounted p)
      ⟨fs, n, m.execution⟩ := by
  refine wp_bind (wp_get.2 fun n ↦ ?_)
  dsimp only
  split
  next hfull =>
    generalize (if m.execution.slots.length ≠ 0 then m.execution.slots.length * 2 else 32) = count
    refine h.wp_charge_bind hlimit fun hfits n ↦ h.wp_alloc_bind hfits fun n ↦ ?_
    have hcovered : m.execution.slots.length * sizeofSlot ≤ m.execution.used := by
      have := h.covered
      unfold live at this
      omega
    have hback : u64Sub (m.execution.used + count * sizeofSlot) (m.execution.slots.length * sizeofSlot) =
        m.execution.used + count * sizeofSlot - m.execution.slots.length * sizeofSlot :=
      u64Sub_of_le (by omega) (by omega)
    rw [wp_modify]
    dsimp only
    rw [hback]
    refine h.of_live rfl ?_ ?_ h.capacity h.groupCapacity
    · show m.execution.used + count * sizeofSlot - m.execution.slots.length * sizeofSlot ≤ _
      omega
    · simp only [after, done, live, strings, OpenAddressing.length_fill, length_replicate]
      omega
  next hspace => exact h

theorem order (k : ℕ) :
    wp (orderBuffers p k) env (fun e _ x ↦ (m.after p (.order k) e x).Accounted p)
      ⟨fs, n, m.execution⟩ := by
  refine h.wp_charge_bind hlimit fun hfits n ↦ h.wp_alloc_bind hfits fun n ↦ h.wp_alloc hfits ?_
  refine h.of_live rfl hfits ?_ h.capacity h.groupCapacity
  simp only [after, done, live, strings]
  omega

end

theorem keep {y : Execution} (hy : y.SameMemory m.execution) :
    ({ m with execution := y } : QueryMeter).Accounted p := by
  have hkeys (x : Execution) : (x.groups.map fun g ↦ stringCost (p.keyColumns.zip g.keys)) =
      (x.groups.map (·.keys)).map fun keys ↦ stringCost (p.keyColumns.zip keys) := by
    rw [map_map]
    rfl
  have hlive : live { m with execution := y } p = live m p := by
    simp only [live, strings, hkeys, hy.rows, hy.capacity, hy.groups, hy.groupCapacity, hy.slots]
  refine h.of_live rfl (hy.used.trans_le h.used) ?_ (hy.capacity.trans_le h.capacity)
    (hy.groupCapacity.trans_le h.groupCapacity)
  rw [hlive, hy.used]

/-- **One step** of the machine keeps the account. -/
theorem step {m' : QueryMeter} (hlimit : p.options.memoryLimitBytes < 2 ^ 64)
    (hstep : (queryMachine p).step m s m') : m'.Accounted p := by
  obtain ⟨hallowed, env, fs, n, rfl⟩ := hstep
  cases s with
  | starve => exact ⟨h.used, h.covered, nofun, h.capacity, h.groupCapacity⟩
  | growRows => exact h.growRows hlimit
  | copy cell => exact h.copy hlimit cell
  | addRow values sequence => exact h.addRow hallowed sequence
  | growGroups => exact h.growGroups hlimit
  | growTable => exact h.growTable hlimit
  | addGroup keys => exact h.addGroup hallowed
  | order k => exact h.order hlimit k
  | keep y => exact h.keep hallowed

end

end QueryMeter.Accounted

/-! ### Queries are runs of the machine -/

/-- **The execution is one that the machine reaches.** -/
def Execution.Tracked (p : QueryPlan) (x : Execution) : Prop :=
  ∃ m, (queryMachine p).Reach m ∧ m.execution = x

section Runs

variable {p : QueryPlan} {m : QueryMeter} {env : Env Path Dir} {fs : Files} {n : ℕ} {x y : Execution}

theorem Execution.Tracked.keep (h : x.Tracked p) (hy : y.SameMemory x) : y.Tracked p := by
  obtain ⟨m, hm, rfl⟩ := h
  exact ⟨_, hm.step (.keep y) ⟨hy, .still Path Dir, fun _ ↦ none, 0, rfl⟩, rfl⟩

end Runs

/-! ### The plan -/

section Plans

variable {s : Schema} {o : QueryOptions} {limit allocated : ℕ} {μ : Type}

/-- The bytes of the string that a filter compares with. -/
def Predicate.stringBytes (s : Schema) (f : Predicate) : ℕ :=
  if f.op ≠ .isNull ∧ f.op ≠ .isNotNull ∧ typeBytes (s.typeOf f.field) then f.value.bytes.length + 1 else 0

end Plans

end WebAnalyticsDb
