import WebAnalyticsDb.Core.RowCodec
import WebAnalyticsDb.Foundation.OpenAddressing
import WebAnalyticsDb.Storage.Format

/-!
# Segment dictionaries

A dictionary assigns identifiers to the symbol strings of one segment: per column, the numbers from
one on, in the order of first use. It is an array of symbols, a hash table with open addressing over
it, and for every column the positions of its symbols; all of it is charged to a byte budget.

The functions below run on a dictionary as their own memory, so that what a failed call leaves behind
is visible: an allocation that fails half-way keeps the arrays already grown, and a rollback removes
symbols without giving array space back.
-/

namespace WebAnalyticsDb

open Bytes

/-! ### The structure -/

/-- `wadb_symbol`. -/
structure Symbol where
  field : ℕ
  id : ℕ
  hash : ℕ
  data : Bytes
deriving DecidableEq, Repr

/-- `wadb_symbol_column`: the positions of a column's symbols. -/
structure SymbolColumn where
  indices : List ℕ
  capacity : ℕ
deriving DecidableEq, Repr, Inhabited

/-- `wadb_dictionary`. -/
structure Dictionary where
  schema : Schema
  symbols : List Symbol
  capacity : ℕ
  slots : List ℕ
  columns : List SymbolColumn
  allocatedBytes : ℕ
  limit : ℕ
deriving DecidableEq, Repr

/-- `sizeof(wadb_dictionary)`. -/
def sizeofDictionary : ℕ := 72
/-- `sizeof(wadb_symbol_column)`. -/
def sizeofColumn : ℕ := 24
/-- `sizeof(wadb_symbol)`. -/
def sizeofSymbol : ℕ := 32
/-- The size of a slot of the hash table and of a column entry. -/
def sizeofSlot : ℕ := 4

namespace Dictionary

/-- `count`. -/
def count (d : Dictionary) : ℕ := d.symbols.length

/-- The column of a field. -/
def column (d : Dictionary) (field : ℕ) : SymbolColumn := d.columns.getD field default

/-- `rehash`. -/
def rehash (d : Dictionary) : Dictionary :=
  if d.slots.length = 0 then d
  else { d with
    slots := OpenAddressing.fill (List.replicate d.slots.length 0) 0 (d.symbols.map (·.hash)) }

/-- Remove the last symbol. -/
def pop (d : Dictionary) : Dictionary :=
  match d.symbols.getLast? with
  | none => d
  | some s =>
    { d with
      symbols := d.symbols.dropLast
      columns := d.columns.modify s.field fun c ↦ { c with indices := c.indices.dropLast }
      allocatedBytes := d.allocatedBytes - (s.data.length + 1) }

/-- Remove the last `n` symbols. -/
def popMany : ℕ → Dictionary → Dictionary
  | 0, d => d
  | n + 1, d => popMany n d.pop

/-- `wadb_dictionary_rollback`. -/
def rollback (d : Dictionary) (mark : ℕ) : Dictionary :=
  if mark ≥ d.count then d else (popMany (d.count - mark) d).rehash

end Dictionary

/-- Whether a field holds symbols. -/
def Schema.isSymbol (s : Schema) (field : ℕ) : Bool :=
  match s.fields[field]? with
  | none => false
  | some f => f.type = .symbol32

/-- The hash of a symbol: of its field number and its string. -/
def symbolHash (field : ℕ) (data : Bytes) : ℕ :=
  (hashBytes data (hashBytes (ofNatLE 4 field) hashBasis)).toNat

/-! ### Operations -/

/-- `wadb_dictionary_new`. -/
def dictionaryNew {μ : Type} (s : Schema) (limit : ℕ) : Io μ Dictionary := do
  let base := sizeofDictionary + s.fieldCount * sizeofColumn
  require (base ≤ limit) .limit "dictionary budget is smaller than schema metadata"
  allocOr "dictionary allocation"
  allocOr "dictionary columns"
  pure {
    schema := s
    symbols := []
    capacity := 0
    slots := []
    columns := List.replicate s.fieldCount default
    allocatedBytes := base
    limit := limit }

/-- An array that is full doubles. -/
def grown (count capacity first : ℕ) : ℕ :=
  if count = capacity then (if capacity ≠ 0 then capacity * 2 else first) else capacity

/-- The hash table doubles when it would be more than half full. -/
def grownSlots (count slots : ℕ) : ℕ :=
  if slots < (count + 1) * 2 then (if slots ≠ 0 then slots * 2 else 32) else slots

/-- The dictionary with room for `capacity` symbols. -/
def Dictionary.withCapacity (d : Dictionary) (capacity : ℕ) : Dictionary :=
  { d with
    allocatedBytes := d.allocatedBytes + (capacity - d.capacity) * sizeofSymbol
    capacity := capacity }

/-- The dictionary with a table of `slots` slots, filled anew. -/
def Dictionary.withSlots (d : Dictionary) (slots : ℕ) : Dictionary :=
  Dictionary.rehash { d with
    allocatedBytes := d.allocatedBytes + (slots - d.slots.length) * sizeofSlot
    slots := List.replicate slots 0 }

/-- The dictionary with room for `capacity` symbols in the column of a field. -/
def Dictionary.withColumn (d : Dictionary) (field capacity : ℕ) : Dictionary :=
  { d with
    allocatedBytes := d.allocatedBytes + (capacity - (d.column field).capacity) * sizeofSlot
    columns := d.columns.modify field fun c ↦ { c with capacity := capacity } }

/-- An allocation that is made only when something grows. -/
def growBy (needed : Bool) (message : String) (f : Dictionary → Dictionary) : Io Dictionary Unit :=
  if needed then do
    allocOr message
    Prog.modify f
  else pure ()

/-- Add a symbol at the end of the array, of its column and in the hash table. -/
def Dictionary.push (d : Dictionary) (field : ℕ) (data : Bytes) : Dictionary :=
  { d with
    symbols := d.symbols ++ [⟨field, (d.column field).indices.length + 1, symbolHash field data, data⟩]
    columns := d.columns.modify field fun c ↦ { c with indices := c.indices ++ [d.count] }
    slots := OpenAddressing.insert d.slots (symbolHash field data) (d.count + 1)
    allocatedBytes := d.allocatedBytes + (data.length + 1) }

/-- Whether the symbol at position `i` is the one looked for. -/
def Dictionary.isAt (d : Dictionary) (field : ℕ) (data : Bytes) (i : ℕ) : Bool :=
  match d.symbols[i]? with
  | none => false
  | some s => s.hash = symbolHash field data && s.field = field && s.data = data

/-- The lookup of `wadb_dictionary_intern`: the position of the symbol plus one, or zero. -/
def Dictionary.lookup (d : Dictionary) (field : ℕ) (data : Bytes) : Option ℕ :=
  if d.slots.length ≠ 0 then
    OpenAddressing.find d.slots (symbolHash field data) (d.isAt field data)
  else some 0

/-- The part of `wadb_dictionary_intern` that adds a new symbol. -/
def dictionaryAdd (field : ℕ) (data : Bytes) : Io Dictionary ℕ := do
  let d ← Prog.get
  require (d.count ≠ uint32Max && (d.column field).indices.length ≠ uint32Max) .limit
    "symbol IDs exhausted"
  let capacity := grown d.count d.capacity 16
  let slots := grownSlots d.count d.slots.length
  let columnCapacity := grown (d.column field).indices.length (d.column field).capacity 8
  let extra := (capacity - d.capacity) * sizeofSymbol + (slots - d.slots.length) * sizeofSlot +
    (columnCapacity - (d.column field).capacity) * sizeofSlot + data.length + 1
  require (extra ≤ d.limit - d.allocatedBytes) .limit "segment dictionary budget reached"
  growBy (capacity ≠ d.capacity) "symbol entries" (·.withCapacity capacity)
  growBy (slots ≠ d.slots.length) "symbol hash table" (·.withSlots slots)
  growBy (columnCapacity ≠ (d.column field).capacity) "symbol column index"
    (·.withColumn field columnCapacity)
  allocOr "symbol string"
  Prog.modify (·.push field data)
  pure ((d.column field).indices.length + 1)

/-- `wadb_dictionary_intern`. A table without a free slot would be probed for ever; this and a slot
that names no symbol are the two cases the invariant rules out. -/
def dictionaryIntern (field : ℕ) (data : Bytes) : Io Dictionary ℕ := do
  let d ← Prog.get
  require (field ≠ 0 && field < d.schema.fieldCount && d.schema.isSymbol field &&
    data.length ≤ maxStringBytes && utf8 data) .invalid "invalid symbol field or string"
  match d.lookup field data with
  | none => Prog.die
  | some 0 => dictionaryAdd field data
  | some (i + 1) =>
    match d.symbols[i]? with
    | none => Prog.die
    | some s => pure s.id

/-- `wadb_dictionary_resolve`. -/
def dictionaryResolve (d : Dictionary) : SymbolDecode := fun field id ↦
  let undefinedSymbol : Except Error Bytes := .error ⟨.corrupt, "row references an undefined symbol"⟩
  if field = 0 ∨ field ≥ d.schema.fieldCount ∨ id = 0 ∨ d.schema.isSymbol field = false ∨
      id > (d.column field).indices.length then undefinedSymbol
  else
    match (d.column field).indices[id - 1]? with
    | none => undefinedSymbol
    | some i =>
      match d.symbols[i]? with
      | none => undefinedSymbol
      | some s => .ok s.data

/-- The size loop of `wadb_dictionary_export_limit`. -/
def exportSize (limit : ℕ) : ℕ → List Symbol → Option ℕ
  | n, [] => some n
  | n, s :: ss =>
    match addSize n (12 + s.data.length) with
    | none => none
    | some n => if n > limit ∨ n > uint32Max - 7 then none else exportSize limit n ss

/-- One definition: field, identifier, length and string. -/
def Symbol.image (s : Symbol) : Bytes :=
  [ofNatLE 2 s.field, zeros 2, ofNatLE 4 s.id, ofNatLE 4 s.data.length].flatten ++ s.data

/-- The definitions, padded to `n` bytes. -/
def definitionsImage (ss : List Symbol) (n : ℕ) : Bytes :=
  ss.flatMap Symbol.image ++ zeros (n - (ss.flatMap Symbol.image).length)

/-- `wadb_dictionary_export_limit`: the definitions from `mark` on and their number. -/
def dictionaryExportLimit {μ : Type} (d : Dictionary) (mark limit : ℕ) : Io μ (Bytes × ℕ) := do
  require (mark ≤ d.count) .invalid "invalid dictionary checkpoint"
  match exportSize limit 0 (d.symbols.drop mark) with
  | none => wadbFail .limit "dictionary additions exceed frame limit"
  | some n =>
    let n := (n + 7) / 8 * 8
    require (n ≤ limit) .limit "dictionary exceeds serialization budget"
    if n = 0 then pure ([], 0)
    else
      allocOr "dictionary serialization"
      pure (definitionsImage (d.symbols.drop mark) n, d.count - mark)

/-- `wadb_dictionary_export`. -/
def dictionaryExport {μ : Type} (d : Dictionary) (mark : ℕ) : Io μ (Bytes × ℕ) :=
  dictionaryExportLimit d mark maxFrameBytes

/-- The error of a section that does not define what it says. -/
def definitionError : Error := ⟨.corrupt, "invalid or repeated symbol definition"⟩

/-- The loop of `wadb_dictionary_apply` over `n` definitions: what follows them. -/
def applyLoop : ℕ → Bytes → Io Dictionary Bytes
  | 0, p => pure p
  | n + 1, p => do
    let d ← Prog.get
    let field := getLE 2 p 0
    let id := getLE 4 p 4
    let length := getLE 4 p 8
    Prog.ensure (12 ≤ p.length && field ≠ 0 && field < d.schema.fieldCount &&
      d.schema.isSymbol field && id = (d.column field).indices.length + 1 && getLE 2 p 2 = 0 &&
      length ≤ p.length - 12) definitionError
    match ← Prog.attempt (dictionaryIntern field (slice p 12 length)) with
    | .error e => Prog.fail (if e.code = .invalid then definitionError else e)
    | .ok assigned =>
      let d' ← Prog.get
      Prog.ensure (assigned = id && d'.count = d.count + 1) definitionError
      applyLoop n (p.drop (12 + length))

/-- `wadb_dictionary_apply` of a section of `n` definitions. -/
def dictionaryApply (dictionary : Bytes) (n : ℕ) : Io Dictionary Unit := do
  let d ← Prog.get
  match ← Prog.attempt (applyLoop n dictionary) with
  | .error e =>
    Prog.modify (·.rollback d.count)
    Prog.fail e
  | .ok rest =>
    if dictionary.length % 8 = 0 && rest.length < 8 && isZero rest then pure ()
    else
      Prog.modify (·.rollback d.count)
      Prog.fail definitionError

/-! ### A dictionary only computes -/

theorem steady_require {μ : Type} (c : Bool) (code : Status) (message : String) :
    Steady (require c code message : Io μ Unit) :=
  .ensure _ _

theorem steady_allocOr {μ : Type} (message : String) : Steady (allocOr message : Io μ Unit) :=
  .bind .alloc fun _ ↦ .ensure _ _

theorem steady_growBy (needed : Bool) (message : String) (f : Dictionary → Dictionary) :
    Steady (growBy needed message f) := by
  unfold growBy
  split
  · exact .bind (steady_allocOr _) fun _ ↦ .modify _
  · exact .pure _

theorem steady_dictionaryAdd (field : ℕ) (data : Bytes) : Steady (dictionaryAdd field data) := by
  refine .bind .get fun d ↦ ?_
  refine .bind (steady_require _ _ _) fun _ ↦ ?_
  refine .bind (steady_require _ _ _) fun _ ↦ ?_
  refine .bind (steady_growBy _ _ _) fun _ ↦ ?_
  refine .bind (steady_growBy _ _ _) fun _ ↦ ?_
  refine .bind (steady_growBy _ _ _) fun _ ↦ ?_
  exact .bind (steady_allocOr _) fun _ ↦ .bind (.modify _) fun _ ↦ .pure _

theorem steady_dictionaryIntern (field : ℕ) (data : Bytes) :
    Steady (dictionaryIntern field data) := by
  refine .bind .get fun d ↦ ?_
  refine .bind (steady_require _ _ _) fun _ ↦ ?_
  split
  · exact .die
  · exact steady_dictionaryAdd field data
  · split
    · exact .die
    · exact .pure _

theorem steady_applyLoop (n : ℕ) (p : Bytes) : Steady (applyLoop n p) := by
  induction n generalizing p with
  | zero => exact .pure p
  | succ n ih =>
    refine .bind .get fun d ↦ ?_
    refine .bind (.ensure _ _) fun _ ↦ ?_
    refine .bind (.attempt (steady_dictionaryIntern _ _)) fun r ↦ ?_
    cases r with
    | error e => exact .fail _
    | ok assigned => exact .bind .get fun _ ↦ .bind (.ensure _ _) fun _ ↦ ih _

/-- **Applying a section has one outcome** in every calm environment. -/
theorem steady_dictionaryApply (dictionary : Bytes) (n : ℕ) :
    Steady (dictionaryApply dictionary n) := by
  refine .bind .get fun d ↦ ?_
  refine .bind (.attempt (steady_applyLoop n dictionary)) fun r ↦ ?_
  cases r with
  | error e => exact .bind (.modify _) fun _ ↦ .fail _
  | ok rest =>
    dsimp only
    split
    · exact .pure _
    · exact .bind (.modify _) fun _ ↦ .fail _

end WebAnalyticsDb
