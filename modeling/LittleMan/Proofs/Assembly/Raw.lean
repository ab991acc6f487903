import LittleMan.Proofs.Assembly.Correspondence
import LittleMan.Proofs.Assembly.Range
import LittleMan.Proofs.Assembly.Undefined
import LittleMan.Proofs.Lines
import Mathlib.Data.List.Sort

/-! The assembler over plain numbers. It could reach outside the memory, or leave the range of 32 bits.
What it holds between two lines shows that it never does: it ends as the assembler over addresses. -/

namespace LittleMan.Assembly

/-- Why the assembler over plain numbers stops. -/
inductive Stop
  | refused (error : Error)
  /-- A cell outside the memory is read or written. -/
  | outside (address : Nat)
  /-- A sum leaves the range of 32 bits. -/
  | overflow
  deriving DecidableEq, Repr

def addWords (word other : Int) : Except Stop Int :=
  if -2147483648 ≤ word + other ∧ word + other ≤ 2147483647 then .ok (word + other)
  else .error .overflow

def readCell (memory : Memory) (address : Nat) : Except Stop Int :=
  match memory.read? address with
  | some word => .ok word
  | none => .error (.outside address)

def writeCell (memory : Memory) (address : Nat) (word : Int) : Except Stop Memory :=
  match memory.write? address word with
  | some memory => .ok memory
  | none => .error (.outside address)

/-- Records a reference among others, which are in the order of their addresses. It takes the place
of an earlier one at its address. -/
def record (address : Nat) (reference : Reference) : List (Nat × Reference) → List (Nat × Reference)
  | [] => [(address, reference)]
  | (key, other) :: references =>
    if address < key then (address, reference) :: (key, other) :: references
    else if address = key then (address, reference) :: references
    else (key, other) :: record address reference references

/-- A program of which some lines have been assembled, with plain numbers for addresses. -/
structure Raw where
  /-- How many lines have been read. -/
  line : Nat
  /-- How many words they gave. -/
  emitted : Nat
  /-- Where the next word goes. -/
  address : Nat
  memory : Memory
  /-- The defined labels, the latest first. -/
  labels : List (String × Nat)
  /-- The open references, in the order of their addresses. -/
  references : List (Nat × Reference)
  deriving DecidableEq

namespace Raw

def empty : Raw := ⟨0, 0, 0, .zero, [], []⟩

def error (raw : Raw) (cause : Cause) : Stop := .refused ⟨cause, raw.line⟩

/-- Makes sure of room for one more word. -/
def reserve (capacity : Capacity) (raw : Raw) : Except Stop Unit :=
  if capacity = .strict ∧ 100 ≤ raw.emitted then .error (raw.error .programTooLong) else .ok ()

/-- Adds an operand that is an address to the word of an operation, once that is stored. Any other
operand is a reference. -/
def storeOperand (raw : Raw) (operation : Operation) : Option String → Except Stop Raw
  | none => .ok raw
  | some token =>
    match (tokenValue? token).filter fun value => decide (0 ≤ value ∧ value ≤ 99) with
    | some value => do
      let word ← addWords operation.code (low32 value)
      let memory ← writeCell raw.memory raw.address word
      .ok { raw with memory := memory }
    | none =>
      .ok { raw with references := record raw.address ⟨token, raw.line⟩ raw.references }

/-- Stores the word of a statement. -/
def store (raw : Raw) (statement : Statement) : Except Stop Raw :=
  match statement.mnemonic with
  | .dat => do
    let memory ← writeCell raw.memory raw.address (wrap statement.datum)
    .ok { raw with memory := memory }
  | .op operation => do
    let memory ← writeCell raw.memory raw.address operation.code
    let raw ← { raw with memory := memory }.storeOperand operation statement.operand
    -- The stored word is read again for the log.
    let _ ← readCell raw.memory raw.address
    .ok raw

/-- Defines the label of a statement, if it has one, at the current address. -/
def define (raw : Raw) (statement : Statement) : Except Stop Raw :=
  match statement.label with
  | none => .ok raw
  | some label =>
    if (raw.labels.lookup label).isSome then .error (raw.error (.duplicateLabel label))
    else .ok { raw with labels := (label, raw.address) :: raw.labels }

/-- Moves on to the next address. -/
def advance (raw : Raw) : Raw :=
  { raw with emitted := raw.emitted + 1, address := (raw.address + 1) % 100 }

def addStatement (capacity : Capacity) (raw : Raw) (statement : Statement) : Except Stop Raw := do
  raw.reserve capacity
  let raw ← raw.store statement
  let raw ← raw.define statement
  .ok raw.advance

/-- Assembles one more line. -/
def addLine (capacity : Capacity) (raw : Raw) (line : List Char) : Except Stop Raw :=
  let raw := { raw with line := raw.line + 1 }
  match Line.read line with
  | .blank => .ok raw
  | .unrecognized => .error (raw.error .invalidOpcode)
  | .statement statement => raw.addStatement capacity statement

/-- Adds the address of the label of a reference to the word at its address. -/
def resolve (labels : List (String × Nat)) (memory : Memory) (entry : Nat × Reference) :
    Except Stop Memory :=
  match labels.lookup entry.2.label with
  | none => .error (.refused ⟨.unresolvedLabel entry.2.label, entry.2.line⟩)
  | some target => do
    let word ← readCell memory entry.1
    let sum ← addWords word (low32 target)
    writeCell memory entry.1 sum

/-- The finished memory: every open reference is resolved, in the order of addresses. -/
def finish (raw : Raw) : Except Stop Memory :=
  raw.references.foldlM (resolve raw.labels) raw.memory

/-- Assembles some lines from the first on. -/
def draftOf (capacity : Capacity) (source : List (List Char)) : Except Stop Raw :=
  source.foldlM (addLine capacity) empty

/-- Assembles the text of a program. -/
def assemble (capacity : Capacity) (source : String) : Except Stop Memory := do
  let raw ← draftOf capacity (lines source.toList)
  raw.finish

/-- What the assembler holds after the lines of a program. -/
structure Holds (program : List Line) (raw : Raw) : Prop where
  line : raw.line = program.length
  emitted : raw.emitted = (statements program).length
  address : raw.address = raw.emitted % 100
  /-- A label has the address of the one statement that defines it. -/
  label (label : String) (address : Nat) : raw.labels.lookup label = some address ↔
    ∃ i, address = i % 100 ∧ ∀ j, DefinedAt (statements program) label j ↔ j = i
  label_lt (label : String) (address : Nat) (h : raw.labels.lookup label = some address) :
    address < 100
  /-- A reference is the use of a label in the last statement at its address that uses one. -/
  reference (address : Nat) (reference : Reference) : (address, reference) ∈ raw.references ↔
    ∃ i placed, address = i % 100 ∧ (statements program)[i]? = some placed ∧
      placed.statement.use? = some reference.label ∧ placed.line = reference.line ∧
      ¬ Superseded (statements program) i
  ascending : raw.references.Pairwise fun entry next => entry.1 < next.1
  key_lt (entry : Nat × Reference) (h : entry ∈ raw.references) : entry.1 < min raw.emitted 100
  unused (address : Address) (h : raw.emitted ≤ address.val) : raw.memory.get address = 0
  range (address : Address) : -999 ≤ raw.memory.get address ∧ raw.memory.get address ≤ 1001

end Raw

/-- The references of some cells, with the numbers of the cells. -/
def entries (references : Address → Option Reference) (cells : List Address) :
    List (Nat × Reference) :=
  cells.filterMap fun cell => (references cell).map (cell.val, ·)

/-- A draft with plain numbers for its addresses. -/
def Draft.raw (draft : Draft) : Raw where
  line := draft.line
  emitted := draft.emitted
  address := draft.address.val
  memory := draft.memory
  labels := draft.labels.map fun entry => (entry.1, entry.2.val)
  references := entries draft.references.get addresses

variable {capacity : Capacity} {memory : Memory} {program : List Line} {source : String}

section Outcome

variable {α β γ δ ι : Type} {f : α → β} {g : γ → δ}

/-- How a computation ends over plain numbers, in which a function gives its value. -/
def outcome (f : α → β) (x : Assembler α) : Except Stop β := (x.result.map f).mapError .refused

theorem outcome_of_ok {x : Assembler α} {value : α} (h : x.result = .ok value) :
    outcome f x = .ok (f value) := by
  rw [outcome, h]
  rfl

theorem outcome_of_error {x : Assembler α} {error : Error} (h : x.result = .error error) :
    outcome f x = .error (.refused error) := by
  rw [outcome, h]
  rfl

/-- Computations agree if what follows them does. -/
theorem bind_outcome {x : Assembler α} {next : α → Assembler γ} {follow : β → Except Stop δ}
    (h : ∀ value, x.result = .ok value → follow (f value) = outcome g (next value)) :
    outcome f x >>= follow = outcome g (x >>= next) := by
  cases hx : x.result with
  | ok value =>
    rw [outcome_of_ok hx]
    refine (h value hx).trans ?_
    rw [outcome, outcome, Logged.result_bind_of_ok hx]
  | error error =>
    rw [outcome_of_error hx, outcome_of_error (Logged.result_bind_of_error hx next)]
    rfl

theorem foldlM_outcome {step : β → ι → Except Stop β} {next : α → ι → Assembler α}
    (h : ∀ state item, step (f state) item = outcome f (next state item)) (state : α)
    (items : List ι) : items.foldlM step (f state) = outcome f (Logged.foldl next state items) := by
  induction items generalizing state with
  | nil => rfl
  | cons item items ih =>
    rw [List.foldlM_cons, Logged.foldl_cons, h]
    exact bind_outcome fun next _ => ih next

end Outcome

theorem readCell_address (memory : Memory) (address : Address) :
    readCell memory address.val = .ok (memory.get address) := by
  rw [readCell, Memory.read?_of_lt address.isLt]

theorem writeCell_address (memory : Memory) (address : Address) (word : Int) :
    writeCell memory address.val word = .ok (memory.set address word) := by
  rw [writeCell, Memory.write?, dif_pos address.isLt]

/-- A word of a program and an address never leave the range. -/
theorem addWords_address {word : Int} (h : -999 ≤ word ∧ word ≤ 1001) (address : Address) :
    addWords word (low32 address.val) = .ok (word + address.val) := by
  have ha := address.isLt
  rw [low32_of_le (by omega) (by omega), addWords, if_pos (by omega)]

theorem filter_tokenValue? (token : String) :
    (tokenValue? token).filter (fun value => decide (0 ≤ value ∧ value ≤ 99)) =
      (tokenAddress? token).map fun address => (address.val : Int) := by
  cases ha : tokenAddress? token with
  | some address =>
    have hv := tokenAddress?_eq_some_iff.1 ha
    have hr : 0 ≤ (address.val : Int) ∧ (address.val : Int) ≤ 99 := by omega
    rw [hv, Option.filter_some, if_pos (decide_eq_true hr)]
    rfl
  | none =>
    apply Option.filter_eq_none_iff.2
    intro value hv
    simpa using tokenAddress?_eq_none_iff.1 ha value hv

theorem lookup_map_val (labels : List (String × Address)) (label : String) :
    (labels.map fun entry => (entry.1, entry.2.val)).lookup label =
      (labels.lookup label).map Fin.val := by
  induction labels with
  | nil => rfl
  | cons entry labels ih =>
    obtain ⟨other, address⟩ := entry
    rw [List.map_cons, List.lookup_cons, List.lookup_cons, ih]
    cases label == other <;> rfl

section Entries

variable {cell : Address} {reference : Reference} {f g : Address → Option Reference}
  {cells : List Address}

theorem entries_cons_of_none (h : f cell = none) : entries f (cell :: cells) = entries f cells :=
  List.filterMap_cons_none (congrArg (Option.map (cell.val, ·)) h)

theorem entries_cons_of_some (h : f cell = some reference) :
    entries f (cell :: cells) = (cell.val, reference) :: entries f cells :=
  List.filterMap_cons_some (congrArg (Option.map (cell.val, ·)) h)

theorem mem_entries {entry : Nat × Reference} :
    entry ∈ entries f cells ↔ ∃ cell ∈ cells, entry.1 = cell.val ∧ f cell = some entry.2 := by
  obtain ⟨address, reference⟩ := entry
  rw [entries, List.mem_filterMap]
  apply exists_congr
  intro cell
  apply and_congr_right'
  cases f cell with
  | none => simp
  | some other => simp [eq_comm]

theorem pairwise_entries (hs : cells.Pairwise (· < ·)) :
    (entries f cells).Pairwise fun entry next => entry.1 < next.1 := by
  apply hs.filterMap
  intro cell other hlt entry he next hn
  obtain ⟨_, -, rfl⟩ := Option.map_eq_some_iff.1 he
  obtain ⟨_, -, rfl⟩ := Option.map_eq_some_iff.1 hn
  exact hlt

theorem record_of_lt {address : Nat} {references : List (Nat × Reference)}
    (h : ∀ entry ∈ references, address < entry.1) :
    record address reference references = (address, reference) :: references := by
  cases references with
  | nil => rfl
  | cons entry references => exact if_pos (h entry (List.mem_cons_self ..))

/-- To record a reference is to change what one cell refers to. -/
theorem record_entries (hs : cells.Pairwise (· < ·)) (hc : cell ∈ cells)
    (hg : ∀ other, g other = if cell = other then some reference else f other) :
    record cell.val reference (entries f cells) = entries g cells := by
  induction cells with
  | nil => cases hc
  | cons other cells ih =>
    obtain ⟨hlt, hs⟩ := List.pairwise_cons.1 hs
    by_cases he : cell = other
    · subst he
      have hrest : entries g cells = entries f cells := by
        apply List.filterMap_congr
        intro later hl
        rw [hg, if_neg (ne_of_lt (hlt later hl))]
      have hnew : g cell = some reference := (hg cell).trans (if_pos rfl)
      rw [entries_cons_of_some hnew, hrest]
      cases hf : f cell with
      | none =>
        rw [entries_cons_of_none hf]
        apply record_of_lt
        intro entry hm
        obtain ⟨later, hl, he, -⟩ := mem_entries.1 hm
        rw [he]
        exact hlt later hl
      | some old => rw [entries_cons_of_some hf, record, if_neg (lt_irrefl _), if_pos rfl]
    · have hm : cell ∈ cells := (List.mem_cons.1 hc).resolve_left he
      have hlt : other.val < cell.val := hlt cell hm
      have hkeep : g other = f other := (hg other).trans (if_neg he)
      cases hf : f other with
      | none => rw [entries_cons_of_none hf, entries_cons_of_none (hkeep.trans hf), ih hs hm]
      | some old =>
        rw [entries_cons_of_some hf, entries_cons_of_some (hkeep.trans hf), record,
          if_neg (by omega), if_neg (by omega), ih hs hm]

end Entries

theorem addresses_ascending : addresses.Pairwise (· < ·) := (List.sortedLT_finRange 100).pairwise

namespace Draft

variable (draft : Draft) (statement : Statement)

theorem raw_store :
    (draft.store statement).raw =
      { draft.raw with
        memory := draft.memory.set draft.address statement.word
        references := statement.reference?.elim draft.raw.references fun label =>
          record draft.address.val ⟨label, draft.line⟩ draft.raw.references } := by
  cases h : statement.reference? with
  | none =>
    rw [store, h]
    rfl
  | some label =>
    have hr : record draft.address.val ⟨label, draft.line⟩ draft.raw.references =
        (draft.store statement).raw.references := by
      apply record_entries addresses_ascending (List.mem_finRange _)
      intro other
      rw [store, h]
      change (draft.references.set draft.address.val _)[other.val] = _
      rw [Vector.getElem_set]
      simp only [Fin.ext_iff]
      rfl
    rw [Option.elim_some, hr]
    rfl

theorem storeOperand_raw {operation : Operation} (h : statement.mnemonic = .op operation) :
    Raw.storeOperand { draft.raw with memory := draft.memory.set draft.address operation.code }
      operation statement.operand = .ok (draft.store statement).raw := by
  rw [raw_store]
  obtain ⟨label, _, operand⟩ := statement
  subst h
  cases operand with
  | none => rfl
  | some token =>
    rw [Raw.storeOperand, filter_tokenValue?]
    cases ha : tokenAddress? token with
    | some address =>
      have hc := code_range operation
      have hr : -999 ≤ operation.code ∧ operation.code ≤ 1001 := by omega
      have hs := addWords_address hr address
      have hw := writeCell_address (draft.memory.set draft.address operation.code) draft.address
        (operation.code + address.val)
      rw [Memory.set_set] at hw
      simp only [Statement.word, Statement.reference?, Option.map_some, Option.bind_some,
        Option.filter_some, ha, hs, bind, Except.bind]
      simp only [raw, hw]
      rfl
    | none =>
      simp only [Statement.word, Statement.reference?, Option.map_none, Option.bind_some,
        Option.filter_some, ha, Option.isNone_none, if_true]
      rfl

/-- To store the word of a statement never leaves the memory or the range. -/
theorem store_raw : draft.raw.store statement = .ok (draft.store statement).raw := by
  have hw := writeCell_address draft.memory draft.address
  rw [Raw.store]
  cases hm : statement.mnemonic with
  | dat =>
    have hword : statement.word = wrap statement.datum := by rw [Statement.word, hm]
    have hr : statement.reference? = none := by rw [Statement.reference?, hm]
    rw [raw_store, hr, hword]
    simp only [raw, hw, bind, Except.bind]
    rfl
  | op operation =>
    have hs := draft.storeOperand_raw statement hm
    have hr := readCell_address (draft.store statement).memory draft.address
    simp only [raw, hw, bind, Except.bind] at hs ⊢
    rw [hs]
    change (readCell (draft.store statement).memory draft.address.val >>= fun _ => _) = _
    rw [hr]
    rfl

theorem define_raw : draft.raw.define statement = outcome raw (draft.define statement) := by
  rw [Raw.define, define]
  cases statement.label with
  | none => rfl
  | some label =>
    have hl : (draft.raw.labels.lookup label).isSome = (draft.labels.lookup label).isSome := by
      rw [raw, lookup_map_val, Option.isSome_map]
    simp only [hl]
    by_cases h : (draft.labels.lookup label).isSome = true
    · simp only [if_pos h]
      rfl
    · simp only [if_neg h]
      rfl

theorem advance_raw : draft.advance.raw = draft.raw.advance := by
  have ha : (draft.emitted + 1) % 100 = (draft.raw.address + 1) % 100 :=
    (Nat.mod_add_mod draft.emitted 100 1).symm
  rw [Raw.advance, ← ha]
  rfl

theorem reserve_raw (capacity : Capacity) :
    draft.raw.reserve capacity = outcome id (draft.reserve capacity) := by
  rw [outcome, result_reserve, Raw.reserve]
  change (if capacity = .strict ∧ 100 ≤ draft.emitted then _ else _) = _
  split <;> rfl

theorem addStatement_raw (capacity : Capacity) :
    draft.raw.addStatement capacity statement =
      outcome raw (draft.addStatement capacity statement) := by
  rw [Raw.addStatement, reserve_raw, addStatement]
  apply bind_outcome
  intro _ _
  have hs : outcome (fun _ => (draft.store statement).raw) (draft.describe statement) =
      draft.raw.store statement := by
    rw [store_raw, outcome_of_ok (draft.result_describe statement)]
  rw [← hs]
  apply bind_outcome
  intro _ _
  rw [define_raw]
  apply bind_outcome
  intro defined _
  rw [← advance_raw]
  rfl

theorem addLine_raw (capacity : Capacity) (line : List Char) :
    draft.raw.addLine capacity line = outcome raw (draft.addLine capacity line) := by
  rw [Raw.addLine, addLine]
  cases Line.read line with
  | blank => rfl
  | unrecognized => rfl
  | statement statement => exact addStatement_raw { draft with line := draft.line + 1 } statement _

variable {draft} {memory : Memory} {cell : Address}

theorem resolve_raw {reference : Reference} (hr : draft.references.get cell = some reference)
    (h : -999 ≤ memory.get cell ∧ memory.get cell ≤ 1001) :
    Raw.resolve draft.raw.labels memory (cell.val, reference) =
      outcome id (draft.resolveCell memory cell) := by
  have hl : draft.raw.labels.lookup reference.label =
      (draft.labels.lookup reference.label).map Fin.val := lookup_map_val _ _
  rw [Raw.resolve, resolveCell, hr]
  simp only [hl]
  cases draft.labels.lookup reference.label with
  | none => rfl
  | some target =>
    simp only [Option.map_some, readCell_address, addWords_address h, writeCell_address, bind,
      Except.bind]
    rfl

theorem eq_patch_of_resolveCell {next : Memory}
    (h : (draft.resolveCell memory cell).result = .ok next) : next = draft.patch memory cell := by
  rw [result_resolveCell] at h
  cases hu : draft.unresolved? cell with
  | none =>
    rw [hu] at h
    exact (Except.ok.inj h).symm
  | some error =>
    rw [hu] at h
    cases h

/-- Of some cells, none twice, each one is in the range until its own reference is resolved. -/
theorem foldlM_entries {cells : List Address} (hc : cells.Nodup)
    (h : ∀ cell ∈ cells, -999 ≤ memory.get cell ∧ memory.get cell ≤ 1001) :
    (entries draft.references.get cells).foldlM (Raw.resolve draft.raw.labels) memory =
      outcome id (Logged.foldl draft.resolveCell memory cells) := by
  induction cells generalizing memory with
  | nil => rfl
  | cons cell cells ih =>
    obtain ⟨hn, hc⟩ := List.nodup_cons.1 hc
    obtain ⟨hcell, hcells⟩ := List.forall_mem_cons.1 h
    rw [Logged.foldl_cons]
    cases hr : draft.references.get cell with
    | none =>
      have hp : draft.resolveCell memory cell = pure memory := by rw [resolveCell, hr]
      rw [entries_cons_of_none hr, hp, pure_bind]
      exact ih hc hcells
    | some reference =>
      rw [entries_cons_of_some hr, List.foldlM_cons, resolve_raw hr hcell]
      apply bind_outcome
      intro next hx
      apply ih hc
      intro other hm
      have hne : cell ≠ other := fun he => hn (he ▸ hm)
      change -999 ≤ next.get other ∧ next.get other ≤ 1001
      rw [eq_patch_of_resolveCell hx, get_patch, if_neg hne, Int.add_zero]
      exact hcells other hm

theorem finish_raw (h : ∀ cell, -999 ≤ draft.memory.get cell ∧ draft.memory.get cell ≤ 1001) :
    draft.raw.finish = outcome id draft.finish :=
  foldlM_entries (List.nodup_finRange 100) fun cell _ => h cell

end Draft

theorem draftOf_raw (capacity : Capacity) (source : List (List Char)) :
    Raw.draftOf capacity source = outcome Draft.raw (draftOf capacity source) := by
  have he : Raw.empty = Draft.empty.raw := by decide +kernel
  rw [Raw.draftOf, he]
  exact foldlM_outcome (fun draft line => draft.addLine_raw capacity line) Draft.empty source

theorem range_drafted (program : List Line) (cell : Address) :
    -999 ≤ (drafted program).memory.get cell ∧ (drafted program).memory.get cell ≤ 1001 := by
  rw [get_memory_drafted]
  cases statementAt? (statements program) cell with
  | none => exact ⟨by decide, by decide⟩
  | some placed => exact word_range placed.statement

theorem lookup_labels_raw_drafted (ho : ∀ error, ¬ Offends capacity program error)
    (label : String) (address : Nat) :
    (drafted program).raw.labels.lookup label = some address ↔
      ∃ i, address = i % 100 ∧ ∀ j, DefinedAt (statements program) label j ↔ j = i := by
  have hl : (drafted program).raw.labels.lookup label =
      (definition? (statements program) label).map Fin.val := by
    rw [Draft.raw, lookup_map_val, lookup_labels_drafted]
  rw [hl, Option.map_eq_some_iff]
  apply Iff.intro
  · intro hx
    obtain ⟨target, hd, rfl⟩ := hx
    obtain ⟨i, hi, ht⟩ := DefinedAt.of_definition? hd
    refine ⟨i, ht.symm, ?_⟩
    intro j
    apply Iff.intro
    · intro hj
      exact hj.unique ho hi
    · intro he
      subst he
      exact hi
  · intro hx
    obtain ⟨i, rfl, hi⟩ := hx
    cases hd : definition? (statements program) label with
    | none => exact absurd ((hi i).2 rfl) (definition?_eq_none_iff.1 hd i)
    | some target =>
      obtain ⟨j, hj, ht⟩ := DefinedAt.of_definition? hd
      rw [(hi j).1 hj] at ht
      exact ⟨target, rfl, ht.symm⟩

theorem mem_references_raw_drafted (address : Nat) (reference : Reference) :
    (address, reference) ∈ (drafted program).raw.references ↔
      ∃ i placed, address = i % 100 ∧ (statements program)[i]? = some placed ∧
        placed.statement.use? = some reference.label ∧ placed.line = reference.line ∧
        ¬ Superseded (statements program) i := by
  rw [Draft.raw, mem_entries]
  simp only [get_references_drafted, referenceAt?_eq_some_iff]
  apply Iff.intro
  · intro hx
    obtain ⟨cell, -, rfl, i, placed, ha, hp⟩ := hx
    exact ⟨i, placed, ha.symm, hp⟩
  · intro hx
    obtain ⟨i, placed, rfl, hp⟩ := hx
    exact ⟨⟨i % 100, Nat.mod_lt i (by decide)⟩, List.mem_finRange _, rfl, i, placed, rfl, hp⟩

/-- A cell that no word has reached holds zero. -/
theorem get_memory_drafted_past {cell : Address} (h : (statements program).length ≤ cell.val) :
    (drafted program).memory.get cell = 0 := by
  have hs : statementAt? (statements program) cell = none := by
    apply last?_eq_none_iff.2
    intro i placed hp
    have hi := (List.getElem?_eq_some_iff.1 hp).1
    have hc := cell.isLt
    exact if_neg (by omega)
  rw [get_memory_drafted, hs]
  rfl

theorem holds_drafted (ho : ∀ error, ¬ Offends capacity program error) :
    (drafted program).raw.Holds program where
  line := line_drafted program
  emitted := emitted_drafted program
  address := rfl
  label := lookup_labels_raw_drafted ho
  label_lt label address h := by
    obtain ⟨i, rfl, -⟩ := (lookup_labels_raw_drafted ho label address).1 h
    exact Nat.mod_lt i (by decide)
  reference := mem_references_raw_drafted
  ascending := pairwise_entries addresses_ascending
  key_lt entry h := by
    obtain ⟨i, placed, he, hp, -⟩ := (mem_references_raw_drafted entry.1 entry.2).1 h
    have hi := (List.getElem?_eq_some_iff.1 hp).1
    have hn : (drafted program).raw.emitted = (statements program).length :=
      emitted_drafted program
    omega
  unused _ h := get_memory_drafted_past ((emitted_drafted program).symm.trans_le h)
  range := range_drafted program

theorem Raw.Holds.emitted_le {raw : Raw} (h : raw.Holds program) : raw.emitted ≤ raw.line := by
  rw [h.emitted, h.line, length_statements]
  exact List.countP_le_length

/-- The assembler over plain numbers stays within the memory and the range. -/
theorem assemble_raw (capacity : Capacity) (source : String) :
    Raw.assemble capacity source = outcome id (assemble capacity source) := by
  have hr : outcome id (assemble capacity source) =
      outcome id (draftOf capacity (lines source.toList) >>= Draft.finish) := by
    rw [outcome, assemble, Logged.result_reporting]
    rfl
  rw [hr, Raw.assemble, draftOf_raw]
  apply bind_outcome
  intro draft hd
  obtain ⟨-, rfl⟩ := result_draftOf_eq_ok_iff.1 hd
  exact Draft.finish_raw (range_drafted _)

/-- After every number of lines of a program the assembler holds what these lines say, and its
counters are within the length of the source. Over plain numbers it passes through the same states,
to the same end: it never stops outside the memory or the range. -/
theorem assembler_invariant (capacity : Capacity) (source : String) :
    (∀ n draft, (draftOf capacity ((lines source.toList).take n)).result = .ok draft →
      draft.raw.Holds ((readSource source).take n) ∧ draft.raw.emitted ≤ draft.raw.line ∧
        draft.raw.line ≤ source.length + 1) ∧
    (∀ n, Raw.draftOf capacity ((lines source.toList).take n) =
      ((draftOf capacity ((lines source.toList).take n)).result.map Draft.raw).mapError .refused) ∧
    Raw.assemble capacity source = (assemble capacity source).result.mapError .refused := by
  refine ⟨?_, ?_, ?_⟩
  · intro n draft h
    obtain ⟨hp, rfl⟩ := result_draftOf_eq_ok_iff.1 h
    rw [List.map_take, ← readSource] at hp ⊢
    have hd := holds_drafted (problemAt?_none_iff.1 hp)
    refine ⟨hd, hd.emitted_le, ?_⟩
    calc
      _ = ((readSource source).take n).length := hd.line
      _ ≤ (lines source.toList).length := by
        rw [readSource, ← List.map_take, List.length_map]
        exact List.length_take_le' ..
      _ ≤ source.toList.count '\n' + 1 := length_lines_le _
      _ ≤ source.length + 1 := Nat.succ_le_succ (String.length_toList ▸ List.count_le_length)
  · intro n
    exact draftOf_raw capacity _
  · rw [assemble_raw, outcome, Except.map_id]
    rfl

/-- The last line of the program has taken the first cell again. The reference of that cell is still
the one of the first line. -/
theorem stacked_invariant :
    ∃ draft, (draftOf .wrapping ((lines (String.ofList stacked).toList).take 101)).result =
        .ok draft ∧
      draft.raw = ⟨101, 101, 1, .ofFn fun address => if address = 0 then 1001 else 0, [("x", 99)],
        [(0, ⟨"x", 1⟩)]⟩ ∧
      draft.raw.Holds ((readSource (.ofList stacked)).take 101) := by
  have h : (draftOf .wrapping ((lines (String.ofList stacked).toList).take 101)).result.map
      Draft.raw = .ok ⟨101, 101, 1, .ofFn fun address => if address = 0 then 1001 else 0,
        [("x", 99)], [(0, ⟨"x", 1⟩)]⟩ := by
    rw [String.toList_ofList]
    decide +kernel
  cases hd : (draftOf .wrapping ((lines (String.ofList stacked).toList).take 101)).result with
  | error error =>
    rw [hd] at h
    cases h
  | ok draft =>
    rw [hd] at h
    obtain ⟨hi, -⟩ := assembler_invariant .wrapping (.ofList stacked)
    exact ⟨draft, rfl, Except.ok.inj h, (hi 101 draft hd).1⟩

end LittleMan.Assembly
