import LittleMan.Proofs.Assembly.Capacity
import LittleMan.Proofs.Assembly.Fitting
import LittleMan.Proofs.Image
import LittleMan.Proofs.Machine.Step

/-! The words of an assembled program. Some of them are above every word at rest: an operation that
has its own number already, and another one added to it. Their images do not give them back. -/

namespace LittleMan

/-- The largest word that an assembled program may have in a cell. -/
def Capacity.ceiling : Capacity → Int
  | .wrapping => 1100
  | .strict => 1001

namespace Assembly

/-- The operand of an input or output operation takes its word above every word at rest. -/
inductive Overflows (code : List Placed) (statement : Statement) : Prop
  | inp {address : Address} (hop : statement.mnemonic = .op .inp)
      (ha : Means code statement address) (hv : address.val = 99) : Overflows code statement
  | out {address : Address} (hop : statement.mnemonic = .op .out)
      (ha : Means code statement address) (hv : address.val = 98 ∨ address.val = 99) :
      Overflows code statement

variable {capacity : Capacity} {source : String} {memory : Memory} {code : List Placed}
  {placed : Placed} {statement : Statement} {operation : Operation} {cell address : Address}

theorem code_range (operation : Operation) : 0 ≤ operation.code ∧ operation.code ≤ 902 := by
  cases operation <;> decide

theorem word_range (statement : Statement) : -999 ≤ statement.word ∧ statement.word ≤ 1001 := by
  rw [Statement.word]
  split
  · have hr := wrap_atRest statement.datum
    omega
  · next operation _ =>
    have hc := code_range operation
    split
    · next address _ =>
      have ha := address.isLt
      omega
    · omega

/-- A stale reference adds an address to a word that may have one already. -/
theorem get_assembled_range (h : (assemble capacity source).result = .ok memory) (cell : Address) :
    -999 ≤ memory.get cell ∧ memory.get cell ≤ 1100 := by
  rw [get_assembled h]
  cases hs : statementAt? (statements (readSource source)) cell with
  | none =>
    rw [referenceAt?_of_statementAt?_eq_none hs, Option.bind_none, Option.elim_none,
      Option.elim_none]
    omega
  | some placed =>
    have hw := word_range placed.statement
    rw [Option.elim_some]
    cases (referenceAt? (statements (readSource source)) cell).bind
      (definition? (statements (readSource source)) ·.label) with
    | none =>
      rw [Option.elim_none]
      omega
    | some target =>
      have ht := target.isLt
      rw [Option.elim_some]
      omega

theorem get_assembled_of_dat (h : (assemble capacity source).result = .ok memory)
    (hfit : (statements (readSource source)).length ≤ 100)
    (hk : (statements (readSource source))[cell.val]? = some placed)
    (hd : placed.statement.mnemonic = .dat) : AtRest (memory.get cell) := by
  have hu : placed.statement.use? = none := by
    rw [Statement.use?, hd]
  have hw : placed.statement.word = wrap placed.statement.datum := by
    rw [Statement.word, hd]
  rw [get_assembled_of_fit h hfit hk, hu, hw, Option.bind_none, Option.elim_none, Int.add_zero]
  exact wrap_atRest _

theorem overflows_iff (hop : statement.mnemonic = .op operation)
    (hm : ∀ other, Means code statement other ↔ other = address) :
    Overflows code statement ↔ 999 < operation.code + (address.val : Int) := by
  apply Iff.intro
  · intro h
    cases h with
    | inp hop' ha hv =>
      cases hop.symm.trans hop'
      cases (hm _).1 ha
      rw [hv]
      decide
    | out hop' ha hv =>
      cases hop.symm.trans hop'
      cases (hm _).1 ha
      simp only [Operation.code]
      omega
  · intro h
    have ha := (hm address).2 rfl
    have hlt := address.isLt
    cases operation with
    | inp =>
      simp only [Operation.code] at h
      exact .inp hop ha (by omega)
    | out =>
      simp only [Operation.code] at h
      exact .out hop ha (by omega)
    | _ =>
      simp only [Operation.code] at h
      omega

/-- A cell of a program that fits is at rest unless its operation has too large an operand. -/
theorem get_atRest_iff (h : (assemble capacity source).result = .ok memory)
    (hfit : (statements (readSource source)).length ≤ 100)
    (hk : (statements (readSource source))[cell.val]? = some placed) :
    AtRest (memory.get cell) ↔
      ¬ Overflows (statements (readSource source)) placed.statement := by
  cases hop : placed.statement.mnemonic with
  | dat =>
    apply iff_of_true (get_assembled_of_dat h hfit hk hop)
    intro ho
    cases ho with
    | inp hop' => cases hop.symm.trans hop'
    | out hop' => cases hop.symm.trans hop'
  | op operation =>
    obtain ⟨address, hm, hg⟩ := exists_means h hfit hk hop
    have hl := (get_assembled_range h cell).1
    rw [overflows_iff hop hm, ← hg]
    omega

theorem atRest_assembled_iff (h : (assemble capacity source).result = .ok memory)
    (hfit : (statements (readSource source)).length ≤ 100) :
    memory.AtRest ↔ ∀ placed ∈ statements (readSource source),
      ¬ Overflows (statements (readSource source)) placed.statement := by
  apply Iff.intro
  · intro hr placed hm
    obtain ⟨i, hi⟩ := List.getElem?_of_mem hm
    have hlt : i < 100 := Nat.lt_of_lt_of_le (List.getElem?_eq_some_iff.1 hi).1 hfit
    have hk : (statements (readSource source))[(⟨i, hlt⟩ : Address).val]? = some placed := hi
    exact (get_atRest_iff h hfit hk).1 (hr ⟨i, hlt⟩)
  · intro ho cell
    cases hk : (statements (readSource source))[cell.val]? with
    | none =>
      rw [get_assembled_past h hfit hk]
      exact atRest_zero
    | some placed => exact (get_atRest_iff h hfit hk).2 (ho placed (List.mem_of_getElem? hk))

theorem get_assembled_le_ceiling (h : (assemble capacity source).result = .ok memory)
    (cell : Address) : memory.get cell ≤ capacity.ceiling := by
  cases capacity with
  | wrapping => exact (get_assembled_range h cell).2
  | strict =>
    -- No reference of a program that fits is stale, so a word has one address in it at most.
    have hfit := fit_of_strict h
    change memory.get cell ≤ 1001
    cases hk : (statements (readSource source))[cell.val]? with
    | none =>
      rw [get_assembled_past h hfit hk]
      decide
    | some placed =>
      cases hop : placed.statement.mnemonic with
      | dat =>
        have hr := get_assembled_of_dat h hfit hk hop
        omega
      | op operation =>
        obtain ⟨address, -, hg⟩ := exists_means h hfit hk hop
        have hc := code_range operation
        have ha := address.isLt
        omega

/-- A program of 101 words. The last one has an address and takes the cell of the first one, whose
label is added to it. -/
def stacked : List Char :=
  ['L', 'D', 'A', ' ', 'x', '\n'] ++ (List.replicate 98 ['H', 'L', 'T', '\n']).flatten ++
    ['x', ' ', 'H', 'L', 'T', '\n', 'O', 'U', 'T', ' ', '9', '9']

theorem attains_bounds (capacity : Capacity) :
    (∃ source memory cell, (assemble capacity source).result = .ok memory ∧
        memory.get cell = -999) ∧
      ∃ source memory cell, (assemble capacity source).result = .ok memory ∧
        memory.get cell = capacity.ceiling := by
  have hd : (assemble .strict (.ofList ['D', 'A', 'T', ' ', '-', '9', '9', '9'])).result =
      .ok (.ofFn fun address => if address = 0 then -999 else 0) := by
    rw [assemble, String.toList_ofList]
    decide +kernel
  cases capacity with
  | wrapping =>
    apply And.intro ⟨_, _, 0, result_assemble_wrapping_of_strict hd, by decide +kernel⟩
    have hs : (assemble .wrapping (.ofList stacked)).result =
        .ok (.ofFn fun address => if address = 0 then 1100 else 0) := by
      rw [assemble, String.toList_ofList]
      decide +kernel
    exact ⟨_, _, 0, hs, by decide +kernel⟩
  | strict =>
    apply And.intro ⟨_, _, 0, hd, by decide +kernel⟩
    have ho : (assemble .strict (.ofList ['O', 'U', 'T', ' ', '9', '9'])).result =
        .ok (.ofFn fun address => if address = 0 then 1001 else 0) := by
      rw [assemble, String.toList_ofList]
      decide +kernel
    exact ⟨_, _, 0, ho, by decide +kernel⟩

end Assembly

namespace Machine

variable {machine : Machine} {word : Int}

theorem step_of_negative (hh : machine.halted = false)
    (hw : machine.memory.read? machine.pc = some word) (hn : word < 0) :
    machine.step = ⟨machine, [], .error .invalidCommand⟩ := by
  have hd : decode word = none := if_neg fun h => Int.not_le.2 hn h.1
  simp only [step, hh, hw, hd, Bool.false_eq_true, if_false]

end Machine

open Assembly

/-- The words of an assembled program lie between bounds that some programs reach. A program that
fits comes back from its image unless an operation overflows, and then its word is negative once it
is loaded, and no command. -/
theorem assembled_range :
    (∀ capacity source memory, (assemble capacity source).result = .ok memory → ∀ cell,
      -999 ≤ memory.get cell ∧ memory.get cell ≤ capacity.ceiling) ∧
    (∀ capacity,
      (∃ source memory cell, (assemble capacity source).result = .ok memory ∧
        memory.get cell = -999) ∧
      ∃ source memory cell, (assemble capacity source).result = .ok memory ∧
        memory.get cell = capacity.ceiling) ∧
    ∀ capacity source memory, (assemble capacity source).result = .ok memory →
      (statements (readSource source)).length ≤ 100 →
      (Memory.ofBytes memory.toBytes = .ok memory ↔
        ∀ placed ∈ statements (readSource source),
          ¬ Overflows (statements (readSource source)) placed.statement) ∧
      ∀ (cell : Address) (placed : Placed),
        (statements (readSource source))[cell.val]? = some placed →
        Overflows (statements (readSource source)) placed.statement →
        ∀ machine : Machine, (machine.load memory).memory.get cell < 0 ∧
          ∀ later : Machine, later.halted = false →
            later.memory.read? later.pc = some ((machine.load memory).memory.get cell) →
            later.step = ⟨later, [], .error .invalidCommand⟩ := by
  refine ⟨?_, attains_bounds, ?_⟩
  · intro capacity source memory h cell
    exact ⟨(get_assembled_range h cell).1, get_assembled_le_ceiling h cell⟩
  · intro capacity source memory h hfit
    apply And.intro
    · rw [Memory.ofBytes_toBytes, Except.ok.injEq, Memory.wrapped_eq_self_iff,
        atRest_assembled_iff h hfit]
    · intro cell placed hk ho machine
      have hn : (machine.load memory).memory.get cell < 0 := by
        have hr := get_assembled_range h cell
        have hx : ¬ AtRest (memory.get cell) := fun hx => (get_atRest_iff h hfit hk).1 hx ho
        have hw : (machine.load memory).memory.get cell = wrap (memory.get cell) :=
          memory.get_wrapped cell
        rw [hw, wrap]
        omega
      apply And.intro hn
      intro later hh hw
      exact Machine.step_of_negative hh hw hn

def spilling : List Char := ['O', 'U', 'T', ' ', '9', '8']

/-- The only word of the program is 1000. Its image holds -999, on which the machine stops. -/
theorem spilling_range :
    ∃ memory, (assemble .strict (.ofList spilling)).result = .ok memory ∧
      Memory.ofBytes memory.toBytes ≠ .ok memory ∧
      (({} : Machine).load memory).step.result = .error .invalidCommand := by
  let memory := Memory.ofFn fun address => if address = 0 then 1000 else 0
  have h : (assemble .strict (.ofList spilling)).result = .ok memory := by
    rw [assemble, String.toList_ofList]
    decide +kernel
  have hcode : statements (readSource (.ofList spilling)) = [⟨1, ⟨none, .op .out, some "98"⟩⟩] := by
    rw [readSource, String.toList_ofList]
    decide +kernel
  have hv : tokenValue? "98" = some ((98 : Address).val : Int) := by decide +kernel
  have hm : Overflows (statements (readSource (.ofList spilling)))
      (Placed.mk 1 ⟨none, .op .out, some "98"⟩).statement :=
    .out rfl (.literal rfl hv) (.inl rfl)
  obtain ⟨-, -, hr⟩ := assembled_range
  obtain ⟨hi, hs⟩ := hr _ _ _ h (by rw [hcode]; decide)
  obtain ⟨-, hstep⟩ := hs 0 _ (by rw [hcode]; rfl) hm {}
  refine ⟨memory, h, ?_, ?_⟩
  · intro hb
    apply hi.1 hb ⟨1, ⟨none, .op .out, some "98"⟩⟩ _ hm
    rw [hcode]
    exact List.mem_singleton_self _
  · rw [hstep _ rfl rfl]

end LittleMan
