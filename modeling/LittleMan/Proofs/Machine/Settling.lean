import LittleMan.Proofs.Input
import LittleMan.Proofs.Machine.PlainStep
import LittleMan.Proofs.Machine.Run

/-! Steps of machines that need not be at rest, as when their registers and cells are set from outside.
A step that succeeds brings the accumulator and the cell of its operand to rest, computes and branches
with the words as they were, and leaves every other cell alone. -/

namespace LittleMan

/-- How many cells of a memory are not at rest. -/
def Memory.unsettled (memory : Memory) : Nat :=
  addresses.countP fun a => !decide (LittleMan.AtRest (memory.get a))

theorem Memory.unsettled_le {m n : Memory}
    (h : ∀ a, LittleMan.AtRest (m.get a) → LittleMan.AtRest (n.get a)) :
    n.unsettled ≤ m.unsettled := by
  apply List.countP_mono_left
  intro a _ ha
  simp only [Bool.not_eq_true', decide_eq_false_iff_not] at ha ⊢
  exact fun hm => ha (h a hm)

namespace Machine

/-- The integer that an instruction gives the accumulator, computed without regard to rest. -/
inductive Computes (machine : Machine) (operand : Address) : Instruction → Int → Prop
  | add : Computes machine operand .add (machine.accumulator + machine.memory.get operand)
  | sub : Computes machine operand .sub (machine.accumulator - machine.memory.get operand)
  | lda : Computes machine operand .lda (machine.memory.get operand)
  | inp {value : Int} (ho : operand.val = 1) (hv : Offers machine.inbox value) :
      Computes machine operand .io value
  | io (ho : operand.val ≠ 1) : Computes machine operand .io machine.accumulator
  | kept {instruction : Instruction} (hi : instruction ∈ [.hlt, .sta, .bra, .brz, .brp]) :
      Computes machine operand instruction machine.accumulator

/-- Whether an instruction branches, judged by the accumulator as it is. -/
def branches (machine : Machine) : Instruction → Bool
  | .bra => true
  | .brz => machine.accumulator == 0
  | .brp => decide (0 ≤ machine.accumulator)
  | _ => false

/-- What a step that succeeds makes of any machine. -/
structure Heals (machine : Machine) (operand : Address) (instruction : Instruction)
    (after : Machine) : Prop where
  pc_lt : after.pc < 100
  pc : after.pc = if machine.branches instruction then operand.val else (machine.pc + 1) % 100
  accumulator_atRest : AtRest after.accumulator
  accumulator : ∃ value, machine.Computes operand instruction value ∧
    after.accumulator ≡ value [ZMOD 1999]
  cell_atRest : AtRest (after.memory.get operand)
  cell : after.memory.get operand ≡
    if instruction = .sta then machine.accumulator else machine.memory.get operand [ZMOD 1999]
  frame : ∀ other ≠ operand, after.memory.get other = machine.memory.get other

variable {machine after : Machine} {instruction : Instruction} {operand : Address}
  {result : Except Fault Unit}

theorem Completes.pc_advance (h : machine.Completes operand instruction after) :
    after.advance.pc =
      if machine.branches instruction then operand.val else (machine.pc + 1) % 100 := by
  cases h with
  | bra => rw [branch_advance]; rfl
  | brzTaken h => rw [branch_advance, branches, h]; rfl
  | brzPassed h => rw [branches, beq_false_of_ne h]; rfl
  | brpTaken h => rw [branch_advance, branches, decide_eq_true h]; rfl
  | brpPassed h => rw [branches, decide_eq_false (Int.not_le.2 h)]; rfl
  | _ => rfl

theorem Completes.computes (h : machine.Completes operand instruction after) :
    ∃ value, machine.Computes operand instruction value ∧
      after.accumulator ≡ value [ZMOD 1999] := by
  cases h with
  | add => exact ⟨_, .add, .rfl⟩
  | sub => exact ⟨_, .sub, .rfl⟩
  | lda => exact ⟨_, .lda, .rfl⟩
  | inp ho hv => exact ⟨_, .inp ho (nextInteger_eq_ok_iff.1 hv), wrap_modEq _⟩
  | out ho => exact ⟨_, .io (by omega), .rfl⟩
  | ignored h1 => exact ⟨_, .io h1, .rfl⟩
  | _ => exact ⟨_, .kept (by decide), .rfl⟩

theorem Completes.get_operand (h : machine.Completes operand instruction after) :
    after.memory.get operand =
      if instruction = .sta then machine.accumulator else machine.memory.get operand := by
  by_cases hi : instruction = .sta
  · subst hi
    cases h
    exact Memory.get_set_self _ _ _
  · rw [if_neg hi, h.memory_eq_of_ne_sta hi]

theorem Completes.get_of_ne {other : Address} (h : machine.Completes operand instruction after)
    (ho : other ≠ operand) : after.memory.get other = machine.memory.get other := by
  by_cases hi : instruction = .sta
  · subst hi
    cases h
    exact (Memory.get_set _ _ _ _).trans (if_neg ho.symm)
  · rw [h.memory_eq_of_ne_sta hi]

theorem get_settle_self (machine : Machine) (operand : Address) :
    (machine.settle operand).memory.get operand = wrap (machine.memory.get operand) :=
  Memory.get_set_self _ _ _

theorem get_settle_of_ne {other : Address} (machine : Machine) (ho : other ≠ operand) :
    (machine.settle operand).memory.get other = machine.memory.get other :=
  (Memory.get_set _ _ _ _).trans (if_neg ho.symm)

theorem Completes.heals (h : machine.Completes operand instruction after) :
    machine.Heals operand instruction (after.advance.settle operand) where
  pc_lt := Nat.mod_lt _ (by decide)
  pc := h.pc_advance
  accumulator_atRest := wrap_atRest _
  accumulator := by
    obtain ⟨value, hc, he⟩ := h.computes
    exact ⟨value, hc, (wrap_modEq _).trans he⟩
  cell_atRest := by
    rw [get_settle_self]
    exact wrap_atRest _
  cell := by
    rw [get_settle_self, ← h.get_operand]
    exact wrap_modEq _
  frame other ho := (get_settle_of_ne _ ho).trans (h.get_of_ne ho)

theorem Steps.heals (h : machine.Steps after (.ok ())) :
    ∃ instruction operand, machine.Fetches instruction operand ∧
      machine.Heals operand instruction after := by
  obtain ⟨instruction, operand, left, hf, hc, rfl⟩ := h.completed_of_ok
  exact ⟨instruction, operand, hf, hc.heals⟩

theorem Heals.atRest (h : machine.Heals operand instruction after) {a : Address}
    (ha : AtRest (machine.memory.get a)) : AtRest (after.memory.get a) := by
  by_cases ho : a = operand
  · rw [ho]
    exact h.cell_atRest
  · rw [h.frame a ho]
    exact ha

/-- A step puts no cell out of rest, whether it succeeds or not. -/
theorem Steps.unsettled_le (h : machine.Steps after result) :
    after.memory.unsettled ≤ machine.memory.unsettled := by
  apply Memory.unsettled_le
  intro a ha
  cases h with
  | completed _ hc => exact hc.heals.atRest ha
  | failed _ hc =>
    cases hc with
    | inp => exact ha
    | out => exact ha
  | _ => exact ha

theorem unsettled_afterSteps_le (machine : Machine) (n : Nat) :
    (machine.afterSteps n).memory.unsettled ≤ machine.memory.unsettled :=
  afterSteps_preserves (P := fun after => after.memory.unsettled ≤ machine.memory.unsettled)
    (fun after h => Nat.le_trans after.step_steps.unsettled_le h) (Nat.le_refl _) n

/-- Whatever stands in a machine, a step that succeeds leaves the program counter in the memory and
the accumulator and the cell of the operand at rest, agreeing modulo 1999 with what the words as they
were give, and no other cell changed. So no number of steps puts more cells out of rest. -/
theorem step_heals (machine : Machine) :
    (machine.step.result = .ok () →
      ∃ instruction operand, machine.Fetches instruction operand ∧
        machine.Heals operand instruction machine.step.machine) ∧
      ∀ n, (machine.afterSteps n).memory.unsettled ≤ machine.memory.unsettled := by
  refine ⟨?_, machine.unsettled_afterSteps_le⟩
  intro hr
  have hs := machine.step_steps
  rw [hr] at hs
  exact hs.heals

/-- A machine that is about to branch if its accumulator is zero. The accumulator is 1999, and all
cells but one are too great. -/
def strained : Machine where
  pc := 7
  accumulator := 1999
  memory := .ofFn fun a => if a.val = 7 then 710 else 1500

/-- It does not branch, though the accumulator comes to rest at zero. -/
theorem strained_heals :
    strained.step.result = .ok () ∧
      (∃ instruction operand, strained.Fetches instruction operand ∧
        strained.Heals operand instruction strained.step.machine) ∧
      strained.step.machine.pc = 8 ∧ strained.step.machine.accumulator = 0 ∧
      strained.step.machine.memory.get ⟨10, by decide⟩ = -499 ∧
      strained.memory.unsettled = 99 ∧ strained.step.machine.memory.unsettled = 98 ∧
      (strained.afterSteps 5).memory.unsettled ≤ 99 := by
  have hr : strained.step.result = .ok () := by decide +kernel
  have hu : strained.memory.unsettled = 99 := by decide +kernel
  obtain ⟨hh, hn⟩ := strained.step_heals
  have h5 := hn 5
  rw [hu] at h5
  exact ⟨hr, hh hr, by decide +kernel, by decide +kernel, by decide +kernel, hu,
    by decide +kernel, h5⟩

end Machine

end LittleMan
