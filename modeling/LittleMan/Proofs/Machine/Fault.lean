import LittleMan.Proofs.Decimal
import LittleMan.Proofs.Input
import LittleMan.Proofs.Machine.Reachable

/-! The faults of the machine: when a step fails, and how little it then changes. -/

namespace LittleMan

namespace Machine

/-- What keeps a machine from a step. -/
inductive Prevented (machine : Machine) : Fault → Prop
  | halted (hh : machine.halted = true) : Prevented machine .machineHalted
  | command {word : Int} (hh : machine.halted = false)
      (hw : machine.memory.read? machine.pc = some word) (hc : word < 0 ∨ word / 100 = 4) :
      Prevented machine .invalidCommand
  | input (hh : machine.halted = false) (hw : machine.memory.read? machine.pc = some 901)
      (hi : ¬ ∃ value, Offers machine.inbox value) : Prevented machine .inputOutput
  | output (hh : machine.halted = false) (hw : machine.memory.read? machine.pc = some 902)
      (hd : machine.outbox.device machine.outbox.attempts ≠ .accepted) :
      Prevented machine .inputOutput

/-- What is written by a delivery that fails: no more of the text than its device keeps if that
fails to take it, the whole text if it only fails to pass it on. -/
inductive Undelivered (outbox : Outbox) (text : List UInt8) : Outbox → Prop
  | refused {after : Outbox} {reason : String} {length : Nat}
      (hd : outbox.device outbox.attempts = .writeFailed reason length)
      (hw : after.written = outbox.written ++ text.take length) : Undelivered outbox text after
  | held {after : Outbox} {reason : String}
      (hd : outbox.device outbox.attempts = .flushFailed reason)
      (hw : after.written = outbox.written ++ text) : Undelivered outbox text after

/-- What a step that fails leaves: the same machine, but for a line of input that it used up or for
a line of output that it could not deliver. -/
inductive Leaves (machine : Machine) : Fault → Machine → Prop
  | same {fault : Fault} (hf : fault ≠ .inputOutput) : Leaves machine fault machine
  | input {inbox : List UInt8} (hw : machine.memory.read? machine.pc = some 901)
      (hi : UsesLine machine.inbox inbox) :
      Leaves machine .inputOutput { machine with inbox := inbox }
  | output {line : List UInt8} {outbox : Outbox}
      (hw : machine.memory.read? machine.pc = some 902)
      (hl : PrintedLine line machine.accumulator) (ho : Undelivered machine.outbox line outbox) :
      Leaves machine .inputOutput { machine with outbox := outbox }

variable {machine after : Machine} {instruction : Instruction} {operand : Address}
  {fault other : Fault}

theorem Prevented.unique (h : machine.Prevented fault) (h' : machine.Prevented other) :
    fault = other := by
  -- Each cause asks for a machine that is running or for one that is not, and for a word.
  cases h with
  | halted hh =>
    cases h' with
    | halted => rfl
    | command hh' => rw [hh] at hh'; cases hh'
    | input hh' => rw [hh] at hh'; cases hh'
    | output hh' => rw [hh] at hh'; cases hh'
  | command hh hw hc =>
    cases h' with
    | halted hh' => rw [hh] at hh'; cases hh'
    | command => rfl
    | input hh' hw' => rw [hw] at hw'; cases hw'; omega
    | output hh' hw' => rw [hw] at hw'; cases hw'; omega
  | input hh hw =>
    cases h' with
    | halted hh' => rw [hh] at hh'; cases hh'
    | command hh' hw' hc => rw [hw] at hw'; cases hw'; omega
    | input => rfl
    | output => rfl
  | output hh hw =>
    cases h' with
    | halted hh' => rw [hh] at hh'; cases hh'
    | command hh' hw' hc => rw [hw] at hw'; cases hw'; omega
    | input => rfl
    | output => rfl

theorem Fails.prevented (h : machine.Fails operand instruction after)
    (hf : machine.Fetches instruction operand) : machine.Prevented .inputOutput := by
  have hw := hf.word
  cases h with
  | inp ho hv =>
    rw [ho] at hw
    exact .input hf.running hw (not_offers_iff.2 ⟨_, hv⟩)
  | out ho hr =>
    rw [ho] at hw
    apply Prevented.output hf.running hw
    intro hd
    rw [Outbox.refusal?_eq_none_iff.2 hd] at hr
    cases hr

theorem decode_eq_none_of_atRest {word : Int} (h : AtRest word) (hd : decode word = none) :
    word < 0 := by
  rw [decode] at hd
  split at hd
  · cases hd
  · next hn =>
    have hu := h.2
    omega

theorem digit_eq_four {digit : Nat} (hd : digit ≤ 9) (hi : Instruction.ofDigit? digit = none) :
    digit = 4 := by
  have hall : ∀ digit ≤ 9, Instruction.ofDigit? digit = none → digit = 4 := by decide
  exact hall digit hd hi

theorem Steps.prevented (h : machine.Steps after (.error fault)) (hm : machine.InRange) :
    machine.Prevented fault := by
  cases h with
  | failed hf hc => exact hc.prevented hf
  | halted hh => exact .halted hh
  | outOfBounds hh hw =>
    rw [hm.read?_eq] at hw
    cases hw
  | notDecoded hh hw hd =>
    have hr := hm.read?_eq
    rw [hw] at hr
    cases hr
    exact .command hh hw (.inl (decode_eq_none_of_atRest (hm.memory _) hd))
  | unknownDigit hh hw hd hi =>
    obtain ⟨hn, rfl⟩ := decode_eq_some_iff.1 hd
    have h4 := digit_eq_four hn hi
    exact .command hh hw (.inr (by omega))

theorem Fetches.digit_ne_four (h : machine.Fetches instruction operand) :
    (100 * (instruction.digit : Int) + (operand.val : Int)) / 100 ≠ 4 := by
  have ho := operand.isLt
  have hd : instruction.digit ≠ 4 := by cases instruction <;> decide
  omega

theorem Fetches.io_of_word {n : Nat} (h : machine.Fetches instruction operand) (hn : n < 100)
    (hw : machine.memory.read? machine.pc = some (900 + (n : Int))) :
    instruction = .io ∧ operand.val = n := by
  have ho := operand.isLt
  have he := Option.some.inj (h.word.symm.trans hw)
  have hd : instruction.digit = 9 := by omega
  refine ⟨?_, by omega⟩
  cases instruction with
  | io => rfl
  | _ => cases hd

theorem Completes.not_prevented (h : machine.Completes operand instruction after)
    (hf : machine.Fetches instruction operand) : ¬ machine.Prevented fault := by
  have hw := hf.word
  intro hp
  cases hp with
  | halted hh =>
    rw [hf.running] at hh
    cases hh
  | command hh hw' hc =>
    rw [hw] at hw'
    cases hw'
    rcases hc with hneg | h4
    · omega
    · exact hf.digit_ne_four h4
  | input hh hw' hi =>
    obtain ⟨rfl, ho⟩ := hf.io_of_word (n := 1) (by decide) hw'
    cases h with
    | inp _ hv => exact hi ⟨_, nextInteger_eq_ok_iff.1 hv⟩
    | out ho' => omega
    | ignored h1 => exact h1 ho
  | output hh hw' hd =>
    obtain ⟨rfl, ho⟩ := hf.io_of_word (n := 2) (by decide) hw'
    cases h with
    | inp ho' => omega
    | out _ hr => exact hd (Outbox.refusal?_eq_none_iff.1 hr)
    | ignored _ h2 => exact h2 ho

theorem InRange.step_error_iff (hm : machine.InRange) :
    machine.step.result = .error fault ↔ machine.Prevented fault := by
  have hs := machine.step_steps
  apply Iff.intro
  · intro hr
    rw [hr] at hs
    exact hs.prevented hm
  · intro hp
    cases hr : machine.step.result with
    | ok value =>
      rw [hr] at hs
      obtain ⟨instruction, operand, left, hf, hc, -⟩ := hs.completed_of_ok
      exact absurd hp (hc.not_prevented hf)
    | error other =>
      rw [hr] at hs
      rw [(hs.prevented hm).unique hp]

theorem Undelivered.of_deliver {outbox : Outbox} (text : List UInt8)
    (hd : outbox.device outbox.attempts ≠ .accepted) :
    Undelivered outbox text (outbox.deliver text) := by
  have hw := outbox.written_deliver text
  cases hk : outbox.device outbox.attempts with
  | accepted => exact absurd hk hd
  | writeFailed reason length =>
    rw [hk] at hw
    exact .refused hk hw
  | flushFailed reason =>
    rw [hk] at hw
    exact .held hk hw

theorem Fails.leaves (h : machine.Fails operand instruction after)
    (hf : machine.Fetches instruction operand) : machine.Leaves .inputOutput after := by
  have hw := hf.word
  cases h with
  | inp ho =>
    rw [ho] at hw
    exact .input hw (usesLine_afterLine _)
  | out ho hr =>
    rw [ho] at hw
    apply Leaves.output hw (printedLine_outputLine _)
    apply Undelivered.of_deliver
    intro hd
    rw [Outbox.refusal?_eq_none_iff.2 hd] at hr
    cases hr

theorem Steps.leaves (h : machine.Steps after (.error fault)) : machine.Leaves fault after := by
  cases h with
  | failed hf hc => exact hc.leaves hf
  | halted => exact .same (by decide)
  | outOfBounds => exact .same (by decide)
  | notDecoded => exact .same (by decide)
  | unknownDigit => exact .same (by decide)

/-- A step fails exactly when something prevents it, and then it leaves the registers and the memory
as they were. -/
theorem Reachable.step_error_iff_prevented (h : Reachable machine) :
    (∀ fault, machine.step.result = .error fault ↔ machine.Prevented fault) ∧
      (machine.step.result = .ok () ↔ ∀ fault, ¬ machine.Prevented fault) ∧
      ∀ fault, machine.step.result = .error fault → machine.Leaves fault machine.step.machine := by
  have hm := h.inRange
  refine ⟨fun fault => hm.step_error_iff, ?_, ?_⟩
  · simp only [← hm.step_error_iff]
    cases machine.step.result with
    | ok value => simp
    | error fault => simp
  · intro fault hr
    have hs := machine.step_steps
    rw [hr] at hs
    exact hs.leaves

/-- A machine that is about to read a number, with a line of input before it that is none. -/
def misread : Machine := ({ inbox := [120, 10, 55, 10] } : Machine).load (.ofFn fun _ => 901)

theorem misread_step :
    misread.step.result = .error .inputOutput ∧ misread.step.machine.inbox = [55, 10] ∧
      misread.Leaves .inputOutput misread.step.machine := by
  have h : Reachable misread := .call (.new [120, 10, 55, 10] {}) (.load _)
  have hw : misread.memory.read? misread.pc = some 901 := by decide +kernel
  have hi : ¬ ∃ value, Offers misread.inbox value := not_offers_iff.2 ⟨_, rfl⟩
  obtain ⟨he, -, hl⟩ := h.step_error_iff_prevented
  have hr := (he .inputOutput).2 (.input rfl hw hi)
  exact ⟨hr, by decide +kernel, hl .inputOutput hr⟩

end Machine

end LittleMan
