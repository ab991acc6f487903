import LittleMan.Proofs.Decimal
import LittleMan.Proofs.Input
import LittleMan.Proofs.Machine.Reachable

/-! The plain instruction set, and that the machine implements it wherever calls can lead. -/

namespace LittleMan

namespace Machine

/-- What the instruction of an opcode digit does: arithmetic modulo 1999, a number from the next line
of the input, the decimal text of the accumulator to the output, and no trace of the way the machine
branches and settles. -/
inductive Plain (machine : Machine) (operand : Address) : Nat → Machine → Prop
  | hlt : Plain machine operand 0 { machine with pc := (machine.pc + 1) % 100, halted := true }
  | add {sum : Int} (hs : AtRest sum)
      (hc : sum ≡ machine.accumulator + machine.memory.get operand [ZMOD 1999]) :
      Plain machine operand 1 { machine with pc := (machine.pc + 1) % 100, accumulator := sum }
  | sub {difference : Int} (hs : AtRest difference)
      (hc : difference ≡ machine.accumulator - machine.memory.get operand [ZMOD 1999]) :
      Plain machine operand 2
        { machine with pc := (machine.pc + 1) % 100, accumulator := difference }
  | sta : Plain machine operand 3
      { machine with
        pc := (machine.pc + 1) % 100
        memory := machine.memory.set operand machine.accumulator }
  | lda : Plain machine operand 5
      { machine with
        pc := (machine.pc + 1) % 100
        accumulator := machine.memory.get operand }
  | bra : Plain machine operand 6 { machine with pc := operand.val }
  | brzTaken (h : machine.accumulator = 0) :
      Plain machine operand 7 { machine with pc := operand.val }
  | brzPassed (h : machine.accumulator ≠ 0) :
      Plain machine operand 7 { machine with pc := (machine.pc + 1) % 100 }
  | brpTaken (h : 0 ≤ machine.accumulator) :
      Plain machine operand 8 { machine with pc := operand.val }
  | brpPassed (h : machine.accumulator < 0) :
      Plain machine operand 8 { machine with pc := (machine.pc + 1) % 100 }
  | inp {value word : Int} {inbox : List UInt8} (ho : operand.val = 1)
      (hv : Offers machine.inbox value) (hs : AtRest word) (hc : word ≡ value [ZMOD 1999])
      (hu : UsesLine machine.inbox inbox) :
      Plain machine operand 9
        { machine with pc := (machine.pc + 1) % 100, accumulator := word, inbox := inbox }
  | out {line : List UInt8} (ho : operand.val = 2)
      (hd : machine.outbox.device machine.outbox.attempts = .accepted)
      (hl : PrintedLine line machine.accumulator) :
      Plain machine operand 9
        { machine with
          pc := (machine.pc + 1) % 100
          outbox :=
            { machine.outbox with
              kept := line :: machine.outbox.kept
              attempts := machine.outbox.attempts + 1 } }
  | ignored (h1 : operand.val ≠ 1) (h2 : operand.val ≠ 2) :
      Plain machine operand 9 { machine with pc := (machine.pc + 1) % 100 }

variable {machine after : Machine} {instruction : Instruction} {operand : Address} {digit : Nat}

theorem branch_advance (machine : Machine) (operand : Address) :
    (machine.branch operand).advance = { machine with pc := operand.val } := by
  have ho := operand.isLt
  have hp : ((operand.val + 99) % 100 + 1) % 100 = operand.val := by omega
  simp only [branch, advance, hp]

theorem Completes.accumulator_atRest (h : machine.Completes operand instruction after)
    (hm : machine.InRange) (hadd : instruction ≠ .add) (hsub : instruction ≠ .sub) :
    AtRest after.accumulator := by
  cases h with
  | add => contradiction
  | sub => contradiction
  | lda => exact hm.memory operand
  | inp => exact wrap_atRest _
  | _ => exact hm.accumulator

/-- Settling shows at most in the accumulator. -/
theorem Completes.settle_eq (h : machine.Completes operand instruction after)
    (hm : machine.InRange) :
    after.advance.settle operand =
      { after.advance with accumulator := wrap after.accumulator } := by
  have hs := (h.memory_atRest hm).set_wrap_get operand
  simp only [settle, advance, hs]

theorem Completes.settle_eq_self (h : machine.Completes operand instruction after)
    (hm : machine.InRange) (hadd : instruction ≠ .add) (hsub : instruction ≠ .sub) :
    after.advance.settle operand = after.advance := by
  rw [h.settle_eq hm, wrap_of_atRest (h.accumulator_atRest hm hadd hsub)]
  rfl

theorem Completes.plain (h : machine.Completes operand instruction after) (hm : machine.InRange) :
    machine.Plain operand instruction.digit (after.advance.settle operand) := by
  -- Only a sum or a difference is settled into something else.
  by_cases hadd : instruction = .add
  · subst hadd
    rw [h.settle_eq hm]
    cases h
    exact .add (wrap_atRest _) (wrap_modEq _)
  · by_cases hsub : instruction = .sub
    · subst hsub
      rw [h.settle_eq hm]
      cases h
      exact .sub (wrap_atRest _) (wrap_modEq _)
    · rw [h.settle_eq_self hm hadd hsub]
      cases h with
      | hlt => exact .hlt
      | add => contradiction
      | sub => contradiction
      | sta => exact .sta
      | lda => exact .lda
      | bra => rw [branch_advance]; exact .bra
      | brzTaken h => rw [branch_advance]; exact .brzTaken h
      | brzPassed h => exact .brzPassed h
      | brpTaken h => rw [branch_advance]; exact .brpTaken h
      | brpPassed h => exact .brpPassed h
      | @inp value ho hv =>
        exact .inp ho (nextInteger_eq_ok_iff.1 hv) (wrap_atRest value) (wrap_modEq value)
          (usesLine_afterLine _)
      | out ho hr =>
        have hd := Outbox.refusal?_eq_none_iff.1 hr
        rw [Outbox.deliver_of_accepted _ hd]
        exact .out ho hd (printedLine_outputLine _)
      | ignored h1 h2 => exact .ignored h1 h2

theorem Plain.completes (h : machine.Plain operand digit after) :
    ∃ instruction left, instruction.digit = digit ∧
      machine.Completes operand instruction left := by
  cases h with
  | hlt => exact ⟨.hlt, _, rfl, .hlt⟩
  | add => exact ⟨.add, _, rfl, .add⟩
  | sub => exact ⟨.sub, _, rfl, .sub⟩
  | sta => exact ⟨.sta, _, rfl, .sta⟩
  | lda => exact ⟨.lda, _, rfl, .lda⟩
  | bra => exact ⟨.bra, _, rfl, .bra⟩
  | brzTaken h => exact ⟨.brz, _, rfl, .brzTaken h⟩
  | brzPassed h => exact ⟨.brz, _, rfl, .brzPassed h⟩
  | brpTaken h => exact ⟨.brp, _, rfl, .brpTaken h⟩
  | brpPassed h => exact ⟨.brp, _, rfl, .brpPassed h⟩
  | inp ho hv => exact ⟨.io, _, rfl, .inp ho (nextInteger_eq_ok_iff.2 hv)⟩
  | out ho hd => exact ⟨.io, _, rfl, .out ho (Outbox.refusal?_eq_none_iff.2 hd)⟩
  | ignored h1 h2 => exact ⟨.io, _, rfl, .ignored h1 h2⟩

theorem Plain.unique {other : Machine} (h : machine.Plain operand digit after)
    (h' : machine.Plain operand digit other) : after = other := by
  cases h with
  | add hs hc =>
    cases h' with
    | add hs' hc' => rw [hs.eq_of_modEq hs' (hc.trans hc'.symm)]
  | sub hs hc =>
    cases h' with
    | sub hs' hc' => rw [hs.eq_of_modEq hs' (hc.trans hc'.symm)]
  | brzTaken h =>
    cases h' with
    | brzTaken => rfl
    | brzPassed h' => contradiction
  | brzPassed h =>
    cases h' with
    | brzTaken h' => contradiction
    | brzPassed => rfl
  | brpTaken h =>
    cases h' with
    | brpTaken => rfl
    | brpPassed h' => omega
  | brpPassed h =>
    cases h' with
    | brpTaken h' => omega
    | brpPassed => rfl
  | inp ho hv hs hc hu =>
    cases h' with
    | inp _ hv' hs' hc' hu' =>
      obtain rfl := hv.unique hv'
      rw [hs.eq_of_modEq hs' (hc.trans hc'.symm), hu.eq_afterLine, hu'.eq_afterLine]
    | out ho' => omega
    | ignored h1 => contradiction
  | out ho _ hl =>
    cases h' with
    | inp ho' => omega
    | out _ _ hl' => rw [printedLine_iff.1 hl, printedLine_iff.1 hl']
    | ignored _ h2 => contradiction
  | ignored h1 h2 =>
    cases h' with
    | inp ho => contradiction
    | out ho => contradiction
    | ignored => rfl
  | _ => cases h'; rfl

theorem Fetches.eq_of_word {other : Address} (h : machine.Fetches instruction other)
    (hw : machine.memory.read? machine.pc = some (100 * (digit : Int) + (operand.val : Int))) :
    instruction.digit = digit ∧ other = operand := by
  have heq := Option.some.inj (h.word.symm.trans hw)
  have ho := operand.isLt
  have ho' := other.isLt
  exact ⟨by omega, Fin.ext (by omega)⟩

theorem Fetches.unique {other : Instruction} {address : Address}
    (h : machine.Fetches instruction operand) (h' : machine.Fetches other address) :
    other = instruction ∧ address = operand := by
  obtain ⟨hd, ho⟩ := h'.eq_of_word h.word
  have hi := Instruction.ofDigit?_digit other
  rw [hd, Instruction.ofDigit?_digit] at hi
  exact ⟨(Option.some.inj hi).symm, ho⟩

/-- A step succeeds exactly where the plain instruction set says what the word does, and does just
that. -/
theorem InRange.step_iff_plain (hm : machine.InRange) (hh : machine.halted = false)
    (hw : machine.memory.read? machine.pc = some (100 * (digit : Int) + (operand.val : Int))) :
    machine.Plain operand digit after ↔
      machine.step.result = .ok () ∧ machine.step.machine = after := by
  constructor
  · intro h
    obtain ⟨instruction, left, rfl, hc⟩ := h.completes
    obtain ⟨event, he⟩ := hc.execute
    rw [step_eq_of_completed ⟨hh, hw⟩ he]
    exact ⟨rfl, (hc.plain hm).unique h⟩
  · intro hx
    obtain ⟨hr, rfl⟩ := hx
    have hs := machine.step_steps
    rw [hr] at hs
    obtain ⟨instruction, other, left, hf, hc, he⟩ := hs.completed_of_ok
    obtain ⟨rfl, rfl⟩ := hf.eq_of_word hw
    rw [he]
    exact hc.plain hm

theorem Plain.written (h : machine.Plain operand digit after) :
    ∃ text, after.outbox.written = machine.outbox.written ++ text ∧
      if digit = 9 ∧ operand.val = 2 then PrintedLine text machine.accumulator
      else text = [] := by
  cases h with
  | @out line ho hd hl =>
    refine ⟨line, ?_, ?_⟩
    · simp only [Outbox.written, List.reverse_cons, List.flatten_append, List.flatten_singleton]
    · rw [if_pos ⟨rfl, ho⟩]
      exact hl
  | inp ho => exact ⟨[], (List.append_nil _).symm, by rw [if_neg (by omega)]⟩
  | ignored h1 h2 => exact ⟨[], (List.append_nil _).symm, by rw [if_neg (by omega)]⟩
  | _ => exact ⟨[], (List.append_nil _).symm, by rw [if_neg (by omega)]⟩

theorem Steps.memory_eq {result : Except Fault Unit} (h : machine.Steps after result)
    (hm : machine.InRange) (hn : ∀ operand, ¬ machine.Fetches .sta operand) :
    after.memory = machine.memory := by
  cases h with
  | @completed _ operand _ hf hc =>
    rw [hc.settle_eq hm]
    refine hc.memory_eq_of_ne_sta ?_
    intro he
    subst he
    exact hn operand hf
  | failed _ hc =>
    cases hc with
    | inp => rfl
    | out => rfl
  | _ => rfl

/-- A running machine that calls have led to, with a word of an opcode digit and an operand to
execute, makes the step of the plain instruction set, and succeeds just where there is one. -/
theorem Reachable.step_plain (h : Reachable machine) (hh : machine.halted = false)
    (hw : machine.memory.read? machine.pc = some (100 * (digit : Int) + (operand.val : Int))) :
    (∀ after, machine.Plain operand digit after ↔
        machine.step.result = .ok () ∧ machine.step.machine = after) ∧
      (machine.step.result = .ok () →
        ∃ text, machine.step.machine.outbox.written = machine.outbox.written ++ text ∧
          if digit = 9 ∧ operand.val = 2 then PrintedLine text machine.accumulator
          else text = []) ∧
      (∀ instruction after event, machine.execute instruction operand = .completed after event →
        after.advance.settle operand =
            { after.advance with accumulator := wrap after.accumulator } ∧
          (instruction ≠ .add → instruction ≠ .sub →
            after.advance.settle operand = after.advance)) ∧
      (digit ≠ 3 → machine.step.machine.memory = machine.memory) := by
  have hm := h.inRange
  refine ⟨fun after => hm.step_iff_plain hh hw, ?_, ?_, ?_⟩
  · intro hr
    exact ((hm.step_iff_plain hh hw).mpr ⟨hr, rfl⟩).written
  · intro instruction after event he
    have hc := Completes.of_execute he
    exact ⟨hc.settle_eq hm, hc.settle_eq_self hm⟩
  · intro hd
    refine machine.step_steps.memory_eq hm ?_
    intro other hf
    exact hd (hf.eq_of_word hw).1.symm

/-- A machine that has loaded the greatest word, is about to add it once more, and then to print the
sum. -/
def doubling : Machine :=
  (({} : Machine).load (.ofFn fun a =>
    if a.val = 0 then 599 else if a.val = 1 then 199 else if a.val = 2 then 902
    else 999)).step.machine

/-- The sum wraps round to -1, which is printed as a minus sign, the digit one and a line feed. -/
theorem doubling_step :
    doubling.accumulator = 999 ∧ doubling.step.result = .ok () ∧
      doubling.step.machine = { doubling with pc := 2, accumulator := -1 } ∧
      doubling.step.machine.step.result = .ok () ∧
      doubling.step.machine.step.machine.outbox.written = [45, 49, 10] := by
  have h : Reachable doubling := .call (.call (.new [] {}) (.load _)) .step
  have hh : doubling.halted = false := by decide +kernel
  have hw : doubling.memory.read? doubling.pc =
      some (100 * ((1 : Nat) : Int) + ((⟨99, by decide⟩ : Address).val : Int)) := by
    decide +kernel
  have hs : (-1 : Int) ≡
      doubling.accumulator + doubling.memory.get ⟨99, by decide⟩ [ZMOD 1999] := by
    decide +kernel
  obtain ⟨hok, hadd⟩ := ((h.step_plain hh hw).1 _).mp (.add ⟨by decide, by decide⟩ hs)
  have hpc : (doubling.pc + 1) % 100 = 2 := by decide +kernel
  rw [hpc] at hadd
  have h' := h.call .step
  rw [hadd] at h' ⊢
  have hw' : doubling.memory.read? 2 =
      some (100 * ((9 : Nat) : Int) + ((⟨2, by decide⟩ : Address).val : Int)) := by
    decide +kernel
  have hd : doubling.outbox.device doubling.outbox.attempts = .accepted := by decide +kernel
  have ht : DecimalText [45, 49] (-((1 : Nat) : Int)) :=
    .negative ⟨⟨by decide, by decide +kernel⟩, rfl, by decide⟩ (by decide)
  obtain ⟨hok', hout⟩ := ((h'.step_plain hh hw').1 _).mp (.out rfl hd (.line ht))
  refine ⟨by decide +kernel, hok, rfl, hok', ?_⟩
  rw [hout]
  decide +kernel

end Machine

end LittleMan
