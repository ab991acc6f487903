import LittleMan.Machine.Step

/-! What a step of the machine can do: one case for each way that it ends, with the machine that it
leaves. -/

namespace LittleMan

theorem decode_eq_some_iff {word : Int} {digit : Nat} {operand : Address} :
    decode word = some (digit, operand) ↔
      digit ≤ 9 ∧ word = 100 * (digit : Int) + (operand.val : Int) := by
  rw [decode]
  constructor
  · intro h
    split at h
    · obtain ⟨rfl, rfl⟩ := Prod.mk.inj (Option.some.inj h)
      constructor
      · omega
      · change word = 100 * ((word.toNat / 100 : Nat) : Int) + ((word.toNat % 100 : Nat) : Int)
        omega
    · cases h
  · intro hx
    obtain ⟨hd, rfl⟩ := hx
    have ho := operand.isLt
    rw [if_pos (by omega), Option.some_inj, Prod.mk.injEq, Fin.ext_iff]
    exact ⟨by omega, by change _ % 100 = _; omega⟩

namespace Machine

/-- The machine has not halted, and its next word is that of an instruction with an operand. -/
structure Fetches (machine : Machine) (instruction : Instruction) (operand : Address) : Prop where
  running : machine.halted = false
  word : machine.memory.read? machine.pc =
    some (100 * (instruction.digit : Int) + (operand.val : Int))

instance (machine : Machine) (instruction : Instruction) (operand : Address) :
    Decidable (machine.Fetches instruction operand) :=
  decidable_of_iff (machine.halted = false ∧ machine.memory.read? machine.pc =
      some (100 * (instruction.digit : Int) + (operand.val : Int)))
    ⟨fun h => ⟨h.1, h.2⟩, fun h => ⟨h.running, h.word⟩⟩

/-- What an instruction leaves when it is completed, before the machine moves on and settles. -/
inductive Completes (machine : Machine) (operand : Address) : Instruction → Machine → Prop
  | hlt : Completes machine operand .hlt { machine with halted := true }
  | add : Completes machine operand .add
      { machine with accumulator := machine.accumulator + machine.memory.get operand }
  | sub : Completes machine operand .sub
      { machine with accumulator := machine.accumulator - machine.memory.get operand }
  | sta : Completes machine operand .sta
      { machine with memory := machine.memory.set operand machine.accumulator }
  | lda : Completes machine operand .lda
      { machine with accumulator := machine.memory.get operand }
  | bra : Completes machine operand .bra (machine.branch operand)
  | brzTaken (h : machine.accumulator = 0) : Completes machine operand .brz (machine.branch operand)
  | brzPassed (h : machine.accumulator ≠ 0) : Completes machine operand .brz machine
  | brpTaken (h : 0 ≤ machine.accumulator) : Completes machine operand .brp (machine.branch operand)
  | brpPassed (h : machine.accumulator < 0) : Completes machine operand .brp machine
  | inp {value : Int} (ho : operand.val = 1) (hv : nextInteger machine.inbox = .ok value) :
      Completes machine operand .io
        { machine with inbox := afterLine machine.inbox, accumulator := wrap value }
  | out (ho : operand.val = 2) (hr : machine.outbox.refusal? = none) :
      Completes machine operand .io
        { machine with outbox := machine.outbox.deliver (outputLine machine.accumulator) }
  | ignored (h1 : operand.val ≠ 1) (h2 : operand.val ≠ 2) : Completes machine operand .io machine

/-- What an instruction leaves when it fails. -/
inductive Fails (machine : Machine) (operand : Address) : Instruction → Machine → Prop
  | inp {error : InputError} (ho : operand.val = 1)
      (hv : nextInteger machine.inbox = .error error) :
      Fails machine operand .io { machine with inbox := afterLine machine.inbox }
  | out {reason : String} (ho : operand.val = 2) (hr : machine.outbox.refusal? = some reason) :
      Fails machine operand .io
        { machine with outbox := machine.outbox.deliver (outputLine machine.accumulator) }

/-- How a step goes: the machine that it leaves, and its result. -/
inductive Steps (machine : Machine) : Machine → Except Fault Unit → Prop
  | completed {instruction : Instruction} {operand : Address} {after : Machine}
      (hf : machine.Fetches instruction operand)
      (hc : machine.Completes operand instruction after) :
      Steps machine (after.advance.settle operand) (.ok ())
  | failed {instruction : Instruction} {operand : Address} {after : Machine}
      (hf : machine.Fetches instruction operand) (hc : machine.Fails operand instruction after) :
      Steps machine after (.error .inputOutput)
  | halted (hh : machine.halted = true) : Steps machine machine (.error .machineHalted)
  | outOfBounds (hh : machine.halted = false) (hw : machine.memory.read? machine.pc = none) :
      Steps machine machine (.error .programCounterOutOfBounds)
  | notDecoded {word : Int} (hh : machine.halted = false)
      (hw : machine.memory.read? machine.pc = some word) (hd : decode word = none) :
      Steps machine machine (.error .invalidCommand)
  | unknownDigit {word : Int} {digit : Nat} {operand : Address} (hh : machine.halted = false)
      (hw : machine.memory.read? machine.pc = some word) (hd : decode word = some (digit, operand))
      (hi : Instruction.ofDigit? digit = none) :
      Steps machine machine (.error .invalidCommand)

/-- An effect on a machine that is changed once more. -/
def Effect.map (change : Machine → Machine) : Effect → Effect
  | .completed machine event => .completed (change machine) event
  | .failed machine event => .failed (change machine) event

def Stepped.map (change : Machine → Machine) (stepped : Stepped) : Stepped :=
  { stepped with machine := change stepped.machine }

variable {machine other after : Machine} {instruction : Instruction} {operand : Address}
  {event : Event} {result : Except Fault Unit} {change : Machine → Machine}

theorem execute_receive (ho : operand.val = 1) : machine.execute .io operand = machine.receive := by
  simp only [execute, ho]

theorem execute_send (ho : operand.val = 2) : machine.execute .io operand = machine.send := by
  simp only [execute, ho]

theorem execute_ignored (h1 : operand.val ≠ 1) (h2 : operand.val ≠ 2) :
    machine.execute .io operand = .completed machine (.ignored operand) := by
  simp only [execute]

/-- An instruction completes or fails, in the one way that its relation gives. -/
theorem execute_cases (machine : Machine) (instruction : Instruction) (operand : Address) :
    (∃ after event, machine.execute instruction operand = .completed after event ∧
        machine.Completes operand instruction after) ∨
      ∃ after event, machine.execute instruction operand = .failed after event ∧
        machine.Fails operand instruction after := by
  cases instruction with
  | hlt => exact .inl ⟨_, _, rfl, .hlt⟩
  | add => exact .inl ⟨_, _, rfl, .add⟩
  | sub => exact .inl ⟨_, _, rfl, .sub⟩
  | sta => exact .inl ⟨_, _, rfl, .sta⟩
  | lda => exact .inl ⟨_, _, rfl, .lda⟩
  | bra => exact .inl ⟨_, _, rfl, .bra⟩
  | brz =>
    refine .inl ⟨_, _, rfl, ?_⟩
    split
    · exact .brzTaken ‹_›
    · exact .brzPassed ‹_›
  | brp =>
    refine .inl ⟨_, _, rfl, ?_⟩
    split
    · exact .brpTaken ‹_›
    · exact .brpPassed (Int.not_le.mp ‹_›)
  | io =>
    by_cases h1 : operand.val = 1
    · rw [execute_receive h1, receive]
      cases hv : nextInteger machine.inbox with
      | ok value => exact .inl ⟨_, _, rfl, .inp h1 hv⟩
      | error error => exact .inr ⟨_, _, rfl, .inp h1 hv⟩
    · by_cases h2 : operand.val = 2
      · rw [execute_send h2, send]
        cases hr : machine.outbox.refusal? with
        | none => exact .inl ⟨_, _, rfl, .out h2 hr⟩
        | some reason => exact .inr ⟨_, _, rfl, .out h2 hr⟩
      · rw [execute_ignored h1 h2]
        exact .inl ⟨_, _, rfl, .ignored h1 h2⟩

theorem Completes.of_execute (h : machine.execute instruction operand = .completed after event) :
    machine.Completes operand instruction after := by
  obtain ⟨_, _, he, hc⟩ | ⟨_, _, he, -⟩ := machine.execute_cases instruction operand
  · rw [h] at he
    cases he
    exact hc
  · rw [h] at he
    cases he

theorem Completes.execute (h : machine.Completes operand instruction after) :
    ∃ event, machine.execute instruction operand = .completed after event := by
  cases h with
  | brzTaken h =>
    exact ⟨.branchedIfZero operand machine.accumulator, by simp only [Machine.execute, if_pos h]⟩
  | brzPassed h =>
    exact ⟨.branchedIfZero operand machine.accumulator, by simp only [Machine.execute, if_neg h]⟩
  | brpTaken h =>
    exact ⟨.branchedIfPositive operand machine.accumulator,
      by simp only [Machine.execute, if_pos h]⟩
  | brpPassed h =>
    exact ⟨.branchedIfPositive operand machine.accumulator,
      by simp only [Machine.execute, if_neg (Int.not_le.mpr h)]⟩
  | @inp value ho hv =>
    exact ⟨.received (wrap value), by simp only [execute_receive ho, receive, hv]⟩
  | out ho hr =>
    exact ⟨.sent machine.accumulator, by simp only [execute_send ho, send, hr]⟩
  | ignored h1 h2 => exact ⟨_, execute_ignored h1 h2⟩
  | _ => exact ⟨_, rfl⟩

theorem Fetches.of_decode {word : Int} {digit : Nat} (hh : machine.halted = false)
    (hw : machine.memory.read? machine.pc = some word) (hd : decode word = some (digit, operand))
    (hi : Instruction.ofDigit? digit = some instruction) : machine.Fetches instruction operand := by
  obtain ⟨-, rfl⟩ := decode_eq_some_iff.mp hd
  refine ⟨hh, ?_⟩
  rw [hw, Instruction.digit_of_ofDigit? hi]

theorem Fetches.decode (h : machine.Fetches instruction operand) :
    decode (100 * (instruction.digit : Int) + (operand.val : Int)) =
      some (instruction.digit, operand) := by
  refine decode_eq_some_iff.mpr ⟨?_, rfl⟩
  cases instruction <;> decide

theorem step_eq_of_completed (hf : machine.Fetches instruction operand)
    (he : machine.execute instruction operand = .completed after event) :
    machine.step = ⟨after.advance.settle operand,
      [.fetched machine.pc instruction operand, event], .ok ()⟩ := by
  simp [step, hf.running, hf.word, hf.decode, he]

theorem step_eq_of_failed (hf : machine.Fetches instruction operand)
    (he : machine.execute instruction operand = .failed after event) :
    machine.step = ⟨after, [.fetched machine.pc instruction operand, event],
      .error .inputOutput⟩ := by
  simp [step, hf.running, hf.word, hf.decode, he]

/-- A machine that fetches no instruction stays as it is, and what its step reports depends on nothing
but what it would fetch. -/
theorem step_of_not_fetches (h : ∀ instruction operand, ¬ machine.Fetches instruction operand)
    (hh : other.halted = machine.halted) (hp : other.pc = machine.pc)
    (hw : machine.halted = false →
      other.memory.read? other.pc = machine.memory.read? machine.pc) :
    ∃ events fault, machine.step = ⟨machine, events, .error fault⟩ ∧
      other.step = ⟨other, events, .error fault⟩ := by
  rw [step, step]
  cases hr : machine.halted with
  | true =>
    rw [hr] at hh
    exact ⟨_, _, rfl, by rw [hh]; rfl⟩
  | false =>
    rw [hr] at hh
    rw [hw hr, hh]
    cases hread : machine.memory.read? machine.pc with
    | none => exact ⟨_, _, rfl, rfl⟩
    | some word =>
      cases hd : decode word with
      | none => exact ⟨_, _, by simp only [hd]; rfl, by simp only [hd]; rfl⟩
      | some decoded =>
        obtain ⟨digit, operand⟩ := decoded
        cases hi : Instruction.ofDigit? digit with
        | none => exact ⟨_, _, by simp only [hd, hi]; rfl, by simp only [hd, hi, hp]; rfl⟩
        | some instruction => exact absurd (Fetches.of_decode hr hread hd hi) (h _ _)

/-- A change that neither the next word nor its execution takes notice of can as well be made after
the step. -/
theorem step_map (hh : (change machine).halted = machine.halted)
    (hp : (change machine).pc = machine.pc) (hm : (change machine).memory = machine.memory)
    (hs : ∀ (after : Machine) (operand : Address),
      change (after.advance.settle operand) = (change after).advance.settle operand)
    (he : ∀ instruction operand, machine.Fetches instruction operand →
      (change machine).execute instruction operand =
        (machine.execute instruction operand).map change) :
    (change machine).step = machine.step.map change := by
  have hw : (change machine).memory.read? (change machine).pc =
      machine.memory.read? machine.pc := by rw [hp, hm]
  by_cases hx : ∃ instruction operand, machine.Fetches instruction operand
  · obtain ⟨instruction, operand, hf⟩ := hx
    have hg : (change machine).Fetches instruction operand :=
      ⟨hh.trans hf.running, hw.trans hf.word⟩
    have he := he instruction operand hf
    cases hx : machine.execute instruction operand with
    | completed after event =>
      rw [hx] at he
      rw [step_eq_of_completed hf hx, step_eq_of_completed hg he, hp, Stepped.map, hs]
    | failed after event =>
      rw [hx] at he
      rw [step_eq_of_failed hf hx, step_eq_of_failed hg he, hp]
      rfl
  · have hn (instruction operand) : ¬ machine.Fetches instruction operand :=
      fun hf => hx ⟨instruction, operand, hf⟩
    obtain ⟨events, fault, he, he'⟩ := step_of_not_fetches hn hh hp fun _ => hw
    rw [he, he']
    rfl

theorem step_steps (machine : Machine) :
    machine.Steps machine.step.machine machine.step.result := by
  rw [step]
  split
  · exact .halted ‹_›
  · have hh : machine.halted = false := Bool.eq_false_iff.mpr ‹_›
    split
    · exact .outOfBounds hh ‹_›
    · split
      · exact .notDecoded hh ‹_› ‹_›
      · next digit operand hd =>
        split
        · exact .unknownDigit hh ‹_› hd ‹_›
        · next instruction hi =>
          have hf := Fetches.of_decode hh ‹_› hd hi
          obtain ⟨after, event, he, hc⟩ | ⟨after, event, he, hc⟩ :=
            machine.execute_cases instruction operand
          · rw [he]
            exact .completed hf hc
          · rw [he]
            exact .failed hf hc

theorem Steps.completed_of_ok (h : machine.Steps after (.ok ())) :
    ∃ instruction operand left, machine.Fetches instruction operand ∧
      machine.Completes operand instruction left ∧ after = left.advance.settle operand := by
  cases h with
  | completed hf hc => exact ⟨_, _, _, hf, hc, rfl⟩

end Machine

end LittleMan
