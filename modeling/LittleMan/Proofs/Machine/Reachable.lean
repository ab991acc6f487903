import LittleMan.Machine.Run
import LittleMan.Proofs.Machine.Step
import LittleMan.Proofs.Rest

/-! The machines that calls can lead to, and what holds of all of them. -/

namespace LittleMan.Machine

/-- What a machine can be called to do. -/
inductive Operation
  | load (image : Memory)
  | step
  | run
  | runWith
  | peek

/-- What a machine is once it has been called and the call has returned, well or not. -/
inductive Call (machine : Machine) : Operation → Machine → Prop
  | load (image : Memory) : Call machine (.load image) (machine.load image)
  | step : Call machine .step machine.step.machine
  | run {fuel : Nat} {finished : Finished Unit} (h : machine.run fuel = some finished) :
      Call machine .run finished.machine
  | runWith {σ : Type} {observe : σ → Sight → σ} {fuel : Nat} {observer : σ}
      {finished : Finished σ} (h : machine.runWith observe fuel observer = some finished) :
      Call machine .runWith finished.machine
  | peek : Call machine .peek machine

/-- The machines that any finite sequence of calls makes of a new one. -/
inductive Reachable : Machine → Prop
  | new (inbox : List UInt8) (outbox : Outbox) : Reachable { inbox, outbox }
  | call {machine after : Machine} {operation : Operation} (h : Reachable machine)
      (hc : machine.Call operation after) : Reachable after

/-- The program counter lies in the memory, and the machine is at rest. -/
structure InRange (machine : Machine) : Prop where
  pc : machine.pc < 100
  accumulator : AtRest machine.accumulator
  memory : machine.memory.AtRest

variable {machine after : Machine} {instruction : Instruction} {operand : Address}
  {operation : Operation}

theorem runWith_preserves {P : Machine → Prop}
    (hs : ∀ machine : Machine, P machine → P machine.step.machine) {σ : Type}
    {observe : σ → Sight → σ} {fuel : Nat} {observer : σ} {finished : Finished σ}
    (h : machine.runWith observe fuel observer = some finished) (hp : P machine) :
    P finished.machine := by
  induction fuel generalizing machine observer with
  | zero => cases h
  | succ fuel ih =>
    rw [runWith_succ] at h
    split at h
    · exact ih h (hs machine hp)
    · cases h
      exact hs machine hp

theorem Call.preserves {P : Machine → Prop}
    (hl : ∀ (machine : Machine) (image : Memory), P machine → P (machine.load image))
    (hs : ∀ machine : Machine, P machine → P machine.step.machine)
    (h : machine.Call operation after) (hp : P machine) : P after := by
  cases h with
  | load image => exact hl machine image hp
  | step => exact hs machine hp
  | run h => exact runWith_preserves hs h hp
  | runWith h => exact runWith_preserves hs h hp
  | peek => exact hp

theorem Reachable.induction {P : Machine → Prop}
    (hn : ∀ (inbox : List UInt8) (outbox : Outbox), P { inbox, outbox })
    (hl : ∀ (machine : Machine) (image : Memory), P machine → P (machine.load image))
    (hs : ∀ machine : Machine, P machine → P machine.step.machine)
    (h : Reachable machine) : P machine := by
  induction h with
  | new inbox outbox => exact hn inbox outbox
  | call _ hc ih => exact hc.preserves hl hs ih

theorem InRange.new (inbox : List UInt8) (outbox : Outbox) :
    InRange { inbox, outbox } :=
  ⟨Nat.zero_lt_succ 99, atRest_zero, Memory.zero_atRest⟩

theorem InRange.load (machine : Machine) (image : Memory) : (machine.load image).InRange :=
  ⟨Nat.zero_lt_succ 99, atRest_zero, image.wrapped_atRest⟩

/-- Moving on and settling bring back into range whatever an instruction left, its memory aside. -/
theorem InRange.settle (h : after.memory.AtRest) (operand : Address) :
    (after.advance.settle operand).InRange :=
  ⟨Nat.mod_lt _ (by decide), wrap_atRest _, h.set operand (wrap_atRest _)⟩

theorem Completes.memory_eq_of_ne_sta (h : machine.Completes operand instruction after)
    (hi : instruction ≠ .sta) : after.memory = machine.memory := by
  cases h with
  | sta => contradiction
  | _ => rfl

theorem Completes.memory_atRest (h : machine.Completes operand instruction after)
    (hm : machine.InRange) : after.memory.AtRest := by
  by_cases hi : instruction = .sta
  · subst hi
    cases h
    exact hm.memory.set operand hm.accumulator
  · rw [h.memory_eq_of_ne_sta hi]
    exact hm.memory

theorem Fails.inRange (h : machine.Fails operand instruction after) (hm : machine.InRange) :
    after.InRange := by
  cases h with
  | inp => exact ⟨hm.pc, hm.accumulator, hm.memory⟩
  | out => exact ⟨hm.pc, hm.accumulator, hm.memory⟩

theorem Steps.inRange {result : Except Fault Unit} (h : machine.Steps after result)
    (hm : machine.InRange) : after.InRange := by
  cases h with
  | completed _ hc => exact .settle (hc.memory_atRest hm) _
  | failed _ hc => exact hc.inRange hm
  | _ => exact hm

theorem Reachable.inRange (h : Reachable machine) : machine.InRange :=
  h.induction InRange.new (fun machine image _ => InRange.load machine image)
    fun machine hm => machine.step_steps.inRange hm

theorem InRange.read?_eq (h : machine.InRange) :
    machine.memory.read? machine.pc = some (machine.memory.get ⟨machine.pc, h.pc⟩) :=
  Memory.read?_of_lt h.pc

theorem Steps.ne_outOfBounds {result : Except Fault Unit} (h : machine.Steps after result)
    (hm : machine.InRange) : result ≠ .error .programCounterOutOfBounds := by
  intro he
  subst he
  cases h with
  | outOfBounds _ hw =>
    rw [hm.read?_eq] at hw
    cases hw

theorem Completes.accumulator_bounds (h : machine.Completes operand instruction after)
    (hm : machine.InRange) : -1998 ≤ after.accumulator ∧ after.accumulator ≤ 1998 := by
  have ha := hm.accumulator
  have hv := hm.memory operand
  cases h with
  | add => exact ⟨by dsimp only; omega, by dsimp only; omega⟩
  | sub => exact ⟨by dsimp only; omega, by dsimp only; omega⟩
  | lda => exact ⟨Int.le_trans (by decide) hv.1, Int.le_trans hv.2 (by decide)⟩
  | @inp value =>
    have hw := wrap_atRest value
    exact ⟨Int.le_trans (by decide) hw.1, Int.le_trans hw.2 (by decide)⟩
  | _ => exact ⟨Int.le_trans (by decide) ha.1, Int.le_trans ha.2 (by decide)⟩

theorem step_of_halted (h : machine.halted = true) : machine.step.machine = machine := by
  rw [step, if_pos h]

/-- A halted machine stays halted under every call but a load. -/
theorem Call.halted (hc : machine.Call operation after) (h : machine.halted = true) :
    after.halted = true ∨ ∃ image, operation = .load image := by
  have hs (machine : Machine) (h : machine.halted = true) : machine.step.machine.halted = true := by
    rw [step_of_halted h]
    exact h
  cases hc with
  | load image => exact .inr ⟨image, rfl⟩
  | step => exact .inl (hs machine h)
  | run hr => exact .inl (runWith_preserves hs hr h)
  | runWith hr => exact .inl (runWith_preserves hs hr h)
  | peek => exact .inl h

/-- Whatever a machine is called to do, and whether its steps succeed or not, it stays in range. So
its steps find their word in the memory, what an instruction leaves in the accumulator before it
settles, a sum and a difference included, fits in 32 bits, and only a load undoes a halt. -/
theorem Reachable.safe (h : Reachable machine) :
    (machine.pc < 100 ∧ AtRest machine.accumulator ∧ machine.memory.AtRest) ∧
      machine.step.result ≠ .error .programCounterOutOfBounds ∧
      (∃ word, machine.memory.read? machine.pc = some word) ∧
      (∀ instruction operand after event,
        machine.execute instruction operand = .completed after event →
          -1998 ≤ after.accumulator ∧ after.accumulator ≤ 1998 ∧
            low32 after.accumulator = after.accumulator) ∧
      ∀ operation after, machine.Call operation after →
        machine.halted = true → after.halted = false → ∃ image, operation = .load image := by
  have hm := h.inRange
  refine ⟨⟨hm.pc, hm.accumulator, hm.memory⟩, machine.step_steps.ne_outOfBounds hm,
    ⟨_, hm.read?_eq⟩, ?_, ?_⟩
  · intro instruction operand after event he
    obtain ⟨hl, hu⟩ := (Completes.of_execute he).accumulator_bounds hm
    exact ⟨hl, hu, low32_of_le hl hu⟩
  · intro operation after hc hh ha
    obtain hk | hi := hc.halted hh
    · rw [hk] at ha
      cases ha
    · exact hi

/-- A machine that has made an addition and halted. -/
def added : Machine :=
  (({} : Machine).load (.ofFn fun a => if a.val = 1 then 0 else 199)).step.machine.step.machine

theorem added_safe :
    added.pc = 2 ∧ added.accumulator = 199 ∧ added.halted = true ∧
      added.step.result ≠ .error .programCounterOutOfBounds ∧
      ∀ operation after, added.Call operation after →
        added.halted = true → after.halted = false → ∃ image, operation = .load image := by
  have h : Reachable added := .call (.call (.call (.new [] {}) (.load _)) .step) .step
  exact ⟨by decide +kernel, by decide +kernel, by decide +kernel, h.safe.2.1, h.safe.2.2.2.2⟩

end LittleMan.Machine
