import LittleMan.Proofs.Machine.PlainStep
import LittleMan.Proofs.Machine.Run

/-! Running a program by hand: one rule for each instruction, to be applied from the first line on until
the machine halts. -/

namespace LittleMan

/-- The memory that holds some words from its first cell on, and zeros behind them. -/
def Memory.ofWords (words : List Int) : Memory := .ofFn fun a => words.getD a.val 0

theorem Memory.get_ofWords (words : List Int) (a : Address) :
    (ofWords words).get a = words.getD a.val 0 :=
  get_ofFn _ a

theorem Memory.set_ofWords {words : List Int} {a : Address} (h : a.val < words.length)
    (word : Int) : (ofWords words).set a word = ofWords (words.set a.val word) := by
  ext b
  rw [get_set, get_ofWords, get_ofWords, List.getD_eq_getElem?_getD, List.getD_eq_getElem?_getD,
    List.getElem?_set, if_pos h]
  simp only [Fin.ext_iff]
  split <;> rfl

theorem Memory.read?_ofWords {words : List Int} {n : Nat} {word : Int} (hn : n < 100)
    (h : words[n]? = some word) : (ofWords words).read? n = some word := by
  rw [read?_of_lt hn, get_ofWords, List.getD_eq_getElem?_getD, h]
  rfl

namespace Machine

/-- If a machine is in range, its steps succeed until it has halted, and then it has a property. -/
def HaltsWith (machine : Machine) (P : Machine → Prop) : Prop :=
  machine.InRange → ∃ n, machine.FailsAfter n .machineHalted ∧ P (machine.afterSteps n)

variable {machine after : Machine} {P : Machine → Prop} {pc : Nat} {accumulator value : Int}
  {memory stored : Memory} {inbox : List UInt8} {outbox : Outbox}

theorem HaltsWith.run (h : machine.HaltsWith P) (hm : machine.InRange) :
    ∃ fuel finished, machine.run fuel = some finished ∧ finished.result = .ok () ∧
      P finished.machine := by
  obtain ⟨n, hf, hp⟩ := h hm
  have hs := (machine.afterSteps n).step_steps
  rw [hf.fail] at hs
  refine ⟨n + 1, _, hf.runWith_eq (Nat.lt_succ_self n), rfl, ?_⟩
  rw [afterSteps_succ_last, hs.of_machineHalted.2]
  exact hp

theorem HaltsWith.of_halted (hh : machine.halted = true) (hp : P machine) : machine.HaltsWith P :=
  fun _ => ⟨0, failsAfter_of_halted hh, hp⟩

/-- A plain step on the way. -/
theorem HaltsWith.of_plain (h : after.HaltsWith P) (digit : Nat) (operand : Address)
    (hh : machine.halted = false)
    (hw : machine.memory.read? machine.pc = some (100 * (digit : Int) + (operand.val : Int)))
    (hp : machine.Plain operand digit after) : machine.HaltsWith P := by
  intro hm
  obtain ⟨hr, he⟩ := (hm.step_iff_plain hh hw).1 hp
  have hs := machine.step_steps.inRange hm
  rw [he] at hs
  obtain ⟨n, hf, hx⟩ := h hs
  rw [← he] at hf hx
  exact ⟨n + 1, failsAfter_succ.2 ⟨hr, hf⟩, hx⟩

namespace HaltsWith

theorem hlt (operand : Address) (hw : memory.read? pc = some (0 + (operand.val : Int)))
    (h : P ⟨(pc + 1) % 100, accumulator, true, memory, inbox, outbox⟩) :
    HaltsWith ⟨pc, accumulator, false, memory, inbox, outbox⟩ P :=
  (of_halted rfl h).of_plain 0 operand rfl hw .hlt

theorem add (operand : Address) (hw : memory.read? pc = some (100 + (operand.val : Int)))
    (hv : memory.get operand = value)
    (h : HaltsWith ⟨(pc + 1) % 100, wrap (accumulator + value), false, memory, inbox, outbox⟩ P) :
    HaltsWith ⟨pc, accumulator, false, memory, inbox, outbox⟩ P := by
  subst hv
  exact h.of_plain 1 operand rfl hw (.add (wrap_atRest _) (wrap_modEq _))

theorem sub (operand : Address) (hw : memory.read? pc = some (200 + (operand.val : Int)))
    (hv : memory.get operand = value)
    (h : HaltsWith ⟨(pc + 1) % 100, wrap (accumulator - value), false, memory, inbox, outbox⟩ P) :
    HaltsWith ⟨pc, accumulator, false, memory, inbox, outbox⟩ P := by
  subst hv
  exact h.of_plain 2 operand rfl hw (.sub (wrap_atRest _) (wrap_modEq _))

theorem sta (operand : Address) (hw : memory.read? pc = some (300 + (operand.val : Int)))
    (hs : memory.set operand accumulator = stored)
    (h : HaltsWith ⟨(pc + 1) % 100, accumulator, false, stored, inbox, outbox⟩ P) :
    HaltsWith ⟨pc, accumulator, false, memory, inbox, outbox⟩ P := by
  subst hs
  exact h.of_plain 3 operand rfl hw .sta

theorem lda (operand : Address) (hw : memory.read? pc = some (500 + (operand.val : Int)))
    (hv : memory.get operand = value)
    (h : HaltsWith ⟨(pc + 1) % 100, value, false, memory, inbox, outbox⟩ P) :
    HaltsWith ⟨pc, accumulator, false, memory, inbox, outbox⟩ P := by
  subst hv
  exact h.of_plain 5 operand rfl hw .lda

theorem bra (operand : Address) (hw : memory.read? pc = some (600 + (operand.val : Int)))
    (h : HaltsWith ⟨operand.val, accumulator, false, memory, inbox, outbox⟩ P) :
    HaltsWith ⟨pc, accumulator, false, memory, inbox, outbox⟩ P :=
  h.of_plain 6 operand rfl hw .bra

theorem brz_taken (operand : Address) (hw : memory.read? pc = some (700 + (operand.val : Int)))
    (ha : accumulator = 0)
    (h : HaltsWith ⟨operand.val, accumulator, false, memory, inbox, outbox⟩ P) :
    HaltsWith ⟨pc, accumulator, false, memory, inbox, outbox⟩ P :=
  h.of_plain 7 operand rfl hw (.brzTaken ha)

theorem brz_passed (operand : Address) (hw : memory.read? pc = some (700 + (operand.val : Int)))
    (ha : accumulator ≠ 0)
    (h : HaltsWith ⟨(pc + 1) % 100, accumulator, false, memory, inbox, outbox⟩ P) :
    HaltsWith ⟨pc, accumulator, false, memory, inbox, outbox⟩ P :=
  h.of_plain 7 operand rfl hw (.brzPassed ha)

theorem inp (hw : memory.read? pc = some 901) (hv : nextInteger inbox = .ok value)
    (h : HaltsWith ⟨(pc + 1) % 100, wrap value, false, memory, afterLine inbox, outbox⟩ P) :
    HaltsWith ⟨pc, accumulator, false, memory, inbox, outbox⟩ P :=
  h.of_plain 9 ⟨1, by decide⟩ rfl hw
    (.inp rfl (nextInteger_eq_ok_iff.1 hv) (wrap_atRest _) (wrap_modEq _) (usesLine_afterLine _))

theorem out (hw : memory.read? pc = some 902) (hd : outbox.device outbox.attempts = .accepted)
    (h : HaltsWith ⟨(pc + 1) % 100, accumulator, false, memory, inbox,
      outbox.deliver (outputLine accumulator)⟩ P) :
    HaltsWith ⟨pc, accumulator, false, memory, inbox, outbox⟩ P := by
  rw [Outbox.deliver_of_accepted _ hd] at h
  exact h.of_plain 9 ⟨2, by decide⟩ rfl hw (.out rfl hd (printedLine_outputLine _))

end HaltsWith

end Machine

end LittleMan
