import LittleMan.Proofs.Assembly.Fitting
import LittleMan.Proofs.Machine.Fault
import LittleMan.Proofs.Machine.PlainStep
import LittleMan.Proofs.Machine.Run

/-! Assembled programs on the machine: a line does what its mnemonic says, at the address that its
operand means. -/

namespace LittleMan

namespace Machine

/-- What an operation makes of a machine, and how it ends. Arithmetic is modulo 1999, and only a
stream can make an operation fail. -/
inductive Performs (machine : Machine) (address : Address) :
    LittleMan.Operation → Machine → Except Fault Unit → Prop
  | add {sum : Int} (hs : AtRest sum)
      (hc : sum ≡ machine.accumulator + machine.memory.get address [ZMOD 1999]) :
      Performs machine address .add
        { machine with pc := (machine.pc + 1) % 100, accumulator := sum } (.ok ())
  | sub {difference : Int} (hs : AtRest difference)
      (hc : difference ≡ machine.accumulator - machine.memory.get address [ZMOD 1999]) :
      Performs machine address .sub
        { machine with pc := (machine.pc + 1) % 100, accumulator := difference } (.ok ())
  | sta : Performs machine address .sta
      { machine with
        pc := (machine.pc + 1) % 100
        memory := machine.memory.set address machine.accumulator } (.ok ())
  | lda : Performs machine address .lda
      { machine with
        pc := (machine.pc + 1) % 100
        accumulator := machine.memory.get address } (.ok ())
  | bra : Performs machine address .bra { machine with pc := address.val } (.ok ())
  | brzTaken (h : machine.accumulator = 0) :
      Performs machine address .brz { machine with pc := address.val } (.ok ())
  | brzPassed (h : machine.accumulator ≠ 0) :
      Performs machine address .brz { machine with pc := (machine.pc + 1) % 100 } (.ok ())
  | brpTaken (h : 0 ≤ machine.accumulator) :
      Performs machine address .brp { machine with pc := address.val } (.ok ())
  | brpPassed (h : machine.accumulator < 0) :
      Performs machine address .brp { machine with pc := (machine.pc + 1) % 100 } (.ok ())
  | inp {value word : Int} {inbox : List UInt8} (hv : Offers machine.inbox value)
      (hs : AtRest word) (hc : word ≡ value [ZMOD 1999]) (hu : UsesLine machine.inbox inbox) :
      Performs machine address .inp
        { machine with pc := (machine.pc + 1) % 100, accumulator := word, inbox := inbox } (.ok ())
  | inpFailed {inbox : List UInt8} (hv : ¬ ∃ value, Offers machine.inbox value)
      (hu : UsesLine machine.inbox inbox) :
      Performs machine address .inp { machine with inbox := inbox } (.error .inputOutput)
  | out {line : List UInt8} (hd : machine.outbox.device machine.outbox.attempts = .accepted)
      (hl : PrintedLine line machine.accumulator) :
      Performs machine address .out
        { machine with
          pc := (machine.pc + 1) % 100
          outbox :=
            { machine.outbox with
              kept := line :: machine.outbox.kept
              attempts := machine.outbox.attempts + 1 } } (.ok ())
  | outFailed {line : List UInt8} {outbox : Outbox} (hl : PrintedLine line machine.accumulator)
      (ho : Undelivered machine.outbox line outbox) :
      Performs machine address .out { machine with outbox := outbox } (.error .inputOutput)
  | hlt : Performs machine address .hlt
      { machine with pc := (machine.pc + 1) % 100, halted := true } (.ok ())
  | cob : Performs machine address .cob
      { machine with pc := (machine.pc + 1) % 100, halted := true } (.ok ())

variable {machine after : Machine} {address : Address} {operation : LittleMan.Operation}
  {result : Except Fault Unit}

theorem Performs.ne_invalidCommand (h : machine.Performs address operation after result) :
    result ≠ .error .invalidCommand := by
  intro he
  subst he
  cases h

theorem Performs.of_plain (digit : Nat) (operand : Address) (hm : machine.InRange)
    (hh : machine.halted = false)
    (hw : machine.memory.read? machine.pc = some (100 * (digit : Int) + (operand.val : Int)))
    (hp : machine.Plain operand digit after)
    (h : machine.Performs address operation after (.ok ())) :
    machine.Performs address operation machine.step.machine machine.step.result := by
  obtain ⟨hr, he⟩ := (hm.step_iff_plain hh hw).1 hp
  rw [hr, he]
  exact h

theorem Prevented.step_leaves {fault : Fault} (h : machine.Prevented fault)
    (hm : machine.InRange) :
    machine.step.result = .error fault ∧ machine.Leaves fault machine.step.machine := by
  have hr := hm.step_error_iff.2 h
  have hs := machine.step_steps
  rw [hr] at hs
  exact ⟨hr, hs.leaves⟩

theorem Leaves.performs_inp (h : machine.Leaves .inputOutput after)
    (hw : machine.memory.read? machine.pc = some 901)
    (hv : ¬ ∃ value, Offers machine.inbox value) :
    machine.Performs address .inp after (.error .inputOutput) := by
  cases h with
  | same hf => exact absurd rfl hf
  | input _ hi => exact .inpFailed hv hi
  | output hw' => rw [hw] at hw'; cases hw'

theorem Leaves.performs_out (h : machine.Leaves .inputOutput after)
    (hw : machine.memory.read? machine.pc = some 902) :
    machine.Performs address .out after (.error .inputOutput) := by
  cases h with
  | same hf => exact absurd rfl hf
  | input hw' => rw [hw] at hw'; cases hw'
  | output _ hl ho => exact .outFailed hl ho

theorem InRange.performs_inp (hm : machine.InRange) (hh : machine.halted = false)
    (hw : machine.memory.read? machine.pc = some 901) :
    machine.Performs address .inp machine.step.machine machine.step.result := by
  by_cases hv : ∃ value, Offers machine.inbox value
  · obtain ⟨value, hv⟩ := hv
    apply Performs.of_plain 9 ⟨1, by decide⟩ hm hh hw
    · exact .inp rfl hv (wrap_atRest value) (wrap_modEq value) (usesLine_afterLine _)
    · exact .inp hv (wrap_atRest value) (wrap_modEq value) (usesLine_afterLine _)
  · obtain ⟨hr, hl⟩ := (Prevented.input hh hw hv).step_leaves hm
    rw [hr]
    exact hl.performs_inp hw hv

theorem InRange.performs_out (hm : machine.InRange) (hh : machine.halted = false)
    (hw : machine.memory.read? machine.pc = some 902) :
    machine.Performs address .out machine.step.machine machine.step.result := by
  by_cases hd : machine.outbox.device machine.outbox.attempts = .accepted
  · apply Performs.of_plain 9 ⟨2, by decide⟩ hm hh hw
    · exact .out rfl hd (printedLine_outputLine _)
    · exact .out hd (printedLine_outputLine _)
  · obtain ⟨hr, hl⟩ := (Prevented.output hh hw hd).step_leaves hm
    rw [hr]
    exact hl.performs_out hw

/-- A step on the word of an operation performs the operation. -/
theorem InRange.performs (hm : machine.InRange) (hh : machine.halted = false)
    (hio : operation = .inp ∨ operation = .out → address.val = 0)
    (hw : machine.memory.read? machine.pc = some (operation.code + (address.val : Int))) :
    machine.Performs address operation machine.step.machine machine.step.result := by
  cases operation with
  | add =>
    exact .of_plain 1 address hm hh hw (.add (wrap_atRest _) (wrap_modEq _))
      (.add (wrap_atRest _) (wrap_modEq _))
  | sub =>
    exact .of_plain 2 address hm hh hw (.sub (wrap_atRest _) (wrap_modEq _))
      (.sub (wrap_atRest _) (wrap_modEq _))
  | sta => exact .of_plain 3 address hm hh hw .sta .sta
  | lda => exact .of_plain 5 address hm hh hw .lda .lda
  | bra => exact .of_plain 6 address hm hh hw .bra .bra
  | brz =>
    by_cases ha : machine.accumulator = 0
    · exact .of_plain 7 address hm hh hw (.brzTaken ha) (.brzTaken ha)
    · exact .of_plain 7 address hm hh hw (.brzPassed ha) (.brzPassed ha)
  | brp =>
    by_cases ha : 0 ≤ machine.accumulator
    · exact .of_plain 8 address hm hh hw (.brpTaken ha) (.brpTaken ha)
    · have hn := Int.not_le.1 ha
      exact .of_plain 8 address hm hh hw (.brpPassed hn) (.brpPassed hn)
  | inp =>
    rw [hio (.inl rfl)] at hw
    exact hm.performs_inp hh hw
  | out =>
    rw [hio (.inr rfl)] at hw
    exact hm.performs_out hh hw
  | hlt => exact .of_plain 0 address hm hh hw .hlt .hlt
  | cob => exact .of_plain 0 address hm hh hw .hlt .cob

end Machine

open Machine Assembly

theorem Operation.word_bounds {operation : Operation} {address : Address}
    (hio : operation = .inp ∨ operation = .out → address.val = 0) :
    0 ≤ operation.code + (address.val : Int) ∧ operation.code + (address.val : Int) ≤ 999 := by
  have ha := address.isLt
  cases operation with
  | inp =>
    rw [hio (.inl rfl)]
    decide
  | out =>
    rw [hio (.inr rfl)]
    decide
  | _ =>
    simp only [code]
    omega

theorem get_load (machine : Machine) {memory : Memory} {cell : Address}
    (h : AtRest (memory.get cell)) : (machine.load memory).memory.get cell = memory.get cell :=
  (memory.get_wrapped cell).trans (wrap_of_atRest h)

theorem afterSteps_load_inRange (machine : Machine) (memory : Memory) (n : Nat) :
    ((machine.load memory).afterSteps n).InRange :=
  (InRange.load machine memory).afterSteps n

/-- Whenever a machine that has loaded an assembled program comes to a line of it that still stands
in its cell, it performs the operation of that line at the one address that the line means. -/
theorem assemble_performs {capacity : Capacity} {source : String} {memory : Memory}
    (h : (assemble capacity source).result = .ok memory)
    (hfit : (statements (readSource source)).length ≤ 100) {cell : Address} {placed : Placed}
    (hk : (statements (readSource source))[cell.val]? = some placed) {operation : Operation}
    (hop : placed.statement.mnemonic = .op operation)
    (hio : operation = .inp ∨ operation = .out → placed.statement.operand = none) :
    ∃ address,
      (∀ other, Means (statements (readSource source)) placed.statement other ↔
        other = address) ∧
      ∀ (machine reached : Machine) (n : Nat), (machine.load memory).afterSteps n = reached →
        reached.halted = false → reached.pc = cell.val →
        reached.memory.get cell = (machine.load memory).memory.get cell →
        reached.Performs address operation reached.step.machine reached.step.result ∧
          reached.step.result ≠ .error .invalidCommand := by
  obtain ⟨address, hmeans, hword⟩ := exists_means h hfit hk hop
  refine ⟨address, hmeans, ?_⟩
  have hzero : operation = .inp ∨ operation = .out → address.val = 0 := by
    intro ho
    exact (means_iff_of_absent (hio ho)).1 ((hmeans address).2 rfl)
  intro machine reached n hn hh hp hc
  obtain ⟨hl, hu⟩ := Operation.word_bounds hzero
  have hrest : AtRest (memory.get cell) := by
    rw [hword]
    exact ⟨by omega, hu⟩
  have hm : reached.InRange := by
    rw [← hn]
    exact afterSteps_load_inRange machine memory n
  have hw : reached.memory.read? reached.pc =
      some (operation.code + (address.val : Int)) := by
    rw [hp, Memory.read?_of_lt cell.isLt, ← hword, ← get_load machine hrest, ← hc]
  have hx := hm.performs hh hzero hw
  exact ⟨hx, hx.ne_invalidCommand⟩

/-- A program that prints numbers until it is given a zero. -/
def untilZero : List Char :=
  ['l', 'o', 'o', 'p', ' ', 'I', 'N', 'P', '\n',
    'B', 'R', 'Z', ' ', 'e', 'n', 'd', '\n',
    'O', 'U', 'T', '\n',
    'B', 'R', 'A', ' ', 'l', 'o', 'o', 'p', '\n',
    'e', 'n', 'd', ' ', 'H', 'L', 'T']

/-- On a zero the second line leads to the fifth, which defines its label. On a seven the third line
prints the digit seven and a line feed. -/
theorem untilZero_performs :
    ∃ memory, (assemble .strict (.ofList untilZero)).result = .ok memory ∧
      (∀ reached, (({ inbox := [48, 10] } : Machine).load memory).afterSteps 1 = reached →
        reached.Performs ⟨4, by decide⟩ .brz reached.step.machine reached.step.result) ∧
      ∀ reached, (({ inbox := [55, 10] } : Machine).load memory).afterSteps 2 = reached →
        reached.Performs ⟨0, by decide⟩ .out reached.step.machine reached.step.result ∧
          reached.step.result = .ok () ∧ reached.step.machine.outbox.written = [55, 10] := by
  let memory := Memory.ofFn fun address =>
    [901, 704, 902, 600, 0].getD address.val 0
  have h : (assemble .strict (.ofList untilZero)).result = .ok memory := by
    rw [assemble, String.toList_ofList]
    decide +kernel
  have hcode : statements (readSource (.ofList untilZero)) =
      [⟨1, ⟨some "loop", .op .inp, none⟩⟩, ⟨2, ⟨none, .op .brz, some "end"⟩⟩,
        ⟨3, ⟨none, .op .out, none⟩⟩, ⟨4, ⟨none, .op .bra, some "loop"⟩⟩,
        ⟨5, ⟨some "end", .op .hlt, none⟩⟩] := by
    rw [readSource, String.toList_ofList]
    decide +kernel
  have hfit : (statements (readSource (.ofList untilZero))).length ≤ 100 := by
    rw [hcode]
    decide
  refine ⟨memory, h, ?_, ?_⟩
  · have hk : (statements (readSource (.ofList untilZero)))[(⟨1, by decide⟩ : Address).val]? =
        some ⟨2, ⟨none, .op .brz, some "end"⟩⟩ := by
      rw [hcode]
      rfl
    obtain ⟨address, hmeans, hperforms⟩ := assemble_performs h hfit hk rfl (by decide)
    have ha : (⟨4, by decide⟩ : Address) = address := by
      apply (hmeans _).1
      rw [hcode]
      exact .label rfl ⟨_, rfl, rfl⟩
    subst ha
    rintro reached rfl
    exact (hperforms _ _ 1 rfl (by decide +kernel) (by decide +kernel) (by decide +kernel)).1
  · have hk : (statements (readSource (.ofList untilZero)))[(⟨2, by decide⟩ : Address).val]? =
        some ⟨3, ⟨none, .op .out, none⟩⟩ := by
      rw [hcode]
      rfl
    obtain ⟨address, hmeans, hperforms⟩ := assemble_performs h hfit hk rfl fun _ => rfl
    have ha : (⟨0, by decide⟩ : Address) = address := (hmeans _).1 (.absent rfl rfl)
    subst ha
    rintro reached rfl
    refine ⟨?_, by decide +kernel, by decide +kernel⟩
    exact (hperforms _ _ 2 rfl (by decide +kernel) (by decide +kernel) (by decide +kernel)).1

end LittleMan
