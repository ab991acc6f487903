import LittleMan.Memory.Basic

/-! How the machine reads a word as an instruction. -/

namespace LittleMan

/-- What the machine does on a word, named by its opcode digit. -/
inductive Instruction
  | hlt
  | add
  | sub
  | sta
  | lda
  | bra
  | brz
  | brp
  | io
  deriving DecidableEq, Repr

namespace Instruction

def digit : Instruction → Nat
  | .hlt => 0
  | .add => 1
  | .sub => 2
  | .sta => 3
  | .lda => 5
  | .bra => 6
  | .brz => 7
  | .brp => 8
  | .io => 9

def name : Instruction → String
  | .hlt => "HLT"
  | .add => "ADD"
  | .sub => "SUB"
  | .sta => "STA"
  | .lda => "LDA"
  | .bra => "BRA"
  | .brz => "BRZ"
  | .brp => "BRP"
  | .io => "IO"

/-- The instruction of an opcode digit. Four names none. -/
def ofDigit? : Nat → Option Instruction
  | 0 => some .hlt
  | 1 => some .add
  | 2 => some .sub
  | 3 => some .sta
  | 5 => some .lda
  | 6 => some .bra
  | 7 => some .brz
  | 8 => some .brp
  | 9 => some .io
  | _ => none

@[simp] theorem ofDigit?_digit (instruction : Instruction) :
    ofDigit? instruction.digit = some instruction := by
  cases instruction <;> rfl

theorem digit_of_ofDigit? {n : Nat} {instruction : Instruction}
    (h : ofDigit? n = some instruction) : instruction.digit = n := by
  unfold ofDigit? at h
  split at h <;> cases h <;> rfl

end Instruction

/-- Splits a word into its opcode digit and its operand. A word below 0 or above 999 has neither. -/
def decode (word : Int) : Option (Nat × Address) :=
  if 0 ≤ word ∧ word ≤ 999 then
    some (word.toNat / 100, ⟨word.toNat % 100, Nat.mod_lt _ (by decide)⟩)
  else none

end LittleMan
