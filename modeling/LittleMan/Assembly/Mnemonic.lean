/-! The mnemonics of the assembly language. -/

namespace LittleMan

/-- An operation that a line of a program may name. -/
inductive Operation
  | add
  | sub
  | sta
  | lda
  | bra
  | brz
  | brp
  | inp
  | out
  | hlt
  | cob
  deriving DecidableEq, Repr

namespace Operation

def name : Operation → String
  | .add => "ADD"
  | .sub => "SUB"
  | .sta => "STA"
  | .lda => "LDA"
  | .bra => "BRA"
  | .brz => "BRZ"
  | .brp => "BRP"
  | .inp => "INP"
  | .out => "OUT"
  | .hlt => "HLT"
  | .cob => "COB"

/-- The word of an operation whose operand is zero. -/
def code : Operation → Int
  | .add => 100
  | .sub => 200
  | .sta => 300
  | .lda => 500
  | .bra => 600
  | .brz => 700
  | .brp => 800
  | .inp => 901
  | .out => 902
  | .hlt => 0
  | .cob => 0

theorem name_injective {o p : Operation} (h : o.name = p.name) : o = p := by
  cases o <;> cases p <;> simp [name] at h ⊢

end Operation

/-- What a line does: an operation of the machine, or storing a datum. -/
inductive Mnemonic
  | op (operation : Operation)
  | dat
  deriving DecidableEq, Repr

namespace Mnemonic

def name : Mnemonic → String
  | .op operation => operation.name
  | .dat => "DAT"

def all : List Mnemonic :=
  [.op .add, .op .sub, .op .sta, .op .lda, .op .bra,
    .op .brz, .op .brp, .op .inp, .op .out, .op .hlt,
    .op .cob, .dat]

/-- The mnemonic of exactly this name. -/
def ofName? (token : String) : Option Mnemonic := all.find? fun mnemonic => mnemonic.name == token

theorem mem_all (mnemonic : Mnemonic) : mnemonic ∈ all := by
  cases mnemonic with
  | op o => cases o <;> decide
  | dat => decide

theorem name_injective {m n : Mnemonic} (h : m.name = n.name) : m = n := by
  cases m with
  | op o => cases n with
    | op p => exact congrArg op (Operation.name_injective h)
    | dat => cases o <;> simp [name, Operation.name] at h
  | dat => cases n with
    | op p => cases p <;> simp [name, Operation.name] at h
    | dat => rfl

theorem ofName?_eq_some_iff {token : String} {mnemonic : Mnemonic} :
    ofName? token = some mnemonic ↔ mnemonic.name = token := by
  constructor
  · intro h
    simpa using List.find?_some h
  · rintro rfl
    cases h : ofName? mnemonic.name with
    | none =>
      have := List.find?_eq_none.1 h mnemonic (mem_all mnemonic)
      simp at this
    | some found =>
      have hname : found.name = mnemonic.name := by simpa using List.find?_some h
      rw [name_injective hname]

end Mnemonic

end LittleMan
