import LittleMan.Assembly.Draft
import LittleMan.Proofs.Machine.Halting
import LittleMan.Proofs.Machine.Relay
import Mathlib.Tactic.Ring

/-! A program that multiplies by adding up. It counts its second number down to zero, from a negative
one through -999 and round to 999, so that it multiplies all integers modulo 1999. -/

namespace LittleMan

/-- Multiplies two numbers by repeated addition. -/
def multiplication : String := "// Multiplies two non-negative numbers by repeated addition
        INP
        STA left
        INP
        STA right
loop    LDA right
        BRZ done
        SUB one
        STA right
        LDA total
        ADD left
        STA total
        BRA loop
done    LDA total
        OUT
        HLT

left    DAT
right   DAT
total   DAT 0
one     DAT 1
"

/-- The words of the program, with numbers in the three cells that it stores into. -/
def multiplying (left right total : Int) : List Int :=
  [901, 315, 901, 316, 516, 712, 218, 316, 517, 115, 317, 604, 517, 902, 0, left, right, total, 1]

set_option maxRecDepth 4000 in
theorem assemble_multiplication (capacity : Capacity) :
    (assemble capacity multiplication).result = .ok (.ofWords (multiplying 0 0 0)) := by
  rw [show multiplication = String.ofList _ from rfl, assemble, String.toList_ofList]
  cases capacity <;> decide +kernel

-- The cells that the program names.
def loopCell : Address := ⟨4, by decide⟩

def doneCell : Address := ⟨12, by decide⟩

def leftCell : Address := ⟨15, by decide⟩

def rightCell : Address := ⟨16, by decide⟩

def totalCell : Address := ⟨17, by decide⟩

def oneCell : Address := ⟨18, by decide⟩

variable {left right total accumulator product a b : Int} {inbox : List UInt8} {outbox : Outbox}

theorem read?_multiplying {n : Nat} {word : Int}
    (h : (multiplying left right total)[n]? = some word) :
    (Memory.ofWords (multiplying left right total)).read? n = some word := by
  have hn : n < 19 := (List.getElem?_eq_some_iff.1 h).1
  exact Memory.read?_ofWords (Nat.lt_trans hn (by decide)) h

theorem get_leftCell : (Memory.ofWords (multiplying left right total)).get leftCell = left :=
  Memory.get_ofWords _ _

theorem get_rightCell : (Memory.ofWords (multiplying left right total)).get rightCell = right :=
  Memory.get_ofWords _ _

theorem get_totalCell : (Memory.ofWords (multiplying left right total)).get totalCell = total :=
  Memory.get_ofWords _ _

theorem get_oneCell : (Memory.ofWords (multiplying left right total)).get oneCell = 1 :=
  Memory.get_ofWords _ _

theorem set_multiplying {a : Address} (ha : a.val < 19) (word : Int) :
    (Memory.ofWords (multiplying left right total)).set a word =
      .ofWords ((multiplying left right total).set a.val word) :=
  Memory.set_ofWords ha word

theorem set_leftCell (word : Int) :
    (Memory.ofWords (multiplying left right total)).set leftCell word =
      .ofWords (multiplying word right total) :=
  set_multiplying (by decide) word

theorem set_rightCell (word : Int) :
    (Memory.ofWords (multiplying left right total)).set rightCell word =
      .ofWords (multiplying left word total) :=
  set_multiplying (by decide) word

theorem set_totalCell (word : Int) :
    (Memory.ofWords (multiplying left right total)).set totalCell word =
      .ofWords (multiplying left right word) :=
  set_multiplying (by decide) word

open Machine

/-- The machine has halted with its input used up, and has printed a word last. -/
def HasPrinted (outbox : Outbox) (word : Int) (machine : Machine) : Prop :=
  machine.halted = true ∧ machine.inbox = [] ∧
    machine.outbox = outbox.deliver (outputLine word)

theorem haltsWith_done (hd : outbox.device outbox.attempts = .accepted) :
    HaltsWith ⟨12, accumulator, false, .ofWords (multiplying left right total), [], outbox⟩
      (HasPrinted outbox total) := by
  refine .lda totalCell (read?_multiplying rfl) get_totalCell ?_
  refine .out (read?_multiplying rfl) hd ?_
  exact .hlt ⟨0, by decide⟩ (read?_multiplying rfl) ⟨rfl, rfl, rfl⟩

theorem haltsWith_of_zero {P : Machine → Prop}
    (h : HaltsWith ⟨12, 0, false, .ofWords (multiplying left 0 total), inbox, outbox⟩ P) :
    HaltsWith ⟨4, accumulator, false, .ofWords (multiplying left 0 total), inbox, outbox⟩ P := by
  refine .lda rightCell (read?_multiplying rfl) get_rightCell ?_
  exact .brz_taken doneCell (read?_multiplying rfl) rfl h

/-- One round of the loop. -/
theorem haltsWith_of_ne_zero {P : Machine → Prop} (hne : right ≠ 0)
    (h : HaltsWith ⟨4, wrap (total + left), false,
      .ofWords (multiplying left (wrap (right - 1)) (wrap (total + left))), inbox, outbox⟩ P) :
    HaltsWith ⟨4, accumulator, false, .ofWords (multiplying left right total), inbox, outbox⟩
      P := by
  refine .lda rightCell (read?_multiplying rfl) get_rightCell ?_
  refine .brz_passed doneCell (read?_multiplying rfl) hne ?_
  refine .sub oneCell (read?_multiplying rfl) get_oneCell ?_
  refine .sta rightCell (read?_multiplying rfl) (set_rightCell _) ?_
  refine .lda totalCell (read?_multiplying rfl) get_totalCell ?_
  refine .add leftCell (read?_multiplying rfl) get_leftCell ?_
  refine .sta totalCell (read?_multiplying rfl) (set_totalCell _) ?_
  exact .bra loopCell (read?_multiplying rfl) h

theorem round_modEq (total left right : Int) :
    wrap (total + left) + left * wrap (right - 1) ≡ total + left * right [ZMOD 1999] := by
  have h : total + left + left * (right - 1) = total + left * right := by ring
  rw [← h]
  exact (wrap_modEq _).add ((wrap_modEq _).mul_left left)

/-- From the head of the loop on, the left number is added to the total as often as the right one can
be counted down modulo 1999. -/
theorem haltsWith_loop (hd : outbox.device outbox.attempts = .accepted) (hp : AtRest product)
    (ht : AtRest total) (hr : AtRest right) (hc : total + left * right ≡ product [ZMOD 1999]) :
    HaltsWith ⟨4, accumulator, false, .ofWords (multiplying left right total), [], outbox⟩
      (HasPrinted outbox product) := by
  -- The right number rises when it goes from -999 round to 999, but its residue always falls.
  generalize hn : (right % 1999).toNat = n
  induction n generalizing right total accumulator with
  | zero =>
    obtain rfl : right = 0 := by omega
    rw [Int.mul_zero, Int.add_zero] at hc
    obtain rfl := ht.eq_of_modEq hp hc
    exact haltsWith_of_zero (haltsWith_done hd)
  | succ n ih =>
    refine haltsWith_of_ne_zero (by omega) (ih (wrap_atRest _) (wrap_atRest _) ?_ ?_)
    · exact (round_modEq total left right).trans hc
    · have he : wrap (right - 1) % 1999 = (right - 1) % 1999 := wrap_modEq _
      omega

theorem afterLine_outputLine_nil (value : Int) : afterLine (outputLine value) = [] := by
  have h := afterLine_outputLine value []
  rwa [List.append_nil] at h

/-- With two numbers before it, the program halts with their product. -/
theorem haltsWith_product (ha : InRange64 a) (hb : InRange64 b)
    (hd : outbox.device outbox.attempts = .accepted) :
    HaltsWith ⟨0, 0, false, .ofWords (multiplying 0 0 0), outputLine a ++ outputLine b, outbox⟩
      (HasPrinted outbox (wrap (a * b))) := by
  refine .inp (read?_multiplying rfl) (nextInteger_outputLine ha _) ?_
  rw [afterLine_outputLine]
  refine .sta leftCell (read?_multiplying rfl) (set_leftCell _) ?_
  have hv := nextInteger_outputLine hb []
  rw [List.append_nil] at hv
  refine .inp (read?_multiplying rfl) hv ?_
  rw [afterLine_outputLine_nil]
  refine .sta rightCell (read?_multiplying rfl) (set_rightCell _) ?_
  refine haltsWith_loop hd (wrap_atRest _) atRest_zero (wrap_atRest _) ?_
  rw [Int.zero_add]
  exact ((wrap_modEq a).mul (wrap_modEq b)).trans (wrap_modEq _).symm

theorem wrapped_multiplying :
    (Memory.ofWords (multiplying 0 0 0)).wrapped = .ofWords (multiplying 0 0 0) := by
  decide +kernel

/-- The program assembles, and given the decimal texts of any two integers of 64 bits, negative ones
included, each on a line, it runs to its end, uses its input up, and prints the decimal text of the
one word at rest that is congruent to their product modulo 1999. -/
theorem multiplication_exact (capacity : Capacity) (outbox : Outbox) (ha : InRange64 a)
    (hb : InRange64 b) {first second : List UInt8} (hf : PrintedLine first a)
    (hs : PrintedLine second b) (hd : outbox.device outbox.attempts = .accepted) :
    ∃ image, (assemble capacity multiplication).result = .ok image ∧
      ∃ fuel finished,
        (({ inbox := first ++ second, outbox } : Machine).load image).run fuel =
          some finished ∧
        finished.result = .ok () ∧ finished.machine.halted = true ∧ finished.machine.inbox = [] ∧
        ∃ word line, (∀ other, AtRest other ∧ other ≡ a * b [ZMOD 1999] ↔ other = word) ∧
          PrintedLine line word ∧
          finished.machine.outbox.written = outbox.written ++ line := by
  obtain rfl := printedLine_iff.1 hf
  obtain rfl := printedLine_iff.1 hs
  refine ⟨_, assemble_multiplication capacity, ?_⟩
  rw [load, wrapped_multiplying]
  have hm := InRange.load { inbox := outputLine a ++ outputLine b, outbox }
    (.ofWords (multiplying 0 0 0))
  rw [load, wrapped_multiplying] at hm
  obtain ⟨fuel, finished, hr, hok, hh, hi, ho⟩ := (haltsWith_product ha hb hd).run hm
  refine ⟨fuel, finished, hr, hok, hh, hi, wrap (a * b), _, ?_, printedLine_outputLine _, ?_⟩
  · intro other
    apply Iff.intro
    · intro hx
      exact hx.1.eq_of_modEq (wrap_atRest _) (hx.2.trans (wrap_modEq _).symm)
    · rintro rfl
      exact ⟨wrap_atRest _, wrap_modEq _⟩
  · rw [ho, Outbox.written_deliver, hd]

/-- The least integer of 64 bits times -7 is congruent to 643. -/
theorem multiplication_exact_negative :
    ∃ image, (assemble .wrapping multiplication).result = .ok image ∧
      ∃ fuel finished,
        (({ inbox := [45, 57, 50, 50, 51, 51, 55, 50, 48, 51, 54, 56, 53, 52, 55, 55, 53, 56, 48,
          56, 10, 45, 55, 10] } : Machine).load image).run fuel = some finished ∧
        finished.result = .ok () ∧ finished.machine.inbox = [] ∧
        finished.machine.outbox.written = [54, 52, 51, 10] := by
  have hleast : DecimalText
      [45, 57, 50, 50, 51, 51, 55, 50, 48, 51, 54, 56, 53, 52, 55, 55, 53, 56, 48, 56]
      (-((9223372036854775808 : Nat) : Int)) :=
    .negative ⟨⟨by decide, by decide +kernel⟩, by decide, by decide⟩ (by decide)
  have hseven : DecimalText [45, 55] (-((7 : Nat) : Int)) :=
    .negative ⟨⟨by decide, by decide +kernel⟩, by decide, by decide⟩ (by decide)
  obtain ⟨image, hi, fuel, finished, hr, hok, -, hempty, word, line, hword, hl, hw⟩ :=
    multiplication_exact (a := -9223372036854775808) (b := -7) .wrapping {} (by decide)
      (by decide) (.line hleast) (.line hseven) rfl
  refine ⟨image, hi, fuel, finished, hr, hok, hempty, ?_⟩
  rw [hw, printedLine_iff.1 hl, ← (hword 643).1 ⟨by decide, by decide⟩]
  decide +kernel

end LittleMan
