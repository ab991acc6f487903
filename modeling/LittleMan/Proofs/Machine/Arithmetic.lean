import LittleMan.Proofs.Machine.PlainStep
import LittleMan.Proofs.Machine.Run
import Mathlib.Algebra.BigOperators.Group.List.Basic

/-! Additions and subtractions that follow one another. However often the sums on the way are brought to
rest, the last one is that of the unbounded integers modulo 1999, so their order does not matter. -/

namespace LittleMan

theorem wrap_wrap_add (value other : Int) : wrap (wrap value + other) = wrap (value + other) :=
  wrap_eq_wrap_iff.2 ((wrap_modEq value).add_right other)

namespace Machine

/-- An addition or a subtraction of a cell. -/
inductive Change
  | add (cell : Address)
  | sub (cell : Address)
  deriving DecidableEq, Repr

namespace Change

def instruction : Change → Instruction
  | .add _ => .add
  | .sub _ => .sub

def cell : Change → Address
  | .add cell | .sub cell => cell

/-- By how much a change moves the accumulator, before it is brought to rest. -/
def amount (memory : Memory) : Change → Int
  | .add cell => memory.get cell
  | .sub cell => -memory.get cell

end Change

/-- The sum of the added cells less that of the subtracted ones, as an unbounded integer. -/
def total (memory : Memory) (changes : List Change) : Int :=
  (changes.map (Change.amount memory)).sum

/-- The next steps of a machine execute some changes, one each, in their order. -/
def Makes (machine : Machine) : List Change → Prop
  | [] => True
  | change :: changes =>
    machine.Fetches change.instruction change.cell ∧ machine.step.machine.Makes changes

variable {machine other : Machine} {change : Change} {changes others : List Change}
  {memory image : Memory} {cell : Address}

theorem total_cons (memory : Memory) (change : Change) (changes : List Change) :
    total memory (change :: changes) = change.amount memory + total memory changes :=
  List.sum_cons

theorem total_perm (h : changes.Perm others) : total memory changes = total memory others :=
  (h.map (Change.amount memory)).sum_eq

theorem total_congr
    (h : ∀ change ∈ changes, image.get change.cell = memory.get change.cell) :
    total image changes = total memory changes := by
  refine congrArg List.sum (List.map_congr_left ?_)
  intro change hc
  have hg := h change hc
  cases change with
  | add cell => exact hg
  | sub cell => exact congrArg Neg.neg hg

theorem InRange.step_of_change (hm : machine.InRange)
    (hf : machine.Fetches change.instruction change.cell) :
    machine.step.result = .ok () ∧
      machine.step.machine = { machine.advance with
        accumulator := wrap (machine.accumulator + change.amount machine.memory) } := by
  cases change with
  | add cell =>
    exact (hm.step_iff_plain hf.running hf.word).1 (.add (wrap_atRest _) (wrap_modEq _))
  | sub cell =>
    rw [Change.amount, ← Int.sub_eq_add_neg]
    exact (hm.step_iff_plain hf.running hf.word).1 (.sub (wrap_atRest _) (wrap_modEq _))

theorem Makes.results (h : machine.Makes changes) (hm : machine.InRange) :
    ∀ k < changes.length, (machine.afterSteps k).step.result = .ok () := by
  induction changes generalizing machine with
  | nil => exact fun k hk => absurd hk (Nat.not_lt_zero k)
  | cons change changes ih =>
    intro k hk
    cases k with
    | zero => exact (hm.step_of_change h.1).1
    | succ k => exact ih h.2 (machine.step_steps.inRange hm) k (Nat.lt_of_succ_lt_succ hk)

/-- What some changes make of a machine at rest: they move the program counter on, and the accumulator
by their total, and nothing else. -/
theorem Makes.afterSteps_eq (h : machine.Makes changes) (hm : machine.InRange) :
    machine.afterSteps changes.length = { machine with
      pc := (machine.pc + changes.length) % 100
      accumulator := wrap (machine.accumulator + total machine.memory changes) } := by
  induction changes generalizing machine with
  | nil =>
    have hp : (machine.pc + 0) % 100 = machine.pc := Nat.mod_eq_of_lt hm.pc
    have ha : wrap (machine.accumulator + 0) = machine.accumulator := by
      rw [Int.add_zero, wrap_of_atRest hm.accumulator]
    rw [List.length_nil, total, List.map_nil, List.sum_nil, hp, ha]
    rfl
  | cons change changes ih =>
    have hs := (hm.step_of_change h.1).2
    rw [List.length_cons, afterSteps_succ, ih h.2 (machine.step_steps.inRange hm), hs]
    have hp : ((machine.pc + 1) % 100 + changes.length) % 100 =
        (machine.pc + (changes.length + 1)) % 100 := by omega
    simp only [advance, wrap_wrap_add, total_cons, hp, Int.add_assoc]

/-- The steps of any additions and subtractions succeed, and leave in the accumulator the one word at
rest that is congruent modulo 1999 to what it held and the cells added less those subtracted. They leave
the memory alone. So the same changes in another order give the same, and a subtraction undoes the
addition of the same cell before it. -/
theorem Reachable.changes_exact (h : Reachable machine) (hc : machine.Makes changes) :
    (∀ k < changes.length, (machine.afterSteps k).step.result = .ok ()) ∧
      (∀ word, (machine.afterSteps changes.length).accumulator = word ↔
        AtRest word ∧ word ≡ machine.accumulator + total machine.memory changes [ZMOD 1999]) ∧
      (machine.afterSteps changes.length).memory = machine.memory ∧
      (∀ other others, Reachable other → other.accumulator = machine.accumulator →
        (∀ change ∈ changes, other.memory.get change.cell = machine.memory.get change.cell) →
        changes.Perm others → other.Makes others →
        (other.afterSteps others.length).accumulator =
          (machine.afterSteps changes.length).accumulator) ∧
      ∀ cell, changes = [.add cell, .sub cell] →
        (machine.afterSteps 2).accumulator = machine.accumulator := by
  have hm := h.inRange
  rw [hc.afterSteps_eq hm]
  refine ⟨hc.results hm, ?_, rfl, ?_, ?_⟩
  · intro word
    apply Iff.intro
    · rintro rfl
      exact ⟨wrap_atRest _, wrap_modEq _⟩
    · intro hx
      exact (wrap_atRest _).eq_of_modEq hx.1 ((wrap_modEq _).trans hx.2.symm)
  · intro other others ho ha hg hp hmakes
    rw [hmakes.afterSteps_eq ho.inRange, ha, ← total_perm hp, total_congr hg]
  · rintro cell rfl
    have ht : total machine.memory [.add cell, .sub cell] = 0 := by
      simp only [total, List.map_cons, List.map_nil, Change.amount, List.sum_cons, List.sum_nil]
      omega
    have he : machine.afterSteps 2 = _ := hc.afterSteps_eq hm
    rw [he, ht, Int.add_zero]
    exact wrap_of_atRest hm.accumulator

/-- A machine that is about to execute some words, with numbers in its last cells. -/
def summing (words : List Int) : Machine :=
  ({} : Machine).load (.ofFn fun a =>
    if a.val < 97 then words.getD a.val 0 else [999, -998, 500].getD (a.val - 97) 0)

/-- The sum of the four numbers is 3496. On the way it is brought to rest twice in either order, but not
at the same numbers. -/
theorem summing_exact :
    ((summing [197, 197, 298, 199]).afterSteps 4).accumulator = -502 ∧
      ((summing [298, 199, 197, 197]).afterSteps 4).accumulator = -502 ∧
      ((summing [197, 197, 298, 199]).afterSteps 2).accumulator = -1 ∧
      ((summing [298, 199, 197, 197]).afterSteps 2).accumulator = -501 ∧
      ((summing [197, 297]).afterSteps 2).accumulator = 0 := by
  have hreachable (words : List Int) : Reachable (summing words) := .call (.new [] {}) (.load _)
  let first : Address := ⟨97, by decide⟩
  let second : Address := ⟨98, by decide⟩
  let third : Address := ⟨99, by decide⟩
  have hmakes : (summing [197, 197, 298, 199]).Makes
      [.add first, .add first, .sub second, .add third] :=
    ⟨by decide +kernel, by decide +kernel, by decide +kernel, by decide +kernel, trivial⟩
  have hother : (summing [298, 199, 197, 197]).Makes
      [.sub second, .add third, .add first, .add first] :=
    ⟨by decide +kernel, by decide +kernel, by decide +kernel, by decide +kernel, trivial⟩
  have hundone : (summing [197, 297]).Makes [.add first, .sub first] :=
    ⟨by decide +kernel, by decide +kernel, trivial⟩
  obtain ⟨-, hsum, -, horder, -⟩ := (hreachable _).changes_exact hmakes
  have hword := (hsum (-502)).2 ⟨by decide, by decide +kernel⟩
  have hsame := horder (summing [298, 199, 197, 197])
    [.sub second, .add third, .add first, .add first] (hreachable _) (by decide +kernel)
    (by decide +kernel) (by decide) hother
  refine ⟨hword, hsame.trans hword, by decide +kernel, by decide +kernel, ?_⟩
  exact ((hreachable _).changes_exact hundone).2.2.2.2 first rfl

end Machine

end LittleMan
