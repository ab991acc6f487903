import LittleMan.Proofs.Machine.Reachable
import Mathlib.Logic.Function.Iterate

/-! Runs of the machine are iterated steps: a run ends with the first step that fails, and shows its
observer every machine on the way there. -/

namespace LittleMan.Machine

/-- The machine after a number of steps, whether they succeed or not. -/
def afterSteps (machine : Machine) (n : Nat) : Machine :=
  (fun machine : Machine => machine.step.machine)^[n] machine

/-- A number of steps succeed, and the next one fails. -/
structure FailsAfter (machine : Machine) (n : Nat) (fault : Fault) : Prop where
  succeed : ∀ k < n, (machine.afterSteps k).step.result = .ok ()
  fail : (machine.afterSteps n).step.result = .error fault

/-- How a run goes that a fault ends: a halt is its proper end. -/
def Fault.ending (fault : Fault) : Except Fault Unit :=
  if fault = .machineHalted then .ok () else .error fault

/-- All that a run shows of a number of steps. -/
def sights (machine : Machine) (n : Nat) : List Sight :=
  (List.range n).flatMap fun k =>
    (machine.afterSteps k).preview ++ (machine.afterSteps k).step.sights

/-- The program counter, the accumulator and the next word. -/
def snapshot (machine : Machine) : Snapshot :=
  ⟨machine.pc, machine.accumulator, (machine.memory.read? machine.pc).getD 0⟩

def Sight.snapshot? : Sight → Option Snapshot
  | .snapshot seen => some seen
  | .event _ => none

/-- An observer who looks at nothing but snapshots. -/
def watching {σ : Type} (look : σ → Snapshot → σ) (observer : σ) : Sight → σ
  | .snapshot seen => look observer seen
  | .event _ => observer

variable {machine after : Machine} {n m fuel : Nat} {fault other : Fault} {σ : Type}
  {observe : σ → Sight → σ} {observer : σ}

@[simp] theorem afterSteps_zero (machine : Machine) : machine.afterSteps 0 = machine := rfl

theorem afterSteps_succ (machine : Machine) (n : Nat) :
    machine.afterSteps (n + 1) = machine.step.machine.afterSteps n := rfl

theorem afterSteps_succ_last (machine : Machine) (n : Nat) :
    machine.afterSteps (n + 1) = (machine.afterSteps n).step.machine :=
  Function.iterate_succ_apply' _ n machine

theorem afterSteps_preserves {P : Machine → Prop}
    (hs : ∀ machine : Machine, P machine → P machine.step.machine) (hp : P machine) (n : Nat) :
    P (machine.afterSteps n) := by
  induction n with
  | zero => exact hp
  | succ n ih =>
    rw [afterSteps_succ_last]
    exact hs _ ih

theorem InRange.afterSteps (h : machine.InRange) (n : Nat) : (machine.afterSteps n).InRange :=
  afterSteps_preserves (fun after ha => after.step_steps.inRange ha) h n

theorem failsAfter_zero : machine.FailsAfter 0 fault ↔ machine.step.result = .error fault := by
  apply Iff.intro
  · intro h
    exact h.fail
  · intro h
    exact ⟨fun k hk => absurd hk (Nat.not_lt_zero k), h⟩

theorem failsAfter_succ :
    machine.FailsAfter (n + 1) fault ↔
      machine.step.result = .ok () ∧ machine.step.machine.FailsAfter n fault := by
  apply Iff.intro
  · intro h
    exact ⟨h.succeed 0 (Nat.zero_lt_succ n),
      fun k hk => h.succeed (k + 1) (Nat.succ_lt_succ hk), h.fail⟩
  · intro hx
    obtain ⟨hr, h⟩ := hx
    refine ⟨?_, h.fail⟩
    intro k hk
    cases k with
    | zero => exact hr
    | succ k => exact h.succeed k (Nat.lt_of_succ_lt_succ hk)

theorem FailsAfter.unique (h : machine.FailsAfter n fault) (h' : machine.FailsAfter m other) :
    n = m ∧ fault = other := by
  -- The step that fails in one of the two cannot be one that succeeds in the other.
  have hle {n m : Nat} {fault other : Fault} (h : machine.FailsAfter n fault)
      (h' : machine.FailsAfter m other) : m ≤ n := by
    by_contra hlt
    have hr := h'.succeed n (Nat.lt_of_not_le hlt)
    rw [h.fail] at hr
    cases hr
  have he : n = m := Nat.le_antisymm (hle h' h) (hle h h')
  subst he
  have hf := h.fail.symm.trans h'.fail
  cases hf
  exact ⟨rfl, rfl⟩

theorem sights_succ (machine : Machine) (n : Nat) :
    machine.sights (n + 1) =
      machine.preview ++ machine.step.sights ++ machine.step.machine.sights n := by
  rw [sights, List.range_succ_eq_map, List.flatMap_cons, List.flatMap_map]
  rfl

theorem Stepped.ending_of_ok {stepped : Stepped} (h : stepped.result = .ok ()) :
    stepped.ending = none := by
  rw [ending, h]

theorem Stepped.ending_of_error {stepped : Stepped} (h : stepped.result = .error fault) :
    stepped.ending = some fault.ending := by
  rw [ending, h]
  cases fault <;> rfl

theorem runWith_of_ok (h : machine.step.result = .ok ()) :
    machine.runWith observe (fuel + 1) observer =
      machine.step.machine.runWith observe fuel
        ((machine.preview ++ machine.step.sights).foldl observe observer) := by
  rw [runWith_succ, Stepped.ending_of_ok h]

theorem runWith_of_error (h : machine.step.result = .error fault) :
    machine.runWith observe (fuel + 1) observer =
      some ⟨machine.step.machine,
        (machine.preview ++ machine.step.sights).foldl observe observer, fault.ending⟩ := by
  rw [runWith_succ, Stepped.ending_of_error h]

theorem FailsAfter.runWith_eq (h : machine.FailsAfter n fault) (hn : n < fuel) :
    machine.runWith observe fuel observer =
      some ⟨machine.afterSteps (n + 1), (machine.sights (n + 1)).foldl observe observer,
        fault.ending⟩ := by
  obtain ⟨fuel, rfl⟩ : ∃ less, fuel = less + 1 :=
    Nat.exists_eq_succ_of_ne_zero (Nat.ne_zero_of_lt hn)
  induction n generalizing machine fuel observer with
  | zero =>
    rw [runWith_of_error (failsAfter_zero.1 h), sights_succ]
    simp only [afterSteps_succ, afterSteps_zero, sights, List.range_zero, List.flatMap_nil,
      List.append_nil]
  | succ n ih =>
    obtain ⟨hr, h⟩ := failsAfter_succ.1 h
    obtain ⟨less, rfl⟩ : ∃ less, fuel = less + 1 :=
      Nat.exists_eq_succ_of_ne_zero (by omega)
    rw [runWith_of_ok hr, ih h less (Nat.lt_of_succ_lt_succ hn), sights_succ _ (n + 1),
      List.foldl_append (l := machine.preview ++ machine.step.sights)]
    rfl

theorem FailsAfter.of_runWith {finished : Finished σ}
    (h : machine.runWith observe fuel observer = some finished) :
    ∃ n fault, n < fuel ∧ machine.FailsAfter n fault := by
  induction fuel generalizing machine observer with
  | zero => cases h
  | succ fuel ih =>
    cases hr : machine.step.result with
    | ok value =>
      rw [runWith_of_ok hr] at h
      obtain ⟨n, fault, hn, hf⟩ := ih h
      exact ⟨n + 1, fault, Nat.succ_lt_succ hn, failsAfter_succ.2 ⟨hr, hf⟩⟩
    | error fault => exact ⟨0, fault, Nat.zero_lt_succ fuel, failsAfter_zero.2 hr⟩

theorem run_eq_map (machine : Machine) (observe : σ → Sight → σ) (fuel : Nat) (observer : σ) :
    machine.run fuel = (machine.runWith observe fuel observer).map
      fun finished => ⟨finished.machine, (), finished.result⟩ := by
  rw [run]
  induction fuel generalizing machine observer with
  | zero => rfl
  | succ fuel ih =>
    cases hr : machine.step.result with
    | ok value => rw [runWith_of_ok hr, runWith_of_ok hr, ← ih]
    | error fault => rw [runWith_of_error hr, runWith_of_error hr, Option.map_some]

theorem foldl_watching (look : σ → Snapshot → σ) (observer : σ) (sights : List Sight) :
    sights.foldl (watching look) observer =
      (sights.filterMap Sight.snapshot?).foldl look observer := by
  induction sights generalizing observer with
  | nil => rfl
  | cons sight sights ih =>
    cases sight with
    | snapshot seen => exact ih (look observer seen)
    | event => exact ih observer

theorem Stepped.filterMap_sights (stepped : Stepped) :
    stepped.sights.filterMap Sight.snapshot? = [] := by
  apply List.filterMap_eq_nil_iff.2
  intro sight hs
  rw [sights, List.mem_append, List.mem_map] at hs
  rcases hs with ⟨event, -, rfl⟩ | hs
  · rfl
  · split at hs
    · cases hs
    · rw [List.mem_singleton.1 hs]
      rfl
    · rw [List.mem_singleton.1 hs]
      rfl

theorem peek_of_lt (h : machine.pc < 100) : machine.peek = some machine.snapshot := by
  rw [peek, snapshot, Memory.read?_of_lt h]
  rfl

theorem preview_of_lt (h : machine.pc < 100) : machine.preview = [.snapshot machine.snapshot] := by
  rw [preview, peek_of_lt h]
  rfl

theorem read?_of_le (h : 100 ≤ machine.pc) : machine.memory.read? machine.pc = none :=
  Vector.getElem?_eq_none h

theorem preview_of_le (h : 100 ≤ machine.pc) : machine.preview = [] := by
  rw [preview, peek, read?_of_le h]
  rfl

theorem Steps.pc_lt {result : Except Fault Unit} (h : machine.Steps after result)
    (hp : machine.pc < 100) : after.pc < 100 := by
  cases h with
  | completed => exact Nat.mod_lt _ (by decide)
  | failed _ hc =>
    cases hc with
    | inp => exact hp
    | out => exact hp
  | _ => exact hp

theorem afterSteps_pc_lt (h : machine.pc < 100) (n : Nat) : (machine.afterSteps n).pc < 100 :=
  afterSteps_preserves (P := fun machine => machine.pc < 100)
    (fun machine hp => machine.step_steps.pc_lt hp) h n

/-- A run shows the snapshot of every machine on its way, that of the failing step included. -/
theorem filterMap_sights (h : machine.pc < 100) (n : Nat) :
    (machine.sights n).filterMap Sight.snapshot? =
      (List.range n).map fun k => (machine.afterSteps k).snapshot := by
  rw [sights, List.filterMap_flatMap, List.map_eq_flatMap]
  congr 1
  funext k
  rw [List.filterMap_append, preview_of_lt (afterSteps_pc_lt h k), Stepped.filterMap_sights]
  rfl

theorem Steps.of_machineHalted (h : machine.Steps after (.error .machineHalted)) :
    machine.halted = true ∧ after = machine := by
  cases h with
  | halted hh => exact ⟨hh, rfl⟩

theorem step_result_of_halted (h : machine.halted = true) :
    machine.step.result = .error .machineHalted := by
  rw [step, if_pos h]

theorem step_of_le (h : 100 ≤ machine.pc) (hh : machine.halted = false) :
    machine.step = ⟨machine, [], .error .programCounterOutOfBounds⟩ := by
  simp only [step, hh, read?_of_le h, Bool.false_eq_true, if_false]

theorem failsAfter_of_halted (h : machine.halted = true) :
    machine.FailsAfter 0 .machineHalted :=
  failsAfter_zero.2 (step_result_of_halted h)

theorem FailsAfter.halted (h : machine.FailsAfter n .machineHalted) :
    (machine.afterSteps (n + 1)).halted = true := by
  have hs := (machine.afterSteps n).step_steps
  rw [h.fail] at hs
  obtain ⟨hh, he⟩ := hs.of_machineHalted
  rw [afterSteps_succ_last, he]
  exact hh

theorem runWith_watching_eq_some_iff (h : machine.pc < 100) {look : σ → Snapshot → σ}
    {finished : Finished σ} :
    (∃ fuel, machine.runWith (watching look) fuel observer = some finished) ↔
      ∃ n fault, machine.FailsAfter n fault ∧
        finished = ⟨machine.afterSteps (n + 1),
          ((List.range (n + 1)).map fun k => (machine.afterSteps k).snapshot).foldl look observer,
          fault.ending⟩ := by
  have he (n : Nat) : (machine.sights (n + 1)).foldl (watching look) observer =
      ((List.range (n + 1)).map fun k => (machine.afterSteps k).snapshot).foldl look observer := by
    rw [foldl_watching, filterMap_sights h]
  apply Iff.intro
  · intro hx
    obtain ⟨fuel, hr⟩ := hx
    obtain ⟨n, fault, hn, hf⟩ := FailsAfter.of_runWith hr
    rw [hf.runWith_eq hn, he] at hr
    exact ⟨n, fault, hf, (Option.some.inj hr).symm⟩
  · intro hx
    obtain ⟨n, fault, hf, rfl⟩ := hx
    refine ⟨n + 1, ?_⟩
    rw [hf.runWith_eq (Nat.lt_succ_self n), he]

theorem runWith_of_halted (h : machine.halted = true) :
    machine.runWith observe (fuel + 1) observer =
      some ⟨machine, (machine.sights 1).foldl observe observer, .ok ()⟩ := by
  rw [(failsAfter_of_halted h).runWith_eq (Nat.zero_lt_succ fuel), afterSteps_succ, afterSteps_zero,
    step_of_halted h]
  rfl

/-- A run takes exactly the steps up to the first one that fails, and shows one snapshot before each
of them. It does the same whoever looks on, and a machine that has halted does nothing more. -/
theorem runWith_iterates_step (machine : Machine) {σ : Type} (look : σ → Snapshot → σ)
    (observer : σ) :
    (∀ n m fault other, machine.FailsAfter n fault → machine.FailsAfter m other →
      n = m ∧ fault = other) ∧
    (machine.pc < 100 →
      (∀ k, (machine.afterSteps k).peek = some (machine.afterSteps k).snapshot) ∧
      ∀ finished, (∃ fuel, machine.runWith (watching look) fuel observer = some finished) ↔
        ∃ n fault, machine.FailsAfter n fault ∧
          finished = ⟨machine.afterSteps (n + 1),
            ((List.range (n + 1)).map fun k => (machine.afterSteps k).snapshot).foldl look observer,
            if fault = .machineHalted then .ok () else .error fault⟩) ∧
    (∀ fuel, machine.run fuel = (machine.runWith (watching look) fuel observer).map
      fun finished => ⟨finished.machine, (), finished.result⟩) ∧
    (100 ≤ machine.pc → machine.halted = false → ∀ fuel,
      machine.runWith (watching look) (fuel + 1) observer =
        some ⟨machine, observer, .error .programCounterOutOfBounds⟩) ∧
    (machine.pc < 100 → machine.halted = true → ∀ fuel,
      machine.runWith (watching look) (fuel + 1) observer =
        some ⟨machine, look observer machine.snapshot, .ok ()⟩) ∧
    ∀ fuel finished, machine.run fuel = some finished → finished.result = .ok () →
      ∀ more, finished.machine.run (more + 1) = some finished := by
  refine ⟨fun n m fault other h h' => h.unique h', ?_,
    fun fuel => machine.run_eq_map (watching look) fuel observer, ?_, ?_, ?_⟩
  · intro hp
    exact ⟨fun k => peek_of_lt (afterSteps_pc_lt hp k),
      fun finished => runWith_watching_eq_some_iff hp⟩
  · intro hp hh fuel
    have hs := step_of_le hp hh
    have hr : machine.step.result = .error .programCounterOutOfBounds := by rw [hs]
    rw [runWith_of_error hr, preview_of_le hp, foldl_watching, List.nil_append,
      Stepped.filterMap_sights, hs]
    rfl
  · intro hp hh fuel
    rw [runWith_of_halted hh, foldl_watching, filterMap_sights hp]
    rfl
  · intro fuel finished hr hok more
    obtain ⟨n, fault, hn, hf⟩ := FailsAfter.of_runWith hr
    rw [run, hf.runWith_eq hn] at hr
    cases hr
    have hm : fault = .machineHalted := by
      by_contra hne
      rw [Fault.ending, if_neg hne] at hok
      cases hok
    subst hm
    exact runWith_of_halted hf.halted

/-- A machine that is about to print the number on its one line of input and to halt. -/
def echoing : Machine :=
  ({ inbox := [55, 10] } : Machine).load
    (.ofFn fun a => if a.val = 0 then 901 else if a.val = 1 then 902 else 0)

def echoed : Machine := echoing.afterSteps 3

/-- A machine whose program counter has left the memory. -/
def astray : Machine := { echoing with pc := 100 }

theorem echoing_runWith :
    (∃ fuel finished,
      echoing.runWith (watching fun seen snapshot => snapshot.pc :: seen) fuel [] = some finished ∧
        finished.observer = [3, 2, 1, 0] ∧ finished.result = .ok () ∧
        finished.machine.outbox.written = [55, 10] ∧
        finished.machine.run 1 = some ⟨finished.machine, (), .ok ()⟩) ∧
    echoed.runWith (watching fun seen snapshot => snapshot.pc :: seen) 1 [] =
      some ⟨echoed, [3], .ok ()⟩ ∧
    astray.runWith (watching fun seen snapshot => snapshot.pc :: seen) 1 [] =
      some ⟨astray, [], .error .programCounterOutOfBounds⟩ := by
  have hp : echoing.pc < 100 := by decide +kernel
  have hf : echoing.FailsAfter 3 .machineHalted := ⟨by decide +kernel, by decide +kernel⟩
  obtain ⟨-, hr, he, -, -, ha⟩ :=
    echoing.runWith_iterates_step (fun seen snapshot => snapshot.pc :: seen) []
  obtain ⟨fuel, hw⟩ := ((hr hp).2 _).2 ⟨3, .machineHalted, hf, rfl⟩
  refine ⟨⟨fuel, _, hw, by decide +kernel, rfl, by decide +kernel, ?_⟩, ?_, ?_⟩
  · have hrun : echoing.run fuel = some ⟨echoing.afterSteps 4, (), .ok ()⟩ := by
      rw [he fuel, hw]
      rfl
    exact ha fuel _ hrun rfl 0
  · have hs : echoed.snapshot.pc = 3 := by decide +kernel
    rw [← hs]
    exact (echoed.runWith_iterates_step (fun seen snapshot => snapshot.pc :: seen) []).2.2.2.2.1
      (by decide +kernel) (by decide +kernel) 0
  · exact (astray.runWith_iterates_step (fun seen snapshot => snapshot.pc :: seen) []).2.2.2.1
      (by decide +kernel) (by decide +kernel) 0

end LittleMan.Machine
