import LittleMan.Proofs.Machine.Streams
import Mathlib.Data.List.Basic

/-! Input that a machine does not read. A step that asks for no number goes the same way whatever the
input is, and a run that no stream makes fail goes the same way if more input follows, since it reads
nothing but lines that end. -/

namespace LittleMan

variable {inbox more : List UInt8} {value : Int}

theorem Offers.append (h : Offers inbox value) (more : List UInt8) :
    Offers (inbox ++ more) value := by
  cases h with
  | line hn ht hv hr =>
    rw [List.append_assoc]
    exact .line hn ht hv hr

/-- A line that gives an integer ends, so what follows it stays behind it. -/
theorem Offers.afterLine_append (h : Offers inbox value) (more : List UInt8) :
    afterLine (inbox ++ more) = afterLine inbox ++ more := by
  cases h with
  | line hn =>
    rw [List.append_assoc, afterLine_terminated hn]
    exact afterLine_terminated hn

namespace Machine

/-- The machine with other input. -/
def withInput (machine : Machine) (inbox : List UInt8) : Machine := { machine with inbox := inbox }

/-- The machine with more input behind its own. -/
def appendInput (machine : Machine) (more : List UInt8) : Machine :=
  { machine with inbox := machine.inbox ++ more }

def Stepped.appendInput (stepped : Stepped) (more : List UInt8) : Stepped :=
  { stepped with machine := stepped.machine.appendInput more }

variable {machine after : Machine} {instruction : Instruction} {operand : Address} {event : Event}
  {n k : Nat} {fault : Fault}

theorem Stepped.sights_appendInput (stepped : Stepped) (more : List UInt8) :
    (stepped.appendInput more).sights = stepped.sights := rfl

theorem send_withInput (machine : Machine) (inbox : List UInt8) :
    (machine.withInput inbox).send = machine.send.map (withInput · inbox) := by
  have hr : (machine.withInput inbox).outbox.refusal? = machine.outbox.refusal? := rfl
  rw [send, send, hr]
  cases machine.outbox.refusal? <;> rfl

theorem execute_withInput (machine : Machine) (h : instruction = .io → operand.val ≠ 1)
    (inbox : List UInt8) :
    (machine.withInput inbox).execute instruction operand =
      (machine.execute instruction operand).map (withInput · inbox) := by
  cases instruction with
  | brz =>
    simp only [execute, Effect.map, apply_ite (withInput · inbox)]
    rfl
  | brp =>
    simp only [execute, Effect.map, apply_ite (withInput · inbox)]
    rfl
  | io =>
    by_cases h2 : operand.val = 2
    · rw [execute_send h2, execute_send h2]
      exact machine.send_withInput inbox
    · rw [execute_ignored (h rfl) h2, execute_ignored (h rfl) h2]
      rfl
  | _ => rfl

/-- The input does not matter to a step that asks for no number. -/
theorem step_withInput (h : ¬ machine.Executes 901) (inbox : List UInt8) :
    (machine.withInput inbox).step = machine.step.map (withInput · inbox) := by
  refine @step_map machine (withInput · inbox) rfl rfl rfl (fun _ _ => rfl) ?_
  intro instruction operand hf
  apply execute_withInput
  rintro rfl ho
  exact h (hf.executes ho)

/-- More input changes no step but one that a stream makes fail. -/
theorem step_appendInput (h : machine.step.result ≠ .error .inputOutput) (more : List UInt8) :
    (machine.appendInput more).step = machine.step.appendInput more := by
  by_cases hx : machine.Executes 901
  · cases hv : nextInteger machine.inbox with
    | error error =>
      rw [hx.step_of_error hv] at h
      exact absurd rfl h
    | ok value =>
      have ho := nextInteger_eq_ok_iff.1 hv
      have hm : (machine.appendInput more).Executes 901 := hx
      rw [hx.step_of_ok hv, hm.step_of_ok (nextInteger_eq_ok_iff.2 (ho.append more))]
      simp only [Stepped.appendInput, appendInput, ho.afterLine_append more]
      rfl
  · have hi := machine.step_steps.inbox_eq
    rw [if_neg hx] at hi
    have hs : machine.step.appendInput more = machine.step.map (withInput · (machine.inbox ++ more)) := by
      rw [← hi]
      rfl
    rw [hs]
    exact step_withInput hx (machine.inbox ++ more)

/-- As long as no stream makes a step fail, the machines on the way differ in their input alone. -/
theorem afterSteps_appendInput
    (h : ∀ k < n, (machine.afterSteps k).step.result ≠ .error .inputOutput) (more : List UInt8) :
    (machine.appendInput more).afterSteps n = (machine.afterSteps n).appendInput more := by
  induction n with
  | zero => rfl
  | succ n ih =>
    have hn := ih fun k hk => h k (Nat.lt_succ_of_lt hk)
    rw [afterSteps_succ_last, afterSteps_succ_last, hn,
      step_appendInput (h n (Nat.lt_succ_self n))]
    rfl

theorem FailsAfter.result_ne (h : machine.FailsAfter n fault) (hf : fault ≠ .inputOutput)
    (hk : k < n + 1) : (machine.afterSteps k).step.result ≠ .error .inputOutput := by
  rcases Nat.lt_succ_iff_lt_or_eq.1 hk with hlt | rfl
  · rw [h.succeed k hlt]
    intro he
    cases he
  · rw [h.fail]
    intro he
    cases he
    exact hf rfl

theorem FailsAfter.afterSteps_appendInput (h : machine.FailsAfter n fault)
    (hf : fault ≠ .inputOutput) (hk : k ≤ n + 1) (more : List UInt8) :
    (machine.appendInput more).afterSteps k = (machine.afterSteps k).appendInput more :=
  Machine.afterSteps_appendInput (fun _ hj => h.result_ne hf (Nat.lt_of_lt_of_le hj hk)) more

theorem FailsAfter.step_appendInput (h : machine.FailsAfter n fault) (hf : fault ≠ .inputOutput)
    (hk : k < n + 1) (more : List UInt8) :
    ((machine.appendInput more).afterSteps k).step =
      (machine.afterSteps k).step.appendInput more := by
  rw [h.afterSteps_appendInput hf (Nat.le_of_lt hk)]
  exact Machine.step_appendInput (h.result_ne hf hk) more

theorem FailsAfter.appendInput (h : machine.FailsAfter n fault) (hf : fault ≠ .inputOutput)
    (more : List UInt8) : (machine.appendInput more).FailsAfter n fault := by
  refine ⟨?_, ?_⟩
  · intro k hk
    rw [h.step_appendInput hf (Nat.lt_succ_of_lt hk)]
    exact h.succeed k hk
  · rw [h.step_appendInput hf (Nat.lt_succ_self n)]
    exact h.fail

theorem FailsAfter.sights_appendInput (h : machine.FailsAfter n fault) (hf : fault ≠ .inputOutput)
    (more : List UInt8) : (machine.appendInput more).sights (n + 1) = machine.sights (n + 1) := by
  rw [sights, sights]
  apply List.flatMap_congr
  intro k hk
  have hlt := List.mem_range.1 hk
  rw [h.step_appendInput hf hlt, h.afterSteps_appendInput hf (Nat.le_of_lt hlt)]
  rfl

theorem FailsAfter.runWith_appendInput {σ : Type} {observe : σ → Sight → σ} {fuel : Nat}
    {observer : σ} (h : machine.FailsAfter n fault) (hf : fault ≠ .inputOutput) (hn : n < fuel)
    (more : List UInt8) :
    (machine.appendInput more).runWith observe fuel observer =
      some ⟨(machine.afterSteps (n + 1)).appendInput more,
        (machine.sights (n + 1)).foldl observe observer, fault.ending⟩ := by
  rw [(h.appendInput hf more).runWith_eq hn, h.afterSteps_appendInput hf (Nat.le_refl _),
    h.sights_appendInput hf]

theorem Fault.ne_inputOutput_of_ending
    (h : fault.ending = .ok () ∨ fault.ending = .error .invalidCommand) :
    fault ≠ .inputOutput := by
  rintro rfl
  rcases h with h | h
  · cases h
  · cases h

/-- A run of a loaded image that ends well or at an invalid command takes the same steps, shows the
same and ends the same with more input behind its own, whatever that is and whatever its device
does. What it leaves of its input then has the rest behind it. -/
theorem runWith_load_append (image : Memory) (outbox : Outbox) (inbox more : List UInt8) {σ : Type}
    {observe : σ → Sight → σ} {fuel : Nat} {observer : σ} {finished : Finished σ}
    (h : (({ inbox, outbox } : Machine).load image).runWith observe fuel observer = some finished)
    (hr : finished.result = .ok () ∨ finished.result = .error .invalidCommand) :
    (({ inbox := inbox ++ more, outbox } : Machine).load image).runWith observe fuel observer =
      some ⟨{ finished.machine with inbox := finished.machine.inbox ++ more }, finished.observer,
        finished.result⟩ ∧
    ∃ n fault, (({ inbox, outbox } : Machine).load image).FailsAfter n fault ∧
      (({ inbox := inbox ++ more, outbox } : Machine).load image).FailsAfter n fault ∧
      ∀ k ≤ n, (({ inbox := inbox ++ more, outbox } : Machine).load image).afterSteps k =
        { (({ inbox, outbox } : Machine).load image).afterSteps k with
          inbox := ((({ inbox, outbox } : Machine).load image).afterSteps k).inbox ++ more } := by
  obtain ⟨n, fault, hn, hf⟩ := FailsAfter.of_runWith h
  rw [hf.runWith_eq hn] at h
  cases h
  have hne := Fault.ne_inputOutput_of_ending hr
  refine ⟨hf.runWith_appendInput hne hn more, n, fault, hf, hf.appendInput hne more, ?_⟩
  intro k hk
  exact hf.afterSteps_appendInput hne (Nat.le_succ_of_le hk) more

/-- What follows the number is no text, and still the machine prints the number and halts. -/
theorem echoing_runWith_load_append :
    ∃ finished more, more = [255, 10, 49] ∧
      echoing.runWith (watching fun seen snapshot => snapshot.pc :: seen) 4 [] = some finished ∧
      finished.result = .ok () ∧ finished.observer = [3, 2, 1, 0] ∧
      (echoing.appendInput more).runWith (watching fun seen snapshot => snapshot.pc :: seen) 4 [] =
        some ⟨{ finished.machine with inbox := more }, [3, 2, 1, 0], .ok ()⟩ := by
  have hf : echoing.FailsAfter 3 .machineHalted := ⟨by decide +kernel, by decide +kernel⟩
  have he : echoing.runWith (watching fun seen snapshot => snapshot.pc :: seen) 4 [] = _ :=
    hf.runWith_eq (Nat.lt_succ_self 3)
  have ho : (echoing.sights 4).foldl (watching fun seen snapshot => snapshot.pc :: seen) [] =
      [3, 2, 1, 0] := by
    rw [foldl_watching]
    decide +kernel
  have hi : (echoing.afterSteps 4).inbox = [] := by decide +kernel
  obtain ⟨hr, -⟩ := runWith_load_append _ _ _ [255, 10, 49] he (.inl rfl)
  rw [ho, hi] at hr
  exact ⟨_, _, rfl, he, rfl, ho, hr⟩

end Machine

end LittleMan
