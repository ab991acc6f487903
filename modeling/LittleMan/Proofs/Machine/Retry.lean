import LittleMan.Proofs.Machine.Reading
import LittleMan.Proofs.Machine.Unread
import Mathlib.Data.List.SplitBy

/-! Trying again after input that is refused. A driver that goes on after a refused line gets the
machine through the same states as if the lines that are not acceptable were not there at all. -/

namespace LittleMan

/-- The lines of an inbox, each with its newline, which only the last one may lack. -/
def inputLines (inbox : List UInt8) : List (List UInt8) :=
  inbox.splitBy fun byte _ => byte != newline

/-- A line is accepted as some integer. -/
def Acceptable (line : List UInt8) : Prop := ∃ value, Accepted line value

variable {inbox line rest : List UInt8} {value : Int}

theorem NumeralBytes.newline_notMem (h : NumeralBytes line value) : newline ∉ line := by
  have hall {digits : List UInt8} (hd : DigitBytes digits) : newline ∉ digits := by
    intro hn
    obtain ⟨hl, -⟩ := hd.digit _ hn
    exact absurd hl (by decide)
  cases h with
  | unsigned hd => exact hall hd
  | plus hd => exact List.not_mem_cons_of_ne_of_not_mem (by decide) (hall hd)
  | minus hd => exact List.not_mem_cons_of_ne_of_not_mem (by decide) (hall hd)

/-- An acceptable line is all of an inbox that offers an integer and holds no other line. -/
theorem acceptable_iff :
    Acceptable line ↔ (nextInteger line).toOption.isSome = true ∧ afterLine line = [] := by
  apply Iff.intro
  · rintro ⟨value, h⟩
    obtain ⟨⟨numeral, rfl, hb⟩, -⟩ := accepted_iff_numeralBytes.1 h
    have ht := @takenLine_terminated numeral [] hb.newline_notMem
    rw [← ht] at h
    rw [nextInteger_eq_ok_iff.2 (offers_iff_accepted.2 h), afterLine_terminated hb.newline_notMem]
    exact ⟨rfl, rfl⟩
  · intro hx
    obtain ⟨hv, ha⟩ := hx
    cases hi : nextInteger line with
    | error error =>
      rw [hi] at hv
      cases hv
    | ok value =>
      have ht := takenLine_append_afterLine line
      rw [ha, List.append_nil] at ht
      have h := offers_iff_accepted.1 (nextInteger_eq_ok_iff.1 hi)
      rw [ht] at h
      exact ⟨value, h⟩

instance : DecidablePred Acceptable := fun _ => decidable_of_iff _ acceptable_iff.symm

/-- The inbox without its lines that are not acceptable. -/
def acceptable (inbox : List UInt8) : List UInt8 :=
  ((inputLines inbox).filter fun line => Acceptable line).flatten

theorem isChain_line (hn : newline ∉ line) (last : UInt8) :
    (line ++ [last]).IsChain fun byte _ => (byte != newline) = true := by
  induction line with
  | nil => exact .singleton last
  | cons byte line ih =>
    rw [List.cons_append, List.isChain_cons]
    refine ⟨?_, ih fun h => hn (List.mem_cons_of_mem _ h)⟩
    intro _ _
    exact ne_newline_of_mem hn (List.mem_cons_self ..)

theorem inputLines_of_ne_nil (h : inbox ≠ []) :
    inputLines inbox = takenLine inbox :: inputLines (afterLine inbox) := by
  by_cases hn : newline ∈ inbox
  · obtain ⟨line, rest, rfl, hl⟩ := List.eq_append_cons_of_mem hn
    have hs : (line ++ [newline]).splitBy (fun byte _ => byte != newline) = [line ++ [newline]] :=
      List.splitBy_of_isChain (by simp) (isChain_line hl newline)
    rw [takenLine_terminated hl, afterLine_terminated hl, List.append_cons, inputLines,
      List.splitBy_append, hs]
    · rfl
    · intro last hlast _ _
      rw [List.getLast?_concat] at hlast
      cases hlast
      rfl
  · have hd := List.dropLast_concat_getLast h
    have hs : inbox.splitBy (fun byte _ => byte != newline) = [inbox] := by
      apply List.splitBy_of_isChain h
      rw [← hd]
      exact isChain_line (fun hm => hn (List.dropLast_subset _ hm)) _
    rw [takenLine_last hn, afterLine_last hn, inputLines, hs]
    rfl

theorem acceptable_of_offers (h : Offers inbox value) :
    acceptable inbox = takenLine inbox ++ acceptable (afterLine inbox) := by
  have hne : inbox ≠ [] := List.ne_nil_of_mem h.newline_mem
  have ha : Acceptable (takenLine inbox) := ⟨value, offers_iff_accepted.1 h⟩
  rw [acceptable, inputLines_of_ne_nil hne, List.filter_cons, if_pos (decide_eq_true ha),
    List.flatten_cons]
  rfl

theorem acceptable_of_not_offers (h : ¬ ∃ value, Offers inbox value) :
    acceptable inbox = acceptable (afterLine inbox) := by
  by_cases hne : inbox = []
  · rw [hne]
    rfl
  · have ha : ¬ Acceptable (takenLine inbox) := by
      rintro ⟨value, hv⟩
      exact h ⟨value, offers_iff_accepted.2 hv⟩
    rw [acceptable, inputLines_of_ne_nil hne, List.filter_cons, if_neg (by rwa [decide_eq_true_eq])]
    rfl

/-- What follows a line does not matter to whether it is accepted. -/
theorem Offers.takenLine_append (h : Offers inbox value) (rest : List UInt8) :
    Offers (takenLine inbox ++ rest) value ∧ afterLine (takenLine inbox ++ rest) = rest := by
  cases h with
  | line hn ht hv hr =>
    rw [takenLine_terminated hn, List.append_assoc]
    exact ⟨.line hn ht hv hr, afterLine_terminated hn⟩

theorem length_afterLine_lt (h : inbox ≠ []) : (afterLine inbox).length < inbox.length := by
  have hl := congrArg List.length (takenLine_append_afterLine inbox)
  have ht : takenLine inbox ≠ [] := by
    intro he
    have ha := takenLine_append_afterLine inbox
    rw [he, List.nil_append] at ha
    exact afterLine_ne_self h ha
  have hp := List.length_pos_of_ne_nil ht
  rw [List.length_append] at hl
  omega

namespace Machine

/-- What a driver has got out of a machine: what its successful steps left, the input aside, and the
fault at which the driver stopped, if it did. -/
structure Driven where
  passed : List Machine
  stop? : Option Fault

/-- The driver's account with one more successful step before all others. -/
def Driven.after (machine : Machine) (driven : Driven) : Driven :=
  { driven with passed := machine.withInput [] :: driven.passed }

/-- Calls a machine for a step up to a number of times. A step that a stream makes fail is tried again
as long as there is input left, and any other fault stops the driver. -/
def drive : Nat → Machine → Driven
  | 0, _ => ⟨[], none⟩
  | calls + 1, machine =>
    match machine.step.result with
    | .ok () => (drive calls machine.step.machine).after machine.step.machine
    | .error .inputOutput =>
      if machine.step.machine.inbox.isEmpty then ⟨[], some .inputOutput⟩
      else drive calls machine.step.machine
    | .error fault => ⟨[], some fault⟩

/-- The machine without the lines of its input that are not acceptable. -/
def cleared (machine : Machine) : Machine := machine.withInput (acceptable machine.inbox)

/-- How the next step of a machine compares with that of the cleared one: they go together, or the
machine skips a line that the other one does not have, or both find the end of their input. -/
inductive Compares (machine : Machine) : Prop
  | together (hn : machine.step.result ≠ .error .inputOutput)
      (hr : machine.cleared.step.result = machine.step.result)
      (hm : machine.cleared.step.machine = machine.step.machine.cleared) : Compares machine
  | skips (hr : machine.step.result = .error .inputOutput) (hi : machine.step.machine.inbox ≠ [])
      (hl : machine.step.machine.inbox.length < machine.inbox.length)
      (hm : machine.step.machine.cleared = machine.cleared) : Compares machine
  | exhausts (hr : machine.step.result = .error .inputOutput)
      (hi : machine.step.machine.inbox = [])
      (hr' : machine.cleared.step.result = .error .inputOutput)
      (hi' : machine.cleared.step.machine.inbox = []) : Compares machine

variable {machine : Machine} {calls : Nat} {fault : Fault}

theorem drive_of_ok (h : machine.step.result = .ok ()) :
    machine.drive (calls + 1) =
      (machine.step.machine.drive calls).after machine.step.machine := by
  rw [drive, h]

theorem drive_of_fault (h : machine.step.result = .error fault) (hf : fault ≠ .inputOutput) :
    machine.drive (calls + 1) = ⟨[], some fault⟩ := by
  rw [drive, h]
  cases fault with
  | inputOutput => exact absurd rfl hf
  | _ => rfl

theorem drive_of_exhausted (h : machine.step.result = .error .inputOutput)
    (hi : machine.step.machine.inbox = []) :
    machine.drive (calls + 1) = ⟨[], some .inputOutput⟩ := by
  rw [drive, h, hi]
  rfl

theorem drive_of_skipped (h : machine.step.result = .error .inputOutput)
    (hi : machine.step.machine.inbox ≠ []) :
    machine.drive (calls + 1) = machine.step.machine.drive calls := by
  rw [drive, h]
  exact if_neg (by rwa [List.isEmpty_iff])

/-- If the output cannot fail, a step that a stream makes fail asked for a number. -/
theorem Steps.executes_of_inputOutput {after : Machine}
    (h : machine.Steps after (.error .inputOutput))
    (hd : ∀ n, machine.outbox.device n = .accepted) : machine.Executes 901 := by
  cases h with
  | failed hf hc =>
    cases hc with
    | inp ho => exact hf.executes ho
    | out _ hr =>
      rw [Outbox.refusal?_eq_none_iff.2 (hd _)] at hr
      cases hr

theorem Executes.compares_of_offers (hx : machine.Executes 901) {value : Int}
    (h : Offers machine.inbox value) : machine.Compares := by
  obtain ⟨ho, ha⟩ := h.takenLine_append (acceptable (afterLine machine.inbox))
  rw [← acceptable_of_offers h] at ho ha
  have hc : machine.cleared.Executes 901 := hx
  have hs := hx.step_of_ok (nextInteger_eq_ok_iff.2 h)
  have hs' := hc.step_of_ok (nextInteger_eq_ok_iff.2 ho)
  refine .together ?_ ?_ ?_
  · rw [hs]
    exact fun he => nomatch he
  · rw [hs, hs']
  · rw [hs, hs', cleared, withInput]
    simp only [ha]
    rfl

theorem Executes.compares_of_not_offers (hx : machine.Executes 901)
    (h : ¬ ∃ value, Offers machine.inbox value) : machine.Compares := by
  obtain ⟨error, hv⟩ := not_offers_iff.1 h
  have hs := hx.step_of_error hv
  have ha := acceptable_of_not_offers h
  by_cases hi : afterLine machine.inbox = []
  · have hc : machine.cleared.Executes 901 := hx
    have hn : machine.cleared.inbox = [] := ha.trans (by rw [hi]; rfl)
    have he : nextInteger machine.cleared.inbox = .error .exhausted := by
      rw [hn]
      rfl
    have hs' := hc.step_of_error he
    refine .exhausts (by rw [hs]) (by rw [hs]; exact hi) (by rw [hs']) ?_
    rw [hs', hn]
    rfl
  · have hne : machine.inbox ≠ [] := by
      intro he
      rw [he] at hi
      exact hi rfl
    refine .skips (by rw [hs]) (by rw [hs]; exact hi) ?_ ?_
    · rw [hs]
      exact length_afterLine_lt hne
    · rw [hs, cleared, cleared, ha]
      rfl

theorem compares (hd : ∀ n, machine.outbox.device n = .accepted) : machine.Compares := by
  by_cases hx : machine.Executes 901
  · by_cases ho : ∃ value, Offers machine.inbox value
    · obtain ⟨value, ho⟩ := ho
      exact hx.compares_of_offers ho
    · exact hx.compares_of_not_offers ho
  · have hs := step_withInput hx (acceptable machine.inbox)
    have hi := machine.step_steps.inbox_eq
    rw [if_neg hx] at hi
    refine .together ?_ (by rw [cleared, hs]; rfl) ?_
    · intro hr
      have hs := machine.step_steps
      rw [hr] at hs
      exact hx (hs.executes_of_inputOutput hd)
    · rw [cleared, hs, cleared, hi]
      rfl

theorem step_accepted (hd : ∀ n, machine.outbox.device n = .accepted) (n : Nat) :
    machine.step.machine.outbox.device n = .accepted := by
  rw [machine.step_steps.device_eq, hd]

theorem drive_succ_of_together {fewer : Nat} (hn : machine.step.result ≠ .error .inputOutput)
    (hr : machine.cleared.step.result = machine.step.result)
    (hm : machine.cleared.step.machine = machine.step.machine.cleared)
    (hf : machine.step.machine.cleared.drive fewer = machine.step.machine.drive calls) :
    machine.cleared.drive (fewer + 1) = machine.drive (calls + 1) := by
  cases hs : machine.step.result with
  | ok value =>
    rw [drive_of_ok hs, drive_of_ok (hr.trans hs), hm, hf]
    rfl
  | error fault =>
    have hne : fault ≠ .inputOutput := by
      rintro rfl
      exact hn hs
    rw [drive_of_fault hs hne, drive_of_fault (hr.trans hs) hne]

/-- The cleared machine needs no more calls than the machine itself. -/
theorem exists_drive_cleared_eq (hd : ∀ n, machine.outbox.device n = .accepted) (calls : Nat) :
    ∃ fewer, machine.cleared.drive fewer = machine.drive calls := by
  induction calls generalizing machine with
  | zero => exact ⟨0, rfl⟩
  | succ calls ih =>
    obtain ⟨fewer, hf⟩ := ih (step_accepted hd)
    cases compares hd with
    | together hn hr hm => exact ⟨fewer + 1, drive_succ_of_together hn hr hm hf⟩
    | skips hr hi hl hm =>
      refine ⟨fewer, ?_⟩
      rw [drive_of_skipped hr hi, ← hf, hm]
    | exhausts hr hi hr' hi' =>
      refine ⟨1, ?_⟩
      rw [drive_of_exhausted hr hi, drive_of_exhausted hr' hi']

theorem exists_drive_eq_cleared (hd : ∀ n, machine.outbox.device n = .accepted) (calls : Nat) :
    ∃ more, machine.drive more = machine.cleared.drive calls := by
  induction calls generalizing machine with
  | zero => exact ⟨0, rfl⟩
  | succ calls ih =>
    -- The machine may skip many lines while the other one makes a call, but each shortens its input.
    induction hl : machine.inbox.length using Nat.strong_induction_on generalizing machine with
    | h length ihl =>
      cases compares hd with
      | together hn hr hm =>
        obtain ⟨more, hf⟩ := ih (step_accepted hd)
        exact ⟨more + 1, (drive_succ_of_together hn hr hm hf.symm).symm⟩
      | skips hr hi hlt hm =>
        rw [hl] at hlt
        obtain ⟨more, hf⟩ := ihl _ hlt (step_accepted hd) rfl
        refine ⟨more + 1, ?_⟩
        rw [drive_of_skipped hr hi, hf, hm]
      | exhausts hr hi hr' hi' =>
        refine ⟨1, ?_⟩
        rw [drive_of_exhausted hr hi, drive_of_exhausted hr' hi']

/-- A driver with more calls goes on from where it had got to, unless it had stopped there. -/
theorem drive_extends (machine : Machine) (calls more : Nat) :
    (machine.drive calls).passed <+: (machine.drive (calls + more)).passed ∧
      ((machine.drive calls).stop? ≠ none → machine.drive (calls + more) = machine.drive calls) := by
  induction calls generalizing machine with
  | zero => exact ⟨List.nil_prefix, fun h => absurd rfl h⟩
  | succ calls ih =>
    obtain ⟨hp, hs⟩ := ih machine.step.machine
    rw [Nat.add_right_comm]
    cases hr : machine.step.result with
    | ok value =>
      rw [drive_of_ok hr, drive_of_ok hr]
      exact ⟨(List.prefix_cons_inj _).2 hp, fun h => congrArg _ (hs h)⟩
    | error fault =>
      by_cases hf : fault = .inputOutput
      · subst hf
        by_cases hi : machine.step.machine.inbox = []
        · rw [drive_of_exhausted hr hi, drive_of_exhausted hr hi]
          exact ⟨List.prefix_rfl, fun _ => rfl⟩
        · rw [drive_of_skipped hr hi, drive_of_skipped hr hi]
          exact ⟨hp, hs⟩
      · rw [drive_of_fault hr hf, drive_of_fault hr hf]
        exact ⟨List.prefix_rfl, fun _ => rfl⟩

/-- The driver stops at the fault of some step, and if that is one that a stream made fail, with no
input left. -/
theorem drive_stops (h : (machine.drive calls).stop? = some fault) :
    ∃ k, (machine.afterSteps k).step.result = .error fault ∧
      (fault = .inputOutput → (machine.afterSteps (k + 1)).inbox = []) := by
  induction calls generalizing machine with
  | zero => cases h
  | succ calls ih =>
    cases hr : machine.step.result with
    | ok value =>
      rw [drive_of_ok hr] at h
      obtain ⟨k, hk⟩ := ih h
      exact ⟨k + 1, hk⟩
    | error other =>
      by_cases hf : other = .inputOutput
      · subst hf
        by_cases hi : machine.step.machine.inbox = []
        · rw [drive_of_exhausted hr hi] at h
          cases h
          exact ⟨0, hr, fun _ => hi⟩
        · rw [drive_of_skipped hr hi] at h
          obtain ⟨k, hk⟩ := ih h
          exact ⟨k + 1, hk⟩
      · rw [drive_of_fault hr hf] at h
        cases h
        exact ⟨0, hr, fun he => absurd he hf⟩

theorem InRange.withInput (h : machine.InRange) (inbox : List UInt8) :
    (machine.withInput inbox).InRange :=
  ⟨h.pc, h.accumulator, h.memory⟩

theorem afterSteps_accepted (hd : ∀ n, machine.outbox.device n = .accepted) (k : Nat) :
    ∀ n, (machine.afterSteps k).outbox.device n = .accepted :=
  afterSteps_preserves (P := fun after => ∀ n, after.outbox.device n = .accepted)
    (fun _ ha => step_accepted ha) hd k

theorem InRange.drive_stops (hm : machine.InRange)
    (hd : ∀ n, machine.outbox.device n = .accepted)
    (h : (machine.drive calls).stop? = some fault) :
    ∃ k, (machine.afterSteps k).step.result = .error fault ∧
      (fault = .machineHalted ∨ fault = .invalidCommand ∨
        fault = .inputOutput ∧ (machine.afterSteps k).Executes 901 ∧
          (machine.afterSteps (k + 1)).inbox = []) := by
  obtain ⟨k, hr, hi⟩ := Machine.drive_stops h
  have hs := (machine.afterSteps k).step_steps
  rw [hr] at hs
  refine ⟨k, hr, ?_⟩
  cases fault with
  | machineHalted => exact .inl rfl
  | programCounterOutOfBounds => exact absurd rfl (hs.ne_outOfBounds (hm.afterSteps k))
  | invalidCommand => exact .inr (.inl rfl)
  | inputOutput =>
    exact .inr (.inr ⟨rfl, hs.executes_of_inputOutput (afterSteps_accepted hd k), hi rfl⟩)

/-- A driver that tries again after every refused line, as long as there is input left, comes with a
machine through the same states as with the lines that are not acceptable taken out of its input. It
stops at the same fault or at none in both cases: since the machine has halted, at a word that is no
command, or at a step for a number once the input is used up. -/
theorem Reachable.retries_alike (h : Reachable machine)
    (hd : ∀ n, machine.outbox.device n = .accepted) (inbox : List UInt8) :
    (∀ driven, (∃ calls, (machine.withInput inbox).drive calls = driven) ↔
        ∃ calls, (machine.withInput (acceptable inbox)).drive calls = driven) ∧
      ((∀ calls, ((machine.withInput inbox).drive calls).stop? = none) ↔
        ∀ calls, ((machine.withInput (acceptable inbox)).drive calls).stop? = none) ∧
      (∀ calls more, ((machine.withInput inbox).drive calls).passed <+:
          ((machine.withInput inbox).drive (calls + more)).passed ∧
        (((machine.withInput inbox).drive calls).stop? ≠ none →
          (machine.withInput inbox).drive (calls + more) =
            (machine.withInput inbox).drive calls)) ∧
      ∀ calls fault, ((machine.withInput inbox).drive calls).stop? = some fault →
        ∃ k, ((machine.withInput inbox).afterSteps k).step.result = .error fault ∧
          (fault = .machineHalted ∨ fault = .invalidCommand ∨
            fault = .inputOutput ∧ ((machine.withInput inbox).afterSteps k).Executes 901 ∧
              ((machine.withInput inbox).afterSteps (k + 1)).inbox = []) := by
  have hd' (n : Nat) : (machine.withInput inbox).outbox.device n = .accepted := hd n
  have hforth := exists_drive_cleared_eq hd'
  have hback := exists_drive_eq_cleared hd'
  refine ⟨?_, ?_, (machine.withInput inbox).drive_extends, ?_⟩
  · intro driven
    apply Iff.intro
    · rintro ⟨calls, rfl⟩
      exact hforth calls
    · rintro ⟨calls, rfl⟩
      exact hback calls
  · apply Iff.intro
    · intro hn calls
      obtain ⟨more, hm⟩ := hback calls
      exact hm ▸ hn more
    · intro hn calls
      obtain ⟨fewer, hm⟩ := hforth calls
      exact hm ▸ hn fewer
  · intro calls fault hs
    exact (h.inRange.withInput inbox).drive_stops hd' hs

/-- A machine that prints every number that it reads. -/
def parrot : Machine :=
  ({} : Machine).load (.ofFn fun a => if a.val = 0 then 901 else if a.val = 1 then 902 else 600)

/-- Of six lines two are acceptable, and the last one does not end. Ten calls for a step make six
successful ones of it. -/
theorem parrot_retries_alike :
    ∃ inbox, inbox = encodeUtf8 "x\n\n7\n8\r\n-9\n5" ∧ acceptable inbox = encodeUtf8 "7\n-9\n" ∧
      ((parrot.withInput inbox).drive 10).passed.map (·.accumulator) = [7, 7, 7, -9, -9, -9] ∧
      ((parrot.withInput inbox).drive 10).stop? = some .inputOutput ∧
      ∃ calls, (parrot.withInput (encodeUtf8 "7\n-9\n")).drive calls =
        (parrot.withInput inbox).drive 10 := by
  have h : Reachable parrot := .call (.new [] {}) (.load _)
  have ha : acceptable (encodeUtf8 "x\n\n7\n8\r\n-9\n5") = encodeUtf8 "7\n-9\n" := by
    decide +kernel
  have hc := ((h.retries_alike (fun n => rfl) (encodeUtf8 "x\n\n7\n8\r\n-9\n5")).1 _).1 ⟨10, rfl⟩
  rw [ha] at hc
  exact ⟨_, rfl, ha, by decide +kernel, by decide +kernel, hc⟩

end Machine

end LittleMan
