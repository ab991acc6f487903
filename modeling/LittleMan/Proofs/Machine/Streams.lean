import LittleMan.Proofs.Decimal
import LittleMan.Proofs.Input
import LittleMan.Proofs.Machine.Fault
import LittleMan.Proofs.Machine.Run

/-! The streams of a machine over all that it is made to do: input goes line by line to the steps
that ask for it, and output comes from the steps that print, in their order. -/

namespace LittleMan

theorem takenLine_append_afterLine (inbox : List UInt8) :
    takenLine inbox ++ afterLine inbox = inbox := by
  rw [takenLine]
  by_cases hn : newline ∈ inbox
  · obtain ⟨line, rest, rfl, hl⟩ := List.eq_append_cons_of_mem hn
    rw [if_pos hn, nextLine_terminated hl, afterLine_terminated hl, List.append_assoc]
    rfl
  · rw [if_neg hn, afterLine_last hn, List.append_nil, List.append_nil, nextLine]
    exact List.takeWhile_eq_self_iff.2 fun byte => ne_newline_of_mem hn

theorem getLast?_takenLine {inbox : List UInt8} (h : newline ∈ inbox) :
    (takenLine inbox).getLast? = some newline := by
  rw [takenLine, if_pos h, List.getLast?_concat]

theorem count_afterLine (inbox : List UInt8) :
    (takenLine inbox).count newline + (afterLine inbox).count newline = inbox.count newline := by
  rw [← List.count_append, takenLine_append_afterLine]

theorem afterLine_ne_self {inbox : List UInt8} (h : inbox ≠ []) : afterLine inbox ≠ inbox := by
  intro he
  by_cases hn : newline ∈ inbox
  · have ht := takenLine_append_afterLine inbox
    have hl := getLast?_takenLine hn
    rw [he, List.append_left_eq_self] at ht
    rw [ht] at hl
    cases hl
  · rw [afterLine_last hn] at he
    exact h he.symm

theorem Offers.newline_mem {inbox : List UInt8} {value : Int} (h : Offers inbox value) :
    newline ∈ inbox := by
  cases h with
  | line => exact List.mem_append_right _ (List.mem_cons_self ..)

namespace Machine

/-- The next step executes a word. -/
def Executes (machine : Machine) (word : Int) : Prop :=
  machine.halted = false ∧ machine.memory.read? machine.pc = some word

instance (machine : Machine) (word : Int) : Decidable (machine.Executes word) :=
  inferInstanceAs (Decidable (_ ∧ _))

/-- The next step reads a number, and gets one. -/
def Receives (machine : Machine) : Prop := machine.Executes 901 ∧ machine.step.result = .ok ()

instance (machine : Machine) : Decidable machine.Receives := inferInstanceAs (Decidable (_ ∧ _))

/-- What has been made of a machine by loading it, stepping it and running it, whether its steps
succeed or not. The list holds every machine on the way that made a step, in their order. -/
inductive Session (start : Machine) : List Machine → Machine → Prop
  | new : Session start [] start
  | load {passed : List Machine} {machine : Machine} (h : Session start passed machine)
      (image : Memory) : Session start passed (machine.load image)
  | step {passed : List Machine} {machine : Machine} (h : Session start passed machine) :
      Session start (passed ++ [machine]) machine.step.machine
  | run {passed : List Machine} {machine : Machine} {fuel n : Nat} {fault : Fault}
      {finished : Finished Unit} (h : Session start passed machine)
      (hr : machine.run fuel = some finished) (hn : machine.FailsAfter n fault) :
      Session start (passed ++ (List.range (n + 1)).map machine.afterSteps) finished.machine

/-- The input that the steps of some machines take. -/
def taken (passed : List Machine) : List UInt8 :=
  passed.flatMap fun machine => if machine.Executes 901 then takenLine machine.inbox else []

/-- The words that the steps of some machines print, in their order. -/
def printed (passed : List Machine) : List Int :=
  (passed.filter fun machine => machine.Executes 902).map (·.accumulator)

/-- How the streams of a machine stand after the steps of some others, given how they began. -/
structure Streamed (inbox : List UInt8) (outbox : Outbox) (passed : List Machine)
    (machine : Machine) : Prop where
  device : machine.outbox.device = outbox.device
  read : taken passed ++ machine.inbox = inbox
  ended : taken passed = [] ∨ (taken passed).getLast? = some newline ∨ machine.inbox = []
  written : machine.outbox.written = outbox.written ++ (printed passed).flatMap outputLine
  received : passed.countP (·.Receives) + machine.inbox.count newline ≤ inbox.count newline

variable {start machine after : Machine} {passed : List Machine} {inbox : List UInt8}
  {outbox : Outbox} {operand : Address} {result : Except Fault Unit}
  {n fuel : Nat} {fault : Fault} {finished : Finished Unit}

theorem Fetches.executes (h : machine.Fetches .io operand) (ho : operand.val = n) :
    machine.Executes (900 + (n : Int)) := by
  have hw := h.word
  rw [ho] at hw
  exact ⟨h.running, hw⟩

theorem Executes.fetches (h : machine.Executes (900 + (n : Int))) (hn : n < 100) :
    machine.Fetches .io ⟨n, hn⟩ := ⟨h.1, h.2⟩

theorem Executes.cases (hx : machine.Executes (900 + (n : Int))) (hn : n < 100)
    (h : machine.Steps after result) :
    (∃ left, machine.Completes ⟨n, hn⟩ .io left ∧ after = left.advance.settle ⟨n, hn⟩ ∧
        result = .ok ()) ∨
      machine.Fails ⟨n, hn⟩ .io after ∧ result = .error .inputOutput := by
  have hd := (hx.fetches hn).decode
  cases h with
  | completed hf hc =>
    obtain ⟨rfl, ho⟩ := hf.io_of_word hn hx.2
    obtain rfl := Fin.eq_of_val_eq (j := ⟨n, hn⟩) ho
    exact .inl ⟨_, hc, rfl, rfl⟩
  | failed hf hc =>
    obtain ⟨rfl, ho⟩ := hf.io_of_word hn hx.2
    obtain rfl := Fin.eq_of_val_eq (j := ⟨n, hn⟩) ho
    exact .inr ⟨hc, rfl⟩
  | halted hh =>
    rw [hx.1] at hh
    cases hh
  | outOfBounds _ hw =>
    rw [hx.2] at hw
    cases hw
  | notDecoded _ hw hnone =>
    rw [hx.2] at hw
    cases hw
    cases hd.symm.trans hnone
  | unknownDigit _ hw hsome hi =>
    rw [hx.2] at hw
    cases hw
    cases hd.symm.trans hsome
    rw [Instruction.ofDigit?_digit] at hi
    cases hi

theorem Executes.step_of_ok {value : Int} (hx : machine.Executes 901)
    (hv : nextInteger machine.inbox = .ok value) :
    machine.step =
      ⟨({ machine with inbox := afterLine machine.inbox, accumulator := wrap value } :
          Machine).advance.settle ⟨1, by decide⟩,
        [.fetched machine.pc .io ⟨1, by decide⟩, .received (wrap value)], .ok ()⟩ := by
  apply step_eq_of_completed (hx.fetches (n := 1) (by decide))
  rw [execute_receive rfl, receive, hv]

theorem Executes.step_of_error {error : InputError} (hx : machine.Executes 901)
    (hv : nextInteger machine.inbox = .error error) :
    machine.step =
      ⟨{ machine with inbox := afterLine machine.inbox },
        [.fetched machine.pc .io ⟨1, by decide⟩, .inputFailed error], .error .inputOutput⟩ := by
  apply step_eq_of_failed (hx.fetches (n := 1) (by decide))
  rw [execute_receive rfl, receive, hv]

/-- A step takes the next line exactly if it executes the word for it, whether it succeeds or not. -/
theorem Steps.inbox_eq (h : machine.Steps after result) :
    after.inbox = if machine.Executes 901 then afterLine machine.inbox else machine.inbox := by
  by_cases hx : machine.Executes 901
  · rw [if_pos hx]
    obtain ⟨left, hc, rfl, -⟩ | ⟨hc, -⟩ := hx.cases (n := 1) (by decide) h
    · cases hc with
      | inp => rfl
      | out ho => cases ho
      | ignored h1 => exact absurd rfl h1
    · cases hc with
      | inp => rfl
      | out ho => cases ho
  · rw [if_neg hx]
    cases h with
    | completed hf hc =>
      cases hc with
      | inp ho => exact absurd (hf.executes ho) hx
      | _ => rfl
    | failed hf hc =>
      cases hc with
      | inp ho => exact absurd (hf.executes ho) hx
      | out => rfl
    | _ => rfl

/-- A step delivers a line exactly if it executes the word for it, whether it succeeds or not. -/
theorem Steps.outbox_eq (h : machine.Steps after result) :
    after.outbox = if machine.Executes 902 then
      machine.outbox.deliver (outputLine machine.accumulator) else machine.outbox := by
  by_cases hx : machine.Executes 902
  · rw [if_pos hx]
    obtain ⟨left, hc, rfl, -⟩ | ⟨hc, -⟩ := hx.cases (n := 2) (by decide) h
    · cases hc with
      | inp ho => cases ho
      | out => rfl
      | ignored _ h2 => exact absurd rfl h2
    · cases hc with
      | inp ho => cases ho
      | out => rfl
  · rw [if_neg hx]
    cases h with
    | completed hf hc =>
      cases hc with
      | out ho => exact absurd (hf.executes ho) hx
      | _ => rfl
    | failed hf hc =>
      cases hc with
      | inp => rfl
      | out ho => exact absurd (hf.executes ho) hx
    | _ => rfl

theorem Steps.device_eq (h : machine.Steps after result) :
    after.outbox.device = machine.outbox.device := by
  rw [h.outbox_eq]
  split <;> rfl

theorem Steps.written_eq (h : machine.Steps after result)
    (hd : ∀ n, machine.outbox.device n = .accepted) :
    after.outbox.written = machine.outbox.written ++
      if machine.Executes 902 then outputLine machine.accumulator else [] := by
  rw [h.outbox_eq]
  split
  · rw [Outbox.written_deliver, hd]
  · exact (List.append_nil _).symm

theorem Steps.prints (h : machine.Steps after result)
    (hd : ∀ n, machine.outbox.device n = .accepted) :
    ∃ text, after.outbox.written = machine.outbox.written ++ text ∧
      if machine.Executes 902 then PrintedLine text machine.accumulator else text = [] := by
  refine ⟨_, h.written_eq hd, ?_⟩
  split
  · exact printedLine_outputLine _
  · rfl

theorem Receives.newline_mem (h : machine.Receives) : newline ∈ machine.inbox := by
  obtain ⟨hx, hr⟩ := h
  obtain ⟨left, hc, -, -⟩ | ⟨-, he⟩ := hx.cases (n := 1) (by decide) machine.step_steps
  · cases hc with
    | inp _ hv => exact (nextInteger_eq_ok_iff.1 hv).newline_mem
    | out ho => cases ho
    | ignored h1 => exact absurd rfl h1
  · rw [he] at hr
    cases hr

/-- A number that is read costs a newline of the input, and no step gives one back. -/
theorem count_inbox_step (machine : Machine) :
    (if machine.Receives then 1 else 0) + machine.step.machine.inbox.count newline ≤
      machine.inbox.count newline := by
  have hc := count_afterLine machine.inbox
  rw [machine.step_steps.inbox_eq]
  by_cases hr : machine.Receives
  · have hm := List.mem_of_getLast? (getLast?_takenLine hr.newline_mem)
    have hpos := List.count_pos_iff.2 hm
    rw [if_pos hr, if_pos hr.1]
    omega
  · rw [if_neg hr]
    split
    · omega
    · omega

theorem taken_concat (passed : List Machine) (machine : Machine) :
    taken (passed ++ [machine]) =
      taken passed ++ if machine.Executes 901 then takenLine machine.inbox else [] := by
  rw [taken, List.flatMap_append, List.flatMap_singleton]
  rfl

theorem filter_executes_concat (word : Int) (passed : List Machine) (machine : Machine) :
    (passed ++ [machine]).filter (fun other => other.Executes word) =
      passed.filter (fun other => other.Executes word) ++
        if machine.Executes word then [machine] else [] := by
  rw [List.filter_append, List.filter_cons, List.filter_nil]
  simp only [decide_eq_true_eq]

theorem printed_concat (passed : List Machine) (machine : Machine) :
    printed (passed ++ [machine]) =
      printed passed ++ if machine.Executes 902 then [machine.accumulator] else [] := by
  rw [printed, filter_executes_concat, List.map_append, ← printed]
  split <;> rfl

theorem Streamed.new (inbox : List UInt8) (outbox : Outbox) :
    Streamed inbox outbox [] { inbox, outbox } where
  device := rfl
  read := rfl
  ended := .inl rfl
  written := (List.append_nil _).symm
  received := Nat.le_of_eq (Nat.zero_add _)

theorem Streamed.load (h : Streamed inbox outbox passed machine) (image : Memory) :
    Streamed inbox outbox passed (machine.load image) :=
  ⟨h.device, h.read, h.ended, h.written, h.received⟩

theorem Streamed.ended_step (h : Streamed inbox outbox passed machine) :
    taken (passed ++ [machine]) = [] ∨ (taken (passed ++ [machine])).getLast? = some newline ∨
      machine.step.machine.inbox = [] := by
  rw [taken_concat, machine.step_steps.inbox_eq]
  by_cases hx : machine.Executes 901
  · rw [if_pos hx, if_pos hx]
    by_cases hn : newline ∈ machine.inbox
    · right
      left
      rw [List.getLast?_append, getLast?_takenLine hn, Option.some_or]
    · exact .inr (.inr (afterLine_last hn))
  · rw [if_neg hx, if_neg hx, List.append_nil]
    exact h.ended

theorem Streamed.step (h : Streamed inbox outbox passed machine)
    (hd : ∀ n, outbox.device n = .accepted) :
    Streamed inbox outbox (passed ++ [machine]) machine.step.machine where
  device := machine.step_steps.device_eq.trans h.device
  read := by
    rw [taken_concat, machine.step_steps.inbox_eq, List.append_assoc]
    split
    · rw [takenLine_append_afterLine]
      exact h.read
    · exact h.read
  ended := h.ended_step
  written := by
    have hd' (n : Nat) : machine.outbox.device n = .accepted := by rw [h.device, hd]
    rw [machine.step_steps.written_eq hd', h.written, printed_concat, List.flatMap_append,
      List.append_assoc]
    split
    · rw [List.flatMap_singleton]
    · rfl
  received := by
    have hs := machine.count_inbox_step
    have hr := h.received
    rw [List.countP_append, List.countP_singleton]
    simp only [decide_eq_true_eq]
    omega

theorem afterSteps_extends {P : List Machine → Machine → Prop}
    (hs : ∀ passed machine, P passed machine → P (passed ++ [machine]) machine.step.machine)
    (h : P passed machine) (n : Nat) :
    P (passed ++ (List.range n).map machine.afterSteps) (machine.afterSteps n) := by
  induction n with
  | zero =>
    rw [List.range_zero, List.map_nil, List.append_nil]
    exact h
  | succ n ih =>
    rw [List.range_succ, List.map_append, ← List.append_assoc, afterSteps_succ_last]
    exact hs _ _ ih

theorem FailsAfter.run_machine (hn : machine.FailsAfter n fault)
    (hr : machine.run fuel = some finished) : finished.machine = machine.afterSteps (n + 1) := by
  obtain ⟨m, other, hm, hf⟩ := FailsAfter.of_runWith hr
  obtain ⟨rfl, -⟩ := hf.unique hn
  rw [run, hf.runWith_eq hm] at hr
  cases hr
  rfl

theorem Session.of_run (h : Session start passed machine) (hr : machine.run fuel = some finished) :
    ∃ more, Session start (passed ++ more) finished.machine := by
  obtain ⟨n, fault, -, hf⟩ := FailsAfter.of_runWith hr
  exact ⟨_, h.run hr hf⟩

/-- What loads and steps keep holds of a whole session, since a run is no more than its steps. -/
theorem Session.induction {P : List Machine → Machine → Prop} (hn : P [] start)
    (hl : ∀ passed machine image, P passed machine → P passed (machine.load image))
    (hs : ∀ passed machine, P passed machine → P (passed ++ [machine]) machine.step.machine)
    (h : Session start passed machine) : P passed machine := by
  induction h with
  | new => exact hn
  | load _ image ih => exact hl _ _ image ih
  | step _ ih => exact hs _ _ ih
  | run _ hr hf ih =>
    rw [hf.run_machine hr]
    exact afterSteps_extends hs ih _

/-- What loads and steps keep holds of every machine on the way. -/
theorem Session.all {Q : Machine → Prop} (hq : Q start)
    (hl : ∀ machine image, Q machine → Q (machine.load image))
    (hs : ∀ machine, Q machine → Q machine.step.machine) (h : Session start passed machine) :
    ∀ other ∈ passed, Q other := by
  have hboth : (∀ other ∈ passed, Q other) ∧ Q machine := by
    apply h.induction (P := fun passed machine => (∀ other ∈ passed, Q other) ∧ Q machine)
    · exact ⟨List.forall_mem_nil _, hq⟩
    · intro passed machine image hx
      exact ⟨hx.1, hl machine image hx.2⟩
    · intro passed machine hx
      exact ⟨List.forall_mem_append.2 ⟨hx.1, List.forall_mem_singleton.2 hx.2⟩, hs machine hx.2⟩
  exact hboth.1

theorem Session.streamed (h : Session { inbox, outbox } passed machine)
    (hd : ∀ n, outbox.device n = .accepted) : Streamed inbox outbox passed machine :=
  h.induction (.new inbox outbox) (fun _ _ image hx => hx.load image) fun _ _ hx => hx.step hd

theorem count_inbox_afterSteps_le (machine : Machine) (n : Nat) :
    (machine.afterSteps n).inbox.count newline ≤ machine.inbox.count newline :=
  afterSteps_preserves (P := fun after => after.inbox.count newline ≤ machine.inbox.count newline)
    (fun after h => Nat.le_trans (Nat.le_of_add_left_le after.count_inbox_step) h) (Nat.le_refl _) n

theorem eventually_not_receives (machine : Machine) :
    ∃ n, ∀ k ≥ n, ¬ (machine.afterSteps k).Receives := by
  -- By induction on the newlines that are left: the next number costs one of them.
  induction hc : machine.inbox.count newline using Nat.strong_induction_on generalizing machine with
  | h count ih =>
    by_cases hx : ∃ n, (machine.afterSteps n).Receives
    · obtain ⟨n, hn⟩ := hx
      have hle := machine.count_inbox_afterSteps_le n
      have hs := (machine.afterSteps n).count_inbox_step
      rw [if_pos hn, ← afterSteps_succ_last] at hs
      obtain ⟨m, hm⟩ := ih _ (by omega) (machine.afterSteps (n + 1)) rfl
      refine ⟨m + (n + 1), ?_⟩
      intro k hk
      have hrest := hm (k - (n + 1)) (by omega)
      rwa [afterSteps, afterSteps, ← Function.iterate_add_apply, Nat.sub_add_cancel (by omega)]
        at hrest
    · exact ⟨0, fun k _ hk => hx ⟨k, hk⟩⟩

theorem inbox_step_ne_iff (machine : Machine) :
    machine.step.machine.inbox ≠ machine.inbox ↔ machine.Executes 901 ∧ machine.inbox ≠ [] := by
  rw [machine.step_steps.inbox_eq]
  by_cases hx : machine.Executes 901
  · rw [if_pos hx, and_iff_right hx]
    apply Iff.intro
    · intro hne he
      rw [he] at hne
      exact hne rfl
    · exact afterLine_ne_self
  · rw [if_neg hx]
    exact iff_of_false (not_not_intro rfl) fun h => hx h.1

/-- Whatever a machine is made to do, its input is used up line by line by the steps that execute
the word for it, failing ones included, and its output is the decimal text and a newline for each
step that executes the word for output, in their order. Loading touches neither stream, and the
input allows no more numbers than it has newlines. -/
theorem Session.streams (hd : ∀ n, outbox.device n = .accepted)
    (h : Session { inbox, outbox } passed machine) :
    (taken passed ++ machine.inbox = inbox ∧
      (taken passed = [] ∨ (taken passed).getLast? = some newline ∨ taken passed = inbox)) ∧
    ((machine.step.machine.inbox ≠ machine.inbox ↔
        machine.Executes 901 ∧ machine.inbox ≠ []) ∧
      (machine.Executes 901 → UsesLine machine.inbox machine.step.machine.inbox)) ∧
    ((∃ text, machine.outbox.written = outbox.written ++ text ∧
        PrintedLines text (printed passed)) ∧
      ∃ text, machine.step.machine.outbox.written = machine.outbox.written ++ text ∧
        if machine.Executes 902 then PrintedLine text machine.accumulator else text = []) ∧
    (∀ image, (machine.load image).inbox = machine.inbox ∧
      (machine.load image).outbox = machine.outbox) ∧
    (∀ fuel finished, machine.run fuel = some finished →
      ∃ more, Session { inbox, outbox } (passed ++ more) finished.machine) ∧
    passed.countP (·.Receives) ≤ inbox.count newline ∧
    ∃ n, ∀ k ≥ n, ¬ (machine.afterSteps k).Receives := by
  have hs := h.streamed hd
  have hd' (n : Nat) : machine.outbox.device n = .accepted := by rw [hs.device, hd]
  refine ⟨⟨hs.read, ?_⟩, ⟨machine.inbox_step_ne_iff, ?_⟩,
    ⟨⟨_, hs.written, printedLines_iff.2 rfl⟩, machine.step_steps.prints hd'⟩,
    fun image => ⟨rfl, rfl⟩, fun fuel finished => h.of_run, Nat.le_of_add_right_le hs.received,
    machine.eventually_not_receives⟩
  · obtain he | he | he := hs.ended
    · exact .inl he
    · exact .inr (.inl he)
    · have hr := hs.read
      rw [he, List.append_nil] at hr
      exact .inr (.inr hr)
  · intro hx
    rw [machine.step_steps.inbox_eq, if_pos hx]
    exact usesLine_afterLine machine.inbox

/-- A machine that is about to read a number, to print it, and to read another one. Of the three
lines before it the second is no number and the third does not end. -/
def hasty : Machine :=
  ({ inbox := [55, 10, 120, 10, 53] } : Machine).load
    (.ofFn fun a => if a.val = 1 then 902 else 901)

theorem hasty_streams :
    ∃ passed machine,
      Session ({ inbox := [55, 10, 120, 10, 53] } : Machine) passed machine ∧
        passed.length = 4 ∧ machine.inbox = [] ∧ taken passed = [55, 10, 120, 10, 53] ∧
        machine.outbox.written = [55, 10] ∧ passed.countP (·.Receives) = 1 ∧
        passed.countP (·.Receives) ≤ 2 := by
  have hf : (hasty.afterSteps 3).FailsAfter 0 .inputOutput := failsAfter_zero.2 (by decide +kernel)
  have hr : (hasty.afterSteps 3).run 1 =
      some ⟨(hasty.afterSteps 3).afterSteps 1, (), .error .inputOutput⟩ :=
    (hf.runWith_eq (Nat.zero_lt_succ 0)).trans rfl
  have h : Session ({ inbox := [55, 10, 120, 10, 53] } : Machine)
      [hasty, hasty.afterSteps 1, hasty.afterSteps 2, hasty.afterSteps 3]
      ((hasty.afterSteps 3).afterSteps 1) :=
    .run (.step (.step (.step (.load .new _)))) hr hf
  obtain ⟨⟨ht, -⟩, -, ⟨⟨text, hw, hl⟩, -⟩, -, -, hc, -⟩ := Session.streams (fun n => rfl) h
  have hi : ((hasty.afterSteps 3).afterSteps 1).inbox = [] := by decide +kernel
  have hp : printed [hasty, hasty.afterSteps 1, hasty.afterSteps 2, hasty.afterSteps 3] = [7] := by
    decide +kernel
  have hone : text = [55, 10] := by
    rw [printedLines_iff.1 hl, hp]
    decide +kernel
  rw [hi, List.append_nil] at ht
  rw [hone] at hw
  exact ⟨_, _, h, rfl, hi, ht, hw, by decide +kernel, hc⟩

end Machine

end LittleMan
