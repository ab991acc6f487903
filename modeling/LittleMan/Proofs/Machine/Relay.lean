import LittleMan.Proofs.Numeral
import LittleMan.Proofs.Machine.Streams

/-! One machine reads what another one has printed: number by number the same words, and then the end
of its input. -/

namespace LittleMan

theorem AtRest.inRange64 {word : Int} (h : AtRest word) : InRange64 word := by
  obtain ⟨hl, hu⟩ := h
  omega

namespace Machine

/-- The next step prints the accumulator, and succeeds. -/
def Sends (machine : Machine) : Prop := machine.Executes 902 ∧ machine.step.result = .ok ()

instance (machine : Machine) : Decidable machine.Sends := inferInstanceAs (Decidable (_ ∧ _))

/-- The words that the steps of some machines print, in their order. -/
def sent (passed : List Machine) : List Int :=
  (passed.filter fun machine => machine.Sends).map (·.accumulator)

/-- Those of some machines whose steps ask for a number. -/
def asking (passed : List Machine) : List Machine :=
  passed.filter fun machine => machine.Executes 901

/-- Machines that ask for numbers find the lines of some words, one each, and then nothing. -/
structure Fed (numbers : List Int) (passed : List Machine) (machine : Machine) : Prop where
  left : machine.inbox = (numbers.drop (asking passed).length).flatMap outputLine
  found : (asking passed).map (·.inbox) =
    (List.range (asking passed).length).map fun i => (numbers.drop i).flatMap outputLine

variable {start machine after asker : Machine} {passed : List Machine} {numbers : List Int}
  {value : Int} {i : Nat} {result : Except Fault Unit} {inbox : List UInt8} {outbox : Outbox}

theorem newline_notMem_encodeUtf8_numeral (value : Int) :
    newline ∉ encodeUtf8 (.ofList (numeral value)) := by
  rw [encodeUtf8_ofList fun c hc => by have := toNat_bounds_of_mem_numeral hc; omega]
  intro h
  obtain ⟨c, hc, he⟩ := List.mem_map.1 h
  obtain ⟨hl, hu⟩ := toNat_bounds_of_mem_numeral hc
  have hn : c.toNat % 256 = 10 := congrArg UInt8.toNat he
  omega

theorem nextInteger_outputLine (hr : InRange64 value) (rest : List UInt8) :
    nextInteger (outputLine value ++ rest) = .ok value := by
  rw [outputLine, List.append_assoc]
  refine (nextInteger_terminated (newline_notMem_encodeUtf8_numeral value)).2
    ⟨_, decodeUtf8?_encodeUtf8 _, ?_⟩
  rw [String.toList_ofList]
  exact readNumeral_numeral hr

theorem afterLine_outputLine (value : Int) (rest : List UInt8) :
    afterLine (outputLine value ++ rest) = rest := by
  rw [outputLine, List.append_assoc]
  exact afterLine_terminated (newline_notMem_encodeUtf8_numeral value)

theorem afterLine_lines (numbers : List Int) (i : Nat) :
    afterLine ((numbers.drop i).flatMap outputLine) = (numbers.drop (i + 1)).flatMap outputLine := by
  rw [← List.tail_drop]
  cases numbers.drop i with
  | nil => rfl
  | cons word rest => exact afterLine_outputLine word _

theorem Executes.ok_of_accepted (hx : machine.Executes 902)
    (hd : ∀ n, machine.outbox.device n = .accepted) (h : machine.Steps after result) :
    result = .ok () := by
  obtain ⟨-, -, -, hr⟩ | ⟨hc, -⟩ := hx.cases (n := 2) (by decide) h
  · exact hr
  · cases hc with
    | inp ho => cases ho
    | out _ hr =>
      rw [Outbox.refusal?_eq_none_iff.2 (hd _)] at hr
      cases hr

theorem Executes.receives (hx : machine.Executes 901)
    (hv : nextInteger machine.inbox = .ok value) (h : machine.Steps after result) :
    result = .ok () ∧ after.accumulator = wrap value := by
  obtain ⟨left, hc, rfl, hr⟩ | ⟨hc, -⟩ := hx.cases (n := 1) (by decide) h
  · refine ⟨hr, ?_⟩
    cases hc with
    | inp _ hv' =>
      cases hv.symm.trans hv'
      exact wrap_wrap value
    | out ho => cases ho
    | ignored h1 => exact absurd rfl h1
  · cases hc with
    | inp _ hv' => cases hv.symm.trans hv'
    | out ho => cases ho

theorem Executes.step_exhausted (hx : machine.Executes 901) (hi : machine.inbox = []) :
    machine.step.result = .error .inputOutput ∧
      .inputFailed .exhausted ∈ machine.step.events := by
  have hv : nextInteger machine.inbox = .error .exhausted := by
    rw [hi]
    rfl
  rw [hx.step_of_error hv]
  exact ⟨rfl, List.mem_cons_of_mem _ (List.mem_singleton_self _)⟩

/-- To a device that accepts all of it, the steps for output print what they are said to send. -/
theorem printed_eq_sent (h : ∀ machine ∈ passed, ∀ n, machine.outbox.device n = .accepted) :
    printed passed = sent passed := by
  rw [printed, sent]
  congr 1
  apply List.filter_congr
  intro machine hm
  rw [decide_eq_decide]
  exact ⟨fun hx => ⟨hx, hx.ok_of_accepted (h machine hm) machine.step_steps⟩, fun hs => hs.1⟩

/-- What a machine has printed since it was new is the words that its steps sent, which are at
rest. -/
theorem Session.written_eq_sent (h : Session { inbox, outbox } passed machine)
    (hd : ∀ n, outbox.device n = .accepted) :
    machine.outbox.written = outbox.written ++ (sent passed).flatMap outputLine ∧
      ∀ word ∈ sent passed, AtRest word := by
  have hdevice : ∀ other ∈ passed, ∀ n, other.outbox.device n = .accepted := by
    apply h.all (Q := fun other => ∀ n, other.outbox.device n = .accepted) hd
    · intro machine image hm
      exact hm
    · intro machine hm n
      rw [machine.step_steps.device_eq, hm]
  have hrange : ∀ other ∈ passed, other.InRange :=
    h.all (InRange.new inbox outbox) (fun machine image _ => InRange.load machine image)
      fun machine hm => machine.step_steps.inRange hm
  refine ⟨?_, ?_⟩
  · rw [(h.streamed hd).written, printed_eq_sent hdevice]
  · intro word hw
    obtain ⟨other, ho, rfl⟩ := List.mem_map.1 hw
    exact (hrange other (List.mem_filter.1 ho).1).accumulator

theorem Fed.new (hi : start.inbox = numbers.flatMap outputLine) : Fed numbers [] start where
  left := hi
  found := rfl

theorem Fed.step (h : Fed numbers passed machine) :
    Fed numbers (passed ++ [machine]) machine.step.machine := by
  have hi := machine.step_steps.inbox_eq
  have hc : asking (passed ++ [machine]) = _ := filter_executes_concat 901 passed machine
  rw [← asking] at hc
  by_cases hx : machine.Executes 901
  · rw [if_pos hx] at hi hc
    refine ⟨?_, ?_⟩
    · rw [hi, h.left, afterLine_lines, hc, List.length_append, List.length_singleton]
    · rw [hc, List.length_append, List.length_singleton, List.range_succ, List.map_append,
        List.map_append, h.found, List.map_singleton, h.left]
      rfl
  · rw [if_neg hx] at hi hc
    rw [List.append_nil] at hc
    refine ⟨?_, ?_⟩
    · rw [hi, hc]
      exact h.left
    · rw [hc]
      exact h.found

theorem Fed.inbox_eq (h : Fed numbers passed machine) (ha : (asking passed)[i]? = some asker) :
    asker.inbox = (numbers.drop i).flatMap outputLine := by
  have hlt := (List.getElem?_eq_some_iff.1 ha).1
  have hf := congrArg (·[i]?) h.found
  simp only [List.getElem?_map, ha, List.getElem?_range hlt, Option.map_some] at hf
  exact Option.some.inj hf

theorem Session.fed (h : Session start passed machine)
    (hi : start.inbox = numbers.flatMap outputLine) : Fed numbers passed machine :=
  h.induction (.new hi) (fun _ _ _ hx => ⟨hx.left, hx.found⟩) fun _ _ hx => hx.step

/-- A machine whose input is what another one has printed since it was new gets, each time that it
asks for a number, the next word that the other one sent, and once it has got them all, none. -/
theorem Session.relayed (hd : ∀ n, outbox.device n = .accepted)
    (h : Session { inbox, outbox } passed machine) {reader : Machine}
    (hw : machine.outbox.written = outbox.written ++ reader.inbox) {asked : List Machine}
    (hs : Session reader asked after) (ha : (asking asked)[i]? = some asker) :
    (∀ word, (sent passed)[i]? = some word →
        asker.step.result = .ok () ∧ asker.step.machine.accumulator = word) ∧
      ((sent passed).length ≤ i →
        asker.step.result = .error .inputOutput ∧
          .inputFailed .exhausted ∈ asker.step.events) := by
  obtain ⟨hsent, hrest⟩ := h.written_eq_sent hd
  rw [hsent] at hw
  have hi := (hs.fed (List.append_cancel_left hw).symm).inbox_eq ha
  have hx : asker.Executes 901 :=
    of_decide_eq_true (List.mem_filter.1 (List.mem_of_getElem? ha)).2
  refine ⟨?_, ?_⟩
  · intro word hword
    obtain ⟨hlt, rfl⟩ := List.getElem?_eq_some_iff.1 hword
    have hat := hrest _ (List.getElem_mem hlt)
    rw [List.drop_eq_getElem_cons hlt] at hi
    have hv : nextInteger asker.inbox = .ok (sent passed)[i] := by
      rw [hi]
      exact nextInteger_outputLine hat.inRange64 _
    obtain ⟨hok, hacc⟩ := hx.receives hv asker.step_steps
    rw [hacc]
    exact ⟨hok, wrap_of_atRest hat⟩
  · intro hlen
    rw [List.drop_eq_nil_of_le hlen] at hi
    exact hx.step_exhausted hi

/-- A machine that is about to print two numbers and to halt. -/
def talker : Machine :=
  ({} : Machine).load (.ofFn fun a =>
    if a.val = 0 then 505 else if a.val = 2 then 506 else if a.val = 1 ∨ a.val = 3 then 902
    else if a.val = 5 then -7 else if a.val = 6 then 999 else 0)

/-- A machine that does nothing but read what the other one prints. -/
def listener : Machine := { inbox := [45, 55, 10, 57, 57, 57, 10], memory := .ofFn fun _ => 901 }

/-- The sixth step fails since the machine has halted, the third one of the other since its input
has ended. -/
theorem talker_relayed :
    (talker.afterSteps 6).outbox.written = listener.inbox ∧
      (talker.afterSteps 5).step.result = .error .machineHalted ∧
      listener.step.machine.accumulator = -7 ∧
      (listener.afterSteps 1).step.machine.accumulator = 999 ∧
      (listener.afterSteps 2).step.result = .error .inputOutput ∧
      .inputFailed .exhausted ∈ (listener.afterSteps 2).step.events := by
  have hd (n : Nat) : ({} : Outbox).device n = .accepted := rfl
  have h : Session ({} : Machine) ((List.range 6).map talker.afterSteps) (talker.afterSteps 6) :=
    afterSteps_extends (fun _ _ hx => Session.step hx) (Session.load .new _) 6
  have hs : Session listener ((List.range 3).map listener.afterSteps) (listener.afterSteps 3) :=
    afterSteps_extends (fun _ _ hx => Session.step hx) Session.new 3
  have hw : (talker.afterSteps 6).outbox.written = ({} : Outbox).written ++ listener.inbox := by
    decide +kernel
  have hsent : sent ((List.range 6).map talker.afterSteps) = [-7, 999] := by decide +kernel
  have hasking : asking ((List.range 3).map listener.afterSteps) =
      (List.range 3).map listener.afterSteps := List.filter_eq_self.2 (by decide +kernel)
  have hr {i : Nat} {asker : Machine}
      (ha : (asking ((List.range 3).map listener.afterSteps))[i]? = some asker) :=
    Session.relayed hd h hw hs ha
  rw [hasking, hsent] at hr
  obtain ⟨-, hfirst⟩ := (hr (i := 0) rfl).1 (-7) rfl
  obtain ⟨-, hsecond⟩ := (hr (i := 1) rfl).1 999 rfl
  obtain ⟨hlast, hevent⟩ := (hr (i := 2) rfl).2 (Nat.le_refl 2)
  exact ⟨hw, by decide +kernel, hfirst, hsecond, hlast, hevent⟩

end Machine

end LittleMan
