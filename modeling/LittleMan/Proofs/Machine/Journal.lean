import LittleMan.Proofs.Machine.Fault
import LittleMan.Proofs.Machine.Run

/-! The log of a run: two entries for each step that succeeds, what the last step says of its fault,
and one entry for the end. -/

namespace LittleMan.Machine

/-- The name of an instruction, by its opcode digit. -/
def nameOf? : Nat → Option String
  | 0 => some "HLT"
  | 1 => some "ADD"
  | 2 => some "SUB"
  | 3 => some "STA"
  | 5 => some "LDA"
  | 6 => some "BRA"
  | 7 => some "BRZ"
  | 8 => some "BRP"
  | 9 => some "IO"
  | _ => none

/-- An address in two digits. -/
def padded (address : Nat) : String :=
  String.ofList [Nat.digitChar (address / 10), Nat.digitChar (address % 10)]

/-- The entry for an instruction that is about to be executed: its address, its name and its
operand. -/
def traced (pc : Nat) (name : String) (operand : Address) : Log.Entry :=
  ⟨.trace, .machine, padded pc ++ ": " ++ name ++ " " ++ padded operand.val⟩

/-- What a step logs, by its result: the instruction and what became of it, or why there is none. A
halted machine and a negative word leave no trace. -/
inductive Logs (machine : Machine) : Except Fault Unit → List Log.Entry → Prop
  | completed {digit : Nat} {name message : String} {operand : Address}
      (hh : machine.halted = false)
      (hw : machine.memory.read? machine.pc = some (100 * (digit : Int) + (operand.val : Int)))
      (hn : nameOf? digit = some name) :
      Logs machine (.ok ())
        [traced machine.pc name operand, ⟨.debug, .machine, message⟩]
  | failed {message : String} {operand : Address} (hh : machine.halted = false)
      (hw : machine.memory.read? machine.pc = some (900 + (operand.val : Int))) :
      Logs machine (.error .inputOutput)
        [traced machine.pc "IO" operand, ⟨.error, .machine, message⟩]
  | halted (hh : machine.halted = true) : Logs machine (.error .machineHalted) []
  | negative {word : Int} (hh : machine.halted = false)
      (hw : machine.memory.read? machine.pc = some word) (hn : word < 0) :
      Logs machine (.error .invalidCommand) []
  | unknown {word : Int} (hh : machine.halted = false)
      (hw : machine.memory.read? machine.pc = some word) (hd : word / 100 = 4) :
      Logs machine (.error .invalidCommand)
        [⟨.warn, .machine, "Invalid opcode 4 at " ++ toString machine.pc⟩]

/-- The text of a fault. -/
def Fault.text : Fault → String
  | .machineHalted => "machine halted"
  | .programCounterOutOfBounds => "program counter out of bounds"
  | .invalidCommand => "invalid command passed to CPU"
  | .inputOutput => "input/output error"

/-- What a run logs when a fault ends it at a machine: the accumulator if the machine has halted,
otherwise the address of the step that failed and the text of its fault. -/
def closing (machine : Machine) (fault : Fault) : Log.Entry :=
  if fault = .machineHalted then
    ⟨.info, .machine, "Program terminated. ACC: " ++ toString machine.accumulator⟩
  else
    ⟨.error, .machine, "Program failed at " ++ toString machine.pc ++ ": " ++ fault.text⟩

def Sight.entry? : Sight → Option Log.Entry
  | .snapshot _ => none
  | .event happening => some happening.entry

/-- An observer who keeps what is logged. -/
def hearing (heard : List Log.Entry) : Sight → List Log.Entry
  | .snapshot _ => heard
  | .event happening => heard ++ [happening.entry]

/-- The log of a step. -/
def Stepped.logged (stepped : Stepped) : List Log.Entry := stepped.events.map Event.entry

variable {machine after : Machine} {instruction : Instruction} {operand : Address} {event : Event}
  {fault : Fault} {n : Nat}

theorem level_of_completed (h : machine.execute instruction operand = .completed after event) :
    event.level = .debug := by
  cases instruction with
  | io =>
    rw [execute] at h
    split at h
    · rw [receive] at h
      split at h <;> cases h
      rfl
    · rw [send] at h
      split at h <;> cases h
      rfl
    · cases h
      rfl
  | _ =>
    cases h
    rfl

theorem level_of_failed (h : machine.execute instruction operand = .failed after event) :
    instruction = .io ∧ event.level = .error := by
  cases instruction with
  | io =>
    rw [execute] at h
    split at h
    · rw [receive] at h
      split at h <;> cases h
      exact ⟨rfl, rfl⟩
    · rw [send] at h
      split at h <;> cases h
      exact ⟨rfl, rfl⟩
    · cases h
  | _ => cases h

theorem twoDigits_of_lt {number : Nat} (h : number < 100) :
    twoDigits number = [Nat.digitChar (number / 10), Nat.digitChar (number % 10)] := by
  have hall : ∀ number : Fin 100, twoDigits number.val =
      [Nat.digitChar (number.val / 10), Nat.digitChar (number.val % 10)] := by decide
  exact hall ⟨number, h⟩

theorem entry_fetched {pc : Nat} (h : pc < 100) (instruction : Instruction) (operand : Address) :
    (Event.fetched pc instruction operand).entry = traced pc instruction.name operand := by
  rw [traced, padded, padded, ← twoDigits_of_lt h, ← twoDigits_of_lt operand.isLt]
  rfl

theorem entry_of_level {level : Log.Level} (h : event.level = level) :
    event.entry = ⟨level, .machine, event.message⟩ := by
  rw [← h]
  rfl

theorem nameOf?_digit (instruction : Instruction) :
    nameOf? instruction.digit = some instruction.name := by
  cases instruction <;> rfl

theorem InRange.step_logs (hm : machine.InRange) :
    machine.Logs machine.step.result machine.step.logged := by
  rw [Stepped.logged, step]
  split
  · exact .halted ‹_›
  · have hh : machine.halted = false := Bool.eq_false_iff.mpr ‹_›
    have hr := hm.read?_eq
    split
    · next hw =>
      rw [hr] at hw
      cases hw
    · next word hw =>
      cases hr.symm.trans hw
      split
      · next hd => exact .negative hh hw (decode_eq_none_of_atRest (hm.memory _) hd)
      · next digit operand hd =>
        split
        · next hi =>
          obtain ⟨hn, he⟩ := decode_eq_some_iff.1 hd
          cases digit_eq_four hn hi
          exact .unknown hh hw (by omega)
        · next instruction hi =>
          have hf := (Fetches.of_decode hh hw hd hi).word
          split
          · next after event hx =>
            rw [List.map_cons, List.map_singleton, entry_fetched hm.pc,
              entry_of_level (level_of_completed hx)]
            exact .completed hh hf (nameOf?_digit instruction)
          · next after event hx =>
            obtain ⟨rfl, hl⟩ := level_of_failed hx
            rw [List.map_cons, List.map_singleton, entry_fetched hm.pc, entry_of_level hl]
            exact .failed hh hf

theorem foldl_hearing (heard : List Log.Entry) (sights : List Sight) :
    sights.foldl hearing heard = heard ++ sights.filterMap Sight.entry? := by
  induction sights generalizing heard with
  | nil => rw [List.foldl_nil, List.filterMap_nil, List.append_nil]
  | cons sight sights ih =>
    cases sight with
    | snapshot seen => exact ih heard
    | event happening => exact (ih (heard ++ [happening.entry])).trans (List.append_assoc _ _ _)

theorem filterMap_entry_preview (machine : Machine) :
    machine.preview.filterMap Sight.entry? = [] := by
  rw [preview, List.filterMap_map]
  exact List.filterMap_eq_nil_iff.2 fun _ _ => rfl

theorem filterMap_entry_map (events : List Event) :
    (events.map Sight.event).filterMap Sight.entry? = events.map Event.entry := by
  rw [List.filterMap_map]
  exact congrFun (List.filterMap_eq_map (f := Event.entry)) events

theorem filterMap_entry_sights_of_ok (h : machine.step.result = .ok ()) :
    machine.step.sights.filterMap Sight.entry? = machine.step.logged := by
  rw [Stepped.sights, h, List.append_nil, filterMap_entry_map, Stepped.logged]

theorem Steps.registers_of_error (h : machine.Steps after (.error fault)) :
    after.pc = machine.pc ∧ after.accumulator = machine.accumulator := by
  cases h with
  | failed _ hc => cases hc <;> exact ⟨rfl, rfl⟩
  | _ => exact ⟨rfl, rfl⟩

theorem filterMap_entry_sights_of_error (h : machine.step.result = .error fault) :
    machine.step.sights.filterMap Sight.entry? =
      machine.step.logged ++ [machine.closing fault] := by
  have hs := machine.step_steps
  rw [h] at hs
  obtain ⟨hp, ha⟩ := hs.registers_of_error
  rw [Stepped.sights, h, List.filterMap_append, filterMap_entry_map, hp, ha, Stepped.logged]
  cases fault <;> rfl

/-- A run shows what its steps log, one after the other, and then how it ends. -/
theorem FailsAfter.filterMap_entry_sights (h : machine.FailsAfter n fault) :
    (machine.sights (n + 1)).filterMap Sight.entry? =
      ((List.range n).flatMap fun k => (machine.afterSteps k).step.logged) ++
        ((machine.afterSteps n).step.logged ++ [(machine.afterSteps n).closing fault]) := by
  induction n generalizing machine with
  | zero =>
    rw [sights_succ, List.filterMap_append, List.filterMap_append, filterMap_entry_preview,
      filterMap_entry_sights_of_error (failsAfter_zero.1 h)]
    exact List.append_nil _
  | succ n ih =>
    obtain ⟨hr, ht⟩ := failsAfter_succ.1 h
    rw [sights_succ, List.filterMap_append, List.filterMap_append, filterMap_entry_preview,
      filterMap_entry_sights_of_ok hr, ih ht, List.range_succ_eq_map, List.flatMap_cons,
      List.flatMap_map, List.nil_append, List.append_assoc]
    rfl

theorem Logs.levels_of_ok {entries : List Log.Entry} (h : machine.Logs (.ok ()) entries) :
    entries.map (·.level) = [.trace, .debug] := by
  cases h
  rfl

theorem Logs.levels_of_error {entries : List Log.Entry} (h : machine.Logs (.error fault) entries) :
    (entries.map (·.level)).count .debug = 0 := by
  cases h <;> rfl

theorem Logs.eq_nil_of_halted {entries : List Log.Entry}
    (h : machine.Logs (.error .machineHalted) entries) : entries = [] := by
  cases h
  rfl

theorem levels_of_steps {f : Nat → List Log.Entry}
    (h : ∀ k < n, (f k).map (·.level) = [.trace, .debug]) :
    ((List.range n).flatMap f).map (·.level) =
      (List.replicate n [Log.Level.trace, .debug]).flatten := by
  induction n with
  | zero => rfl
  | succ n ih =>
    rw [List.range_succ, List.flatMap_append, List.map_append, List.flatMap_singleton,
      ih fun k hk => h k (Nat.lt_succ_of_lt hk), h n (Nat.lt_succ_self n),
      List.replicate_succ', List.flatten_append, List.flatten_singleton]

theorem count_levels (n : Nat) :
    (List.replicate n [Log.Level.trace, .debug]).flatten.count .debug = n ∧
      (List.replicate n [Log.Level.trace, .debug]).flatten.count .trace = n := by
  induction n with
  | zero => exact ⟨rfl, rfl⟩
  | succ n ih =>
    obtain ⟨hd, ht⟩ := ih
    rw [List.replicate_succ, List.flatten_cons, List.count_append, List.count_append, hd, ht]
    exact ⟨Nat.add_comm 1 n, Nat.add_comm 1 n⟩

/-- The entries of steps that succeed are below every threshold that hides details. -/
theorem filter_info_eq_nil {entries : List Log.Entry}
    (h : entries.map (·.level) = (List.replicate n [Log.Level.trace, .debug]).flatten) :
    entries.filter (Log.Level.info.admits ·.level) = [] := by
  apply List.filter_eq_nil_iff.2
  intro entry he
  have hm := List.mem_map_of_mem (f := Log.Entry.level) he
  rw [h] at hm
  obtain ⟨levels, hr, hl⟩ := List.mem_flatten.1 hm
  rw [(List.mem_replicate.1 hr).2] at hl
  generalize entry.level = level at hl
  cases hl with
  | head => decide
  | tail _ hl =>
    rw [List.mem_singleton.1 hl]
    decide

theorem level_closing (machine : Machine) (fault : Fault) :
    (machine.closing fault).level = if fault = .machineHalted then .info else .error := by
  cases fault <;> rfl

/-- A run that ends logs, in this order, an instruction and its outcome for each step that succeeds,
what the failing step says for itself, and one entry for the end: the accumulator if the machine has
halted, otherwise the address of the failing step and its fault. So the log of a run that ends well
has one entry above the details, and these are two for each instruction. -/
theorem Reachable.run_logged {fuel : Nat} {finished : Finished (List Log.Entry)}
    (h : Reachable machine) (hr : machine.runWith hearing fuel [] = some finished) :
    ∃ n fault, ∃ entries : Nat → List Log.Entry,
      machine.FailsAfter n fault ∧ finished.result = fault.ending ∧
      (∀ k < n, (machine.afterSteps k).Logs (.ok ()) (entries k)) ∧
      (machine.afterSteps n).Logs (.error fault) (entries n) ∧
      finished.observer =
        (List.range n).flatMap entries ++ (entries n ++ [(machine.afterSteps n).closing fault]) ∧
      (finished.observer.map (·.level)).count .debug = n ∧
      (finished.result = .ok () →
        finished.observer.filter (Log.Level.info.admits ·.level) =
            [⟨.info, .machine,
              "Program terminated. ACC: " ++ toString finished.machine.accumulator⟩] ∧
          (finished.observer.map (·.level)).count .trace = n) := by
  have hm := h.inRange
  obtain ⟨n, fault, hn, hf⟩ := FailsAfter.of_runWith hr
  rw [hf.runWith_eq hn, foldl_hearing, hf.filterMap_entry_sights, List.nil_append] at hr
  obtain rfl := Option.some.inj hr
  have hok : ∀ k < n, (machine.afterSteps k).Logs (.ok ()) (machine.afterSteps k).step.logged := by
    intro k hk
    have hl := (hm.afterSteps k).step_logs
    rwa [hf.succeed k hk] at hl
  have hlast : (machine.afterSteps n).Logs (.error fault) (machine.afterSteps n).step.logged := by
    have hl := (hm.afterSteps n).step_logs
    rwa [hf.fail] at hl
  have hlevels := levels_of_steps fun k hk => (hok k hk).levels_of_ok
  obtain ⟨hd, ht⟩ := count_levels n
  refine ⟨n, fault, _, hf, rfl, hok, hlast, rfl, ?_, ?_⟩
  · rw [List.map_append, List.map_append, hlevels, List.count_append, List.count_append,
      hlast.levels_of_error, hd, List.map_singleton, level_closing]
    cases fault <;> rfl
  · intro hres
    cases fault with
    | machineHalted =>
      have hs : (machine.afterSteps (n + 1)).accumulator = (machine.afterSteps n).accumulator := by
        have hs := (machine.afterSteps n).step_steps
        rw [hf.fail] at hs
        rw [afterSteps_succ_last, hs.of_machineHalted.2]
      rw [hlast.eq_nil_of_halted, List.nil_append, List.filter_append, List.map_append,
        List.count_append, filter_info_eq_nil hlevels, hlevels, ht, hs]
      exact ⟨rfl, rfl⟩
    | _ => cases hres

/-- The log of a machine that prints the number it reads, spelled out. -/
theorem echoing_logged :
    ∃ finished, echoing.runWith hearing 4 [] = some finished ∧
      finished.observer =
        [⟨.trace, .machine, "00: IO 01"⟩, ⟨.debug, .machine, "INP: 7"⟩,
          ⟨.trace, .machine, "01: IO 02"⟩, ⟨.debug, .machine, "OUT: 7"⟩,
          ⟨.trace, .machine, "02: HLT 00"⟩, ⟨.debug, .machine, "HLT"⟩,
          ⟨.info, .machine, "Program terminated. ACC: 7"⟩] ∧
      finished.observer.filter (Log.Level.info.admits ·.level) =
        [⟨.info, .machine, "Program terminated. ACC: 7"⟩] ∧
      (finished.observer.map (·.level)).count .trace = 3 := by
  have h : Reachable echoing := .call (.new [55, 10] {}) (.load _)
  have hf : echoing.FailsAfter 3 .machineHalted := ⟨by decide +kernel, by decide +kernel⟩
  have hr : echoing.runWith hearing 4 [] = _ := hf.runWith_eq (Nat.lt_succ_self 3)
  obtain ⟨n, fault, entries, hn, -, -, -, -, -, hok⟩ := h.run_logged hr
  obtain ⟨rfl, rfl⟩ := hn.unique hf
  obtain ⟨hi, ht⟩ := hok rfl
  refine ⟨_, hr, ?_, ?_, ht⟩
  · decide +kernel
  · rw [hi]
    decide +kernel

end LittleMan.Machine
