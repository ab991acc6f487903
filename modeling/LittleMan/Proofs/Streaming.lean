import LittleMan.Command.Execute
import LittleMan.Proofs.Machine.Reading
import LittleMan.Proofs.Machine.Unread

/-! A run on the streams of the system around it. Its machine is given a line only when it asks for
one, and what it prints is taken from it at once, and still it does what it would do if it held all
of its input and output itself. -/

namespace LittleMan

open Machine

/-- The device takes whatever it is given. -/
def Outbox.Reliable (outbox : Outbox) : Prop := ∀ n, outbox.device n = .accepted

/-- The machine without its streams. -/
def Machine.detached (machine : Machine) : Machine := { machine with inbox := [], outbox := {} }

/-- The machine with another outbox. -/
def Machine.withOutbox (machine : Machine) (outbox : Outbox) : Machine :=
  { machine with outbox := outbox }

/-- The world with the streams of a machine. -/
def World.streaming (world : World) (machine : Machine) : World :=
  { world with input := machine.inbox, outbox := machine.outbox }

/-- Adds the notice that an observer of a run makes of a sight. -/
def noticing (threshold : Log.Level) (trace : Bool) (notices : Array Notice) (sight : Sight) :
    Array Notice :=
  match noticeOf? threshold trace sight with
  | some notice => notices.push notice
  | none => notices

/-- The world once it has been shown some sights of a run. -/
def World.shown (world : World) (threshold : Log.Level) (trace : Bool) (sights : List Sight) :
    World :=
  { world with notices := sights.foldl (noticing threshold trace) world.notices }

variable {machine : Machine} {world : World} {inbox : List UInt8} {outbox : Outbox}
  {threshold : Log.Level} {trace : Bool}

theorem run_bind_of_run {σ α β : Type} {action : StateM σ α} {next : α → StateM σ β}
    {before after : σ} {value : α} (h : action.run before = (value, after)) :
    (action >>= next).run before = (next value).run after := by
  rw [StateT.run_bind, h]
  rfl

theorem nextInteger_takenLine (inbox : List UInt8) :
    nextInteger (takenLine inbox) = nextInteger inbox := by
  by_cases hn : newline ∈ inbox
  · obtain ⟨line, rest, rfl, hl⟩ := List.eq_append_cons_of_mem hn
    rw [takenLine_terminated hl, nextInteger, nextInteger, nextLine_terminated hl,
      nextLine_terminated hl]
    simp
  · rw [takenLine_last hn]

theorem afterLine_takenLine (inbox : List UInt8) : afterLine (takenLine inbox) = [] := by
  by_cases hn : newline ∈ inbox
  · obtain ⟨line, rest, rfl, hl⟩ := List.eq_append_cons_of_mem hn
    rw [takenLine_terminated hl, afterLine_terminated hl]
  · rw [takenLine_last hn, afterLine_last hn]

theorem Outbox.Reliable.deliver (h : outbox.Reliable) (text : List UInt8) :
    (outbox.deliver text).Reliable := h

theorem foldl_noticing (notices : Array Notice) (sights : List Sight) :
    sights.foldl (noticing threshold trace) notices =
      notices ++ (sights.filterMap (noticeOf? threshold trace)).toArray := by
  induction sights generalizing notices with
  | nil => simp
  | cons sight sights ih =>
    rw [List.foldl_cons, ih, noticing]
    cases h : noticeOf? threshold trace sight with
    | none => rw [List.filterMap_cons_none h]
    | some notice =>
      rw [List.filterMap_cons_some h]
      simp

namespace Machine

theorem asks_iff : machine.asks = true ↔ machine.Executes 901 := by
  apply Iff.intro
  · intro h
    rw [asks, Bool.and_eq_true, Bool.not_eq_true'] at h
    obtain ⟨hh, h⟩ := h
    cases hw : machine.memory.read? machine.pc with
    | none => simp [hw] at h
    | some word =>
      cases hd : decode word with
      | none => simp [hw, hd] at h
      | some decoded =>
        obtain ⟨digit, operand⟩ := decoded
        obtain ⟨hi, ho⟩ : Instruction.ofDigit? digit = some .io ∧ operand.val = 1 := by
          simpa [hw, hd] using h
        exact (Fetches.of_decode hh hw hd hi).executes ho
  · intro h
    simp only [asks, h.1, h.2]
    decide

/-- A step for a number depends on the next line alone. -/
theorem Executes.step_withInput (hx : machine.Executes 901)
    (h : nextInteger inbox = nextInteger machine.inbox) :
    (machine.withInput inbox).step = machine.step.map (withInput · (afterLine inbox)) := by
  have hx' : (machine.withInput inbox).Executes 901 := hx
  cases hv : nextInteger machine.inbox with
  | ok value =>
    rw [hx.step_of_ok hv, hx'.step_of_ok (h.trans hv)]
    rfl
  | error error =>
    rw [hx.step_of_error hv, hx'.step_of_error (h.trans hv)]
    rfl

theorem Executes.step_of_accepts (hx : machine.Executes 902) (h : machine.outbox.Reliable) :
    machine.step =
      ⟨(machine.withOutbox (machine.outbox.deliver
          (outputLine machine.accumulator))).advance.settle ⟨2, by decide⟩,
        [.fetched machine.pc .io ⟨2, by decide⟩, .sent machine.accumulator], .ok ()⟩ := by
  apply step_eq_of_completed (hx.fetches (n := 2) (by decide))
  rw [execute_send rfl, send, Outbox.refusal?_eq_none_iff.2 (h _)]
  rfl

/-- A step that prints does the same whatever reliable device takes the line. -/
theorem Executes.step_withOutbox (hx : machine.Executes 902) (h : machine.outbox.Reliable)
    (ho : outbox.Reliable) :
    (machine.withOutbox outbox).step =
      machine.step.map (withOutbox · (outbox.deliver (outputLine machine.accumulator))) := by
  have hx' : (machine.withOutbox outbox).Executes 902 := hx
  rw [hx.step_of_accepts h, hx'.step_of_accepts ho]
  rfl

/-- The outbox does not matter to a step that prints nothing. -/
theorem step_withOutbox (h : ¬ machine.Executes 902) (outbox : Outbox) :
    (machine.withOutbox outbox).step = machine.step.map (withOutbox · outbox) := by
  refine @step_map machine (withOutbox · outbox) rfl rfl rfl (fun _ _ => rfl) ?_
  intro instruction operand hf
  cases instruction with
  | brz =>
    simp only [execute, Effect.map, apply_ite (withOutbox · outbox)]
    rfl
  | brp =>
    simp only [execute, Effect.map, apply_ite (withOutbox · outbox)]
    rfl
  | io =>
    have h2 : operand.val ≠ 2 := fun ho => h (hf.executes ho)
    by_cases h1 : operand.val = 1
    · rw [execute_receive h1, execute_receive h1, receive, receive]
      have hv : nextInteger (machine.withOutbox outbox).inbox = nextInteger machine.inbox := rfl
      rw [hv]
      cases nextInteger machine.inbox <;> rfl
    · rw [execute_ignored h1 h2, execute_ignored h1 h2]
      rfl
  | _ => rfl

/-- What the next step needs of the input: a line if it asks for one. -/
def supply (machine : Machine) : List UInt8 :=
  if machine.asks then takenLine machine.inbox else []

/-- What the next step puts into an empty outbox. -/
def output (machine : Machine) : Outbox :=
  if machine.Executes 902 then ({} : Outbox).deliver (outputLine machine.accumulator) else {}

theorem step_supply (machine : Machine) :
    (machine.withInput machine.supply).step = machine.step.map (withInput · []) := by
  rw [supply]
  by_cases hx : machine.Executes 901
  · rw [if_pos (asks_iff.2 hx), hx.step_withInput (nextInteger_takenLine machine.inbox),
      afterLine_takenLine]
  · rw [if_neg (mt asks_iff.1 hx), step_withInput hx]

theorem step_output (hr : machine.outbox.Reliable) :
    (machine.withOutbox {}).step = machine.step.map (withOutbox · machine.output) := by
  rw [output]
  by_cases hx : machine.Executes 902
  · rw [if_pos hx, hx.step_withOutbox hr fun _ => rfl]
  · rw [if_neg hx, step_withOutbox hx]

/-- A step with no more of the streams than it needs. -/
theorem step_detached (hr : machine.outbox.Reliable) :
    (machine.detached.withInput machine.supply).step =
      machine.step.map fun after => (after.withInput []).withOutbox machine.output := by
  have hi := machine.step_supply
  have ho : ((machine.withInput machine.supply).withOutbox {}).step = _ := step_output hr
  rw [hi] at ho
  exact ho

theorem reliable_step (hr : machine.outbox.Reliable) : machine.step.machine.outbox.Reliable := by
  rw [machine.step_steps.outbox_eq]
  split
  · exact hr.deliver _
  · exact hr

/-- One round of a run, by what each of its parts does to the state of the world around it. -/
theorem run_runIn_succ {σ : Type} {present : List Sight → StateM σ Unit}
    {supply drain : Machine → StateM σ Machine} {before previewed asked printed after : σ}
    {machine given left : Machine}
    (hp : (present machine.preview).run before = ((), previewed))
    (hs : (supply machine).run previewed = (given, asked))
    (hd : (drain given.step.machine).run asked = (left, printed))
    (hr : (present given.step.sights).run printed = ((), after)) (fuel : Nat) :
    (machine.runIn present supply drain (fuel + 1)).run before =
      match given.step.ending with
      | some result => ((left, some result), after)
      | none => (left.runIn present supply drain fuel).run after := by
  rw [runIn, run_bind_of_run hp, run_bind_of_run hs, run_bind_of_run hd, run_bind_of_run hr]
  cases given.step.ending <;> rfl

end Machine

theorem run_supply (world : World) (machine : Machine) :
    (World.system.supply machine.detached).run (world.streaming machine) =
      (machine.detached.withInput machine.supply,
        { world.streaming machine with input := machine.step.machine.inbox }) := by
  have hi := machine.step_steps.inbox_eq
  have ha : machine.detached.asks = machine.asks := rfl
  rw [System.supply, Machine.supply, ha]
  by_cases hx : machine.asks
  · rw [if_pos (asks_iff.1 hx)] at hi
    rw [if_pos hx, if_pos hx, hi]
    rfl
  · rw [if_neg (mt asks_iff.2 hx)] at hi
    rw [if_neg hx, if_neg hx, hi]
    rfl

theorem run_drain (world : World) (machine : Machine) :
    (World.system.drain ((machine.step.machine.withInput []).withOutbox machine.output)).run
        { world.streaming machine with input := machine.step.machine.inbox } =
      (machine.step.machine.detached, world.streaming machine.step.machine) := by
  have ho := machine.step_steps.outbox_eq
  rw [output]
  by_cases hx : machine.Executes 902
  · rw [if_pos hx] at ho ⊢
    have hw : (({} : Outbox).deliver (outputLine machine.accumulator)).written =
        outputLine machine.accumulator := Outbox.written_deliver _ _
    rw [World.streaming, World.streaming, ho]
    change (machine.step.machine.detached, { world with
      input := machine.step.machine.inbox
      outbox := machine.outbox.deliver
        (({} : Outbox).deliver (outputLine machine.accumulator)).written }) = _
    rw [hw]
  · rw [if_neg hx] at ho ⊢
    rw [World.streaming, World.streaming, ho]
    rfl

theorem run_notices (world : World) (notices : Array Notice) :
    (World.system.report notices).run world =
      ((), { world with notices := world.notices ++ notices }) := rfl

theorem World.shown_shown (world : World) (first second : List Sight) :
    (world.shown threshold trace first).shown threshold trace second =
      world.shown threshold trace (first ++ second) := by
  rw [World.shown, World.shown, World.shown, List.foldl_append]

theorem run_report (world : World) (sights : List Sight) :
    (World.system.report (sights.filterMap (noticeOf? threshold trace)).toArray).run world =
      ((), world.shown threshold trace sights) := by
  rw [run_notices, World.shown, foldl_noticing]

theorem run_system_succ (hr : machine.outbox.Reliable) (fuel : Nat) :
    (World.system.run threshold trace (fuel + 1) machine.detached).run (world.streaming machine) =
      let shown := world.shown threshold trace (machine.preview ++ machine.step.sights)
      match machine.step.ending with
      | none => (World.system.run threshold trace fuel machine.step.machine.detached).run
          (shown.streaming machine.step.machine)
      | some result =>
        ((machine.step.machine.detached, some result), shown.streaming machine.step.machine) := by
  have hstep := step_detached hr
  have hmachine : (machine.detached.withInput machine.supply).step.machine =
      (machine.step.machine.withInput []).withOutbox machine.output :=
    congrArg Stepped.machine hstep
  have hsights : (machine.detached.withInput machine.supply).step.sights = machine.step.sights := by
    rw [hstep]
    rfl
  have hending : (machine.detached.withInput machine.supply).step.ending = machine.step.ending := by
    rw [hstep]
    rfl
  have hpreview : (World.system.report (machine.detached.preview.filterMap
        (noticeOf? threshold trace)).toArray).run (world.streaming machine) =
      ((), (world.shown threshold trace machine.preview).streaming machine) :=
    run_report _ machine.preview
  have hsupply := run_supply (world.shown threshold trace machine.preview) machine
  have hdrain := run_drain (world.shown threshold trace machine.preview) machine
  have hreport := @run_report threshold trace
    ((world.shown threshold trace machine.preview).streaming machine.step.machine)
    machine.step.sights
  rw [← hmachine] at hdrain
  rw [← hsights] at hreport
  have hshown : ((world.shown threshold trace machine.preview).streaming machine.step.machine).shown
        threshold trace machine.step.sights =
      (world.shown threshold trace (machine.preview ++ machine.step.sights)).streaming
        machine.step.machine :=
    congrArg (World.streaming · machine.step.machine) (world.shown_shown _ _)
  rw [System.run, run_runIn_succ hpreview hsupply hdrain hreport, hending, hsights, hshown]
  cases machine.step.ending <;> rfl

/-- A run on the streams of a world goes as the run of the machine that holds these streams. -/
theorem run_system (hr : machine.outbox.Reliable) (world : World) (fuel : Nat) :
    (World.system.run threshold trace fuel machine.detached).run (world.streaming machine) =
      (((machine.runUpTo (noticing threshold trace) fuel world.notices).1.1.detached,
          (machine.runUpTo (noticing threshold trace) fuel world.notices).1.2),
        { world.streaming (machine.runUpTo (noticing threshold trace) fuel world.notices).1.1 with
          notices := (machine.runUpTo (noticing threshold trace) fuel world.notices).2 }) := by
  induction fuel generalizing machine world with
  | zero => rfl
  | succ fuel ih =>
    rw [run_system_succ hr, runUpTo_succ]
    cases machine.step.ending with
    | none => exact ih (reliable_step hr) _
    | some result => rfl

section Resuming

variable {m : Type → Type} [Monad m] [LawfulMonad m]

theorem Machine.runIn_add (present : List Sight → m Unit) (supply drain : Machine → m Machine)
    (n k : Nat) (machine : Machine) :
    machine.runIn present supply drain (n + k) =
      machine.runIn present supply drain n >>= fun (after, result?) =>
        match result? with
        | some result => pure (after, some result)
        | none => after.runIn present supply drain k := by
  induction n generalizing machine with
  | zero => rw [Nat.zero_add, runIn, pure_bind]
  | succ n ih =>
    rw [Nat.succ_add, runIn, runIn]
    simp only [bind_assoc]
    refine bind_congr fun _ => bind_congr fun given => bind_congr fun left => bind_congr fun _ => ?_
    cases given.step.ending with
    | none => exact ih left
    | some result => simp only [pure_bind]

/-- Goes on with a command for at most `fuel` more steps of its run. -/
def Progress.resumeIn (system : System m) (threshold : Log.Level) (fuel : Nat) :
    Progress → m Progress
  | .done failure? => pure (.done failure?)
  | .more rest => rest.performIn system threshold fuel

theorem Action.performIn_add (system : System m) (threshold : Log.Level) (n k : Nat)
    (action : Action) :
    action.performIn system threshold (n + k) =
      action.performIn system threshold n >>= Progress.resumeIn system threshold k := by
  cases action with
  | save path memory =>
    simp only [performIn, bind_assoc]
    refine bind_congr fun written => ?_
    cases Storage.saved path written with
    | ok value => simp only [bind_assoc, pure_bind, Progress.resumeIn]
    | error error => simp only [pure_bind, Progress.resumeIn]
  | run path machine trace =>
    simp only [performIn, System.run, runIn_add, bind_assoc]
    refine bind_congr fun ran => ?_
    obtain ⟨after, result?⟩ := ran
    cases result? with
    | none => simp only [pure_bind, Progress.resumeIn, performIn, System.run]
    | some result => cases result <;> simp only [pure_bind, Progress.resumeIn]
  | print text => simp only [performIn, bind_assoc, pure_bind, Progress.resumeIn]

/-- A command may be stopped after any number of steps of its run and taken up again. -/
theorem Request.executeIn_add (system : System m) (n k : Nat) (request : Request) :
    request.executeIn system (n + k) =
      request.executeIn system n >>= Progress.resumeIn system request.threshold k := by
  rw [executeIn, executeIn]
  cases request.command.source with
  | error failure => simp only [pure_bind, Progress.resumeIn]
  | ok source =>
    simp only [bind_assoc]
    refine bind_congr fun contents => bind_congr fun _ => ?_
    cases (request.command.prepare source contents).result with
    | error failure => simp only [pure_bind, Progress.resumeIn]
    | ok action => exact action.performIn_add system request.threshold n k

end Resuming

end LittleMan
