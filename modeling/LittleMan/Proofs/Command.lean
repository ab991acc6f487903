import LittleMan.Command.Execute
import LittleMan.Proofs.Directory
import LittleMan.Proofs.Image
import LittleMan.Proofs.Logged
import LittleMan.Proofs.Streaming

/-! Commands on a program and on its image: running the one tells a user the same as running the
other. -/

namespace LittleMan

open Machine

/-- The bytes are the text of a program, which gives the memory where it may wrap past the last
cell. -/
def Assembles (bytes : List UInt8) (memory : Memory) : Prop :=
  ∃ source, decodeUtf8? bytes = some source ∧ (assemble .wrapping source).result = .ok memory

/-- The bytes are no text, or the text of a program that cannot be assembled. -/
def Refused (bytes : List UInt8) (message : String) : Prop :=
  (decodeUtf8? bytes = none ∧ FileError.notText.message = message) ∨
    ∃ source error, decodeUtf8? bytes = some source ∧
      (assemble .wrapping source).result = .error error ∧ error.message = message

def Notice.snapshot? : Notice → Option Snapshot
  | .snapshot seen => some seen
  | .entry _ => none

def Failure.innermost? (failure : Failure) : Option String := failure.chain.getLast?

namespace Outcome

/-- The snapshots that a command has shown. -/
def snapshots (outcome : Outcome) : List Snapshot :=
  outcome.notices.toList.filterMap Notice.snapshot?

def innermost? (outcome : Outcome) : Option String := outcome.failure?.bind Failure.innermost?

/-- What a user sees of two commands is the same but for the log and the outer messages of a
failure. -/
structure Alike (a b : Outcome) : Prop where
  stdout : a.stdout = b.stdout
  exitCode : a.exitCode = b.exitCode
  snapshots : a.snapshots = b.snapshots
  innermost : a.innermost? = b.innermost?

/-- What a command shows of the run of a machine that fails after a number of steps. -/
structure Reports (outcome : Outcome) (path : String) (trace : Bool) (machine : Machine) (n : Nat)
    (fault : Fault) : Prop where
  stdout : outcome.stdout = (machine.afterSteps (n + 1)).outbox.written
  snapshots : outcome.snapshots =
    if trace then (List.range (n + 1)).map fun k => (machine.afterSteps k).snapshot else []
  failure : outcome.failure? = if fault = .machineHalted then none else some (.stopped path fault)

end Outcome

namespace Request

/-- Compiles a program, which may wrap past the last cell. -/
def compiling (path out : String) (verbosity : Nat) : Request :=
  ⟨.compile (some path) false out false, verbosity⟩

def running (path : String) (trace : Bool) (verbosity : Nat) : Request :=
  ⟨.run path trace, verbosity⟩

/-- The request comes to an end in a directory with a standard input. -/
def Ends (request : Request) (files : Directory) (input : List UInt8) (outcome : Outcome) :
    Prop :=
  ∃ fuel, request.execute fuel files input = some outcome

end Request

/-- A machine that has loaded a memory and is about to run on a standard input. -/
def booted (input : List UInt8) (memory : Memory) : Machine :=
  ({ inbox := input } : Machine).load memory

namespace Source

/-- What a source holds. -/
def contents (files : Directory) (input : List UInt8) : Source → Storage.Contents
  | .input => .ok input
  | .file path => files.read path

/-- What is left of the standard input once a source has been read. -/
def left (input : List UInt8) : Source → List UInt8
  | .input => []
  | .file _ => input

end Source

variable {files after : Directory} {path other : String} {bytes input : List UInt8}
  {source : Source} {memory : Memory} {message : String} {machine : Machine}
  {threshold : Log.Level} {trace : Bool} {n fuel verbosity : Nat} {fault : Fault}
  {request : Request} {failure : Failure} {file? : Option String} {terminal strict : Bool}
  {out : String} {contents : Storage.Contents} {action : Action} {outcome a b : Outcome}

theorem assembles_or_refused (bytes : List UInt8) :
    (∃ memory, Assembles bytes memory) ∨ ∃ message, Refused bytes message := by
  cases hd : decodeUtf8? bytes with
  | none => exact .inr ⟨_, .inl ⟨hd, rfl⟩⟩
  | some source =>
    cases hr : (assemble .wrapping source).result with
    | ok memory => exact .inl ⟨memory, source, hd, hr⟩
    | error error => exact .inr ⟨_, .inr ⟨source, error, hd, hr, rfl⟩⟩

section Sources

open Storage Command

theorem textOf_of_decode {source : String} (h : decodeUtf8? bytes = some source) :
    textOf (.ok bytes) = .ok source := by
  simp only [textOf, h]

theorem textOf_of_not_decode (h : decodeUtf8? bytes = none) :
    textOf (.ok bytes) = .error .notText := by
  simp only [textOf, h]

theorem loaded_program (hp : Path.extension? path = some "lmc") (bytes : List UInt8) :
    (loaded path (.ok bytes)).result =
      (programOf path (.ok bytes)).result.mapError Failure.storage := by
  rw [loaded, isAbsent, if_neg Bool.false_ne_true, if_pos hp, Logged.result_rephrase]

theorem loaded_image (hp : Path.extension? path ≠ some "lmc")
    (h : Memory.ofBytes bytes = .ok memory) : (loaded path (.ok bytes)).result = .ok memory := by
  rw [loaded, isAbsent, if_neg Bool.false_ne_true, if_neg hp, Logged.result_rephrase]
  simp only [imageOf, h]
  rfl

theorem Assembles.compiled (h : Assembles bytes memory) (path : String) :
    (compiled (.file path) .wrapping (.ok bytes)).result = .ok memory := by
  obtain ⟨source, hd, hr⟩ := h
  simp only [Command.compiled, textOf_of_decode hd, Logged.result_rephrase, hr]
  rfl

theorem Assembles.loaded (h : Assembles bytes memory)
    (hp : Path.extension? path = some "lmc") : (loaded path (.ok bytes)).result = .ok memory := by
  obtain ⟨source, hd, hr⟩ := h
  have hs : ((assemble .wrapping source).rephrase Assembly.Event.entry
      (StorageError.programInvalid path)).result = .ok memory := by
    rw [Logged.result_rephrase, hr]
    rfl
  rw [loaded_program hp]
  simp only [programOf, textOf_of_decode hd]
  rw [Logged.result_bind_of_ok hs]
  rfl

theorem Refused.compiled (h : Refused bytes message) (path : String) :
    ∃ failure, (compiled (.file path) .wrapping (.ok bytes)).result = .error failure ∧
      failure.innermost? = some message := by
  rcases h with ⟨hd, rfl⟩ | ⟨source, error, hd, hr, rfl⟩
  · refine ⟨.storage (.programUnreadable path .notText), ?_, rfl⟩
    simp only [Command.compiled, textOf_of_not_decode hd]
    rfl
  · refine ⟨.notCompiled error, ?_, rfl⟩
    simp only [Command.compiled, textOf_of_decode hd, Logged.result_rephrase, hr]
    rfl

theorem Refused.loaded (h : Refused bytes message) (hp : Path.extension? path = some "lmc") :
    ∃ failure, (loaded path (.ok bytes)).result = .error failure ∧
      failure.innermost? = some message := by
  rw [loaded_program hp]
  rcases h with ⟨hd, rfl⟩ | ⟨source, error, hd, hr, rfl⟩
  · refine ⟨.storage (.programUnreadable path .notText), ?_, rfl⟩
    simp only [programOf, textOf_of_not_decode hd]
    rfl
  · have hs : ((assemble .wrapping source).rephrase Assembly.Event.entry
        (StorageError.programInvalid path)).result = .error (.programInvalid path error) := by
      rw [Logged.result_rephrase, hr]
      rfl
    refine ⟨.storage (.programInvalid path error), ?_, rfl⟩
    simp only [programOf, textOf_of_decode hd]
    rw [Logged.result_bind_of_error hs]
    rfl

end Sources

theorem run_contentsIn (source : Source) (world : World) :
    (source.contentsIn World.system).run world =
      (source.contents world.files world.input,
        { world with input := source.left world.input }) := by
  cases source <;> rfl

/-- The world of a request that is about to perform its action. -/
def Request.prepared (request : Request) (source : Source) (files : Directory)
    (input : List UInt8) : World where
  files := files
  input := source.left input
  notices := noticesOf request.threshold
    (request.command.prepare source (source.contents files input)).log

theorem run_executeIn (hs : request.command.source = .ok source) (fuel : Nat) :
    (request.executeIn World.system fuel).run { files, input } =
      match (request.command.prepare source (source.contents files input)).result with
      | .error failure => (.done (some failure), request.prepared source files input)
      | .ok action => (action.performIn World.system request.threshold fuel).run
          (request.prepared source files input) := by
  have hp : (World.system.report (noticesOf request.threshold
        (request.command.prepare source (source.contents files input)).log)).run
        { files, input := source.left input } = ((), request.prepared source files input) := by
    rw [run_notices, Array.empty_append]
    rfl
  rw [Request.executeIn, hs]
  change (source.contentsIn World.system >>= _).run _ = _
  rw [run_bind_of_run (run_contentsIn source _)]
  change (World.system.report _ >>= _).run _ = _
  rw [run_bind_of_run hp]
  cases (request.command.prepare source (source.contents files input)).result <;> rfl

theorem run_write_of_ok {world : World} (hw : world.files.write path bytes = .ok after) :
    (World.system.write path bytes).run world = (.ok (), { world with files := after }) := by
  simp only [World.system, StateT.run_modifyGet, hw]
  rfl

theorem run_write_of_error {world : World} {error : FileError}
    (hw : world.files.write path bytes = .error error) :
    (World.system.write path bytes).run world = (.error error, world) := by
  simp only [World.system, StateT.run_modifyGet, hw]
  rfl

theorem execute_of_error (hs : request.command.source = .ok source)
    (hr : (request.command.prepare source (source.contents files input)).result =
      .error failure) :
    ∃ outcome, (∀ fuel, request.execute fuel files input = some outcome) ∧
      outcome.exitCode = 1 ∧ outcome.innermost? = failure.innermost? ∧ outcome.files = files := by
  have he (fuel : Nat) : request.execute fuel files input =
      some ⟨files, [], (request.prepared source files input).notices, some failure⟩ := by
    rw [Request.execute, run_executeIn hs, hr]
    rfl
  exact ⟨_, he, rfl, rfl, rfl⟩

theorem execute_of_ok (hs : request.command.source = .ok source)
    (hr : (request.command.prepare source (source.contents files input)).result = .ok action) :
    request.execute fuel files input =
      Outcome.of? ((action.performIn World.system request.threshold fuel).run
        (request.prepared source files input)) := by
  rw [Request.execute, run_executeIn hs, hr]

theorem filterMap_noticesOf (threshold : Log.Level) (log : Array Log.Entry) :
    (noticesOf threshold log).toList.filterMap Notice.snapshot? = [] := by
  apply List.filterMap_eq_nil_iff.2
  intro notice hn
  rw [noticesOf, Array.toList_map, List.mem_map] at hn
  obtain ⟨entry, -, rfl⟩ := hn
  rfl

theorem snapshot?_noticeOf? (sight : Sight) :
    (noticeOf? threshold trace sight).bind Notice.snapshot? =
      if trace then sight.snapshot? else none := by
  cases sight with
  | snapshot seen => cases trace <;> rfl
  | event event =>
    -- A threshold decides whether the entry shows, but it is never a snapshot.
    rw [noticeOf?, Sight.snapshot?, ite_self]
    split <;> rfl

theorem filterMap_noticing (notices : Array Notice) (sights : List Sight) :
    (sights.foldl (noticing threshold trace) notices).toList.filterMap Notice.snapshot? =
      notices.toList.filterMap Notice.snapshot? ++
        if trace then sights.filterMap Sight.snapshot? else [] := by
  rw [foldl_noticing, Array.toList_append, List.filterMap_append, List.filterMap_filterMap]
  simp only [snapshot?_noticeOf?]
  cases trace with
  | false => exact congrArg _ (List.filterMap_eq_nil_iff.2 fun _ _ => rfl)
  | true => rfl

/-- How a run of a path fails, if it does. -/
def stopping? (path : String) : Except Fault Unit → Option Failure
  | .ok () => none
  | .error fault => some (.stopped path fault)

theorem of?_performIn_run (hr : machine.outbox.Reliable) (world : World) (path : String)
    (threshold : Log.Level) (trace : Bool) (fuel : Nat) :
    Outcome.of? (((Action.run path machine.detached trace).performIn World.system threshold
        fuel).run (world.streaming machine)) =
      (machine.runWith (noticing threshold trace) fuel world.notices).map fun finished =>
        ⟨world.files, finished.machine.outbox.written, finished.observer,
          stopping? path finished.result⟩ := by
  rw [Action.performIn, StateT.run_bind, run_system hr, runWith]
  rcases machine.runUpTo (noticing threshold trace) fuel world.notices with
    ⟨⟨after, result?⟩, notices⟩
  cases result? with
  | none => rfl
  | some result => cases result <;> rfl

theorem prepare_running (h : (Command.loaded path contents).result = .ok memory) :
    ((Request.running path trace verbosity).command.prepare (.file path) contents).result =
      .ok (.run path (({} : Machine).load memory) trace) :=
  Logged.result_bind_of_ok h _

theorem prepare_running_of_error
    (h : (Command.loaded path contents).result = .error failure) :
    ((Request.running path trace verbosity).command.prepare (.file path) contents).result =
      .error failure :=
  Logged.result_bind_of_error h _

theorem prepare_compiling
    (h : (Command.compiled source (if strict then .strict else .wrapping) contents).result =
      .ok memory) :
    ((Command.compile file? terminal out strict).prepare source contents).result =
      .ok (.save out memory) :=
  Logged.result_bind_of_ok h _

theorem prepare_compiling_of_error
    (h : (Command.compiled source (if strict then .strict else .wrapping) contents).result =
      .error failure) :
    ((Command.compile file? terminal out strict).prepare source contents).result =
      .error failure :=
  Logged.result_bind_of_error h _

theorem execute_of_saved (hs : request.command.source = .ok source)
    (hr : (request.command.prepare source (source.contents files input)).result =
      .ok (.save path memory))
    (hw : files.write path memory.toBytes = .ok after) :
    ∃ outcome, (∀ fuel, request.execute fuel files input = some outcome) ∧
      outcome.files = after ∧ outcome.failure? = none := by
  have he (fuel : Nat) : request.execute fuel files input =
      some ⟨after, [], (request.prepared source files input).notices ++
        noticesOf request.threshold #[imageWritten path], none⟩ := by
    have hp : (World.system.write path memory.toBytes).run (request.prepared source files input) =
        (.ok (), { request.prepared source files input with files := after }) :=
      run_write_of_ok hw
    rw [execute_of_ok hs hr, Action.performIn, run_bind_of_run hp]
    rfl
  exact ⟨_, he, rfl, rfl⟩

theorem execute_compiling (hr : files.read path = .ok bytes) (ha : Assembles bytes memory)
    (hw : files.write other memory.toBytes = .ok after) :
    ∃ outcome,
      (∀ fuel, (Request.compiling path other verbosity).execute fuel files input =
        some outcome) ∧
      outcome.files = after ∧ outcome.failure? = none := by
  have hc := ha.compiled path
  rw [← hr] at hc
  exact execute_of_saved rfl (prepare_compiling hc) hw

/-- A run tells what the run of the machine that holds its streams shows to its observer. -/
theorem execute_running (hl : (Command.loaded path (files.read path)).result = .ok memory)
    (fuel : Nat) (input : List UInt8) (trace : Bool) (verbosity : Nat) :
    (Request.running path trace verbosity).execute fuel files input =
      ((booted input memory).runWith
          (noticing (Request.running path trace verbosity).threshold trace) fuel
          ((Request.running path trace verbosity).prepared (.file path) files input).notices).map
        fun finished => ⟨files, finished.machine.outbox.written, finished.observer,
          stopping? path finished.result⟩ := by
  have hr : (booted input memory).outbox.Reliable := fun _ => rfl
  rw [execute_of_ok rfl (prepare_running hl)]
  exact of?_performIn_run hr ((Request.running path trace verbosity).prepared (.file path) files
    input) path _ trace fuel

theorem ends_running_of_failsAfter
    (hl : (Command.loaded path (files.read path)).result = .ok memory)
    (h : (booted input memory).FailsAfter n fault) :
    ∃ outcome, (Request.running path trace verbosity).Ends files input outcome := by
  have he := execute_running hl (n + 1) input trace verbosity
  rw [h.runWith_eq (Nat.lt_succ_self n)] at he
  exact ⟨_, n + 1, he⟩

theorem Request.Ends.reports
    (h : (Request.running path trace verbosity).Ends files input outcome)
    (hl : (Command.loaded path (files.read path)).result = .ok memory) :
    ∃ n fault, (booted input memory).FailsAfter n fault ∧
      outcome.Reports path trace (booted input memory) n fault := by
  obtain ⟨fuel, h⟩ := h
  rw [execute_running hl] at h
  obtain ⟨finished, hr, rfl⟩ := Option.map_eq_some_iff.1 h
  obtain ⟨n, fault, hn, hf⟩ := FailsAfter.of_runWith hr
  rw [hf.runWith_eq hn] at hr
  cases hr
  have hpc : (booted input memory).pc < 100 := Nat.zero_lt_succ 99
  refine ⟨n, fault, hf, rfl, ?_, ?_⟩
  · rw [Outcome.snapshots, filterMap_noticing, filterMap_sights hpc, Request.prepared,
      filterMap_noticesOf, List.nil_append]
  · cases fault <;> rfl

theorem Outcome.Reports.alike (ha : a.Reports path trace machine n fault)
    (hb : b.Reports other trace machine n fault) : a.Alike b := by
  refine ⟨ha.stdout.trans hb.stdout.symm, ?_, ha.snapshots.trans hb.snapshots.symm, ?_⟩
  · rw [Outcome.exitCode, Outcome.exitCode, ha.failure, hb.failure]
    split <;> rfl
  · rw [Outcome.innermost?, Outcome.innermost?, ha.failure, hb.failure]
    split <;> rfl

/-- Two files that load the same memory run alike. -/
theorem running_alike {place : Directory} {image : Memory} {v w : Nat}
    (ha : (Command.loaded path (files.read path)).result = .ok memory)
    (hb : (Command.loaded other (place.read other)).result = .ok image)
    (hm : booted input image = booted input memory) :
    ((∃ a, (Request.running path trace v).Ends files input a) ↔
      ∃ b, (Request.running other trace w).Ends place input b) ∧
    ∀ a b, (Request.running path trace v).Ends files input a →
      (Request.running other trace w).Ends place input b → a.Alike b := by
  refine ⟨⟨?_, ?_⟩, ?_⟩
  · intro hx
    obtain ⟨a, h⟩ := hx
    obtain ⟨n, fault, hf, -⟩ := h.reports ha
    rw [← hm] at hf
    exact ends_running_of_failsAfter hb hf
  · intro hx
    obtain ⟨b, h⟩ := hx
    obtain ⟨n, fault, hf, -⟩ := h.reports hb
    rw [hm] at hf
    exact ends_running_of_failsAfter ha hf
  · intro a b h h'
    obtain ⟨n, fault, hf, hr⟩ := h.reports ha
    obtain ⟨m, error, hf', hr'⟩ := h'.reports hb
    rw [hm] at hf' hr'
    obtain ⟨rfl, rfl⟩ := hf.unique hf'
    exact hr.alike hr'

theorem Refused.execute_compiling (h : Refused bytes message)
    (hr : files.read path = .ok bytes) :
    ∃ outcome,
      (∀ fuel, (Request.compiling path other verbosity).execute fuel files input =
        some outcome) ∧
      outcome.exitCode = 1 ∧ outcome.innermost? = some message ∧ outcome.files = files := by
  obtain ⟨failure, hf, hi⟩ := h.compiled path
  rw [← hr] at hf
  rw [← hi]
  exact execute_of_error rfl (prepare_compiling_of_error hf)

theorem Refused.execute_running (h : Refused bytes message)
    (hp : Path.extension? path = some "lmc") (hr : files.read path = .ok bytes) :
    ∃ outcome,
      (∀ fuel, (Request.running path trace verbosity).execute fuel files input =
        some outcome) ∧
      outcome.exitCode = 1 ∧ outcome.innermost? = some message ∧ outcome.files = files := by
  obtain ⟨failure, hf, hi⟩ := h.loaded hp
  rw [← hr] at hf
  rw [← hi]
  exact execute_of_error rfl (prepare_running_of_error hf)

/-- A program can be compiled exactly if it can be run, and both give the same reason where it
cannot. A compiled program and its image run alike. -/
theorem running_compiled {out : String} (hp : Path.extension? path = some "lmc")
    (hr : files.read path = .ok bytes) (ho : Path.extension? out ≠ some "lmc")
    (hw : ∃ contents after, files.write out contents = .ok after) (typed input : List UInt8)
    (trace : Bool) (u v w : Nat) :
    ((¬ ∃ memory, Assembles bytes memory) →
      ∃ message a b, (∀ fuel, (Request.compiling path out u).execute fuel files typed = some a) ∧
        (∀ fuel, (Request.running path trace v).execute fuel files input = some b) ∧
        (a.exitCode = 1 ∧ a.innermost? = some message ∧ a.files = files) ∧
        b.exitCode = 1 ∧ b.innermost? = some message ∧ b.files = files) ∧
    ∀ memory, Assembles bytes memory →
      ∃ c image, (∀ fuel, (Request.compiling path out u).execute fuel files typed = some c) ∧
        c.exitCode = 0 ∧ c.files.read out = .ok memory.toBytes ∧
        Memory.ofBytes memory.toBytes = .ok image ∧
        (∀ machine : Machine, machine.load image = machine.load memory) ∧
        ∀ place, place = files ∨ place = c.files →
          ((∃ a, (Request.running path trace v).Ends place input a) ↔
            ∃ b, (Request.running out trace w).Ends c.files input b) ∧
          ∀ a b, (Request.running path trace v).Ends place input a →
            (Request.running out trace w).Ends c.files input b → a.Alike b := by
  apply And.intro
  · intro hn
    obtain hx | ⟨message, hm⟩ := assembles_or_refused bytes
    · exact absurd hx hn
    · obtain ⟨a, ha, hea⟩ := hm.execute_compiling hr
      obtain ⟨b, hb, heb⟩ := hm.execute_running hp hr
      exact ⟨message, a, b, ha, hb, hea, heb⟩
  · intro memory ha
    obtain ⟨contents, after, hw⟩ := hw
    obtain ⟨written, hw⟩ := Directory.write_of_write hw memory.toBytes
    obtain ⟨c, hc, rfl, hf⟩ := execute_compiling hr ha hw
    have hread := Directory.read_write hw
    have hload (machine : Machine) := machine.load_wrapped memory
    have himage : (Command.loaded out (c.files.read out)).result = .ok memory.wrapped := by
      rw [hread]
      exact loaded_image ho memory.ofBytes_toBytes
    refine ⟨c, memory.wrapped, hc, ?_, hread, memory.ofBytes_toBytes, hload, ?_⟩
    · rw [Outcome.exitCode, hf]
      rfl
    · intro place hplace
      -- The image has another extension, so the program is still there once the image is written.
      have hpath : place.read path = .ok bytes := by
        rcases hplace with rfl | rfl
        · exact hr
        · apply Directory.read_write_of_extension_ne hw hr
          rw [hp]
          exact ho.symm
      have hprogram : (Command.loaded path (place.read path)).result = .ok memory := by
        rw [hpath]
        exact ha.loaded hp
      exact running_alike hprogram himage (hload _)

/-- A program whose last word is too great for its cell. -/
def oversized : String := "LDA 3\nOUT\nHLT\nOUT 99"

def oversizedFiles : Directory := ⟨[(["a.lmc"], encodeUtf8 oversized)]⟩

/-- The image holds the word at rest, which is what the program prints as well. -/
theorem oversized_running_compiled :
    ∃ c b,
      (∀ fuel, (Request.compiling "a.lmc" "a.out" 0).execute fuel oversizedFiles [] = some c) ∧
      (Request.running "a.out" true 0).Ends c.files [] b ∧
      b.stdout = [45, 57, 57, 56, 10] ∧ b.exitCode = 0 ∧
      b.snapshots = [⟨0, 0, 503⟩, ⟨1, -998, 902⟩, ⟨2, -998, 0⟩, ⟨3, -998, -998⟩] := by
  have hm : Assembles (encodeUtf8 oversized)
      (.ofFn fun address => [503, 902, 0, 1001].getD address.val 0) :=
    ⟨oversized, by decide +kernel, by decide +kernel⟩
  have hr : oversizedFiles.read "a.lmc" = .ok (encodeUtf8 oversized) := rfl
  have hw : ∃ contents after, oversizedFiles.write "a.out" contents = .ok after := ⟨[], _, rfl⟩
  have hx : ((Request.running "a.lmc" true 0).execute 4 oversizedFiles []).map
      (fun a => (a.stdout, a.exitCode, a.snapshots)) =
        some ([45, 57, 57, 56, 10], 0,
          [⟨0, 0, 503⟩, ⟨1, -998, 902⟩, ⟨2, -998, 0⟩, ⟨3, -998, -998⟩]) := by
    decide +kernel
  obtain ⟨a, ha, hs⟩ := Option.map_eq_some_iff.1 hx
  obtain ⟨-, hc⟩ :=
    running_compiled (by decide +kernel) hr (by decide +kernel) hw [] [] true 0 0 0
  obtain ⟨c, image, hc, -, -, -, -, hrun⟩ := hc _ hm
  obtain ⟨hends, halike⟩ := hrun _ (.inl rfl)
  obtain ⟨b, hb⟩ := hends.1 ⟨a, 4, ha⟩
  have hab := halike a b ⟨4, ha⟩ hb
  rw [hab.stdout, hab.exitCode, hab.snapshots] at hs
  injection hs with hout hs
  injection hs with hcode hshots
  exact ⟨c, b, hc, hb, hout, hcode, hshots⟩

end LittleMan
