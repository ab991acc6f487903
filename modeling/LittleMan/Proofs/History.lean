import LittleMan.Proofs.Command

/-! Commands executed one after another in a directory. No command changes a file but a compilation
that succeeds, which puts the image of its program where it was asked to. -/

namespace LittleMan

open Machine

/-- The text that a compilation reads: the standard input if it is told so, or else a file. -/
inductive Command.Reads (files : Directory) (input : List UInt8) :
    Option String → Bool → String → Prop
  | input {file? : Option String} {text : String} (ht : decodeUtf8? input = some text) :
      Reads files input file? true text
  | file {path text : String} {bytes : List UInt8} (hr : files.read path = .ok bytes)
      (ht : decodeUtf8? bytes = some text) : Reads files input (some path) false text

/-- A command can be executed as a compilation that leaves an image in a file. -/
inductive Command.Compiles (files : Directory) (input : List UInt8) :
    Command → Memory → Directory → Prop
  | compile {file? : Option String} {terminal strict : Bool} {out text : String}
      {memory : Memory} {after : Directory} (hr : Reads files input file? terminal text)
      (ha : (assemble (if strict then .strict else .wrapping) text).result = .ok memory)
      (hw : files.write out memory.toBytes = .ok after) :
      Compiles files input (.compile file? terminal out strict) memory after

/-- A command that has ended, with what it found and what it left. -/
structure Ended where
  before : Directory
  request : Request
  input : List UInt8
  outcome : Outcome

def Ended.Occurred (ended : Ended) : Prop :=
  ended.request.Ends ended.before ended.input ended.outcome

/-- A compilation has succeeded: a path that names a location was to take the image of the program
that it read, assembled as strictly as it was told to. -/
inductive Ended.Writes (ended : Ended) : String → Location → Memory → Prop
  | compile {file? : Option String} {terminal strict : Bool} {out text : String}
      {memory : Memory} {location : Location}
      (hc : ended.request.command = .compile file? terminal out strict)
      (hcode : ended.outcome.exitCode = 0)
      (hr : Command.Reads ended.before ended.input file? terminal text)
      (ha : (assemble (if strict then .strict else .wrapping) text).result = .ok memory)
      (hp : ended.before.place? out = some location) : Writes ended out location memory

/-- Commands that have been executed one after another from a directory on. -/
inductive History (start : Directory) : List Ended → Directory → Prop
  | start : History start [] start
  | next {past : List Ended} {ended : Ended} (h : History start past ended.before)
      (he : ended.Occurred) : History start (past ++ [ended]) ended.outcome.files

def Request.dumping (path : String) (verbosity : Nat) : Request := ⟨.dump path, verbosity⟩

/-- At a path lies an image of a memory: a run executes it, and a dump prints it at rest. -/
structure Loads (files : Directory) (path : String) (memory : Memory) : Prop where
  run_ends : ∀ (input : List UInt8) (trace : Bool) (verbosity : Nat),
    (∃ outcome, (Request.running path trace verbosity).Ends files input outcome) ↔
      ∃ n fault, (booted input memory).FailsAfter n fault
  run_reports : ∀ (input : List UInt8) (trace : Bool) (verbosity : Nat) (outcome : Outcome),
    (Request.running path trace verbosity).Ends files input outcome →
      ∃ n fault, (booted input memory).FailsAfter n fault ∧
        outcome.Reports path trace (booted input memory) n fault
  dump : ∀ (input : List UInt8) (verbosity : Nat), ∃ outcome,
    (∀ fuel, (Request.dumping path verbosity).execute fuel files input = some outcome) ∧
      outcome.exitCode = 0 ∧ outcome.stdout = encodeUtf8 (memory.wrapped.table ++ "\n")

variable {files after start : Directory} {input bytes : List UInt8} {path out text : String}
  {memory : Memory} {request : Request} {command : Command} {source : Source} {failure : Failure}
  {action : Action} {outcome other : Outcome} {contents : Storage.Contents}
  {file? : Option String} {terminal strict trace : Bool} {capacity : Capacity}
  {fuel verbosity : Nat} {location : Location} {error : FileError}

theorem textOf_eq_ok_iff :
    Storage.textOf contents = .ok text ↔
      ∃ bytes, contents = .ok bytes ∧ decodeUtf8? bytes = some text := by
  cases contents with
  | error error => simp [Storage.textOf]
  | ok bytes =>
    cases hd : decodeUtf8? bytes with
    | none => simp [Storage.textOf, hd]
    | some decoded => simp [Storage.textOf, hd]

theorem result_compiled_eq_ok_iff :
    (Command.compiled source capacity contents).result = .ok memory ↔
      ∃ text, Storage.textOf contents = .ok text ∧
        (assemble capacity text).result = .ok memory := by
  rw [Command.compiled]
  cases ht : Storage.textOf contents with
  | error error => cases source <;> simp [Logged.fail]
  | ok text =>
    simp only [Logged.result_rephrase, Except.ok.injEq, exists_eq_left']
    cases (assemble capacity text).result <;> simp [Except.mapError]

theorem reads_iff (out : String) (strict : Bool) :
    Command.Reads files input file? terminal text ↔
      ∃ source, (Command.compile file? terminal out strict).source = .ok source ∧
        Storage.textOf (source.contents files input) = .ok text := by
  apply Iff.intro
  · intro h
    cases h with
    | input ht => exact ⟨.input, rfl, textOf_eq_ok_iff.2 ⟨_, rfl, ht⟩⟩
    | file hr ht => exact ⟨.file _, rfl, textOf_eq_ok_iff.2 ⟨_, hr, ht⟩⟩
  · intro hx
    obtain ⟨source, hs, ht⟩ := hx
    obtain ⟨bytes, hc, hd⟩ := textOf_eq_ok_iff.1 ht
    cases terminal with
    | true =>
      cases hs
      cases hc
      exact .input hd
    | false =>
      cases file? with
      | none => cases hs
      | some path =>
        cases hs
        exact .file hc hd

theorem Command.Reads.compiled (h : Command.Reads files input file? terminal text)
    (ha : (assemble (if strict then .strict else .wrapping) text).result = .ok memory)
    (out : String) :
    ∃ source, (Command.compile file? terminal out strict).source = .ok source ∧
      (compiled source (if strict then .strict else .wrapping)
        (source.contents files input)).result = .ok memory := by
  obtain ⟨source, hs, ht⟩ := (reads_iff out strict).1 h
  exact ⟨source, hs, result_compiled_eq_ok_iff.2 ⟨text, ht, ha⟩⟩

theorem exitCode_of_failure?_eq_none (h : outcome.failure? = none) : outcome.exitCode = 0 := by
  rw [Outcome.exitCode, h]
  rfl

theorem execute_of_compiles (h : Command.Compiles files input command memory after)
    (verbosity : Nat) :
    ∃ outcome,
      (∀ fuel, (⟨command, verbosity⟩ : Request).execute fuel files input = some outcome) ∧
      outcome.files = after ∧ outcome.exitCode = 0 := by
  cases h with
  | @compile file? terminal strict out text _ _ hr ha hw =>
    obtain ⟨source, hs, hc⟩ := hr.compiled ha out
    have hp : ((⟨.compile file? terminal out strict, verbosity⟩ : Request).command.prepare source
        (source.contents files input)).result = .ok (.save out memory) := prepare_compiling hc
    obtain ⟨outcome, he, hf, hn⟩ := execute_of_saved hs hp hw
    exact ⟨outcome, he, hf, exitCode_of_failure?_eq_none hn⟩

theorem execute_of_not_saved (hs : request.command.source = .ok source)
    (hr : (request.command.prepare source (source.contents files input)).result =
      .ok (.save path memory))
    (hw : files.write path memory.toBytes = .error error) :
    ∃ outcome, (∀ fuel, request.execute fuel files input = some outcome) ∧
      outcome.files = files ∧ outcome.exitCode = 1 := by
  have he (fuel : Nat) : request.execute fuel files input =
      some ⟨files, [], (request.prepared source files input).notices,
        some (.storage (.imageUnwritable path error))⟩ := by
    have hp : (World.system.write path memory.toBytes).run (request.prepared source files input) =
        (.error error, request.prepared source files input) := run_write_of_error hw
    rw [execute_of_ok hs hr, Action.performIn, run_bind_of_run hp]
    rfl
  exact ⟨_, he, rfl, rfl⟩

theorem execute_of_not_compiles
    (h : ∀ memory after,
      ¬ (Command.compile file? terminal out strict).Compiles files input memory after)
    (verbosity : Nat) :
    ∃ outcome,
      (∀ fuel, (⟨.compile file? terminal out strict, verbosity⟩ : Request).execute fuel files
        input = some outcome) ∧
      outcome.files = files ∧ outcome.exitCode = 1 := by
  cases hs : (Command.compile file? terminal out strict).source with
  | error failure =>
    refine ⟨⟨files, [], #[], some failure⟩, ?_, rfl, rfl⟩
    intro fuel
    rw [Request.execute, Request.executeIn, hs]
    rfl
  | ok source =>
    cases hc : (Command.compiled source (if strict then .strict else .wrapping)
        (source.contents files input)).result with
    | error failure =>
      have hp : ((⟨.compile file? terminal out strict, verbosity⟩ : Request).command.prepare
          source (source.contents files input)).result = .error failure :=
        prepare_compiling_of_error hc
      obtain ⟨outcome, he, hcode, -, hf⟩ := execute_of_error hs hp
      exact ⟨outcome, he, hf, hcode⟩
    | ok memory =>
      obtain ⟨text, ht, ha⟩ := result_compiled_eq_ok_iff.1 hc
      have hr := (reads_iff out strict).2 ⟨source, hs, ht⟩
      cases hw : files.write out memory.toBytes with
      | ok after => exact absurd (.compile hr ha hw) (h memory after)
      | error error =>
        have hp : ((⟨.compile file? terminal out strict, verbosity⟩ : Request).command.prepare
            source (source.contents files input)).result = .ok (.save out memory) :=
          prepare_compiling hc
        exact execute_of_not_saved hs hp hw

theorem Request.Ends.unique (h : request.Ends files input outcome)
    (he : ∀ fuel, request.execute fuel files input = some other) : outcome = other := by
  obtain ⟨fuel, h⟩ := h
  exact Option.some.inj (h.symm.trans (he fuel))

theorem prepare_dumping (h : (Command.loaded path contents).result = .ok memory) :
    ((Command.dump path).prepare (.file path) contents).result =
      .ok (.print (memory.table ++ "\n")) :=
  Logged.result_bind_of_ok h _

theorem execute_dumping (hl : (Command.loaded path (files.read path)).result = .ok memory)
    (input : List UInt8) (verbosity fuel : Nat) :
    (Request.dumping path verbosity).execute fuel files input =
      some ⟨files, encodeUtf8 (memory.table ++ "\n"),
        ((Request.dumping path verbosity).prepared (.file path) files input).notices, none⟩ := by
  have hw (text : List UInt8) : (({} : Outbox).deliver text).written = text :=
    Outbox.written_deliver _ _
  rw [execute_of_ok rfl (prepare_dumping hl), ← hw (encodeUtf8 _)]
  rfl

/-- A command that compiles nothing runs a machine that it has loaded, or prints a table. -/
theorem Command.prepare_cases (h : (command.prepare source contents).result = .ok action)
    (hc : ∀ file? terminal out strict, command ≠ .compile file? terminal out strict) :
    (∃ path memory trace, action = .run path (({} : Machine).load memory) trace) ∨
      ∃ text, action = .print text := by
  cases command with
  | compile file? terminal out strict => exact absurd rfl (hc file? terminal out strict)
  | run file trace =>
    obtain ⟨image, -, hr⟩ := Logged.result_bind_eq_ok_iff.1 h
    cases hr
    exact .inl ⟨file, image, trace, rfl⟩
  | dump file =>
    obtain ⟨image, -, hr⟩ := Logged.result_bind_eq_ok_iff.1 h
    cases hr
    exact .inr ⟨_, rfl⟩

/-- Only a compilation changes files. -/
theorem Request.Ends.files_eq (h : request.Ends files input outcome)
    (hc : ∀ file? terminal out strict, request.command ≠ .compile file? terminal out strict) :
    outcome.files = files := by
  obtain ⟨fuel, h⟩ := h
  cases hs : request.command.source with
  | error failure =>
    rw [Request.execute, Request.executeIn, hs] at h
    cases h
    rfl
  | ok source =>
    cases hp : (request.command.prepare source (source.contents files input)).result with
    | error failure =>
      obtain ⟨other, he, -, -, hf⟩ := execute_of_error hs hp
      rw [Ends.unique ⟨fuel, h⟩ he, hf]
    | ok action =>
      rw [execute_of_ok hs hp] at h
      rcases Command.prepare_cases hp hc with ⟨path, memory, trace, rfl⟩ | ⟨text, rfl⟩
      · have hr : (booted (source.left input) memory).outbox.Reliable := fun _ => rfl
        have hx := of?_performIn_run hr (request.prepared source files input) path
          request.threshold trace fuel
        obtain ⟨finished, -, rfl⟩ := Option.map_eq_some_iff.1 (hx.symm.trans h)
        rfl
      · cases h
        rfl

theorem Command.Reads.unique (h : Command.Reads files input file? terminal text)
    {decoded : String} (h' : Command.Reads files input file? terminal decoded) :
    text = decoded := by
  cases h with
  | input ht =>
    cases h' with
    | input ht' => exact Option.some.inj (ht.symm.trans ht')
  | file hr ht =>
    cases h' with
    | file hr' ht' =>
      cases hr.symm.trans hr'
      exact Option.some.inj (ht.symm.trans ht')

/-- A command that ends has compiled a program and changed the files by its image, or it has left
the files alone. -/
theorem Request.Ends.compiles_or (h : request.Ends files input outcome) :
    (∃ memory, request.command.Compiles files input memory outcome.files ∧
        outcome.exitCode = 0) ∨
      outcome.files = files ∧ ∀ file? terminal out strict,
        request.command = .compile file? terminal out strict → outcome.exitCode = 1 := by
  by_cases hx : ∃ memory after, request.command.Compiles files input memory after
  · obtain ⟨memory, after, hx⟩ := hx
    obtain ⟨other, hother, rfl, hcode⟩ := execute_of_compiles hx request.verbosity
    obtain rfl := h.unique hother
    exact .inl ⟨memory, hx, hcode⟩
  · right
    by_cases hc : ∃ file? terminal out strict,
      request.command = .compile file? terminal out strict
    · obtain ⟨file?, terminal, out, strict, hc⟩ := hc
      obtain ⟨command, verbosity⟩ := request
      subst hc
      have hn (memory : Memory) (after : Directory) :
          ¬ (Command.compile file? terminal out strict).Compiles files input memory after :=
        fun hy => hx ⟨memory, after, hy⟩
      obtain ⟨other, hother, hf, hcode⟩ := execute_of_not_compiles hn verbosity
      obtain rfl := h.unique hother
      exact ⟨hf, fun _ _ _ _ _ => hcode⟩
    · have hn (file? : Option String) (terminal : Bool) (out : String) (strict : Bool) :
          request.command ≠ .compile file? terminal out strict :=
        fun he => hc ⟨file?, terminal, out, strict, he⟩
      exact ⟨h.files_eq hn, fun _ _ _ _ he => absurd he (hn _ _ _ _)⟩

namespace Ended

variable {ended : Ended}

theorem Writes.write (h : ended.Writes out location memory) (he : ended.Occurred) :
    ended.before.write out memory.toBytes = .ok ended.outcome.files := by
  cases h with
  | compile hc hcode hr ha hp =>
    obtain ⟨image, hx, -⟩ | ⟨-, hone⟩ := he.compiles_or
    · rw [hc] at hx
      cases hx with
      | compile hr' ha' hw =>
        cases hr.unique hr'
        cases ha.symm.trans ha'
        exact hw
    · cases hcode.symm.trans (hone _ _ _ _ hc)

theorem exists_writes (he : ended.Occurred)
    (hc : ended.request.command = .compile file? terminal out strict)
    (hcode : ended.outcome.exitCode = 0) : ∃ location memory, ended.Writes out location memory := by
  obtain ⟨memory, hx, -⟩ | ⟨-, hone⟩ := he.compiles_or
  · rw [hc] at hx
    cases hx with
    | compile hr ha hw =>
      obtain ⟨location, hp, -⟩ := Directory.exists_place_of_write hw
      exact ⟨location, memory, .compile hc hcode hr ha hp⟩
  · cases hcode.symm.trans (hone _ _ _ _ hc)

theorem files_eq_of_not_writes (he : ended.Occurred)
    (hn : ∀ out location memory, ¬ ended.Writes out location memory) :
    ended.outcome.files = ended.before := by
  obtain ⟨memory, hx, hcode⟩ | ⟨hf, -⟩ := he.compiles_or
  · cases hc : ended.request.command with
    | compile file? terminal out strict =>
      obtain ⟨location, image, hw⟩ := exists_writes he hc hcode
      exact absurd hw (hn out location image)
    | run path trace =>
      rw [hc] at hx
      cases hx
    | dump path =>
      rw [hc] at hx
      cases hx
  · exact hf

theorem Writes.exitCode (h : ended.Writes out location memory) : ended.outcome.exitCode = 0 := by
  cases h with
  | compile _ hcode => exact hcode

theorem Writes.place? (h : ended.Writes out location memory) :
    ended.before.place? out = some location := by
  cases h with
  | compile _ _ _ _ hp => exact hp

theorem Writes.file?_eq (h : ended.Writes out location memory) (he : ended.Occurred)
    (spot : Location) :
    ended.outcome.files.file? spot =
      if spot = location then some memory.toBytes else ended.before.file? spot :=
  Directory.file?_write (h.write he) h.place? spot

theorem place?_kept (he : ended.Occurred) (hp : ended.before.place? path = some location) :
    ended.outcome.files.place? path = some location := by
  by_cases hx : ∃ out place memory, ended.Writes out place memory
  · obtain ⟨out, place, memory, hw⟩ := hx
    exact Directory.place?_write (hw.write he) hp
  · have hf : ended.outcome.files = ended.before :=
      files_eq_of_not_writes he fun out place memory hw => hx ⟨out, place, memory, hw⟩
    rw [hf]
    exact hp

/-- A location holds what a command has just put there, or else what it held before. -/
theorem file?_of_not_writes (he : ended.Occurred)
    (hn : ∀ out memory, ¬ ended.Writes out location memory) :
    ended.outcome.files.file? location = ended.before.file? location := by
  by_cases hx : ∃ out place memory, ended.Writes out place memory
  · obtain ⟨out, place, memory, hw⟩ := hx
    rw [hw.file?_eq he]
    apply if_neg
    rintro rfl
    exact hn out memory hw
  · have hf : ended.outcome.files = ended.before :=
      files_eq_of_not_writes he fun out place memory hw => hx ⟨out, place, memory, hw⟩
    rw [hf]

end Ended

variable {past : List Ended} {ended : Ended}

namespace History

theorem occurred (h : History start past files) (hm : ended ∈ past) : ended.Occurred := by
  induction h with
  | start => cases hm
  | next h he ih =>
    rcases List.mem_append.1 hm with hm | hm
    · exact ih hm
    · rw [List.mem_singleton.1 hm]
      exact he

theorem place?_kept (h : History start past files) (hm : ended ∈ past)
    (hp : ended.before.place? path = some location) : files.place? path = some location := by
  induction h with
  | start => cases hm
  | next h he ih =>
    rcases List.mem_append.1 hm with hm | hm
    · exact Ended.place?_kept he (ih hm)
    · rw [List.mem_singleton.1 hm] at hp
      exact Ended.place?_kept he hp

/-- A location that has been written holds the image of the latest compilation that wrote it. -/
theorem latest (h : History start past files) (hm : ended ∈ past)
    (hw : ended.Writes out location memory) :
    ∃ earlier last later path image, earlier ++ last :: later = past ∧
      last.Writes path location image ∧
      (∀ other ∈ later, ∀ path image, ¬ other.Writes path location image) ∧
      files.file? location = some image.toBytes := by
  induction h with
  | start => cases hm
  | @next past new h he ih =>
    -- The new command is the latest one to write there, or it leaves the location alone.
    by_cases hx : ∃ path image, new.Writes path location image
    · obtain ⟨path, image, hlast⟩ := hx
      refine ⟨past, new, [], path, image, rfl, hlast, List.forall_mem_nil _, ?_⟩
      rw [hlast.file?_eq he, if_pos rfl]
    · have hn (path : String) (image : Memory) : ¬ new.Writes path location image :=
        fun hy => hx ⟨path, image, hy⟩
      rcases List.mem_append.1 hm with hm | hm
      · obtain ⟨earlier, last, later, path, image, rfl, hlast, hlater, hf⟩ := ih hm
        refine ⟨earlier, last, later ++ [new], path, image, ?_, hlast, ?_, ?_⟩
        · rw [List.append_assoc, List.cons_append]
        · exact List.forall_mem_append.2 ⟨hlater, List.forall_mem_singleton.2 hn⟩
        · exact (Ended.file?_of_not_writes he hn).trans hf
      · rw [List.mem_singleton.1 hm] at hw
        exact absurd hw (hn out memory)

end History

theorem exitCode_compile_iff (files : Directory) (input : List UInt8) (file? : Option String)
    (terminal : Bool) (out : String) (strict : Bool) (verbosity : Nat) :
    ∃ outcome,
      (∀ fuel, (⟨.compile file? terminal out strict, verbosity⟩ : Request).execute fuel files
        input = some outcome) ∧
      (outcome.exitCode = 0 ↔ ∃ text memory after,
        Command.Reads files input file? terminal text ∧
          (assemble (if strict then .strict else .wrapping) text).result = .ok memory ∧
          files.write out memory.toBytes = .ok after) := by
  by_cases hx : ∃ memory after,
    (Command.compile file? terminal out strict).Compiles files input memory after
  · obtain ⟨memory, after, hx⟩ := hx
    obtain ⟨outcome, he, -, hcode⟩ := execute_of_compiles hx verbosity
    cases hx with
    | compile hr ha hw => exact ⟨outcome, he, fun _ => ⟨_, _, _, hr, ha, hw⟩, fun _ => hcode⟩
  · have hn (memory : Memory) (after : Directory) :
        ¬ (Command.compile file? terminal out strict).Compiles files input memory after :=
      fun hy => hx ⟨memory, after, hy⟩
    obtain ⟨outcome, he, -, hcode⟩ := execute_of_not_compiles hn verbosity
    refine ⟨outcome, he, ?_, ?_⟩
    · intro hzero
      cases hzero.symm.trans hcode
    · intro hy
      obtain ⟨text, memory, after, hr, ha, hw⟩ := hy
      exact absurd (.compile hr ha hw) (hn memory after)

theorem Loads.of_read (hp : Path.extension? path ≠ some "lmc")
    (hr : files.read path = .ok memory.toBytes) : Loads files path memory := by
  have hl : (Command.loaded path (files.read path)).result = .ok memory.wrapped := by
    rw [hr]
    exact loaded_image hp memory.ofBytes_toBytes
  have hb (input : List UInt8) : booted input memory.wrapped = booted input memory :=
    Machine.load_wrapped _ memory
  refine ⟨?_, ?_, ?_⟩
  · intro input trace verbosity
    rw [← hb]
    apply Iff.intro
    · intro hx
      obtain ⟨outcome, h⟩ := hx
      obtain ⟨n, fault, hf, -⟩ := h.reports hl
      exact ⟨n, fault, hf⟩
    · intro hx
      obtain ⟨n, fault, hf⟩ := hx
      exact ends_running_of_failsAfter hl hf
  · intro input trace verbosity outcome h
    rw [← hb]
    exact h.reports hl
  · intro input verbosity
    exact ⟨_, execute_dumping hl input verbosity, rfl, rfl⟩

/-- No command changes a file but a compilation that succeeds, and that only at the location of its
output path. A compilation succeeds exactly if its program can be read and assembled and its image
be written. What it wrote under the name of an image can be run and dumped later on, as the image of
the latest compilation to the same location. -/
theorem History.files_written (h : History start past files) :
    (∀ ended ∈ past,
      (∀ out location memory, ended.Writes out location memory →
        memory.toBytes.length = 200 ∧ ∀ spot, ended.outcome.files.file? spot =
          if spot = location then some memory.toBytes else ended.before.file? spot) ∧
      ((∀ out location memory, ¬ ended.Writes out location memory) →
        ended.outcome.files = ended.before) ∧
      (∀ path location, ended.before.place? path = some location →
        ended.outcome.files.place? path = some location) ∧
      ∀ file? terminal out strict,
        ended.request.command = .compile file? terminal out strict →
          (ended.outcome.exitCode = 0 ↔ ∃ location memory, ended.Writes out location memory)) ∧
    (∀ input file? terminal out strict verbosity, ∃ outcome,
      (∀ fuel, (⟨.compile file? terminal out strict, verbosity⟩ : Request).execute fuel files
        input = some outcome) ∧
      (outcome.exitCode = 0 ↔ ∃ text memory after,
        Command.Reads files input file? terminal text ∧
          (assemble (if strict then .strict else .wrapping) text).result = .ok memory ∧
          files.write out memory.toBytes = .ok after)) ∧
    ∀ ended ∈ past, ∀ out location memory, ended.Writes out location memory →
      files.place? out = some location ∧
      ∃ earlier last later path image, earlier ++ last :: later = past ∧
        last.Writes path location image ∧
        (∀ other ∈ later, ∀ path image, ¬ other.Writes path location image) ∧
        ∀ name, files.place? name = some location →
          files.read name = .ok image.toBytes ∧
            (Path.extension? name ≠ some "lmc" → Loads files name image) := by
  refine ⟨?_, ?_, ?_⟩
  · intro ended hm
    have he := h.occurred hm
    refine ⟨fun out location memory hw => ⟨memory.length_toBytes, hw.file?_eq he⟩,
      Ended.files_eq_of_not_writes he,
      fun path location hp => Ended.place?_kept he hp, ?_⟩
    intro file? terminal out strict hc
    refine ⟨Ended.exists_writes he hc, ?_⟩
    intro hx
    obtain ⟨location, memory, hw⟩ := hx
    exact hw.exitCode
  · intro input file? terminal out strict verbosity
    exact exitCode_compile_iff files input file? terminal out strict verbosity
  · intro ended hm out location memory hw
    obtain ⟨earlier, last, later, path, image, hpast, hlast, hlater, hf⟩ := h.latest hm hw
    refine ⟨h.place?_kept hm hw.place?, earlier, last, later, path, image, hpast, hlast, hlater,
      ?_⟩
    intro name hp
    have hr : files.read name = .ok image.toBytes :=
      Directory.read_eq_ok_iff_file?.2 ⟨location, hp, hf⟩
    exact ⟨hr, fun hx => .of_read hx hr⟩

/-- A program that cannot be assembled leaves the image under the name that it was to overwrite. -/
theorem oversized_files_written :
    ∃ first second image, History oversizedFiles [first, second] second.outcome.files ∧
      first.outcome.exitCode = 0 ∧ second.outcome.exitCode = 1 ∧
      second.outcome.files = first.outcome.files ∧
      second.outcome.files.read "img" = .ok image.toBytes ∧
      Loads second.outcome.files "img" image := by
  have ht : decodeUtf8? (encodeUtf8 "HALT") = some "HALT" := by decide +kernel
  have hf (memory : Memory) : (assemble .strict "HALT").result ≠ .ok memory := by
    intro ha
    have hn : (assemble .strict "HALT").result.toOption = none := by decide +kernel
    rw [ha] at hn
    cases hn
  have hx (files : Directory) (memory : Memory) (after : Directory) :
      ¬ (Command.compile none true "img" true).Compiles files (encodeUtf8 "HALT") memory
        after := by
    intro hc
    cases hc with
    | compile hr ha hw => exact hf memory (hr.unique (.input ht) ▸ ha)
  have hm : (assemble .wrapping oversized).result =
      .ok (.ofFn fun address => [503, 902, 0, 1001].getD address.val 0) := by decide +kernel
  have hr : Command.Reads oversizedFiles [] (some "a.lmc") false oversized :=
    .file rfl (by decide +kernel)
  have hc : (Command.compile (some "a.lmc") false "img" false).Compiles oversizedFiles []
      (.ofFn fun address => [503, 902, 0, 1001].getD address.val 0) _ := .compile hr hm rfl
  obtain ⟨a, ha, -, hzero⟩ := execute_of_compiles hc 0
  obtain ⟨b, hb, hkept, hone⟩ := execute_of_not_compiles (hx a.files) 0
  let first : Ended := ⟨oversizedFiles, ⟨.compile (some "a.lmc") false "img" false, 0⟩, [], a⟩
  let second : Ended := ⟨a.files, ⟨.compile none true "img" true, 0⟩, encodeUtf8 "HALT", b⟩
  have hfirst : first.Writes "img" ["img"]
      (.ofFn fun address => [503, 902, 0, 1001].getD address.val 0) :=
    .compile rfl hzero hr hm rfl
  have ho : first.Occurred := ⟨0, ha 0⟩
  have ho' : second.Occurred := ⟨0, hb 0⟩
  have hh : History oversizedFiles ([first] ++ [second]) second.outcome.files :=
    .next (.next .start ho) ho'
  obtain ⟨-, -, hw⟩ := hh.files_written
  obtain ⟨hp, -, -, -, -, image, -, -, -, hl⟩ := hw first List.mem_cons_self _ _ _ hfirst
  obtain ⟨hread, hload⟩ := hl "img" hp
  exact ⟨first, second, image, hh, hzero, hone, hkept, hread, hload (by decide +kernel)⟩

end LittleMan
