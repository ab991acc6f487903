import LittleMan.Proofs.Assembly.Correspondence

/-! What the assembler logs about faults: warnings about the lines that it reads, in their order, and
last of all the error that it ends with. -/

namespace LittleMan.Assembly

/-- What a line may be warned about: that its word takes cell 0 again, or that the operand of its
datum is no number. -/
inductive Warning
  | wrapping (line : Nat)
  | ignored (line : Nat) (operand : String)

/-- The text of a warning, which begins with the number of its line. -/
def Warning.text : Warning → String
  | .wrapping line =>
    "[" ++ toString line ++ "] Program exceeds 100 words, wrapping to address 0"
  | .ignored line operand =>
    "[" ++ toString line ++ "] DAT operand `" ++ operand ++ "` is not an integer, storing 0"

def Warning.entry (warning : Warning) : Log.Entry := ⟨.warn, .assembly, warning.text⟩

/-- The event that a warning is logged for. -/
def Warning.event : Warning → Event
  | .wrapping line => .wrapping line
  | .ignored line operand => .datumIgnored line operand

/-- The text of an error, which ends with the number of its line. -/
def Error.text (error : Error) : String :=
  (match error.cause with
    | .invalidOpcode => "invalid opcode"
    | .duplicateLabel label => "label `" ++ label ++ "` already used"
    | .unresolvedLabel label => "label `" ++ label ++ "` not found"
    | .programTooLong => "program does not fit in 100 words") ++ " on line " ++ toString error.line

/-- The warning about the statement that is the first one to take a cell again. -/
def wrapWarning (capacity : Capacity) (placed : Placed) (i : Nat) : List Warning :=
  if capacity = .wrapping ∧ i = 100 then [.wrapping placed.line] else []

/-- The warning about a datum whose operand is no numeral, unless a strict capacity refuses it. -/
def datumWarning (capacity : Capacity) (placed : Placed) (i : Nat) : List Warning :=
  match placed.statement.mnemonic, placed.statement.operand with
  | .dat, some token =>
    if tokenValue? token = none ∧ ¬ (capacity = .strict ∧ 100 ≤ i) then
      [.ignored placed.line token]
    else []
  | _, _ => []

/-- The warnings about a statement at its place, counted from zero. -/
def warnings (capacity : Capacity) (placed : Placed) (i : Nat) : List Warning :=
  wrapWarning capacity placed i ++ datumWarning capacity placed i

/-- The warnings about some statements, in their order. -/
def warned (capacity : Capacity) (code : List Placed) : List Warning :=
  code.zipIdx.flatMap fun (placed, i) => warnings capacity placed i

/-- How many lines of a program are read: an unknown label shows only after the last one, and any
other error ends with its own line. -/
def linesRead (program : List Line) : Except Error Memory → Nat
  | .ok _ => program.length
  | .error error =>
    match error.cause with
    | .unresolvedLabel _ => program.length
    | _ => error.line

/-- The statements among the lines of a source that are read. -/
def processed (capacity : Capacity) (source : String) : List Placed :=
  statements ((readSource source).take
    (linesRead (readSource source) (assemble capacity source).result))

/-- All that is logged while a source is assembled. -/
def logged (capacity : Capacity) (source : String) : List Log.Entry :=
  (assemble capacity source).log.toList.map Event.entry

/-- How an error is logged. -/
def reported : Except Error Memory → List Log.Entry
  | .ok _ => []
  | .error error => [⟨.error, .assembly, error.text⟩]

def Event.isGrave (event : Event) : Bool := Log.Level.warn.admits event.level

def Event.isWrapping : Event → Bool
  | .wrapping _ => true
  | _ => false

/-- The warnings and errors that a computation logs. -/
def grave {α : Type} (x : Assembler α) : List Event := x.log.toList.filter Event.isGrave

section Grave

variable {α β ι : Type} {x : Assembler α} {value : α} {error : Error}

theorem grave_bind_of_ok (h : x.result = .ok value) (f : α → Assembler β) :
    grave (x >>= f) = grave x ++ grave (f value) := by
  rw [grave, Logged.log_bind_of_ok h, Array.toList_append, List.filter_append]
  rfl

theorem grave_bind_of_error (h : x.result = .error error) (f : α → Assembler β) :
    grave (x >>= f) = grave x := by
  rw [grave, Logged.log_bind_of_error h]
  rfl

theorem grave_foldl_eq_nil {f : α → ι → Assembler α} (hf : ∀ state item, grave (f state item) = [])
    (state : α) (items : List ι) : grave (Logged.foldl f state items) = [] := by
  induction items generalizing state with
  | nil => rfl
  | cons item items ih =>
    rw [Logged.foldl_cons]
    cases hr : (f state item).result with
    | ok next => rw [grave_bind_of_ok hr, hf, ih, List.append_nil]
    | error error => rw [grave_bind_of_error hr, hf]

end Grave

variable {capacity : Capacity} {program : List Line} {line : Line} {error : Error} {source : String}

namespace Draft

variable (draft : Draft) (statement : Statement)

theorem grave_reserve (capacity : Capacity) :
    grave (draft.reserve capacity) =
      (wrapWarning capacity ⟨draft.line, statement⟩ draft.emitted).map Warning.event := by
  rw [reserve, wrapWarning]
  cases capacity with
  | strict =>
    simp only [true_and, reduceCtorEq, false_and, if_false]
    split
    · rfl
    · next h =>
      rw [if_neg fun he => h (Nat.le_of_eq he.symm)]
      rfl
  | wrapping =>
    simp only [true_and, reduceCtorEq, false_and, if_false]
    split <;> rfl

theorem not_isGrave_stored : (draft.stored statement).isGrave = false := by
  rw [stored]
  split <;> rfl

theorem grave_describe :
    grave (draft.describe statement) =
      (statement.unreadable?.map (.ignored draft.line)).toList.map Warning.event := by
  have hs := draft.not_isGrave_stored statement
  rw [describe]
  cases statement.unreadable? with
  | none =>
    change [draft.stored statement].filter Event.isGrave = []
    rw [List.filter_cons, hs]
    rfl
  | some operand =>
    change [.datumIgnored draft.line operand, draft.stored statement].filter Event.isGrave =
      [.datumIgnored draft.line operand]
    rw [List.filter_cons_of_pos rfl, List.filter_cons, hs]
    rfl

theorem grave_define : grave (draft.define statement) = [] := by
  rw [define]
  cases statement.label with
  | none => rfl
  | some label =>
    by_cases h : (draft.labels.lookup label).isSome = true
    · simp only [if_pos h]
      rfl
    · simp only [if_neg h]
      rfl

theorem grave_resolveCell (memory : Memory) (cell : Address) :
    grave (draft.resolveCell memory cell) = [] := by
  rw [resolveCell]
  split
  · rfl
  · split <;> rfl

theorem grave_finish : grave draft.finish = [] :=
  grave_foldl_eq_nil draft.grave_resolveCell draft.memory addresses

end Draft

theorem warnings_of_full {placed : Placed} {i : Nat} (h : capacity = .strict ∧ 100 ≤ i) :
    warnings capacity placed i = [] := by
  have hw : wrapWarning capacity placed i = [] := if_neg fun hw => by cases h.1.symm.trans hw.1
  rw [warnings, hw, List.nil_append, datumWarning]
  split
  · exact if_neg fun hx => hx.2 h
  · rfl

theorem datumWarning_of_room {placed : Placed} {i : Nat} (h : ¬ (capacity = .strict ∧ 100 ≤ i)) :
    datumWarning capacity placed i =
      (placed.statement.unreadable?.map (.ignored placed.line)).toList := by
  obtain ⟨number, label, mnemonic, operand⟩ := placed
  rw [datumWarning, Statement.unreadable?]
  cases mnemonic with
  | op operation => rfl
  | dat =>
    cases operand with
    | none => rfl
    | some token => cases hv : tokenValue? token <;> simp [h, hv, Option.filter_some]

theorem Draft.grave_addStatement (draft : Draft) (statement : Statement) :
    grave ({ draft with line := draft.line + 1 }.addStatement capacity statement) =
      (warnings capacity ⟨draft.line + 1, statement⟩ draft.emitted).map Warning.event := by
  have hr := result_reserve capacity { draft with line := draft.line + 1 }
  have hg : grave (reserve capacity { draft with line := draft.line + 1 }) =
      (wrapWarning capacity ⟨draft.line + 1, statement⟩ draft.emitted).map Warning.event :=
    grave_reserve _ _ _
  by_cases hfull : capacity = .strict ∧ 100 ≤ draft.emitted
  · rw [if_pos hfull] at hr
    have hw : warnings capacity ⟨draft.line + 1, statement⟩ draft.emitted = [] :=
      warnings_of_full hfull
    rw [addStatement, grave_bind_of_error hr, hg, hw, (List.append_eq_nil_iff.1 hw).1]
  · rw [if_neg hfull] at hr
    rw [addStatement, grave_bind_of_ok hr, grave_bind_of_ok (result_describe _ _), hg,
      grave_describe, warnings, List.map_append, datumWarning_of_room hfull]
    -- Nothing more is said of the statement, whether its label is new or not.
    have hd (after : Draft) : grave (after.define statement >>= fun draft => pure draft.advance) =
        [] := by
      cases hd : (after.define statement).result with
      | ok defined => rw [grave_bind_of_ok hd, grave_define]; rfl
      | error error => rw [grave_bind_of_error hd, grave_define]
    rw [hd, List.append_nil]

theorem Draft.grave_addLine (draft : Draft) (line : List Char) :
    grave (draft.addLine capacity line) =
      match Line.read line with
      | .statement statement =>
        (warnings capacity ⟨draft.line + 1, statement⟩ draft.emitted).map Warning.event
      | _ => [] := by
  rw [addLine]
  cases Line.read line with
  | blank => rfl
  | unrecognized => rfl
  | statement statement => exact draft.grave_addStatement statement

theorem firstProblem?_eq_some {program : List Line}
    (h : firstProblem? capacity program = some error) :
    error.line ≤ program.length ∧ ∀ label, error.cause ≠ .unresolvedLabel label := by
  obtain ⟨n, hn, hp⟩ := List.mem_filterMap.1 (List.mem_of_mem_head? h)
  obtain ⟨hl, line, -, ho⟩ := problemAt?_eq_some_iff.1 hp
  have hlt := List.mem_range.1 hn
  refine ⟨by omega, ?_⟩
  intro label hc
  rw [hc] at ho
  cases ho

theorem warned_concat (code : List Placed) (placed : Placed) :
    warned capacity (code ++ [placed]) =
      warned capacity code ++ warnings capacity placed code.length := by
  rw [warned, List.zipIdx_append, List.flatMap_append, List.zipIdx_singleton, List.flatMap_singleton,
    Nat.zero_add]
  rfl

theorem warned_statements_concat (program : List Line) (line : Line) :
    warned capacity (statements (program ++ [line])) = warned capacity (statements program) ++
      match line with
      | .statement statement =>
        warnings capacity ⟨program.length + 1, statement⟩ (statements program).length
      | _ => [] := by
  rw [statements_concat]
  cases line with
  | statement statement => exact warned_concat _ _
  | _ => rw [List.append_nil, List.append_nil]

/-- The lines up to the first problem are warned about, the line of the problem included. -/
theorem grave_draftOf (source : List (List Char)) :
    grave (draftOf capacity source) =
      (warned capacity (statements ((source.map Line.read).take
        ((firstProblem? capacity (source.map Line.read)).elim (source.map Line.read).length
          Error.line)))).map Warning.event := by
  induction source using List.reverseRecOn with
  | nil => rfl
  | append_singleton source line ih =>
    have hr := result_draftOf capacity source
    rw [draftOf_concat, List.map_append, List.map_singleton, firstProblem?_concat]
    cases hp : firstProblem? capacity (source.map Line.read) with
    | some error =>
      rw [hp, Option.elim_some] at hr ih
      rw [grave_bind_of_error hr, Option.some_or, Option.elim_some,
        List.take_append_of_le_length (firstProblem?_eq_some hp).1]
      exact ih
    | none =>
      rw [hp, Option.elim_none] at hr ih
      rw [List.take_length] at ih
      have hend : ((drafted (source.map Line.read)).problem? capacity (Line.read line)).elim
          (source.map Line.read ++ [Line.read line]).length Error.line =
          (source.map Line.read ++ [Line.read line]).length := by
        cases hq : (drafted (source.map Line.read)).problem? capacity (Line.read line) with
        | none => rfl
        | some error =>
          rw [List.length_append]
          exact (problem?_drafted_eq_some_iff.1 hq).2
      rw [grave_bind_of_ok hr, Draft.grave_addLine, ih, Option.none_or, hend, List.take_length,
        warned_statements_concat, List.map_append, line_drafted, emitted_drafted]
      cases Line.read line <;> rfl

theorem linesRead_assemble :
    linesRead (readSource source) (assemble capacity source).result =
      (firstProblem? capacity (readSource source)).elim (readSource source).length Error.line := by
  rw [result_assemble, verdict]
  cases hp : firstProblem? capacity (readSource source) with
  | some error =>
    obtain ⟨-, hc⟩ := firstProblem?_eq_some hp
    obtain ⟨cause, number⟩ := error
    cases cause with
    | unresolvedLabel label => exact absurd rfl (hc label)
    | _ => rfl
  | none =>
    cases hf : (drafted (readSource source)).finish.result with
    | ok memory => rfl
    | error error =>
      obtain ⟨_, _, -, rfl, -⟩ := result_finish_drafted_eq_error_iff.1 hf
      rfl

/-- Before its own error is logged, assembling logs the warnings about the lines that it reads. -/
theorem grave_draftOf_finish :
    grave (draftOf capacity (lines source.toList) >>= Draft.finish) =
      (warned capacity (processed capacity source)).map Warning.event := by
  have hr := result_draftOf capacity (lines source.toList)
  have hg : grave (draftOf capacity (lines source.toList)) = _ := grave_draftOf _
  rw [processed, linesRead_assemble]
  rw [← readSource] at hr hg
  cases hp : firstProblem? capacity (readSource source) with
  | some error =>
    rw [hp] at hr hg
    rw [grave_bind_of_error hr, hg]
  | none =>
    rw [hp] at hr hg
    rw [grave_bind_of_ok hr, hg, Draft.grave_finish, List.append_nil]

theorem grave_assemble_of_ok {memory : Memory} (h : (assemble capacity source).result = .ok memory) :
    grave (assemble capacity source) =
      (warned capacity (processed capacity source)).map Warning.event := by
  rw [assemble, Logged.result_reporting] at h
  rw [grave, assemble, Logged.log_reporting_of_ok h]
  exact grave_draftOf_finish

theorem log_assemble_of_error (h : (assemble capacity source).result = .error error) :
    (assemble capacity source).log =
      (draftOf capacity (lines source.toList) >>= Draft.finish).log.push (.failed error) := by
  rw [assemble, Logged.result_reporting] at h
  exact Logged.log_reporting_of_error h _

theorem grave_assemble_of_error (h : (assemble capacity source).result = .error error) :
    grave (assemble capacity source) =
      (warned capacity (processed capacity source)).map Warning.event ++ [.failed error] := by
  rw [grave, log_assemble_of_error h, Array.toList_push, List.filter_append]
  exact congrArg (· ++ [Event.failed error]) grave_draftOf_finish

theorem Error.message_eq_text (error : Error) : error.message = error.text := by
  obtain ⟨cause, line⟩ := error
  cases cause <;> rfl

theorem map_entry_map_event (warnings : List Warning) :
    (warnings.map Warning.event).map Event.entry = warnings.map Warning.entry := by
  rw [List.map_map]
  apply List.map_congr_left
  intro warning _
  cases warning <;> rfl

theorem map_entry_grave_assemble :
    (grave (assemble capacity source)).map Event.entry =
      (warned capacity (processed capacity source)).map Warning.entry ++
        reported (assemble capacity source).result := by
  cases h : (assemble capacity source).result with
  | ok memory => rw [grave_assemble_of_ok h, map_entry_map_event, reported, List.append_nil]
  | error error =>
    rw [grave_assemble_of_error h, List.map_append, map_entry_map_event, reported,
      ← error.message_eq_text]
    rfl

theorem countP_warnings (placed : Placed) (i : Nat) :
    ((warnings capacity placed i).map Warning.event).countP Event.isWrapping =
      if capacity = .wrapping ∧ i = 100 then 1 else 0 := by
  have hd : ((datumWarning capacity placed i).map Warning.event).countP Event.isWrapping = 0 := by
    rw [datumWarning]
    split
    · split <;> rfl
    · rfl
  rw [warnings, List.map_append, List.countP_append, hd, wrapWarning]
  split <;> rfl

theorem countP_warned (code : List Placed) :
    ((warned capacity code).map Warning.event).countP Event.isWrapping =
      if capacity = .wrapping ∧ 100 < code.length then 1 else 0 := by
  induction code using List.reverseRecOn with
  | nil => exact (if_neg fun h => absurd h.2 (Nat.not_lt_zero 100)).symm
  | append_singleton code placed ih =>
    rw [warned_concat, List.map_append, List.countP_append, ih, countP_warnings, List.length_append,
      List.length_singleton]
    cases capacity with
    | strict => rfl
    | wrapping =>
      simp only [true_and]
      split <;> split <;> split <;> omega

theorem filter_error_warned (code : List Placed) :
    ((warned capacity code).map Warning.entry).filter (·.level = .error) = [] := by
  apply List.filter_eq_nil_iff.2
  intro entry he
  obtain ⟨warning, -, rfl⟩ := List.mem_map.1 he
  exact Bool.false_ne_true

theorem filter_warn_logged :
    (logged capacity source).filter (Log.Level.warn.admits ·.level) =
      (warned capacity (processed capacity source)).map Warning.entry ++
        reported (assemble capacity source).result := by
  rw [← map_entry_grave_assemble, logged, List.filter_map]
  rfl

/-- What assembling logs of faults are the warnings about the statements on the lines that it reads,
in their order, and after all else the error that it ends with, once, if it fails. The warning that
the program takes cells again comes at most once, and under a strict capacity never. -/
theorem assemble_diagnostics (capacity : Capacity) (source : String) :
    (logged capacity source).filter (Log.Level.warn.admits ·.level) =
        (warned capacity (processed capacity source)).map Warning.entry ++
          reported (assemble capacity source).result ∧
      (logged capacity source).filter (·.level = .error) =
        reported (assemble capacity source).result ∧
      (∀ error, (assemble capacity source).result = .error error →
        (logged capacity source).getLast? = some ⟨.error, .assembly, error.message⟩) ∧
      (assemble capacity source).log.toList.countP Event.isWrapping =
        if capacity = .wrapping ∧ 100 < (processed capacity source).length then 1 else 0 := by
  refine ⟨filter_warn_logged, ?_, ?_, ?_⟩
  · have hf : (logged capacity source).filter (·.level = .error) =
        ((logged capacity source).filter (Log.Level.warn.admits ·.level)).filter
          (·.level = .error) := by
      rw [List.filter_filter]
      apply List.filter_congr
      intro entry _
      cases hl : entry.level <;> rfl
    rw [hf, filter_warn_logged, List.filter_append, filter_error_warned, List.nil_append]
    cases (assemble capacity source).result <;> rfl
  · intro error h
    rw [logged, log_assemble_of_error h, Array.toList_push, List.map_append]
    exact List.getLast?_concat
  · have hg : (assemble capacity source).log.toList.countP Event.isWrapping =
        (grave (assemble capacity source)).countP Event.isWrapping := by
      rw [grave, List.countP_filter]
      apply List.countP_congr
      intro event _
      cases event <;> rfl
    rw [hg, ← countP_warned]
    cases h : (assemble capacity source).result with
    | ok memory => rw [grave_assemble_of_ok h]
    | error error =>
      have hf : [Event.failed error].countP Event.isWrapping = 0 := rfl
      rw [grave_assemble_of_error h, List.countP_append, hf, Nat.add_zero]

/-- A program whose 101st statement takes a cell again, is a datum without a number and defines a
label once more. -/
def crowded : List Char :=
  ['a', ' ', 'H', 'L', 'T', '\n'] ++ (List.replicate 99 ['H', 'L', 'T', '\n']).flatten ++
    ['/', '/', '\n', 'a', ' ', 'D', 'A', 'T', ' ', 'x', '\n', 'D', 'A', 'T', ' ', 'y']

/-- One line has two warnings and the error, and the line after it none. -/
theorem crowded_diagnostics :
    (assemble .wrapping (.ofList crowded)).result = .error ⟨.duplicateLabel "a", 102⟩ ∧
      (logged .wrapping (.ofList crowded)).filter (Log.Level.warn.admits ·.level) =
        [⟨.warn, .assembly, "[102] Program exceeds 100 words, wrapping to address 0"⟩,
          ⟨.warn, .assembly, "[102] DAT operand `x` is not an integer, storing 0"⟩,
          ⟨.error, .assembly, "label `a` already used on line 102"⟩] ∧
      (logged .wrapping (.ofList crowded)).getLast? =
        some ⟨.error, .assembly, "label `a` already used on line 102"⟩ := by
  have hr : (assemble .wrapping (.ofList crowded)).result =
      .error ⟨.duplicateLabel "a", 102⟩ := by
    rw [assemble, String.toList_ofList]
    decide +kernel
  have hw : (warned .wrapping (processed .wrapping (.ofList crowded))).map Warning.entry =
      [⟨.warn, .assembly, "[102] Program exceeds 100 words, wrapping to address 0"⟩,
        ⟨.warn, .assembly, "[102] DAT operand `x` is not an integer, storing 0"⟩] := by
    rw [processed, hr, readSource, String.toList_ofList]
    decide +kernel
  have he : Error.message ⟨.duplicateLabel "a", 102⟩ = "label `a` already used on line 102" := by
    decide +kernel
  obtain ⟨hf, -, hl, -⟩ := assemble_diagnostics .wrapping (.ofList crowded)
  have hlast := hl _ hr
  rw [hw, hr, reported, ← Error.message_eq_text, he] at hf
  rw [he] at hlast
  exact ⟨hr, hf, hlast⟩

end LittleMan.Assembly
