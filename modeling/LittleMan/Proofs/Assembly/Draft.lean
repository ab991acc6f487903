import LittleMan.Proofs.Assembly.Program
import LittleMan.Proofs.Logged

/-! The draft of a program: what the assembler holds after some lines, read off the statements among
them. -/

namespace LittleMan.Assembly

namespace Draft

variable (capacity : Capacity) (draft : Draft) (statement : Statement)

/-- The label of a statement that an earlier one has taken. -/
def clash? : Option String :=
  statement.label.filter fun label => (draft.labels.lookup label).isSome

/-- Why a line cannot be added to a draft, if it cannot. -/
def problem? : Line → Option Error
  | .blank => none
  | .unrecognized => some ⟨.invalidOpcode, draft.line + 1⟩
  | .statement statement =>
    if capacity = .strict ∧ 100 ≤ draft.emitted then some ⟨.programTooLong, draft.line + 1⟩
    else (draft.clash? statement).map fun label => ⟨.duplicateLabel label, draft.line + 1⟩

/-- The labels of a draft and the one that a statement defines. -/
def labelsWith : List (String × Address) :=
  statement.label.elim draft.labels fun label => (label, draft.address) :: draft.labels

/-- The draft with a line added to it. -/
def add : Line → Draft
  | .statement statement =>
    { { draft with line := draft.line + 1 }.store statement with
      emitted := draft.emitted + 1
      labels := draft.labelsWith statement }
  | _ => { draft with line := draft.line + 1 }

theorem get_references_add (address : Address) :
    (draft.add (.statement statement)).references.get address =
      if draft.address = address then
        (statement.reference?.map (⟨·, draft.line + 1⟩)).or (draft.references.get address)
      else draft.references.get address := by
  change (store { draft with line := draft.line + 1 } statement).references.get address = _
  rw [store]
  cases statement.reference? with
  | none => exact (ite_self _).symm
  | some label =>
    change (draft.references.set draft.address.val _)[address.val] = _
    rw [Vector.getElem_set]
    simp only [Fin.ext_iff]
    rfl

theorem lookup_labelsWith (label : String) :
    (draft.labelsWith statement).lookup label =
      if statement.label = some label then some draft.address else draft.labels.lookup label := by
  rw [labelsWith]
  cases statement.label with
  | none => rfl
  | some other =>
    rw [Option.elim_some, List.lookup_cons]
    by_cases h : other = label
    · rw [if_pos (congrArg some h), h, beq_self_eq_true]
    · rw [if_neg (h ∘ Option.some.inj), beq_false_of_ne (Ne.symm h)]

theorem result_reserve :
    (draft.reserve capacity).result =
      if capacity = .strict ∧ 100 ≤ draft.emitted then .error (draft.error .programTooLong)
      else .ok () := by
  rw [reserve]
  split
  · rfl
  · split <;> rfl

theorem result_describe : (draft.describe statement).result = .ok () := by
  rw [describe]
  split <;> rfl

theorem result_define :
    (draft.define statement).result =
      (draft.clash? statement).elim (.ok { draft with labels := draft.labelsWith statement })
        fun label => .error (draft.error (.duplicateLabel label)) := by
  rw [define, clash?, labelsWith]
  cases statement.label with
  | none => rfl
  | some label =>
    rw [Option.filter_some]
    by_cases h : (draft.labels.lookup label).isSome = true
    · simp only [if_pos h]
      rfl
    · simp only [if_neg h]
      rfl

theorem result_addStatement :
    ({ draft with line := draft.line + 1 }.addStatement capacity statement).result =
      (draft.problem? capacity (.statement statement)).elim (.ok (draft.add (.statement statement)))
        .error := by
  have hr := result_reserve capacity { draft with line := draft.line + 1 }
  by_cases hfull : capacity = .strict ∧ 100 ≤ draft.emitted
  · rw [if_pos hfull] at hr
    rw [addStatement, Logged.result_bind_of_error hr, problem?, if_pos hfull]
    rfl
  · rw [if_neg hfull] at hr
    have hd : (define (store { draft with line := draft.line + 1 } statement) statement).result =
        (draft.clash? statement).elim
          (.ok { store { draft with line := draft.line + 1 } statement with
            labels := draft.labelsWith statement })
          fun label => .error ⟨.duplicateLabel label, draft.line + 1⟩ := result_define _ _
    rw [addStatement, Logged.result_bind_of_ok hr, Logged.result_bind_of_ok (result_describe _ _),
      problem?, if_neg hfull]
    cases hc : draft.clash? statement with
    | none =>
      rw [hc, Option.elim_none] at hd
      rw [Logged.result_bind_of_ok hd]
      rfl
    | some label =>
      rw [hc, Option.elim_some] at hd
      rw [Logged.result_bind_of_error hd]
      rfl

theorem result_addLine (line : List Char) :
    (draft.addLine capacity line).result =
      (draft.problem? capacity (Line.read line)).elim (.ok (draft.add (Line.read line)))
        .error := by
  rw [addLine]
  cases Line.read line with
  | blank => rfl
  | unrecognized => rfl
  | statement statement => exact result_addStatement capacity draft statement

end Draft

/-- The draft of a program whose lines can all be added. -/
def drafted (program : List Line) : Draft := program.foldl Draft.add .empty

theorem drafted_concat (program : List Line) (line : Line) :
    drafted (program ++ [line]) = (drafted program).add line := by
  rw [drafted, List.foldl_append]
  rfl

theorem line_drafted (program : List Line) : (drafted program).line = program.length := by
  induction program using List.reverseRecOn with
  | nil => rfl
  | append_singleton program line ih =>
    rw [drafted_concat, List.length_append, ← ih]
    cases line <;> rfl

theorem emitted_drafted (program : List Line) :
    (drafted program).emitted = (statements program).length := by
  induction program using List.reverseRecOn with
  | nil => rfl
  | append_singleton program line ih =>
    rw [drafted_concat, statements_concat, List.length_append, ← ih]
    cases line <;> rfl

theorem address_drafted (program : List Line) :
    (drafted program).address = Fin.ofNat 100 (statements program).length :=
  congrArg (Fin.ofNat 100) (emitted_drafted program)

theorem address_eq_iff (n : Nat) (address : Address) :
    Fin.ofNat 100 n = address ↔ n % 100 = address.val := Fin.ext_iff

/-- A cell of the draft holds the word of the last statement at its address. -/
theorem get_memory_drafted (program : List Line) (address : Address) :
    (drafted program).memory.get address =
      (statementAt? (statements program) address).elim 0 (·.statement.word) := by
  induction program using List.reverseRecOn with
  | nil => exact Memory.get_zero address
  | append_singleton program line ih =>
    rw [drafted_concat, statements_concat]
    cases line with
    | statement statement =>
      change ((drafted program).memory.set (drafted program).address statement.word).get address = _
      rw [statementAt?_concat, Memory.get_set, address_drafted]
      simp only [address_eq_iff]
      split
      · rfl
      · exact ih
    | _ => rw [List.append_nil]; exact ih

/-- The open reference of a cell is the last one at its address. -/
theorem get_references_drafted (program : List Line) (address : Address) :
    (drafted program).references.get address = referenceAt? (statements program) address := by
  induction program using List.reverseRecOn with
  | nil => exact Vector.getElem_replicate address.isLt
  | append_singleton program line ih =>
    rw [drafted_concat, statements_concat]
    cases line with
    | statement statement =>
      rw [referenceAt?_concat, Draft.get_references_add, address_drafted, line_drafted,
        Statement.reference?_eq_use?, ih]
      simp only [address_eq_iff]
    | _ => rw [List.append_nil]; exact ih

/-- The address of a label in the draft is that of the last statement that defines it. -/
theorem lookup_labels_drafted (program : List Line) (label : String) :
    (drafted program).labels.lookup label = definition? (statements program) label := by
  induction program using List.reverseRecOn with
  | nil => rfl
  | append_singleton program line ih =>
    rw [drafted_concat, statements_concat]
    cases line with
    | statement statement =>
      rw [definition?_concat, ← ih]
      refine (Draft.lookup_labelsWith _ _ _).trans ?_
      rw [address_drafted]
      rfl
    | _ => rw [List.append_nil]; exact ih

end LittleMan.Assembly
