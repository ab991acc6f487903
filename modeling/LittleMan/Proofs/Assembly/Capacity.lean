import LittleMan.Proofs.Assembly.Layout
import LittleMan.Proofs.Words

/-! The two capacities of the assembler. They agree on every line up to the one that asks for a
101st cell, which only the strict one refuses. -/

namespace LittleMan

/-- A line that takes up a cell. -/
def Line.emits : Line → Bool
  | .statement _ => true
  | _ => false

/-- A line with something outside its comment. -/
def isWritten (line : List Char) : Bool := (stripComment line).any (!isBlank ·)

theorem words_of_not_isWritten {line : List Char} (h : isWritten line = false) :
    words (stripComment line) = [] := by
  apply words_of_blank
  intro c hc
  have hb := List.any_eq_false.1 h c hc
  simpa using hb

theorem Line.read_of_blank {line : List Char} (h : isWritten line = false) :
    Line.read line = .blank := by
  rw [read, tokens, words_of_not_isWritten h]
  rfl

theorem isWritten_of_emits {line : List Char} (h : (Line.read line).emits = true) :
    isWritten line = true := by
  by_contra hw
  rw [Line.read_of_blank (Bool.eq_false_iff.2 hw)] at h
  cases h

namespace Assembly

/-- Assembling without a limit fails, and a line before a given one is to blame. -/
def FaultBefore (source : String) (line : Nat) : Prop :=
  ∃ error, (assemble .wrapping source).result = .error error ∧
    (error.cause = .invalidOpcode ∨ ∃ label, error.cause = .duplicateLabel label) ∧
    error.line < line

variable {capacity : Capacity} {program : List Line} {source : String} {error : Error}
  {memory : Memory} {placed : Placed} {statement : Statement} {n : Nat}

theorem length_statements (program : List Line) :
    (statements program).length = program.countP Line.emits := by
  induction program using List.reverseRecOn with
  | nil => rfl
  | append_singleton program line ih =>
    rw [statements_concat, List.length_append, List.countP_append, ih]
    cases line <;> rfl

theorem countP_take_succ (h : program[n]? = some (.statement statement)) :
    (program.take (n + 1)).countP Line.emits = (program.take n).countP Line.emits + 1 := by
  rw [List.take_add_one, h, List.countP_append]
  rfl

theorem length_statements_take_lt {k : Nat} (h : program[k]? = some (.statement statement))
    (hk : k < n) : (statements (program.take k)).length < (statements (program.take n)).length := by
  rw [length_statements, length_statements, Nat.lt_iff_add_one_le, ← countP_take_succ h]
  exact (List.take_sublist_take_left hk).countP_le

theorem problemAt?_strict (h : ∀ statement, program[n]? = some (.statement statement) →
    (statements (program.take n)).length < 100) :
    problemAt? .strict program n = problemAt? .wrapping program n := by
  rw [problemAt?, problemAt?]
  cases hn : program[n]? with
  | none => rfl
  | some line =>
    cases line with
    | statement statement =>
      have hroom := h statement hn
      simp only [Option.bind_some, Draft.problem?, emitted_drafted, Nat.not_le.2 hroom, and_false,
        if_false]
    | _ => rfl

theorem problemAt?_strict_of_fit (h : (statements program).length ≤ 100) (n : Nat) :
    problemAt? .strict program n = problemAt? .wrapping program n := by
  apply problemAt?_strict
  intro statement hn
  have hlt := length_statements_take_lt hn (List.getElem?_eq_some_iff.1 hn).1
  rw [List.take_length] at hlt
  exact Nat.lt_of_lt_of_le hlt h

/-- The line of the 101st statement is the first one that the capacities treat differently. -/
theorem problemAt?_excess (h : (statements program)[100]? = some placed) :
    ∃ n, placed.line = n + 1 ∧
      problemAt? .strict program n = some ⟨.programTooLong, placed.line⟩ ∧
      ∀ k < n, problemAt? .strict program k = problemAt? .wrapping program k := by
  obtain ⟨n, hl, hn, ht⟩ := getElem?_statements h
  have hlt := (List.getElem?_eq_some_iff.1 h).1
  have hlen : (statements (program.take n)).length = 100 := by
    rw [ht, List.length_take_of_le (Nat.le_of_lt hlt)]
  refine ⟨n, hl, ?_, ?_⟩
  · exact problemAt?_eq_some_iff.2 ⟨hl, _, hn, .tooLong rfl (Nat.le_of_eq hlen.symm)⟩
  · intro k hk
    apply problemAt?_strict
    intro statement hs
    exact Nat.lt_of_lt_of_eq (length_statements_take_lt hs hk) hlen

theorem result_assemble_of_problemAt? (h : problemAt? capacity (readSource source) n = some error)
    (hb : ∀ k < n, problemAt? capacity (readSource source) k = none) :
    (assemble capacity source).result = .error error :=
  result_assemble_eq_error_iff.2 (.inl (problemAt?_first_iff.1 ⟨n, h, hb⟩))

theorem problemAt?_or_unresolved (h : (assemble capacity source).result = .error error) :
    (∃ n, problemAt? capacity (readSource source) n = some error ∧
        ∀ k < n, problemAt? capacity (readSource source) k = none) ∨
      ∃ label, error.cause = .unresolvedLabel label := by
  obtain hf | ⟨-, hu⟩ := result_assemble_eq_error_iff.1 h
  · exact .inl (problemAt?_first_iff.2 hf)
  · obtain ⟨_, reference, -, rfl, -⟩ := result_finish_drafted_eq_error_iff.1 hu
    exact .inr ⟨reference.label, rfl⟩

theorem cause_of_problemAt?_wrapping (h : problemAt? .wrapping program n = some error) :
    error.cause = .invalidOpcode ∨ ∃ label, error.cause = .duplicateLabel label := by
  obtain ⟨-, line, -, ho⟩ := problemAt?_eq_some_iff.1 h
  obtain ⟨cause, number⟩ := error
  cases ho with
  | unrecognized => exact .inl rfl
  | tooLong strict => cases strict
  | duplicate => exact .inr ⟨_, rfl⟩

theorem result_assemble_strict_of_fit (h : (statements (readSource source)).length ≤ 100) :
    (assemble .strict source).result = (assemble .wrapping source).result := by
  have hp := problemAt?_strict_of_fit h
  cases hw : (assemble .wrapping source).result with
  | ok memory =>
    rw [result_assemble_eq_ok_iff, ← problemAt?_none_iff] at hw ⊢
    simp only [hp]
    exact hw
  | error error =>
    rw [result_assemble_eq_error_iff, ← problemAt?_first_iff, ← problemAt?_none_iff] at hw ⊢
    simp only [hp]
    exact hw

theorem FaultBefore.problemAt? (h : FaultBefore source (n + 1)) :
    ∃ k < n, ∃ error, problemAt? .wrapping (readSource source) k = some error ∧
      ∀ j < k, problemAt? .wrapping (readSource source) j = none := by
  obtain ⟨error, hw, hc, hl⟩ := h
  obtain ⟨k, hk, hb⟩ | ⟨label, hu⟩ := problemAt?_or_unresolved hw
  · have hline := (problemAt?_eq_some_iff.1 hk).1
    exact ⟨k, by omega, error, hk, hb⟩
  · rw [hu] at hc
    obtain hc | ⟨_, hc⟩ := hc <;> cases hc

theorem problemAt?_of_not_faultBefore (h : ¬ FaultBefore source (n + 1)) {k : Nat} (hk : k < n) :
    problemAt? .wrapping (readSource source) k = none := by
  -- A first problem among these lines would be the error that assembling ends with.
  induction k using Nat.strong_induction_on with
  | h k ih =>
    rw [Option.eq_none_iff_forall_ne_some]
    intro error hp
    apply h
    have hw := result_assemble_of_problemAt? hp fun j hj => ih j hj (Nat.lt_trans hj hk)
    have hl := (problemAt?_eq_some_iff.1 hp).1
    exact ⟨error, hw, cause_of_problemAt?_wrapping hp, by omega⟩

theorem result_assemble_strict_of_faultBefore
    (h : (statements (readSource source))[100]? = some placed)
    (hf : FaultBefore source placed.line) :
    (assemble .strict source).result = (assemble .wrapping source).result := by
  obtain ⟨n, hl, -, he⟩ := problemAt?_excess h
  rw [hl] at hf
  obtain ⟨k, hk, error, hp, hb⟩ := hf.problemAt?
  have hw := result_assemble_of_problemAt? hp hb
  rw [hw]
  rw [← he k hk] at hp
  apply result_assemble_of_problemAt? hp
  intro j hj
  rw [he j (Nat.lt_trans hj hk)]
  exact hb j hj

theorem result_assemble_strict_of_not_faultBefore
    (h : (statements (readSource source))[100]? = some placed)
    (hf : ¬ FaultBefore source placed.line) :
    (assemble .strict source).result = .error ⟨.programTooLong, placed.line⟩ := by
  obtain ⟨n, hl, hp, he⟩ := problemAt?_excess h
  apply result_assemble_of_problemAt? hp
  intro k hk
  rw [hl] at hf
  rw [he k hk]
  exact problemAt?_of_not_faultBefore hf hk

theorem fit_of_strict (h : (assemble .strict source).result = .ok memory) :
    (statements (readSource source)).length ≤ 100 := by
  rw [← List.getElem?_eq_none_iff, Option.eq_none_iff_forall_ne_some]
  intro placed hx
  obtain ⟨n, -, hp, -⟩ := problemAt?_excess hx
  rw [problemAt?_none_iff.2 (result_assemble_eq_ok_iff.1 h).1 n] at hp
  cases hp

theorem result_assemble_wrapping_of_strict (h : (assemble .strict source).result = .ok memory) :
    (assemble .wrapping source).result = .ok memory := by
  rw [← result_assemble_strict_of_fit (fit_of_strict h)]
  exact h

theorem countP_isWritten_of_tooLong {line : Nat}
    (h : (assemble .strict source).result = .error ⟨.programTooLong, line⟩) :
    100 < ((lines source.toList).take line).countP isWritten := by
  obtain ⟨n, hp, -⟩ | ⟨_, hu⟩ := problemAt?_or_unresolved h
  · obtain ⟨rfl, line, hn, ho⟩ := problemAt?_eq_some_iff.1 hp
    cases ho with
    | tooLong _ full =>
      rw [length_statements] at full
      have hc := countP_take_succ hn
      rw [readSource, ← List.map_take, List.countP_map] at hc
      refine Nat.lt_of_lt_of_le (Nat.lt_of_lt_of_eq (Nat.lt_succ_of_le full) hc.symm) ?_
      exact List.countP_mono_left fun text _ => isWritten_of_emits
  · cases hu

/-- Strict assembling differs from assembling without a limit only in that it stops at the statement
that would need a 101st cell, unless a line before it is at fault. -/
theorem strict_refuses_excess (source : String) :
    ((statements (readSource source))[100]? = none →
      (assemble .strict source).result = (assemble .wrapping source).result) ∧
    (∀ placed, (statements (readSource source))[100]? = some placed →
      (FaultBefore source placed.line →
        (assemble .strict source).result = (assemble .wrapping source).result) ∧
      (¬ FaultBefore source placed.line →
        (assemble .strict source).result = .error ⟨.programTooLong, placed.line⟩)) ∧
    (∀ memory, (assemble .strict source).result = .ok memory →
      (assemble .wrapping source).result = .ok memory) ∧
    (∀ line, (assemble .wrapping source).result ≠ .error ⟨.programTooLong, line⟩) ∧
    ∀ line, (assemble .strict source).result = .error ⟨.programTooLong, line⟩ →
      100 < ((lines source.toList).take line).countP isWritten := by
  refine ⟨?_, ?_, fun memory => result_assemble_wrapping_of_strict, ?_,
    fun line => countP_isWritten_of_tooLong⟩
  · intro h
    exact result_assemble_strict_of_fit (List.getElem?_eq_none_iff.1 h)
  · intro placed h
    exact ⟨result_assemble_strict_of_faultBefore h, result_assemble_strict_of_not_faultBefore h⟩
  · intro line h
    obtain ⟨n, hp, -⟩ | ⟨_, hu⟩ := problemAt?_or_unresolved h
    · obtain hc | ⟨_, hc⟩ := cause_of_problemAt?_wrapping hp <;> cases hc
    · cases hu

/-- A program of one hundred statements, a comment, and one more statement. -/
def overlong : List Char :=
  (List.replicate 100 ['H', 'L', 'T', '\n']).flatten ++ ['/', '/', '\n', 'H', 'L', 'T']

/-- The same program after a line that is none. -/
def misspelt : List Char := 'h' :: '\n' :: overlong

theorem strict_refuses_excess_overlong :
    (assemble .strict (.ofList overlong)).result = .error ⟨.programTooLong, 102⟩ ∧
      (assemble .wrapping (.ofList overlong)).result = .ok .zero ∧
      100 < ((lines overlong).take 102).countP isWritten ∧
      (assemble .strict (.ofList misspelt)).result = .error ⟨.invalidOpcode, 1⟩ := by
  have hw : (assemble .wrapping (.ofList overlong)).result = .ok .zero := by
    rw [assemble, String.toList_ofList]
    decide +kernel
  have hx : (statements (readSource (.ofList overlong)))[100]? =
      some ⟨102, ⟨none, .op .hlt, none⟩⟩ := by
    rw [readSource, String.toList_ofList]
    decide +kernel
  have hw' : (assemble .wrapping (.ofList misspelt)).result = .error ⟨.invalidOpcode, 1⟩ := by
    rw [assemble, String.toList_ofList]
    decide +kernel
  have hx' : (statements (readSource (.ofList misspelt)))[100]? =
      some ⟨103, ⟨none, .op .hlt, none⟩⟩ := by
    rw [readSource, String.toList_ofList]
    decide +kernel
  have hn : ¬ FaultBefore (.ofList overlong) 102 := by
    intro h
    obtain ⟨error, he, -⟩ := h
    rw [hw] at he
    cases he
  have hf : FaultBefore (.ofList misspelt) 103 := ⟨_, hw', .inl rfl, by decide⟩
  obtain ⟨-, hplaced, -, -, hlines⟩ := strict_refuses_excess (.ofList overlong)
  have hs := (hplaced _ hx).2 hn
  have hl := hlines 102 hs
  rw [String.toList_ofList] at hl
  have hs' := ((strict_refuses_excess (.ofList misspelt)).2.1 _ hx').1 hf
  exact ⟨hs, hw, hl, hs'.trans hw'⟩

end Assembly

end LittleMan
