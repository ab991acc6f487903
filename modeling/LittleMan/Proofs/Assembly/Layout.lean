import LittleMan.Proofs.Assembly.Errors

/-! The layout of an assembled program: what each cell holds, in terms of the statements at its
address and of the labels that they use. -/

namespace LittleMan.Assembly

variable {capacity : Capacity} {program : List Line}

/-- A statement comes from a line, and the statements before it come from the lines before that. -/
theorem getElem?_statements {j : Nat} {placed : Placed}
    (h : (statements program)[j]? = some placed) :
    ∃ n, placed.line = n + 1 ∧ program[n]? = some (.statement placed.statement) ∧
      statements (program.take n) = (statements program).take j := by
  induction program using List.reverseRecOn with
  | nil => cases h
  | append_singleton program line ih =>
    rw [statements_concat] at h ⊢
    cases line with
    | statement statement =>
      obtain hj | ⟨rfl, rfl⟩ := getElem?_concat_eq_some_iff.1 h
      · obtain ⟨n, hl, hn, ht⟩ := ih hj
        have hnlt := (List.getElem?_eq_some_iff.1 hn).1
        have hjlt := (List.getElem?_eq_some_iff.1 hj).1
        refine ⟨n, hl, getElem?_concat_eq_some_iff.2 (.inl hn), ?_⟩
        rwa [List.take_append_of_le_length (Nat.le_of_lt hnlt),
          List.take_append_of_le_length (Nat.le_of_lt hjlt)]
      · exact ⟨program.length, rfl, List.getElem?_concat_length,
          by rw [List.take_left, List.take_left]⟩
    | _ =>
      rw [List.append_nil] at h ⊢
      obtain ⟨n, hl, hn, ht⟩ := ih h
      have hnlt := (List.getElem?_eq_some_iff.1 hn).1
      refine ⟨n, hl, getElem?_concat_eq_some_iff.2 (.inl hn), ?_⟩
      rwa [List.take_append_of_le_length (Nat.le_of_lt hnlt)]

/-- Where no line offends, a label has one definition at most. -/
theorem DefinedAt.unique {label : String} {i j : Nat}
    (ho : ∀ error, ¬ Offends capacity program error)
    (hi : DefinedAt (statements program) label i) (hj : DefinedAt (statements program) label j) :
    i = j := by
  -- Of two definitions the later one would offend, whatever the capacity.
  have hle {i j : Nat} (hi : DefinedAt (statements program) label i)
      (hj : DefinedAt (statements program) label j) : j ≤ i := by
    by_contra hlt
    obtain ⟨first, hi, hfirst⟩ := hi
    obtain ⟨second, hj, hsecond⟩ := hj
    obtain ⟨n, -, hn, ht⟩ := getElem?_statements hj
    have hd : DefinedAt (statements (program.take n)) label i :=
      ⟨first, by rwa [ht, List.getElem?_take_of_lt (by omega)], hfirst⟩
    by_cases hfull : capacity = .strict ∧ 100 ≤ (statements (program.take n)).length
    · exact ho ⟨.programTooLong, n + 1⟩ ⟨n, _, rfl, hn, .tooLong hfull.1 hfull.2⟩
    · exact ho ⟨.duplicateLabel label, n + 1⟩ ⟨n, _, rfl, hn, .duplicate hfull hsecond hd⟩
  exact Nat.le_antisymm (hle hj hi) (hle hi hj)

theorem offsetAt_drafted (program : List Line) (address : Address) :
    (drafted program).offsetAt address =
      ((referenceAt? (statements program) address).bind
        (definition? (statements program) ·.label)).elim 0 fun target => (target.val : Int) := by
  simp only [Draft.offsetAt, get_references_drafted, lookup_labels_drafted]

theorem referenceAt?_of_statementAt?_eq_none {code : List Placed} {address : Address}
    (h : statementAt? code address = none) : referenceAt? code address = none := by
  rw [statementAt?, last?_eq_none_iff] at h
  rw [referenceAt?, last?_eq_none_iff]
  intro i placed hi
  have hp := h i placed hi
  split at hp
  · cases hp
  · next ha => exact if_neg ha

/-- A cell of an assembled program holds zero if no statement falls on its address. Otherwise it
holds the word of the last statement there and the address of the one statement that defines the
label used by the last statement there that uses any. -/
theorem assemble_ok_get {source : String} {memory : Memory}
    (h : (assemble capacity source).result = .ok memory) (address : Address) :
    (statementAt? (statements (readSource source)) address = none → memory.get address = 0) ∧
    ∀ placed, statementAt? (statements (readSource source)) address = some placed →
      (referenceAt? (statements (readSource source)) address = none →
        memory.get address = placed.statement.base) ∧
      ∀ reference, referenceAt? (statements (readSource source)) address = some reference →
        ∃ k, (∀ i, DefinedAt (statements (readSource source)) reference.label i ↔ i = k) ∧
          memory.get address = placed.statement.base + (k % 100 : Nat) := by
  obtain ⟨ho, hf⟩ := result_assemble_eq_ok_iff.1 h
  obtain ⟨hu, rfl⟩ := (drafted (readSource source)).result_finish_eq_ok_iff.1 hf
  rw [Memory.get_ofFn, get_memory_drafted, offsetAt_drafted]
  refine ⟨?_, ?_⟩
  · intro hs
    rw [hs, referenceAt?_of_statementAt?_eq_none hs]
    rfl
  · intro placed hs
    rw [hs]
    refine ⟨?_, ?_⟩
    · intro hr
      rw [hr, Option.elim_some, Statement.word_eq_base]
      exact Int.add_zero _
    · intro reference hr
      cases hd : definition? (statements (readSource source)) reference.label with
      | none =>
        have hnone := unresolved?_drafted_eq_none_iff.1 (hu address) reference
        exact absurd ⟨hr, definition?_eq_none_iff.1 hd⟩ hnone
      | some target =>
        obtain ⟨k, hk, ht⟩ := DefinedAt.of_definition? hd
        refine ⟨k, ?_, ?_⟩
        · intro i
          constructor
          · intro hi
            exact hi.unique ho hk
          · intro he
            subst he
            exact hk
        · rw [hr, Option.elim_some, Statement.word_eq_base, Option.bind_some, hd, ht]
          rfl

/-- A program of 102 words, of which the last two take the cells of the first two. -/
def overlapping : List Char :=
  ['L', 'D', 'A', ' ', 'o', 'n', 'e', '\n'] ++
    (List.replicate 99 ['H', 'L', 'T', '\n']).flatten ++
    ['D', 'A', 'T', ' ', '7', '\n', 'o', 'n', 'e', ' ', 'H', 'L', 'T']

/-- A reference outlives its word: the address of its label is added to the word that has taken the
cell. -/
theorem assemble_ok_get_overlapping :
    ∃ memory, (assemble .wrapping (.ofList overlapping)).result = .ok memory ∧
      memory.get 0 = 7 + 1 := by
  let memory := Memory.ofFn fun address => if address = 0 then 8 else 0
  have h : (assemble .wrapping (.ofList overlapping)).result = .ok memory := by
    rw [assemble, String.toList_ofList]
    decide +kernel
  have hs : statementAt? (statements (readSource (.ofList overlapping))) 0 =
      some ⟨101, ⟨none, .dat, some "7"⟩⟩ := by
    rw [readSource, String.toList_ofList]
    decide +kernel
  have hr : referenceAt? (statements (readSource (.ofList overlapping))) 0 = some ⟨"one", 1⟩ := by
    rw [readSource, String.toList_ofList]
    decide +kernel
  have hd : (statements (readSource (.ofList overlapping)))[101]? =
      some ⟨102, ⟨some "one", .op .hlt, none⟩⟩ := by
    rw [readSource, String.toList_ofList]
    decide +kernel
  obtain ⟨k, hk, hm⟩ := ((assemble_ok_get h 0).2 _ hs).2 _ hr
  have hk' := (hk 101).1 ⟨_, hd, rfl⟩
  subst hk'
  refine ⟨memory, h, hm.trans ?_⟩
  decide +kernel

end LittleMan.Assembly
