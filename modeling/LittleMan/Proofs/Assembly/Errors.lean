import LittleMan.Proofs.Assembly.Resolution

/-! The errors of the assembler. The first line that cannot be added is reported, and only where
there is none the lowest address whose label is unknown. -/

namespace LittleMan.Assembly

/-- What is wrong with a line that follows some others. Where a line is both one too many and
defines a label again, it is one too many. -/
inductive Offence (capacity : Capacity) (earlier : List Line) : Line → Cause → Prop
  | unrecognized : Offence capacity earlier .unrecognized .invalidOpcode
  | tooLong {statement : Statement} (strict : capacity = .strict)
      (full : 100 ≤ (statements earlier).length) :
      Offence capacity earlier (.statement statement) .programTooLong
  | duplicate {statement : Statement} {label : String} {i : Nat}
      (room : ¬ (capacity = .strict ∧ 100 ≤ (statements earlier).length))
      (hl : statement.label = some label) (hd : DefinedAt (statements earlier) label i) :
      Offence capacity earlier (.statement statement) (.duplicateLabel label)

/-- An error is right about its line, which is counted from one. -/
def Offends (capacity : Capacity) (program : List Line) (error : Error) : Prop :=
  ∃ n line, error.line = n + 1 ∧ program[n]? = some line ∧
    Offence capacity (program.take n) line error.cause

/-- An error is right about the first line that offends. -/
def FirstOffence (capacity : Capacity) (program : List Line) (error : Error) : Prop :=
  Offends capacity program error ∧
    ∀ other, Offends capacity program other → error.line ≤ other.line

/-- The last reference at an address uses a label that no statement defines. -/
def Unresolved (code : List Placed) (address : Address) (reference : Reference) : Prop :=
  referenceAt? code address = some reference ∧ ∀ i, ¬ DefinedAt code reference.label i

/-- An error is right about the lowest address with a label that no statement defines. -/
def FirstUnresolved (code : List Placed) (error : Error) : Prop :=
  ∃ address reference, Unresolved code address reference ∧
    error = ⟨.unresolvedLabel reference.label, reference.line⟩ ∧
    ∀ other < address, ∀ reference, ¬ Unresolved code other reference

variable {capacity : Capacity} {program : List Line} {error : Error}

theorem clash?_drafted_eq_some_iff {statement : Statement} {label : String} :
    (drafted program).clash? statement = some label ↔
      statement.label = some label ∧ ∃ i, DefinedAt (statements program) label i := by
  rw [Draft.clash?, Option.filter_eq_some_iff, lookup_labels_drafted]
  apply and_congr_right'
  rw [← not_iff_not, Bool.not_eq_true, Option.isSome_eq_false_iff, Option.isNone_iff_eq_none,
    definition?_eq_none_iff, not_exists]

theorem problem?_drafted_eq_some_iff {line : Line} :
    (drafted program).problem? capacity line = some error ↔
      Offence capacity program line error.cause ∧ error.line = program.length + 1 := by
  obtain ⟨cause, n⟩ := error
  cases line with
  | blank =>
    constructor
    · intro h
      cases h
    · intro hx
      obtain ⟨h, -⟩ := hx
      cases h
  | unrecognized =>
    rw [Draft.problem?, line_drafted]
    constructor
    · intro h
      cases h
      exact ⟨.unrecognized, rfl⟩
    · intro hx
      obtain ⟨h, rfl⟩ := hx
      cases h
      rfl
  | statement statement =>
    rw [Draft.problem?, line_drafted, emitted_drafted]
    split
    · next hfull =>
      constructor
      · intro h
        cases h
        exact ⟨.tooLong hfull.1 hfull.2, rfl⟩
      · intro hx
        obtain ⟨h, rfl⟩ := hx
        cases h with
        | tooLong => rfl
        | duplicate room => exact absurd hfull room
    · next room =>
      rw [Option.map_eq_some_iff]
      constructor
      · intro hx
        obtain ⟨label, hc, he⟩ := hx
        cases he
        obtain ⟨hl, i, hd⟩ := clash?_drafted_eq_some_iff.1 hc
        exact ⟨.duplicate room hl hd, rfl⟩
      · intro hx
        obtain ⟨h, rfl⟩ := hx
        cases h with
        | tooLong strict full => exact absurd ⟨strict, full⟩ room
        | duplicate _ hl hd => exact ⟨_, clash?_drafted_eq_some_iff.2 ⟨hl, _, hd⟩, rfl⟩

/-- The problem that a line of a program, counted from zero, makes where the lines before it make
none. -/
def problemAt? (capacity : Capacity) (program : List Line) (n : Nat) : Option Error :=
  program[n]?.bind ((drafted (program.take n)).problem? capacity)

theorem problemAt?_eq_some_iff {n : Nat} :
    problemAt? capacity program n = some error ↔
      error.line = n + 1 ∧ ∃ line, program[n]? = some line ∧
        Offence capacity (program.take n) line error.cause := by
  rw [problemAt?, Option.bind_eq_some_iff]
  constructor
  · intro hx
    obtain ⟨line, hn, hp⟩ := hx
    obtain ⟨ho, hl⟩ := problem?_drafted_eq_some_iff.1 hp
    have hlt := (List.getElem?_eq_some_iff.1 hn).1
    rw [List.length_take_of_le (Nat.le_of_lt hlt)] at hl
    exact ⟨hl, line, hn, ho⟩
  · intro hx
    obtain ⟨hl, line, hn, ho⟩ := hx
    have hlt := (List.getElem?_eq_some_iff.1 hn).1
    refine ⟨line, hn, problem?_drafted_eq_some_iff.2 ⟨ho, ?_⟩⟩
    rwa [List.length_take_of_le (Nat.le_of_lt hlt)]

theorem problemAt?_none_iff :
    (∀ n, problemAt? capacity program n = none) ↔ ∀ error, ¬ Offends capacity program error := by
  constructor
  · intro h error hx
    obtain ⟨n, line, hl, hn, ho⟩ := hx
    have hp := problemAt?_eq_some_iff.2 ⟨hl, line, hn, ho⟩
    rw [h n] at hp
    cases hp
  · intro h n
    rw [Option.eq_none_iff_forall_ne_some]
    intro error hp
    obtain ⟨hl, line, hn, ho⟩ := problemAt?_eq_some_iff.1 hp
    exact h error ⟨n, line, hl, hn, ho⟩

theorem problemAt?_first_iff :
    (∃ n, problemAt? capacity program n = some error ∧
        ∀ k < n, problemAt? capacity program k = none) ↔ FirstOffence capacity program error := by
  constructor
  · intro hx
    obtain ⟨n, hn, hb⟩ := hx
    obtain ⟨hl, line, hg, ho⟩ := problemAt?_eq_some_iff.1 hn
    refine ⟨⟨n, line, hl, hg, ho⟩, ?_⟩
    intro other hx
    obtain ⟨k, line', hl', hg', ho'⟩ := hx
    by_contra hlt
    have hk := hb k (by omega)
    rw [problemAt?_eq_some_iff.2 ⟨hl', line', hg', ho'⟩] at hk
    cases hk
  · intro hx
    obtain ⟨⟨n, line, hl, hg, ho⟩, hb⟩ := hx
    refine ⟨n, problemAt?_eq_some_iff.2 ⟨hl, line, hg, ho⟩, ?_⟩
    intro k hk
    rw [Option.eq_none_iff_forall_ne_some]
    intro other hp
    obtain ⟨hl', line', hg', ho'⟩ := problemAt?_eq_some_iff.1 hp
    have hle := hb other ⟨k, line', hl', hg', ho'⟩
    omega

theorem unresolved?_drafted_eq_some_iff {address : Address} :
    (drafted program).unresolved? address = some error ↔
      ∃ reference, Unresolved (statements program) address reference ∧
        error = ⟨.unresolvedLabel reference.label, reference.line⟩ := by
  rw [Draft.unresolved?, get_references_drafted, Option.bind_eq_some_iff]
  simp only [lookup_labels_drafted, Unresolved, ← definition?_eq_none_iff]
  constructor
  · intro hx
    obtain ⟨reference, hr, he⟩ := hx
    split at he
    · cases he
    · next hd =>
      refine ⟨reference, ⟨hr, ?_⟩, (Option.some.inj he).symm⟩
      rwa [Bool.not_eq_true, Option.isSome_eq_false_iff, Option.isNone_iff_eq_none] at hd
  · intro hx
    obtain ⟨reference, ⟨hr, hd⟩, rfl⟩ := hx
    refine ⟨reference, hr, ?_⟩
    rw [hd]
    rfl

theorem unresolved?_drafted_eq_none_iff {address : Address} :
    (drafted program).unresolved? address = none ↔
      ∀ reference, ¬ Unresolved (statements program) address reference := by
  rw [Option.eq_none_iff_forall_ne_some]
  constructor
  · intro h reference hr
    exact h _ (unresolved?_drafted_eq_some_iff.2 ⟨reference, hr, rfl⟩)
  · intro h error he
    obtain ⟨reference, hr, -⟩ := unresolved?_drafted_eq_some_iff.1 he
    exact h reference hr

theorem result_draftOf_eq_ok_iff {source : List (List Char)} {draft : Draft} :
    (draftOf capacity source).result = .ok draft ↔
      (∀ n, problemAt? capacity (source.map Line.read) n = none) ∧
        drafted (source.map Line.read) = draft := by
  rw [draftOf, Logged.result_foldl_eq_ok_iff (Draft.result_addLine capacity)]
  simp only [Logged.obstacleAt?_map (Draft.problem? capacity) Draft.add Line.read, drafted,
    List.foldl_map]
  rfl

theorem result_draftOf_eq_error_iff {source : List (List Char)} :
    (draftOf capacity source).result = .error error ↔
      FirstOffence capacity (source.map Line.read) error := by
  rw [draftOf, Logged.result_foldl_eq_error_iff (Draft.result_addLine capacity),
    ← problemAt?_first_iff]
  simp only [Logged.obstacleAt?_map (Draft.problem? capacity) Draft.add Line.read]
  rfl

theorem result_assemble_eq_ok_iff {source : String} {memory : Memory} :
    (assemble capacity source).result = .ok memory ↔
      (∀ other, ¬ Offends capacity (readSource source) other) ∧
        (drafted (readSource source)).finish.result = .ok memory := by
  rw [assemble, Logged.result_reporting, Logged.result_bind_eq_ok_iff, ← problemAt?_none_iff]
  constructor
  · intro hx
    obtain ⟨draft, hd, hf⟩ := hx
    obtain ⟨hp, rfl⟩ := result_draftOf_eq_ok_iff.1 hd
    exact ⟨hp, hf⟩
  · intro hx
    obtain ⟨hp, hf⟩ := hx
    exact ⟨_, result_draftOf_eq_ok_iff.2 ⟨hp, rfl⟩, hf⟩

theorem result_assemble_eq_error_iff {source : String} :
    (assemble capacity source).result = .error error ↔
      FirstOffence capacity (readSource source) error ∨
        (∀ other, ¬ Offends capacity (readSource source) other) ∧
          (drafted (readSource source)).finish.result = .error error := by
  rw [assemble, Logged.result_reporting, Logged.result_bind_eq_error_iff,
    result_draftOf_eq_error_iff, ← problemAt?_none_iff]
  apply or_congr_right
  constructor
  · intro hx
    obtain ⟨draft, hd, hf⟩ := hx
    obtain ⟨hp, rfl⟩ := result_draftOf_eq_ok_iff.1 hd
    exact ⟨hp, hf⟩
  · intro hx
    obtain ⟨hp, hf⟩ := hx
    exact ⟨_, result_draftOf_eq_ok_iff.2 ⟨hp, rfl⟩, hf⟩

theorem result_finish_drafted_eq_error_iff :
    (drafted program).finish.result = .error error ↔
      FirstUnresolved (statements program) error := by
  rw [Draft.result_finish_eq_error_iff, FirstUnresolved]
  simp only [unresolved?_drafted_eq_some_iff, unresolved?_drafted_eq_none_iff]
  constructor
  · intro hx
    obtain ⟨address, ⟨reference, hr, he⟩, hb⟩ := hx
    exact ⟨address, reference, hr, he, hb⟩
  · intro hx
    obtain ⟨address, reference, hr, he, hb⟩ := hx
    exact ⟨address, ⟨reference, hr, he⟩, hb⟩

/-- Assembling fails with exactly the error of the first line that offends, or, where no line does,
with the error of the lowest address whose label is unknown. It succeeds in all other cases. -/
theorem assemble_error_iff (capacity : Capacity) (source : String) :
    (∀ error, (assemble capacity source).result = .error error ↔
      FirstOffence capacity (readSource source) error ∨
        (∀ other, ¬ Offends capacity (readSource source) other) ∧
          FirstUnresolved (statements (readSource source)) error) ∧
    ((∃ memory, (assemble capacity source).result = .ok memory) ↔
      (∀ other, ¬ Offends capacity (readSource source) other) ∧
        ∀ address reference, ¬ Unresolved (statements (readSource source)) address reference) := by
  constructor
  · intro error
    rw [result_assemble_eq_error_iff, result_finish_drafted_eq_error_iff]
  · simp only [result_assemble_eq_ok_iff, Draft.result_finish_eq_ok_iff,
      unresolved?_drafted_eq_none_iff]
    constructor
    · intro hx
      obtain ⟨memory, ho, hr, -⟩ := hx
      exact ⟨ho, hr⟩
    · intro hx
      obtain ⟨ho, hr⟩ := hx
      exact ⟨_, ho, hr, rfl⟩

/-- A word that is neither an opcode nor a label before one. -/
example : (assemble .wrapping (.ofList ['H', 'L', 'T', '\n', 'F', 'O', 'O'])).result =
    .error ⟨.invalidOpcode, 2⟩ := by
  rw [assemble, String.toList_ofList]
  decide +kernel

example : (assemble .wrapping (.ofList
    ['x', ' ', 'H', 'L', 'T', '\n', 'x', ' ', 'H', 'L', 'T'])).result =
    .error ⟨.duplicateLabel "x", 2⟩ := by
  rw [assemble, String.toList_ofList]
  decide +kernel

/-- The unknown label of the lower address is reported, and only after the last line. -/
example : (assemble .wrapping (.ofList
    ['L', 'D', 'A', ' ', 'x', '\n', 'L', 'D', 'A', ' ', 'y'])).result =
    .error ⟨.unresolvedLabel "x", 1⟩ := by
  rw [assemble, String.toList_ofList]
  decide +kernel

example : (assemble .strict (.ofList (List.replicate 101 ['H', 'L', 'T', '\n']).flatten)).result =
    .error ⟨.programTooLong, 101⟩ := by
  rw [assemble, String.toList_ofList]
  decide +kernel

end LittleMan.Assembly
