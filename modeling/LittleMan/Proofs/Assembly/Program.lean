import LittleMan.Assembly.Draft
import Mathlib.Data.List.Induction

/-! Programs as lists of classified lines: their statements, the addresses of these, and the labels
they define and use. -/

namespace LittleMan

/-- The word that a statement asks for before any label is added to it. -/
def Statement.base (statement : Statement) : Int :=
  match statement.mnemonic, statement.operand.bind tokenValue? with
  | .dat, some value => wrap value
  | .dat, none => 0
  | .op operation, some value =>
    if 0 ≤ value ∧ value ≤ 99 then operation.code + value else operation.code
  | .op operation, none => operation.code

/-- The label that a statement uses: the operand of an operation, unless it is a number from 0 to
99. -/
def Statement.use? (statement : Statement) : Option String :=
  match statement.mnemonic, statement.operand with
  | .op _, some token =>
    match tokenValue? token with
    | some value => if 0 ≤ value ∧ value ≤ 99 then none else some token
    | none => some token
  | _, _ => none

theorem tokenAddress?_eq_none_iff {token : String} :
    tokenAddress? token = none ↔ ∀ value, tokenValue? token = some value →
      ¬ (0 ≤ value ∧ value ≤ 99) := by
  unfold tokenAddress?
  cases tokenValue? token with
  | none => simp
  | some value =>
    have hle : value < 100 ↔ value ≤ 99 := by omega
    simp [hle]

theorem tokenAddress?_eq_some_iff {token : String} {address : Address} :
    tokenAddress? token = some address ↔ tokenValue? token = some (address.val : Int) := by
  unfold tokenAddress?
  cases tokenValue? token with
  | none => simp
  | some value =>
    simp only [Option.dite_none_right_eq_some, Option.some.injEq, Fin.ext_iff, exists_prop]
    omega

theorem Statement.word_eq_base (statement : Statement) : statement.word = statement.base := by
  obtain ⟨label, mnemonic, operand⟩ := statement
  cases mnemonic with
  | dat =>
    cases h : operand.bind tokenValue? with
    | none => simp [word, base, datum, h, wrap]
    | some value => simp [word, base, datum, h]
  | op operation =>
    cases operand with
    | none => rfl
    | some token =>
      cases h : tokenAddress? token with
      | none =>
        have hv := tokenAddress?_eq_none_iff.1 h
        cases ht : tokenValue? token with
        | none => simp [word, base, h, ht]
        | some value => simp [word, base, h, ht, hv value ht]
      | some address =>
        have hv := tokenAddress?_eq_some_iff.1 h
        have hle : (address.val : Int) ≤ 99 := by omega
        simp [word, base, h, hv, hle]

theorem Statement.reference?_eq_use? (statement : Statement) :
    statement.reference? = statement.use? := by
  obtain ⟨label, mnemonic, operand⟩ := statement
  cases mnemonic with
  | dat => rfl
  | op operation =>
    cases operand with
    | none => rfl
    | some token =>
      cases h : tokenAddress? token with
      | none =>
        have hv := tokenAddress?_eq_none_iff.1 h
        cases ht : tokenValue? token with
        | none => simp [reference?, use?, h, ht]
        | some value => simp [reference?, use?, h, ht, hv value ht]
      | some address =>
        have hv := tokenAddress?_eq_some_iff.1 h
        have hle : (address.val : Int) ≤ 99 := by omega
        simp [reference?, use?, h, hv, hle]

namespace Assembly

/-- The lines of a source text, each classified. -/
def readSource (source : String) : List Line := (lines source.toList).map Line.read

/-- A statement and the number of its line, counted from one. -/
structure Placed where
  line : Nat
  statement : Statement
  deriving DecidableEq, Repr

/-- The statements of a program in the order of their lines. -/
def statements (program : List Line) : List Placed :=
  (program.zipIdx 1).filterMap fun
    | (.statement statement, line) => some ⟨line, statement⟩
    | _ => none

theorem statements_concat (program : List Line) (line : Line) :
    statements (program ++ [line]) = statements program ++
      match line with
      | .statement statement => [⟨program.length + 1, statement⟩]
      | _ => [] := by
  rw [statements, List.zipIdx_append, List.filterMap_append, Nat.add_comm]
  cases line <;> rfl

section Last

variable {α β : Type} {f : α → Nat → Option β} {items : List α}

/-- The last value that `f` gives for an item and its place, which is counted from zero. -/
def last? (f : α → Nat → Option β) (items : List α) : Option β :=
  (items.zipIdx.filterMap fun (item, i) => f item i).getLast?

theorem getElem?_concat_eq_some_iff {item other : α} {i : Nat} :
    (items ++ [item])[i]? = some other ↔
      items[i]? = some other ∨ i = items.length ∧ item = other := by
  rw [List.getElem?_append]
  split
  · next h =>
    have hne : i ≠ items.length := by omega
    simp [hne]
  · next h =>
    have heq : i - items.length = 0 ↔ i = items.length := by omega
    have hnone : items[i]? = none := List.getElem?_eq_none (Nat.le_of_not_lt h)
    simp [List.getElem?_singleton, heq, hnone]

theorem last?_concat (f : α → Nat → Option β) (items : List α) (item : α) :
    last? f (items ++ [item]) = (f item items.length).or (last? f items) := by
  rw [last?, List.zipIdx_append, List.filterMap_append, List.getLast?_append]
  cases h : f item items.length with
  | none => simp [last?, h]
  | some value => simp [h]

theorem last?_eq_none_iff :
    last? f items = none ↔ ∀ i item, items[i]? = some item → f item i = none := by
  induction items using List.reverseRecOn with
  | nil => simp [last?]
  | append_singleton items item ih =>
    rw [last?_concat, Option.or_eq_none_iff, ih]
    constructor
    · intro hx i other hi
      obtain ⟨hlast, hinit⟩ := hx
      obtain hi | ⟨rfl, rfl⟩ := getElem?_concat_eq_some_iff.1 hi
      · exact hinit i other hi
      · exact hlast
    · intro h
      exact ⟨h _ _ (getElem?_concat_eq_some_iff.2 (.inr ⟨rfl, rfl⟩)),
        fun i other hi => h i other (getElem?_concat_eq_some_iff.2 (.inl hi))⟩

theorem last?_eq_some_iff {value : β} :
    last? f items = some value ↔ ∃ i item, items[i]? = some item ∧ f item i = some value ∧
      ∀ j other, i < j → items[j]? = some other → f other j = none := by
  induction items using List.reverseRecOn with
  | nil => simp [last?]
  | append_singleton items item ih =>
    rw [last?_concat]
    cases h : f item items.length with
    | none =>
      rw [Option.none_or, ih]
      constructor
      · intro hx
        obtain ⟨i, found, hi, hf, hl⟩ := hx
        refine ⟨i, found, getElem?_concat_eq_some_iff.2 (.inl hi), hf, ?_⟩
        intro j other hj ho
        obtain ho | ⟨rfl, rfl⟩ := getElem?_concat_eq_some_iff.1 ho
        · exact hl j other hj ho
        · exact h
      · intro hx
        obtain ⟨i, found, hi, hf, hl⟩ := hx
        obtain hi | ⟨rfl, rfl⟩ := getElem?_concat_eq_some_iff.1 hi
        · refine ⟨i, found, hi, hf, ?_⟩
          intro j other hj ho
          exact hl j other hj (getElem?_concat_eq_some_iff.2 (.inl ho))
        · rw [h] at hf
          cases hf
    | some found =>
      have hend : (items ++ [item])[items.length]? = some item := List.getElem?_concat_length
      rw [Option.some_or]
      constructor
      · intro he
        refine ⟨items.length, item, hend, h.trans he, ?_⟩
        intro j other hj ho
        obtain ho | ⟨rfl, -⟩ := getElem?_concat_eq_some_iff.1 ho
        · have hlt := (List.getElem?_eq_some_iff.1 ho).1
          omega
        · omega
      · intro hx
        obtain ⟨i, other, hi, hf, hl⟩ := hx
        obtain hi | ⟨rfl, rfl⟩ := getElem?_concat_eq_some_iff.1 hi
        · have hn := hl items.length item (List.getElem?_eq_some_iff.1 hi).1 hend
          rw [h] at hn
          cases hn
        · exact h.symm.trans hf

end Last

/-- The last statement at an address. The addresses start again at zero after the last cell. -/
def statementAt? (code : List Placed) (address : Address) : Option Placed :=
  last? (fun placed i => if i % 100 = address.val then some placed else none) code

/-- The use of a label in the last statement at an address that uses one. -/
def referenceAt? (code : List Placed) (address : Address) : Option Reference :=
  last? (fun placed i =>
    if i % 100 = address.val then placed.statement.use?.map (⟨·, placed.line⟩) else none) code

/-- The place of a statement that defines a label. -/
def DefinedAt (code : List Placed) (label : String) (i : Nat) : Prop :=
  ∃ placed, code[i]? = some placed ∧ placed.statement.label = some label

/-- The address of the last statement that defines a label. -/
def definition? (code : List Placed) (label : String) : Option Address :=
  last? (fun placed i =>
    if placed.statement.label = some label then some ⟨i % 100, Nat.mod_lt i (by decide)⟩ else none)
    code

theorem statementAt?_concat (code : List Placed) (placed : Placed) (address : Address) :
    statementAt? (code ++ [placed]) address =
      if code.length % 100 = address.val then some placed else statementAt? code address := by
  rw [statementAt?, last?_concat]
  split <;> rfl

theorem referenceAt?_concat (code : List Placed) (placed : Placed) (address : Address) :
    referenceAt? (code ++ [placed]) address =
      if code.length % 100 = address.val then
        (placed.statement.use?.map (⟨·, placed.line⟩)).or (referenceAt? code address)
      else referenceAt? code address := by
  rw [referenceAt?, last?_concat]
  split <;> rfl

theorem definition?_concat (code : List Placed) (placed : Placed) (label : String) :
    definition? (code ++ [placed]) label =
      if placed.statement.label = some label then
        some ⟨code.length % 100, Nat.mod_lt code.length (by decide)⟩
      else definition? code label := by
  rw [definition?, last?_concat]
  split <;> rfl

theorem definition?_eq_none_iff {code : List Placed} {label : String} :
    definition? code label = none ↔ ∀ i, ¬ DefinedAt code label i := by
  rw [definition?, last?_eq_none_iff]
  simp [DefinedAt]

theorem DefinedAt.lt_length {code : List Placed} {label : String} {i : Nat}
    (h : DefinedAt code label i) : i < code.length := by
  obtain ⟨placed, hp, -⟩ := h
  exact (List.getElem?_eq_some_iff.1 hp).1

theorem DefinedAt.of_definition? {code : List Placed} {label : String} {address : Address}
    (h : definition? code label = some address) :
    ∃ i, DefinedAt code label i ∧ i % 100 = address.val := by
  obtain ⟨i, placed, hi, hf, -⟩ := last?_eq_some_iff.1 h
  split at hf
  · next hl =>
    cases hf
    exact ⟨i, ⟨placed, hi, hl⟩, rfl⟩
  · cases hf

end Assembly

end LittleMan
