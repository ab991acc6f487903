import LittleMan.Proofs.Lines
import LittleMan.Proofs.Numeral
import LittleMan.Proofs.Assembly.Correspondence
import LittleMan.Proofs.Assembly.Fitting
import LittleMan.Proofs.Assembly.Rewording
import LittleMan.Proofs.Assembly.Undefined

/-! Numbers in place of labels. In a program that fits, a label may be replaced, wherever it is
used, by the number of the statement that defines it. -/

namespace LittleMan

/-- A statement with a number for its operand. -/
def Statement.numbered (s : Statement) (k : Nat) : Statement :=
  { s with operand := some (.ofList (numeral k)) }

variable {value : Int} {line other : List Char}

theorem isWord_numeral (value : Int) : IsWord (numeral value) := by
  refine ⟨numeral_ne_nil value, ?_⟩
  intro c hc
  obtain ⟨hl, hu⟩ := toNat_bounds_of_mem_numeral hc
  rw [isBlank, List.any_eq_false]
  intro range hr
  have hout : ∀ range ∈ blankRanges, range.2 < 45 ∨ 57 < range.1 := by decide
  obtain h | h := hout range hr
  · simp only [Bool.and_eq_true, decide_eq_true_eq]
    omega
  · simp only [Bool.and_eq_true, decide_eq_true_eq]
    omega

theorem slash_notMem_numeral (value : Int) : '/' ∉ numeral value := by
  intro h
  obtain he | hd := mem_numeral h
  · revert he
    decide
  · revert hd
    decide

theorem tokenAddress?_numeral (address : Address) :
    tokenAddress? (.ofList (numeral address.val)) = some address := by
  rw [tokenAddress?_eq_some_iff, tokenValue?, String.toList_ofList, readNumeral_numeral]
  omega

namespace Assembly

/-- A statement whose label in use may be replaced by the number of the statement that defines
it. -/
inductive Valued (code : List Placed) (s : Statement) : Statement → Prop
  | same : Valued code s s
  | number {label : String} {k : Nat} (hu : s.use? = some label) (hd : DefinedAt code label k) :
      Valued code s (s.numbered k)

/-- A line whose label in use may be replaced by the number of the statement that defines it. -/
inductive Literal (code : List Placed) (line : List Char) : List Char → Prop
  | same : Literal code line line
  | number {s : Statement} {label : String} {k : Nat} (h : Line.read line = .statement s)
      (hu : s.use? = some label) (hd : DefinedAt code label k) :
      Literal code line (rewordLine s.operandPlace (numeral k) line)

variable {capacity : Capacity} {source : String} {memory : Memory} {code : List Placed}
  {operation : Operation} {s t : Statement} {placed : Placed} {label : String} {cell : Address}
  {k : Nat}

theorem use?_numbered (s : Statement) (address : Address) :
    (s.numbered address.val).use? = none :=
  use?_of_literal rfl (tokenAddress?_numeral address)

theorem word_numbered (hop : s.mnemonic = .op operation) (address : Address) :
    (s.numbered address.val).word = operation.code + address.val :=
  word_of_literal hop rfl (tokenAddress?_numeral address)

theorem Literal.newline_notMem (h : Literal code line other) (hl : '\n' ∉ line) : '\n' ∉ other := by
  cases h with
  | same => exact hl
  | number => exact newline_notMem_rewordLine hl (isWord_numeral _)

theorem Literal.lift (h : Literal code line other) :
    (Line.read line).Lift (Valued code) (Line.read other) := by
  cases h with
  | same => exact lift_refl (fun _ => .same) _
  | number hr hu hd =>
    obtain ⟨-, ho, -⟩ := use?_eq_some_iff.1 hu
    rw [hr, Line.read_rewordLine_operand hr ho (isWord_numeral _) (slash_notMem_numeral _)]
    exact .statement (.number hu hd)

theorem Valued.defines (h : Valued code s t) : s.Defines id Set.univ t := by
  refine ⟨?_, fun _ _ => trivial⟩
  rw [Option.map_id]
  cases h <;> rfl

/-- What a statement puts into its cell, given the labels of a program that fits. -/
def content (code : List Placed) (s : Statement) : Int :=
  s.word + (s.use?.bind (definition? code)).elim 0 fun target => (target.val : Int)

/-- The number of a label is worth what the label is worth. -/
theorem Valued.content_eq (h : (assemble capacity source).result = .ok memory)
    (hfit : (statements (readSource source)).length ≤ 100)
    (hv : Valued (statements (readSource source)) s t) :
    content (statements (readSource source)) t = content (statements (readSource source)) s := by
  cases hv with
  | same => rfl
  | @number label k hu hd =>
    obtain ⟨target, ht, rfl⟩ := definition?_of_definedAt h hfit hd
    obtain ⟨⟨operation, hop⟩, ho, ha⟩ := use?_eq_some_iff.1 hu
    rw [content, content, word_numbered hop, use?_numbered, word_of_label hop ho ha, hu,
      Option.bind_some, ht]
    exact Int.add_zero _

theorem Valued.use_eq (hfit : code.length ≤ 100) (hv : Valued code s t)
    (hu : t.use? = some label) : s.use? = some label := by
  cases hv with
  | same => exact hu
  | number _ hd =>
    have hlt := Nat.lt_of_lt_of_le hd.lt_length hfit
    cases (use?_numbered s ⟨_, hlt⟩).symm.trans hu

theorem Literal.eq_nil_iff (h : Literal code line other) : line = [] ↔ other = [] := by
  cases h with
  | same => exact Iff.rfl
  | number hr hu hd =>
    -- Neither of the two reads as the blank line does.
    have hl := (Literal.number hr hu hd).lift
    rw [hr] at hl
    apply iff_of_false
    · rintro rfl
      cases hr
    · intro ho
      rw [ho] at hl
      cases hl

theorem newline_notMem_of_literals {parts replaced : List (List Char)}
    (hn : ∀ line ∈ parts, '\n' ∉ line) (hl : List.Forall₂ (Literal code) parts replaced) :
    ∀ other ∈ replaced, '\n' ∉ other := by
  induction hl with
  | nil => exact hn
  | cons h _ ih =>
    intro piece hp
    obtain rfl | hp := List.mem_cons.1 hp
    · exact h.newline_notMem (hn _ (List.mem_cons_self ..))
    · exact ih (fun line hm => hn line (List.mem_cons_of_mem _ hm)) piece hp

theorem lines_of_literals {replaced : List (List Char)}
    (hl : List.Forall₂ (Literal code) (pieces source.toList) replaced) :
    List.Forall₂ (Literal code) (lines source.toList)
      (lines (String.ofList (unlines replaced)).toList) := by
  have hne : replaced ≠ [] := by
    rintro rfl
    exact pieces_ne_nil _ (List.forall₂_nil_right_iff.1 hl)
  rw [String.toList_ofList,
    lines_unlines (newline_notMem_of_literals (fun _ => newline_notMem_of_mem_pieces) hl) hne]
  exact forall₂_trimLast (fun _ _ => Literal.eq_nil_iff) hl

theorem corresponds_of_literals {replaced : List (List Char)}
    (hl : List.Forall₂ (Literal code) (pieces source.toList) replaced) :
    Corresponds (Valued code) id (readSource source)
      (readSource (.ofList (unlines replaced))) := by
  apply Corresponds.of_forall₂
  rw [readSource, readSource, List.forall₂_map_left_iff, List.forall₂_map_right_iff]
  exact (lines_of_literals hl).imp fun _ _ h => h.lift

section Replaced

variable {target : String}

/-- Numbers for labels leave all labels where they are. -/
theorem definition?_of_corresponds
    (hc : Corresponds (Valued code) id (readSource source) (readSource target)) (label : String) :
    definition? (statements (readSource target)) label =
      definition? (statements (readSource source)) label := by
  have hf := (hc.mono fun _ _ => Valued.defines).follows (Set.injOn_id Set.univ)
  rw [← lookup_labels_drafted, ← lookup_labels_drafted]
  exact hf.labels label trivial

theorem exists_valued {program others : List Line} {i : Nat}
    (hc : Corresponds (Valued code) id program others)
    (hi : (statements others)[i]? = some placed) :
    ∃ original, (statements program)[i]? = some original ∧
      Valued code original.statement placed.statement := by
  have hs := hc.statements
  obtain ⟨hlt, rfl⟩ := List.getElem?_eq_some_iff.1 hi
  have hlt' : i < (statements program).length := hs.length_eq ▸ hlt
  exact ⟨_, List.getElem?_eq_getElem hlt', (hs.get hlt' hlt).2⟩

theorem assembles_of_corresponds (h : (assemble capacity source).result = .ok memory)
    (hfit : (statements (readSource source)).length ≤ 100)
    (hc : Corresponds (Valued (statements (readSource source))) id (readSource source)
      (readSource target)) :
    ∃ memory, (assemble capacity target).result = .ok memory := by
  have hp : firstProblem? capacity (readSource target) =
      (firstProblem? capacity (readSource source)).map (Error.carry id id) :=
    (hc.mono fun _ _ => Valued.defines).firstProblem?_eq (Set.injOn_id Set.univ)
  have hr := result_assemble capacity source
  rw [h, verdict] at hr
  cases hs : firstProblem? capacity (readSource source) with
  | some error =>
    rw [hs] at hr
    cases hr
  | none =>
    rw [result_assemble, verdict, hp, hs]
    refine ⟨_, (drafted (readSource target)).result_finish_eq_ok_iff.2 ⟨?_, rfl⟩⟩
    intro cell
    apply unresolved?_drafted_eq_none_iff.2
    apply not_unresolved_iff.2
    intro i hx
    obtain ⟨placed, label, hi, hu, hd⟩ := hx
    obtain ⟨original, ho, hv⟩ := exists_valued hc hi
    have hlt := Nat.lt_of_lt_of_le (List.getElem?_eq_some_iff.1 ho).1 hfit
    have hcell : (statements (readSource source))[(⟨i, hlt⟩ : Address).val]? = some original := ho
    obtain ⟨place, ht⟩ := exists_definition_of_use h hfit hcell (hv.use_eq hfit hu)
    rw [← definition?_of_corresponds hc, definition?_eq_none_iff.2 hd] at ht
    cases ht

end Replaced

/-- If some labels in use are replaced by the numbers of the statements that define them, a program
that fits assembles to the same image. -/
theorem assemble_literals (h : (assemble capacity source).result = .ok memory)
    (hfit : (statements (readSource source)).length ≤ 100) {replaced : List (List Char)}
    (hl : List.Forall₂ (Literal (statements (readSource source))) (pieces source.toList) replaced) :
    (assemble capacity (.ofList (unlines replaced))).result = .ok memory := by
  have hc := corresponds_of_literals hl
  have hlen := hc.statements.length_eq
  obtain ⟨other, ho⟩ := assembles_of_corresponds h hfit hc
  apply ho.trans
  apply congrArg Except.ok
  ext cell
  cases hk : (statements (readSource (.ofList (unlines replaced))))[cell.val]? with
  | none =>
    have hk' : (statements (readSource source))[cell.val]? = none := by
      rw [List.getElem?_eq_none_iff] at hk ⊢
      rwa [hlen]
    rw [get_assembled_past h hfit hk', get_assembled_past ho (hlen ▸ hfit) hk]
  | some placed =>
    obtain ⟨original, hi, hv⟩ := exists_valued hc hk
    rw [get_assembled_of_fit h hfit hi, get_assembled_of_fit ho (hlen ▸ hfit) hk]
    simp only [definition?_of_corresponds hc]
    exact hv.content_eq h hfit

/-- A program that uses labels before their definitions, after them and on their own lines. Some of
them look like numbers. -/
def symbolic : List (List Char) :=
  [['1', '0', '0', ' ', 'L', 'D', 'A', ' ', '-', '1'],
    ['B', 'R', 'A', ' ', '1', '0', '0'],
    ['x', ' ', 'B', 'R', 'A', ' ', 'x'],
    ['-', '1', ' ', 'D', 'A', 'T', ' ', '5']]

/-- The same program with a number in the place of every label. -/
def literal : List (List Char) :=
  [['1', '0', '0', ' ', 'L', 'D', 'A', ' ', '3'],
    ['B', 'R', 'A', ' ', '0'],
    ['x', ' ', 'B', 'R', 'A', ' ', '2'],
    ['-', '1', ' ', 'D', 'A', 'T', ' ', '5']]

def symbolicCode : List Placed :=
  [⟨1, ⟨some "100", .op .lda, some "-1"⟩⟩, ⟨2, ⟨none, .op .bra, some "100"⟩⟩,
    ⟨3, ⟨some "x", .op .bra, some "x"⟩⟩, ⟨4, ⟨some "-1", .dat, some "5"⟩⟩]

theorem assemble_literals_symbolic :
    (assemble .strict (.ofList (unlines symbolic))).result =
        (assemble .strict (.ofList (unlines literal))).result ∧
      ∃ memory, (assemble .strict (.ofList (unlines literal))).result = .ok memory ∧
        memory.get 0 = 503 ∧ memory.get 1 = 600 ∧ memory.get 2 = 602 := by
  let memory := Memory.ofFn fun address =>
    if address = 0 then 503 else if address = 1 then 600 else if address = 2 then 602
    else if address = 3 then 5 else 0
  have h : (assemble .strict (.ofList (unlines symbolic))).result = .ok memory := by
    rw [assemble, String.toList_ofList]
    decide +kernel
  have hpieces : pieces (String.ofList (unlines symbolic)).toList = symbolic := by
    rw [String.toList_ofList]
    decide +kernel
  have hcode : statements (readSource (.ofList (unlines symbolic))) = symbolicCode := by
    rw [readSource, lines, hpieces]
    decide +kernel
  have hl : List.Forall₂ (Literal symbolicCode) symbolic literal := by
    have hforward := @Literal.number symbolicCode ['1', '0', '0', ' ', 'L', 'D', 'A', ' ', '-', '1']
      ⟨some "100", .op .lda, some "-1"⟩ "-1" 3 (by decide +kernel) (by decide +kernel) ⟨_, rfl, rfl⟩
    have hbackward := @Literal.number symbolicCode ['B', 'R', 'A', ' ', '1', '0', '0']
      ⟨none, .op .bra, some "100"⟩ "100" 0 (by decide +kernel) (by decide +kernel) ⟨_, rfl, rfl⟩
    have hself := @Literal.number symbolicCode ['x', ' ', 'B', 'R', 'A', ' ', 'x']
      ⟨some "x", .op .bra, some "x"⟩ "x" 2 (by decide +kernel) (by decide +kernel) ⟨_, rfl, rfl⟩
    exact .cons hforward (.cons hbackward (.cons hself (.cons .same .nil)))
  have hr := assemble_literals h (hcode ▸ by decide) (hpieces ▸ hcode ▸ hl)
  exact ⟨h.trans hr.symm, memory, hr, by decide +kernel, by decide +kernel, by decide +kernel⟩

end Assembly

end LittleMan
