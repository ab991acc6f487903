import LittleMan.Memory.Table
import LittleMan.Proofs.Assembly.Range
import LittleMan.Proofs.Image
import LittleMan.Proofs.Lines
import LittleMan.Proofs.Numeral

/-! The printed table of a memory can be read back: its lines, split at spaces, are the labels of the
rows and the numerals of the cells. -/

namespace LittleMan

/-- The pieces of a line between spaces that are not empty. -/
def fields (line : List Char) : List (List Char) :=
  (line.splitOn ' ').filter fun field => !field.isEmpty

variable {field : List Char} {value : Int}

theorem fields_append_space (head tail : List Char) :
    fields (head ++ ' ' :: tail) = fields head ++ fields tail := by
  rw [fields, List.splitOn_append_cons_self, List.filter_append]
  rfl

theorem fields_eq_singleton (hn : field ≠ []) (h : ' ' ∉ field) : fields field = [field] := by
  have he : field.isEmpty = false := List.isEmpty_eq_false_iff.2 hn
  rw [fields, List.splitOn_eq_singleton h, List.filter_cons_of_pos, List.filter_nil]
  rw [he]
  rfl

theorem fields_spaces_append (n : Nat) (tail : List Char) :
    fields (List.replicate n ' ' ++ tail) = fields tail := by
  induction n with
  | zero => rfl
  | succ n ih =>
    have h := fields_append_space [] (List.replicate n ' ' ++ tail)
    rw [List.replicate_succ, List.cons_append]
    exact h.trans ih

-- The head is general: a column starts with the space that ends the field before it.
theorem fields_columns (head : List Char) (values : List Int) :
    fields (head ++ values.flatMap column) = fields head ++ values.map numeral := by
  induction values generalizing head with
  | nil => rw [List.flatMap_nil, List.append_nil, List.map_nil, List.append_nil]
  | cons value values ih =>
    have hs : fields (numeral value) = [numeral value] :=
      fields_eq_singleton (numeral_ne_nil value) (notMem_numeral (by decide) rfl)
    rw [List.flatMap_cons, column, List.cons_append, fields_append_space, List.leftpad,
      List.append_assoc, fields_spaces_append, ih, hs]
    rfl

theorem length_column (h : (numeral value).length ≤ 4) : (column value).length = 5 := by
  rw [column, List.length_cons, List.length_leftpad, Nat.max_eq_left h]

theorem length_columns {values : List Int}
    (h : ∀ value ∈ values, -999 ≤ value ∧ value ≤ 9999) :
    (values.flatMap column).length = 5 * values.length := by
  induction values with
  | nil => rfl
  | cons value values ih =>
    obtain ⟨hl, hu⟩ := h value (List.mem_cons_self ..)
    rw [List.flatMap_cons, List.length_append, length_column (length_numeral_le hl hu),
      ih fun other ho => h other (List.mem_cons_of_mem _ ho), List.length_cons]
    omega

theorem newline_notMem_columns (values : List Int) : '\n' ∉ values.flatMap column := by
  intro h
  obtain ⟨value, -, hv⟩ := List.mem_flatMap.1 h
  obtain he | hv := List.mem_cons.1 hv
  · revert he
    decide
  · obtain hs | hn := List.mem_append.1 hv
    · have he := List.eq_of_mem_replicate hs
      revert he
      decide
    · exact notMem_numeral (by decide) rfl hn

namespace Memory

variable {memory image : Memory} {row : Fin 10} {line : List Char}

/-- The words of a row, in the order of its columns. -/
def rowWords (memory : Memory) (row : Fin 10) : List Int :=
  (List.finRange 10).map fun col => memory.get (cellAt row col)

/-- What stands before the words of a row: its first address and a colon. -/
def rowLabel (row : Fin 10) : List Char := twoDigits (10 * row.val) ++ [':']

theorem tableRow_eq (memory : Memory) (row : Fin 10) :
    memory.tableRow row = rowLabel row ++ (memory.rowWords row).flatMap column := by
  rw [tableRow, rowLabel, rowWords, List.flatMap_map, List.append_assoc]
  rfl

theorem tableHeader_eq : tableHeader =
    [' ', ' ', ' '] ++ ((List.finRange 10).map fun col => (col.val : Int)).flatMap column := by
  rw [tableHeader, List.flatMap_map]

theorem rowLabel_spec (row : Fin 10) :
    (rowLabel row).length = 3 ∧ ' ' ∉ rowLabel row ∧ '\n' ∉ rowLabel row := by
  revert row
  decide

theorem fields_tableRow (memory : Memory) (row : Fin 10) :
    fields (memory.tableRow row) = rowLabel row :: (memory.rowWords row).map numeral := by
  have hs : fields (rowLabel row) = [rowLabel row] :=
    fields_eq_singleton (List.append_ne_nil_of_right_ne_nil _ (List.cons_ne_nil _ _))
      (rowLabel_spec row).2.1
  rw [tableRow_eq, fields_columns, hs]
  rfl

/-- A row is labelled with two digits, which are a numeral of its first address. -/
theorem numeral_twoDigits (row : Fin 10) :
    (twoDigits (10 * row.val)).length = 2 ∧ Digits (twoDigits (10 * row.val)) ∧
      Numeral (twoDigits (10 * row.val)) (10 * row.val : Nat) := by
  have h : ∀ row : Fin 10, (twoDigits (10 * row.val)).length = 2 ∧
      (twoDigits (10 * row.val)).all Char.isDigit = true ∧
      Nat.ofDigitChars 10 (twoDigits (10 * row.val)) 0 = 10 * row.val := by decide
  obtain ⟨hl, hd, hv⟩ := h row
  have hn : Digits (twoDigits (10 * row.val)) :=
    ⟨List.ne_nil_of_length_eq_add_one hl, List.all_eq_true.1 hd⟩
  have hm := Numeral.unsigned hn
  rw [hv] at hm
  exact ⟨hl, hn, hm⟩

theorem newline_notMem_tableLines : ∀ line ∈ memory.tableLines, '\n' ∉ line := by
  intro line hl hn
  obtain rfl | hl := List.mem_cons.1 hl
  · rw [tableHeader_eq] at hn
    obtain hn | hn := List.mem_append.1 hn
    · revert hn
      decide
    · exact newline_notMem_columns _ hn
  · obtain ⟨row, -, rfl⟩ := List.mem_map.1 hl
    rw [tableRow_eq] at hn
    obtain hn | hn := List.mem_append.1 hn
    · exact (rowLabel_spec row).2.2 hn
    · exact newline_notMem_columns _ hn

theorem length_tableLines (memory : Memory) : memory.tableLines.length = 11 := by
  rw [tableLines, List.length_cons, List.length_map, List.length_finRange]

theorem getElem?_tableLines (memory : Memory) (row : Fin 10) :
    memory.tableLines[row.val + 1]? = some (memory.tableRow row) := by
  rw [tableLines, List.getElem?_cons_succ, List.getElem?_map, List.getElem?_eq_getElem (by simp),
    List.getElem_finRange]
  rfl

theorem ne_nil_of_mem_tableLines (h : line ∈ memory.tableLines) : line ≠ [] := by
  obtain rfl | h := List.mem_cons.1 h
  · rw [tableHeader_eq]
    exact List.append_ne_nil_of_left_ne_nil (List.cons_ne_nil _ _) _
  · obtain ⟨row, -, rfl⟩ := List.mem_map.1 h
    rw [tableRow_eq, rowLabel, List.append_assoc]
    exact List.append_ne_nil_of_right_ne_nil _ (List.cons_ne_nil _ _)

theorem pieces_table (memory : Memory) : pieces memory.table.toList = memory.tableLines := by
  rw [table, String.toList_ofList]
  exact pieces_unlines newline_notMem_tableLines (List.cons_ne_nil _ _)

theorem lines_table (memory : Memory) : lines memory.table.toList = memory.tableLines := by
  rw [lines, pieces_table]
  exact trimLast_eq_self fun _ => ne_nil_of_mem_tableLines

theorem getLast?_table (memory : Memory) : memory.table.toList.getLast? ≠ some '\n' := by
  intro h
  obtain ⟨text, ht⟩ := List.getLast?_eq_some_iff.1 h
  have hl := pieces_table memory
  rw [ht, pieces_append_newline] at hl
  have hm : [] ∈ memory.tableLines := by
    rw [← hl]
    exact List.mem_append_right _ (List.mem_singleton_self _)
  exact ne_nil_of_mem_tableLines hm rfl

theorem exists_cellAt (a : Address) : ∃ row col, cellAt row col = a :=
  ⟨⟨a.val / 10, by omega⟩, ⟨a.val % 10, by omega⟩, Fin.ext (by simp only [cellAt]; omega)⟩

/-- Memories with the same table are the same. -/
theorem table_injective (h : memory.table = image.table) : memory = image := by
  have hl : memory.tableLines = image.tableLines := by
    rw [← lines_table, ← lines_table, h]
  ext a
  obtain ⟨row, col, rfl⟩ := exists_cellAt a
  have hrow := congrArg (·[row.val + 1]?) hl
  simp only [getElem?_tableLines, Option.some_inj] at hrow
  have hfields := congrArg fields hrow
  rw [fields_tableRow, fields_tableRow] at hfields
  have hwords := List.map_injective_iff.2 (fun _ _ => numeral_injective) (List.cons.inj hfields).2
  exact List.map_inj_left.1 hwords col (List.mem_finRange col)

theorem length_of_mem_tableLines (h : ∀ a, -999 ≤ memory.get a ∧ memory.get a ≤ 9999)
    (hl : line ∈ memory.tableLines) : line.length = 53 := by
  obtain rfl | hl := List.mem_cons.1 hl
  · decide
  · obtain ⟨row, -, rfl⟩ := List.mem_map.1 hl
    have hw : ∀ word ∈ memory.rowWords row, -999 ≤ word ∧ word ≤ 9999 := by
      intro word hm
      obtain ⟨col, -, rfl⟩ := List.mem_map.1 hm
      exact h _
    rw [tableRow_eq, List.length_append, (rowLabel_spec row).1, length_columns hw, rowWords,
      List.length_map, List.length_finRange]

/-- The table of a memory has eleven lines, with no newline behind the last one. Each but the first
holds, between spaces, two digits and a colon for the address of its first cell, and then the numerals
of ten cells in their order. So the table determines the memory. Where no word needs more than four
places, as in what can be assembled and what can be decoded, all lines are 53 characters long. -/
theorem table_faithful (memory : Memory) :
    ((lines memory.table.toList).length = 11 ∧ memory.table.toList.getLast? ≠ some '\n') ∧
      (∀ row : Fin 10, ∃ line label numerals,
        (lines memory.table.toList)[row.val + 1]? = some line ∧
        fields line = (label ++ [':']) :: numerals ∧
        (label.length = 2 ∧ Digits label ∧ Numeral label (10 * row.val : Nat)) ∧
        List.Forall₂ Numeral numerals
          ((List.finRange 10).map fun col => memory.get (cellAt row col))) ∧
      (∀ image : Memory, memory.table = image.table ↔ memory = image) ∧
      ((∀ a, -999 ≤ memory.get a ∧ memory.get a ≤ 9999) →
        ∀ line ∈ lines memory.table.toList, line.length = 53) ∧
      ((∃ capacity source, (assemble capacity source).result = .ok memory) ∨
          (∃ bytes, ofBytes bytes = .ok memory) →
        ∀ a, -999 ≤ memory.get a ∧ memory.get a ≤ 9999) := by
  rw [lines_table]
  refine ⟨⟨length_tableLines memory, getLast?_table memory⟩, ?_, ?_, ?_, ?_⟩
  · intro row
    refine ⟨_, _, _, getElem?_tableLines memory row, fields_tableRow memory row,
      numeral_twoDigits row, ?_⟩
    exact List.forall₂_map_left_iff.2 (List.forall₂_same.2 fun word _ => numeral_numeral word)
  · intro image
    exact ⟨table_injective, congrArg table⟩
  · intro h line
    exact length_of_mem_tableLines h
  · rintro (⟨capacity, source, h⟩ | ⟨bytes, h⟩) a
    · obtain ⟨hl, hu⟩ := Assembly.get_assembled_range h a
      exact ⟨hl, Int.le_trans hu (by decide)⟩
    · obtain ⟨hl, hu⟩ := (ofBytes_eq_ok_iff.1 h).1 a
      exact ⟨hl, Int.le_trans hu (by decide)⟩

/-- A memory whose words take up all four places. -/
def filled : Memory := .ofFn fun a => if a.val % 2 = 0 then -999 else 9999

theorem filled_table_faithful :
    (∀ line ∈ lines filled.table.toList, line.length = 53) ∧
      (∀ line ∈ lines zero.table.toList, line.length = 53) ∧ filled.table ≠ zero.table := by
  have hb : ofBytes (List.replicate 200 0) = .ok zero :=
    ofBytes_eq_ok_iff.2 ⟨zero_atRest, by decide +kernel⟩
  have hne : filled ≠ zero := by decide +kernel
  obtain ⟨-, -, hi, hf, -⟩ := filled.table_faithful
  obtain ⟨-, -, -, hz, hr⟩ := zero.table_faithful
  exact ⟨hf (by decide +kernel), hz (hr (.inr ⟨_, hb⟩)), fun h => hne ((hi zero).1 h)⟩

end Memory

end LittleMan
