import LittleMan.Text.Split
import Mathlib.Data.List.Forall2
import Mathlib.Data.List.Induction

/-! The lines of a text and the pieces between its line feeds, and the text that some pieces make. -/

namespace LittleMan

/-- The text made of some pieces with line feeds between them. -/
def unlines (parts : List (List Char)) : List Char := List.intercalate ['\n'] parts

variable {text line mid : List Char} {parts others : List (List Char)} {c : Char}

theorem pieces_append_newline (head tail : List Char) :
    pieces (head ++ '\n' :: tail) = pieces head ++ pieces tail :=
  List.splitOnP_append_cons head tail (beq_self_eq_true '\n')

theorem pieces_of_newline_notMem (h : '\n' ∉ line) : pieces line = [line] :=
  List.splitOn_eq_singleton h

theorem pieces_ne_nil (text : List Char) : pieces text ≠ [] := List.splitOnP_ne_nil _ text

theorem pieces_cons (hc : c ≠ '\n') (text : List Char) :
    pieces (c :: text) = (pieces text).modifyHead (c :: ·) := by
  rw [pieces, List.splitOnP_cons_eq_if_modifyHead, if_neg (by simpa using hc)]
  rfl

theorem length_pieces (text : List Char) : (pieces text).length = text.count '\n' + 1 := by
  induction text with
  | nil => rfl
  | cons c text ih =>
    by_cases hc : c = '\n'
    · subst hc
      have hl := pieces_append_newline [] text
      rw [List.nil_append] at hl
      rw [hl, List.length_append, ih, List.count_cons_self, Nat.add_comm]
      rfl
    · rw [pieces_cons hc, List.length_modifyHead, ih, List.count_cons_of_ne hc]

theorem newline_notMem_of_mem_pieces (h : line ∈ pieces text) : '\n' ∉ line := by
  induction text generalizing line with
  | nil =>
    obtain rfl := List.mem_singleton.1 h
    exact List.not_mem_nil
  | cons c text ih =>
    by_cases hc : c = '\n'
    · subst hc
      have hl := pieces_append_newline [] text
      rw [List.nil_append] at hl
      rw [hl] at h
      obtain rfl | h := List.mem_cons.1 h
      · exact List.not_mem_nil
      · exact ih h
    · rw [pieces_cons hc] at h
      obtain ⟨first, more, he⟩ := List.exists_cons_of_ne_nil (pieces_ne_nil text)
      rw [he] at h ih
      obtain rfl | h := List.mem_cons.1 h
      · intro hm
        obtain he | hm := List.mem_cons.1 hm
        · exact hc he.symm
        · exact ih (List.mem_cons_self ..) hm
      · exact ih (List.mem_cons_of_mem _ h)

theorem pieces_unlines (hn : ∀ line ∈ parts, '\n' ∉ line) (hp : parts ≠ []) :
    pieces (unlines parts) = parts := List.splitOn_intercalate '\n' hn hp

theorem pieces_unlines_around {above below : List (List Char)}
    (ht : ∀ piece ∈ above ++ below, '\n' ∉ piece) (hn : '\n' ∉ line) :
    pieces (unlines (above ++ line :: below)) = above ++ line :: below := by
  apply pieces_unlines
  · intro piece hp
    obtain hp | hp := List.mem_append.1 hp
    · exact ht piece (List.mem_append_left _ hp)
    · obtain rfl | hp := List.mem_cons.1 hp
      · exact hn
      · exact ht piece (List.mem_append_right _ hp)
  · exact List.append_ne_nil_of_right_ne_nil _ (List.cons_ne_nil _ _)

/-- A change within a line leaves the pieces before it and after it alone. -/
theorem exists_pieces_around (head tail : List Char) :
    ∃ above first last below, ∀ mid, '\n' ∉ mid →
      pieces (head ++ (mid ++ tail)) = above ++ (first ++ (mid ++ last)) :: below := by
  induction head with
  | nil =>
    by_cases ht : '\n' ∈ tail
    · obtain ⟨last, rest, rfl, hl⟩ := List.eq_append_cons_of_mem ht
      refine ⟨[], [], last, pieces rest, ?_⟩
      intro mid hm
      have hml : '\n' ∉ mid ++ last := fun h => (List.mem_append.1 h).elim hm hl
      rw [List.nil_append, ← List.append_assoc, pieces_append_newline, pieces_of_newline_notMem hml]
      rfl
    · refine ⟨[], [], tail, [], ?_⟩
      intro mid hm
      have hmt : '\n' ∉ mid ++ tail := fun h => (List.mem_append.1 h).elim hm ht
      exact pieces_of_newline_notMem hmt
  | cons c head ih =>
    obtain ⟨above, first, last, below, h⟩ := ih
    by_cases hc : c = '\n'
    · refine ⟨[] :: above, first, last, below, ?_⟩
      intro mid hm
      subst hc
      exact (pieces_append_newline [] _).trans (congrArg ([[]] ++ ·) (h mid hm))
    · cases above with
      | nil =>
        refine ⟨[], c :: first, last, below, ?_⟩
        intro mid hm
        rw [List.cons_append, pieces_cons hc, h mid hm]
        rfl
      | cons line above =>
        refine ⟨(c :: line) :: above, first, last, below, ?_⟩
        intro mid hm
        rw [List.cons_append, pieces_cons hc, h mid hm]
        rfl

theorem trimLast_cons_cons (first second : List Char) (parts : List (List Char)) :
    trimLast (first :: second :: parts) = first :: trimLast (second :: parts) := by
  rw [trimLast, trimLast, List.getLast?_cons_cons, List.dropLast_cons_cons]
  split <;> rfl

/-- The pieces of a text are its lines and perhaps one more, which is empty. -/
theorem pieces_eq_lines_or (text : List Char) :
    pieces text = lines text ∨ pieces text = lines text ++ [[]] := by
  rw [lines, trimLast]
  split
  · next hl => exact .inr (List.dropLast_append_getLast? _ hl).symm
  · exact .inl rfl

theorem mem_pieces_of_mem_lines (h : line ∈ lines text) : line ∈ pieces text := by
  obtain he | he := pieces_eq_lines_or text
  · rwa [he]
  · rw [he]
    exact List.mem_append_left _ h

theorem mem_lines_of_mem_pieces (h : line ∈ pieces text) (hn : line ≠ []) : line ∈ lines text := by
  obtain he | he := pieces_eq_lines_or text
  · rwa [he] at h
  · rw [he] at h
    obtain h | h := List.mem_append.1 h
    · exact h
    · exact absurd (List.mem_singleton.1 h) hn

theorem length_lines_le (text : List Char) : (lines text).length ≤ text.count '\n' + 1 := by
  rw [← length_pieces]
  obtain he | he := pieces_eq_lines_or text
  · exact Nat.le_of_eq (congrArg List.length he.symm)
  · rw [he, List.length_append]
    exact Nat.le_add_right _ _

theorem lines_unlines (hn : ∀ line ∈ parts, '\n' ∉ line) (hp : parts ≠ []) :
    lines (unlines parts) = trimLast parts := by rw [lines, pieces_unlines hn hp]

theorem trimLast_eq_self (h : ∀ part ∈ parts, part ≠ []) : trimLast parts = parts := by
  apply if_neg
  intro hl
  exact h [] (List.mem_of_getLast? hl) rfl

theorem trimLast_map {f : List Char → List Char} (hf : ∀ part ∈ parts, f part = [] ↔ part = []) :
    trimLast (parts.map f) = (trimLast parts).map f := by
  induction parts using List.reverseRecOn with
  | nil => rfl
  | append_singleton initial last =>
    have hl := hf last (List.mem_append_right _ (List.mem_singleton_self last))
    by_cases he : last = []
    · rw [he] at hl
      simp [trimLast, he, hl]
    · simp [trimLast, he, hl]

/-- A relation between pieces that relates empty ones to empty ones alone holds of lines as well. -/
theorem forall₂_trimLast {R : List Char → List Char → Prop}
    (he : ∀ line other, R line other → (line = [] ↔ other = [])) (h : List.Forall₂ R parts others) :
    List.Forall₂ R (trimLast parts) (trimLast others) := by
  induction h with
  | nil => exact .nil
  | @cons line other parts others hr h ih =>
    cases h with
    | nil =>
      by_cases hl : line = []
      · rw [(he line other hr).1 hl, hl]
        exact .nil
      · have ho := mt (he line other hr).2 hl
        rw [trimLast, trimLast, if_neg (by simpa using hl), if_neg (by simpa using ho)]
        exact .cons hr .nil
    | cons hr' h =>
      rw [trimLast_cons_cons, trimLast_cons_cons]
      exact .cons hr ih

end LittleMan
