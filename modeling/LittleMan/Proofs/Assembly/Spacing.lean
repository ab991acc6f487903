import LittleMan.Proofs.Assembly.Capacity
import LittleMan.Proofs.Assembly.Correspondence
import LittleMan.Proofs.Lines

/-! The layout of a source text. Lines without a word, comments, the width of gaps and the form of
line ends change nothing but the numbers of the lines that errors name. -/

namespace LittleMan

/-- Some blanks within a line. -/
structure Gap (run : List Char) : Prop where
  ne_nil : run ≠ []
  blank : ∀ c ∈ run, isBlank c = true
  inLine : '\n' ∉ run

/-- A text whose line feeds follow carriage returns. -/
def unlinesReturning (parts : List (List Char)) : List Char :=
  List.intercalate ['\r', '\n'] parts

/-- A change of the layout of a text: the text before and after it, and how many lines it puts
before each line, these being counted from one. -/
inductive LayoutEdit : List Char → List Char → (Nat → Nat) → Prop
  | insert {text line : List Char} {above below : List (List Char)}
      (ht : pieces text = above ++ below) (hn : '\n' ∉ line) (hl : isWritten line = false) :
      LayoutEdit text (unlines (above ++ line :: below)) fun n => if n ≤ above.length then 0 else 1
  | comment {text line remark : List Char} {blank : Char} {above below : List (List Char)}
      (ht : pieces text = above ++ line :: below) (hb : isBlank blank = true)
      (hn : '\n' ∉ blank :: remark) :
      LayoutEdit text (unlines (above ++ (line ++ blank :: '/' :: '/' :: remark) :: below))
        fun _ => 0
  | respace {run other : List Char} (head tail : List Char) (hr : Gap run) (ho : Gap other) :
      LayoutEdit (head ++ (run ++ tail)) (head ++ (other ++ tail)) fun _ => 0
  | returns (text : List Char) : LayoutEdit text (unlinesReturning (pieces text)) fun _ => 0
  | terminate (text : List Char) : LayoutEdit text (text ++ ['\n']) fun _ => 0
  | unterminate (text : List Char) : LayoutEdit (text ++ ['\n']) text fun _ => 0

/-- A text after any number of changes of its layout, and how many lines they have put before each
of its lines. -/
inductive Relaid (text : List Char) : List Char → (Nat → Nat) → Prop
  | refl : Relaid text text fun _ => 0
  | edit {between other : List Char} {inserted more : Nat → Nat}
      (h : Relaid text between inserted) (he : LayoutEdit between other more) :
      Relaid text other fun n => inserted n + more (n + inserted n)

variable {line head tail run other text remark : List Char} {c : Char}

theorem Line.read_of_words (h : words (stripComment line) = words (stripComment other)) :
    Line.read line = Line.read other := by
  rw [Line.read, Line.read, tokens, tokens, h]

theorem Line.read_append (hc : isBlank c = true) (ht : words (stripComment tail) = []) :
    Line.read (line ++ c :: tail) = Line.read line :=
  Line.read_of_words (words_stripComment_append hc ht)

theorem Line.read_respace (hr : Gap run) (ho : Gap other) (head tail : List Char) :
    Line.read (head ++ (run ++ tail)) = Line.read (head ++ (other ++ tail)) := by
  rw [← List.append_assoc, ← List.append_assoc]
  exact Line.read_of_words (words_stripComment_run hr.ne_nil hr.blank ho.ne_nil ho.blank)

/-- A carriage return before a line feed is one more blank at the end of the line. -/
theorem read_pieces_unlinesReturning {parts : List (List Char)}
    (hn : ∀ line ∈ parts, '\n' ∉ line) (hp : parts ≠ []) :
    (pieces (unlinesReturning parts)).map Line.read = parts.map Line.read := by
  induction parts with
  | nil => exact absurd rfl hp
  | cons line parts ih =>
    have hl := hn line (List.mem_cons_self ..)
    cases parts with
    | nil =>
      rw [unlinesReturning, List.intercalate_singleton, pieces_of_newline_notMem hl]
    | cons next parts =>
      have hr : '\n' ∉ line ++ ['\r'] := by
        rw [List.mem_append, not_or]
        exact ⟨hl, by decide⟩
      have hreturn : Line.read (line ++ ['\r']) = Line.read line :=
        Line.read_append (by decide) words_nil
      have hs : unlinesReturning (line :: next :: parts) =
          (line ++ ['\r']) ++ '\n' :: unlinesReturning (next :: parts) := by
        rw [unlinesReturning, List.intercalate_cons_cons, List.append_assoc, List.append_assoc]
        rfl
      rw [hs, pieces_append_newline, pieces_of_newline_notMem hr, List.map_append, List.map_singleton,
        ih (fun other ho => hn other (List.mem_cons_of_mem _ ho)) (List.cons_ne_nil _ _),
        hreturn]
      rfl

namespace Assembly

variable {capacity : Capacity} {program above below : List Line} {g inserted more : Nat → Nat}

/-- An error at the line that its own has become once some lines are put before it. -/
def Error.shift (inserted : Nat → Nat) (error : Error) : Error :=
  ⟨error.cause, error.line + inserted error.line⟩

theorem renames_id (s : Statement) : s.Renames id Set.univ s := by
  refine ⟨⟨?_, fun _ _ => trivial⟩, rfl, ?_, fun _ _ => trivial⟩
  · rw [Option.map_id]
    rfl
  · rw [Option.map_id]
    rfl

theorem lift_renames_id (program : List Line) :
    List.Forall₂ (Line.Lift (Statement.Renames id Set.univ)) program program :=
  List.forall₂_same.2 fun line _ => lift_refl renames_id line

/-- A program corresponds to itself with a blank line in between. -/
theorem corresponds_insert_blank (ha : ∀ n ≤ above.length, g n = n)
    (hb : ∀ n > above.length, n ≤ (above ++ below).length → g n = n + 1) :
    Corresponds (Statement.Renames id Set.univ) g (above ++ below) (above ++ .blank :: below) := by
  have hfirst : Corresponds (Statement.Renames id Set.univ) g above above :=
    Corresponds.append .nil (lift_renames_id above) fun k hk => by
      rw [List.length_nil, Nat.zero_add]
      exact ha (k + 1) hk
  have hall := hfirst.insert.append (lift_renames_id below) fun k hk => by
    rw [List.length_append, List.length_singleton, Nat.add_right_comm _ 1 k]
    apply hb
    · omega
    · rw [List.length_append]
      omega
  rwa [List.append_assoc] at hall

theorem Cause.rename_id (cause : Cause) : cause.rename id = cause := by
  cases cause <;> rfl

/-- A blank line at the end of a program means nothing. -/
theorem verdict_concat_blank (program : List Line) :
    verdict capacity (program ++ [.blank]) = verdict capacity program := by
  have hc : Corresponds (Statement.Renames id Set.univ) id program (program ++ [.blank]) :=
    .insert (.of_forall₂ (lift_renames_id program))
  rw [hc.verdict_eq (Set.injOn_id _)]
  cases verdict capacity program with
  | ok memory => rfl
  | error error => rw [Except.mapError, Error.carry, Cause.rename_id, id]

/-- The assembler goes by the pieces between the line feeds of a text. -/
theorem result_assemble_ofList (text : List Char) :
    (assemble capacity (.ofList text)).result =
      verdict capacity ((pieces text).map Line.read) := by
  rw [result_assemble, readSource, String.toList_ofList]
  obtain he | he := pieces_eq_lines_or text
  · rw [he]
  · rw [he, List.map_append]
    exact (verdict_concat_blank _).symm

theorem result_eq_of_read (h : (pieces other).map Line.read = (pieces text).map Line.read) :
    (assemble capacity (.ofList other)).result =
      (assemble capacity (.ofList text)).result.mapError (Error.shift fun _ => 0) := by
  rw [result_assemble_ofList, result_assemble_ofList, h]
  cases verdict capacity ((pieces text).map Line.read) <;> rfl

theorem result_eq_of_insert_blank (hs : (pieces text).map Line.read = above ++ below)
    (ht : (pieces other).map Line.read = above ++ .blank :: below)
    (ha : ∀ n ≤ above.length, inserted n = 0)
    (hb : ∀ n > above.length, n ≤ (above ++ below).length → inserted n = 1) :
    (assemble capacity (.ofList other)).result =
      (assemble capacity (.ofList text)).result.mapError (Error.shift inserted) := by
  have hc : Corresponds (Statement.Renames id Set.univ) (fun n => n + inserted n)
      ((pieces text).map Line.read) ((pieces other).map Line.read) := by
    rw [hs, ht]
    apply corresponds_insert_blank
    · intro n hn
      rw [ha n hn, Nat.add_zero]
    · intro n hn hle
      rw [hb n hn hle]
  rw [result_assemble_ofList, result_assemble_ofList, hc.verdict_eq (Set.injOn_id _)]
  congr 1
  funext error
  rw [Error.carry, Error.shift, Cause.rename_id]

theorem result_append_newline (text : List Char) :
    (assemble capacity (.ofList (text ++ ['\n']))).result =
      (assemble capacity (.ofList text)).result.mapError (Error.shift fun _ => 0) := by
  have ht : (pieces (text ++ ['\n'])).map Line.read = (pieces text).map Line.read ++ [.blank] := by
    rw [pieces_append_newline, List.map_append]
    rfl
  apply result_eq_of_insert_blank (List.append_nil _).symm ht
  · intro n _
    rfl
  · intro n hn hle
    rw [List.append_nil] at hle
    omega

theorem mapError_shift_shift (result : Except Error Memory) (inserted more : Nat → Nat) :
    (result.mapError (Error.shift inserted)).mapError (Error.shift more) =
      result.mapError (Error.shift fun n => inserted n + more (n + inserted n)) := by
  cases result with
  | ok memory => rfl
  | error error =>
    rw [Except.mapError, Except.mapError, Except.mapError, Error.shift, Error.shift, Error.shift,
      Nat.add_assoc]

end Assembly

open Assembly

variable {capacity : Capacity} {inserted : Nat → Nat}

/-- One change of the layout moves errors by the lines that it inserts, and changes nothing else. -/
theorem LayoutEdit.result_eq (h : LayoutEdit text other inserted) :
    (assemble capacity (.ofList other)).result =
      (assemble capacity (.ofList text)).result.mapError (Error.shift inserted) := by
  cases h with
  | @insert _ line above below ht hn hl =>
    have hpieces := pieces_unlines_around (fun _ hp => newline_notMem_of_mem_pieces (ht ▸ hp)) hn
    have hs : (pieces text).map Line.read = above.map Line.read ++ below.map Line.read := by
      rw [ht, List.map_append]
    have hother : (pieces (unlines (above ++ line :: below))).map Line.read =
        above.map Line.read ++ .blank :: below.map Line.read := by
      rw [hpieces, List.map_append, List.map_cons, Line.read_of_blank hl]
    apply result_eq_of_insert_blank hs hother
    · intro n hle
      rw [List.length_map] at hle
      exact if_pos hle
    · intro n hlt _
      rw [List.length_map] at hlt
      exact if_neg (Nat.not_le_of_lt hlt)
  | @comment _ line remark blank above below ht hb hn =>
    have hm (piece : List Char) (hp : piece ∈ above ++ line :: below) : '\n' ∉ piece :=
      newline_notMem_of_mem_pieces (ht ▸ hp)
    have hl : '\n' ∉ line := hm line (List.mem_append_right _ (List.mem_cons_self ..))
    have hsub : (above ++ below).Sublist (above ++ line :: below) :=
      (List.sublist_cons_self line below).append_left above
    have hnew : '\n' ∉ line ++ blank :: '/' :: '/' :: remark := by
      simp only [List.mem_append, List.mem_cons, not_or] at hn ⊢
      exact ⟨hl, hn.1, by decide, by decide, hn.2⟩
    have hnone : words (stripComment ('/' :: '/' :: remark)) = [] := words_nil
    apply result_eq_of_read
    rw [ht, pieces_unlines_around (fun piece hp => hm piece (hsub.mem hp)) hnew, List.map_append,
      List.map_append, List.map_cons, List.map_cons, Line.read_append hb hnone]
  | respace head tail hr ho =>
    obtain ⟨above, first, last, below, hl⟩ := exists_pieces_around head tail
    apply result_eq_of_read
    rw [hl _ hr.inLine, hl _ ho.inLine, List.map_append, List.map_append, List.map_cons,
      List.map_cons, Line.read_respace hr ho]
  | returns =>
    apply result_eq_of_read
    exact read_pieces_unlinesReturning (fun _ => newline_notMem_of_mem_pieces) (pieces_ne_nil text)
  | terminate => exact result_append_newline text
  | unterminate =>
    rw [result_append_newline, mapError_shift_shift]
    cases (assemble capacity (.ofList other)).result <;> rfl

theorem Relaid.result_ofList (h : Relaid text other inserted) :
    (assemble capacity (.ofList other)).result =
      (assemble capacity (.ofList text)).result.mapError (Error.shift inserted) := by
  induction h with
  | refl => cases (assemble capacity (.ofList text)).result <;> rfl
  | edit _ he ih => rw [he.result_eq, ih, mapError_shift_shift]

/-- Whatever is done to the layout of a source, it assembles to the same image, or to the same error
further down by as many lines as were put before the one that the error names. -/
theorem Relaid.assembles_alike {source target : String}
    (h : Relaid source.toList target.toList inserted) (capacity : Capacity) :
    (assemble capacity target).result =
      (assemble capacity source).result.mapError (Error.shift inserted) := by
  have hr : (assemble capacity (.ofList target.toList)).result =
      (assemble capacity (.ofList source.toList)).result.mapError (Error.shift inserted) :=
    h.result_ofList
  rwa [String.ofList_toList, String.ofList_toList] at hr

/-- A program whose second line is none. -/
def terse : List Char := ['B', 'R', 'A', ' ', 'a', '\n', 'f', 'o', 'o']

/-- The same program below a title, with a remark, a wide gap and other line ends. -/
def airy : List Char :=
  ['/', '/', 't', '\r', '\n', 'B', 'R', 'A', '\t', ' ', 'a', ' ', '/', '/', 'b', '\r', '\n',
    'f', 'o', 'o', '\n']

theorem relaid_airy : ∃ inserted, Relaid terse airy inserted ∧ inserted 2 = 1 ∧
    (assemble .wrapping (.ofList terse)).result = .error ⟨.invalidOpcode, 2⟩ ∧
    (assemble .wrapping (.ofList airy)).result = .error ⟨.invalidOpcode, 3⟩ := by
  have htitle := @LayoutEdit.insert terse ['/', '/', 't'] [] (pieces terse) rfl (by decide)
    (by decide)
  have hremark := @LayoutEdit.comment (unlines (['/', '/', 't'] :: pieces terse))
    ['B', 'R', 'A', ' ', 'a'] ['b'] ' ' [['/', '/', 't']] [['f', 'o', 'o']] (by decide +kernel)
    (by decide) (by decide)
  have hgap := LayoutEdit.respace ['/', '/', 't', '\n', 'B', 'R', 'A']
    ['a', ' ', '/', '/', 'b', '\n', 'f', 'o', 'o']
    (⟨by decide, List.all_eq_true.1 (by decide), by decide⟩ : Gap [' '])
    (⟨by decide, List.all_eq_true.1 (by decide), by decide⟩ : Gap ['\t', ' '])
  have h := ((((Relaid.refl.edit htitle).edit hremark).edit hgap).edit (.returns _)).edit
    (.terminate _)
  have hplain : (assemble .wrapping (.ofList terse)).result = .error ⟨.invalidOpcode, 2⟩ := by
    rw [assemble, String.toList_ofList]
    decide +kernel
  have hairy : Relaid (String.ofList terse).toList (String.ofList airy).toList
      fun n => 0 + (if n + 0 ≤ 0 then 0 else 1) + 0 + 0 + 0 + 0 := by
    rw [String.toList_ofList, String.toList_ofList]
    exact h
  have hr := hairy.assembles_alike .wrapping
  rw [hplain] at hr
  exact ⟨_, h, rfl, hplain, hr⟩

end LittleMan
