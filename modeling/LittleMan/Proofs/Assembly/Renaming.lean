import LittleMan.Proofs.Assembly.Correspondence
import LittleMan.Proofs.Assembly.Fitting
import LittleMan.Proofs.Assembly.Rewording
import LittleMan.Proofs.Lines

/-! Other names for the labels of a source. They change nothing but the label that an error
names. -/

namespace LittleMan

/-- A name that any label may have: a word outside comments which neither is a mnemonic nor gives an
address by its number. -/
structure IsName (name : String) : Prop where
  word : IsWord name.toList
  noSlash : '/' ∉ name.toList
  noMnemonic : Mnemonic.ofName? name = none
  noAddress : tokenAddress? name = none

/-- The label of a statement and the one that it uses. -/
def Statement.names (s : Statement) : List String := s.label.toList ++ s.use?.toList

/-- A statement with the label that it defines and the one that it uses renamed. -/
def Statement.rename (r : String → String) (s : Statement) : Statement :=
  { s with label := s.label.map r, operand := (s.use?.map r).or s.operand }

/-- The line of a statement with the label that it defines renamed. -/
def Statement.renameDefined (r : String → String) (s : Statement) (line : List Char) : List Char :=
  s.label.elim line fun label => rewordLine 0 (r label).toList line

/-- The line of a statement with the label that it uses renamed. -/
def Statement.renameUsed (r : String → String) (s : Statement) (line : List Char) : List Char :=
  s.use?.elim line fun label => rewordLine s.operandPlace (r label).toList line

def renameLine (r : String → String) (line : List Char) : List Char :=
  match Line.read line with
  | .statement s => s.renameDefined r (s.renameUsed r line)
  | _ => line

/-- A source with its labels renamed, wherever they are defined or used. All else stays, numbers and
the operands of data included. -/
def renameSource (r : String → String) (source : String) : String :=
  .ofList (unlines ((pieces source.toList).map (renameLine r)))

variable {r : String → String} {s : Statement} {name label : String} {line : List Char}

instance (name : String) : Decidable (IsName name) :=
  decidable_of_iff ((name.toList ≠ [] ∧ name.toList.all (!isBlank ·) = true) ∧
      '/' ∉ name.toList ∧ Mnemonic.ofName? name = none ∧ tokenAddress? name = none)
    ⟨fun h => ⟨isWord_iff.2 h.1, h.2.1, h.2.2.1, h.2.2.2⟩,
      fun h => ⟨isWord_iff.1 h.word, h.noSlash, h.noMnemonic, h.noAddress⟩⟩

namespace Statement

theorem label_mem_names (h : s.label = some label) : label ∈ s.names := by
  rw [names, h]
  exact List.mem_append_left _ (List.mem_singleton_self label)

theorem use_mem_names (h : s.use? = some label) : label ∈ s.names := by
  rw [names, h]
  exact List.mem_append_right _ (List.mem_singleton_self label)

/-- Neither the word of a statement nor what it refers to depends on the names of labels. -/
theorem renames_rename (hn : ∀ label ∈ s.names, IsName (r label)) {names : Set String}
    (hs : ∀ label ∈ s.names, label ∈ names) : s.Renames r names (s.rename r) := by
  have hdefined : ∀ label ∈ s.label, label ∈ names := fun label hl => hs label (label_mem_names hl)
  have hused : ∀ label ∈ s.reference?, label ∈ names := by
    intro label hu
    rw [reference?_eq_use?] at hu
    exact hs label (use_mem_names hu)
  cases hu : s.use? with
  | none =>
    have he : s.rename r = { s with label := s.label.map r } := by
      rw [rename, hu]
      rfl
    rw [he]
    refine ⟨⟨rfl, hdefined⟩, rfl, ?_, hused⟩
    rw [reference?_eq_use?, reference?_eq_use?, hu]
    exact hu
  | some label =>
    obtain ⟨⟨operation, hop⟩, ho, ha⟩ := Assembly.use?_eq_some_iff.1 hu
    have hnew := (hn label (use_mem_names hu)).noAddress
    have he : (s.rename r).operand = some (r label) := by
      rw [rename, hu]
      rfl
    refine ⟨⟨rfl, hdefined⟩, ?_, ?_, hused⟩
    · rw [Assembly.word_of_label hop ho ha]
      exact Assembly.word_of_label hop he hnew
    · rw [reference?_eq_use?, reference?_eq_use?, hu]
      exact Assembly.use?_of_label hop he hnew

theorem read_renameUsed (hn : ∀ label ∈ s.use?, IsName (r label))
    (h : Line.read line = .statement s) :
    Line.read (s.renameUsed r line) =
      .statement { s with operand := (s.use?.map r).or s.operand } := by
  cases hu : s.use? with
  | none =>
    have he : s.renameUsed r line = line := by rw [renameUsed, hu]; rfl
    rw [he, h, Option.map_none, Option.none_or]
  | some label =>
    obtain ⟨-, ho, -⟩ := Assembly.use?_eq_some_iff.1 hu
    have hname := hn label hu
    have he : s.renameUsed r line = rewordLine s.operandPlace (r label).toList line := by
      rw [renameUsed, hu]
      rfl
    rw [he, Line.read_rewordLine_operand h ho hname.word hname.noSlash, String.ofList_toList,
      Option.map_some, Option.some_or]

theorem read_renameDefined (hn : ∀ label ∈ s.label, IsName (r label))
    (h : Line.read line = .statement s) :
    Line.read (s.renameDefined r line) = .statement { s with label := s.label.map r } := by
  cases hl : s.label with
  | none =>
    have he : s.renameDefined r line = line := by rw [renameDefined, hl]; rfl
    rw [he, h, Option.map_none, ← hl]
  | some label =>
    have hname := hn label hl
    have he : s.renameDefined r line = rewordLine 0 (r label).toList line := by
      rw [renameDefined, hl]
      rfl
    have hm := hname.noMnemonic
    rw [← @String.ofList_toList (r label)] at hm
    rw [he, Line.read_rewordLine_label h hl hname.word hname.noSlash hm, String.ofList_toList,
      Option.map_some]

end Statement

theorem read_renameLine (hn : ∀ label ∈ s.names, IsName (r label))
    (h : Line.read line = .statement s) :
    Line.read (renameLine r line) = .statement (s.rename r) := by
  have hused := s.read_renameUsed (fun label hu => hn label (Statement.use_mem_names hu)) h
  have he : renameLine r line = s.renameDefined r (s.renameUsed r line) := by rw [renameLine, h]
  rw [he]
  -- Replacing the operand has left the label to be renamed as it was.
  exact @Statement.read_renameDefined r { s with operand := (s.use?.map r).or s.operand } _
    (fun label hl => hn label (Statement.label_mem_names hl)) hused

theorem renameLine_eq_nil_iff
    (hn : ∀ s, Line.read line = .statement s → ∀ label ∈ s.names, IsName (r label)) :
    renameLine r line = [] ↔ line = [] := by
  cases h : Line.read line with
  | statement s =>
    have hr := read_renameLine (hn s h) h
    apply iff_of_false
    · intro he
      rw [he] at hr
      cases hr
    · rintro rfl
      cases h
  | _ => rw [renameLine, h]

theorem newline_notMem_renameLine
    (hn : ∀ s, Line.read line = .statement s → ∀ label ∈ s.names, IsName (r label))
    (hl : '\n' ∉ line) : '\n' ∉ renameLine r line := by
  rw [renameLine]
  split
  · next s h =>
    have hused : '\n' ∉ s.renameUsed r line := by
      rw [Statement.renameUsed]
      cases hu : s.use? with
      | none => exact hl
      | some label =>
        exact newline_notMem_rewordLine hl (hn s h label (Statement.use_mem_names hu)).word
    rw [Statement.renameDefined]
    cases hd : s.label with
    | none => exact hused
    | some label =>
      exact newline_notMem_rewordLine hused (hn s h label (Statement.label_mem_names hd)).word
  · exact hl

namespace Assembly

/-- The names that a program gives to labels. -/
def labelNames (program : List Line) : List String :=
  (statements program).flatMap (·.statement.names)

variable {capacity : Capacity} {program : List Line} {source : String}

theorem names_subset_labelNames (hs : .statement s ∈ program) : s.names ⊆ labelNames program := by
  induction program using List.reverseRecOn with
  | nil => cases hs
  | append_singleton program line ih =>
    rw [labelNames, statements_concat, List.flatMap_append]
    obtain hs | hs := List.mem_append.1 hs
    · exact List.subset_append_of_subset_left _ (ih hs)
    · obtain rfl := List.mem_singleton.1 hs
      apply List.subset_append_of_subset_right
      rw [List.flatMap_singleton]
      exact List.Subset.refl _

theorem names_subset_of_mem_pieces (hl : line ∈ pieces source.toList)
    (h : Line.read line = .statement s) : s.names ⊆ labelNames (readSource source) := by
  have hne : line ≠ [] := by
    rintro rfl
    cases h
  apply names_subset_labelNames
  rw [← h]
  exact List.mem_map_of_mem (mem_lines_of_mem_pieces hl hne)

theorem lines_renameSource (hn : ∀ label ∈ labelNames (readSource source), IsName (r label)) :
    lines (renameSource r source).toList = (lines source.toList).map (renameLine r) := by
  rw [renameSource, String.toList_ofList, lines_unlines]
  · apply trimLast_map
    intro line hl
    exact renameLine_eq_nil_iff fun s h label hm => hn label (names_subset_of_mem_pieces hl h hm)
  · intro piece hp
    obtain ⟨line, hl, rfl⟩ := List.mem_map.1 hp
    apply newline_notMem_renameLine
    · intro s h label hm
      exact hn label (names_subset_of_mem_pieces hl h hm)
    · exact newline_notMem_of_mem_pieces hl
  · exact List.map_eq_nil_iff.not.2 (pieces_ne_nil _)

theorem lift_renameLine (hn : ∀ label ∈ labelNames (readSource source), IsName (r label)) :
    List.Forall₂ (Line.Lift (Statement.Renames r {label | label ∈ labelNames (readSource source)}))
      (readSource source) (readSource (renameSource r source)) := by
  rw [readSource, readSource, lines_renameSource hn, List.map_map, List.forall₂_map_left_iff,
    List.forall₂_map_right_iff, List.forall₂_same]
  intro line hl
  cases h : Line.read line with
  | blank =>
    have he : renameLine r line = line := by rw [renameLine, h]
    rw [Function.comp_apply, he, h]
    exact .blank
  | unrecognized =>
    have he : renameLine r line = line := by rw [renameLine, h]
    rw [Function.comp_apply, he, h]
    exact .unrecognized
  | statement s =>
    have hs := names_subset_of_mem_pieces (mem_pieces_of_mem_lines hl) h
    have hname (label : String) (hm : label ∈ s.names) : IsName (r label) := hn label (hs hm)
    rw [Function.comp_apply, read_renameLine hname h]
    exact .statement (Statement.renames_rename hname fun label hm => hs hm)

/-- Under other names for its labels, which keep different labels apart, a source assembles to the
same image, or to the same error with its label renamed. -/
theorem assemble_renameSource
    (hr : ∀ x ∈ labelNames (readSource source), ∀ y ∈ labelNames (readSource source),
      r x = r y → x = y)
    (hn : ∀ x ∈ labelNames (readSource source), IsName (r x)) (capacity : Capacity) :
    (assemble capacity (renameSource r source)).result =
      (assemble capacity source).result.mapError fun error => ⟨error.cause.rename r, error.line⟩ :=
  (Corresponds.of_forall₂ (lift_renameLine hn)).result_eq hr

/-- Names the label `a` by a number, and `HLT`, which nothing defines, by the name of the other. -/
def disguise (name : String) : String :=
  if name = "a" then "100" else if name = "HLT" then "a" else name

/-- A program that refers to a label `HLT`. Its datum names a label without using it. -/
def named : List Char :=
  ['a', ' ', 'L', 'D', 'A', ' ', 'H', 'L', 'T', ' ', '/', '/', ' ', 'a', '\n', 'b', ' ', 'D',
    'A', 'T', ' ', 'a', '\n', 'B', 'R', 'A', ' ', 'a']

def disguised : List Char :=
  ['1', '0', '0', ' ', 'L', 'D', 'A', ' ', 'a', ' ', '/', '/', ' ', 'a', '\n', 'b', ' ', 'D',
    'A', 'T', ' ', 'a', '\n', 'B', 'R', 'A', ' ', '1', '0', '0']

theorem assemble_renameSource_disguise :
    renameSource disguise (.ofList named) = .ofList disguised ∧
      (assemble .strict (.ofList disguised)).result = .error ⟨.unresolvedLabel "a", 1⟩ := by
  have hl : labelNames (readSource (.ofList named)) = ["a", "HLT", "b", "a"] := by
    rw [readSource, String.toList_ofList]
    decide +kernel
  have he : renameSource disguise (.ofList named) = .ofList disguised := by
    rw [renameSource, String.toList_ofList]
    decide +kernel
  have hs : (assemble .strict (.ofList named)).result = .error ⟨.unresolvedLabel "HLT", 1⟩ := by
    rw [assemble, String.toList_ofList]
    decide +kernel
  have hr : ∀ x ∈ ["a", "HLT", "b", "a"], ∀ y ∈ ["a", "HLT", "b", "a"],
      disguise x = disguise y → x = y := by decide +kernel
  have hn : ∀ x ∈ ["a", "HLT", "b", "a"], IsName (disguise x) := by decide +kernel
  have h := @assemble_renameSource disguise (.ofList named) (hl ▸ hr) (hl ▸ hn) .strict
  rw [he, hs] at h
  exact ⟨he, h⟩

end Assembly

end LittleMan
