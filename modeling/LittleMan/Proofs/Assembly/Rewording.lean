import LittleMan.Proofs.Words
import LittleMan.Proofs.Assembly.Program

/-! Lines with one word replaced: which statement they hold then. -/

namespace LittleMan

/-- Where the operand of a statement stands among the words of its line. -/
def Statement.operandPlace (statement : Statement) : Nat :=
  if statement.label.isSome then 2 else 1

/-- The words of a line with a statement on it. -/
inductive Statement.Spells : List String → Statement → Prop
  | plain {name : String} {mnemonic : Mnemonic} (rest : List String)
      (hm : Mnemonic.ofName? name = some mnemonic) :
      Spells (name :: rest) ⟨none, mnemonic, rest.head?⟩
  | labelled {label name : String} {mnemonic : Mnemonic} (rest : List String)
      (hl : Mnemonic.ofName? label = none) (hm : Mnemonic.ofName? name = some mnemonic) :
      Spells (label :: name :: rest) ⟨some label, mnemonic, rest.head?⟩

/-- A line with the word at a place, counted from zero, replaced. Its comment stays. -/
def rewordLine (k : Nat) (new line : List Char) : List Char :=
  replaceWord k new (stripComment line) ++ line.drop (stripComment line).length

variable {s : Statement} {spelling : List String} {old token : String} {line new : List Char}
  {c : Char} {k : Nat}

theorem Line.ofTokens_eq_statement_iff :
    Line.ofTokens spelling = .statement s ↔ s.Spells spelling := by
  apply Iff.intro
  · intro h
    unfold Line.ofTokens at h
    split at h
    · cases h
    · next first rest =>
      split at h
      · next hm =>
        cases h
        exact .plain rest hm
      · next hl =>
        split at h
        · cases h
        · next second rest =>
          split at h
          · next hm =>
            cases h
            exact .labelled rest hl hm
          · cases h
  · intro h
    cases h with
    | plain rest hm => simp only [Line.ofTokens, hm]
    | labelled rest hl hm => simp only [Line.ofTokens, hl, hm]

namespace Statement.Spells

theorem operandPlace_lt (h : s.Spells spelling) (ho : s.operand = some old) :
    s.operandPlace < spelling.length := by
  cases h with
  | plain rest =>
    obtain ⟨more, rfl⟩ := List.head?_eq_some_iff.1 ho
    exact Nat.succ_lt_succ (Nat.zero_lt_succ _)
  | labelled rest =>
    obtain ⟨more, rfl⟩ := List.head?_eq_some_iff.1 ho
    exact Nat.succ_lt_succ (Nat.succ_lt_succ (Nat.zero_lt_succ _))

theorem set_operand (h : s.Spells spelling) (ho : s.operand = some old) (token : String) :
    { s with operand := some token }.Spells (spelling.set s.operandPlace token) := by
  cases h with
  | plain rest hm =>
    obtain ⟨more, rfl⟩ := List.head?_eq_some_iff.1 ho
    exact .plain (token :: more) hm
  | labelled rest hl hm =>
    obtain ⟨more, rfl⟩ := List.head?_eq_some_iff.1 ho
    exact .labelled (token :: more) hl hm

theorem set_label (h : s.Spells spelling) (hl : s.label = some old)
    (ht : Mnemonic.ofName? token = none) :
    { s with label := some token }.Spells (spelling.set 0 token) := by
  cases h with
  | plain => cases hl
  | labelled rest _ hm => exact .labelled rest ht hm

theorem length_pos (h : s.Spells spelling) : 0 < spelling.length := by
  cases h <;> exact Nat.zero_lt_succ _

end Statement.Spells

theorem stripComment_append_drop (line : List Char) :
    stripComment line ++ line.drop (stripComment line).length = line := by
  induction line using stripComment.induct with
  | case1 => rfl
  | case2 => rfl
  | case3 c line hc ih =>
    rw [stripComment]
    · exact congrArg (c :: ·) ih
    · exact hc

theorem tokens_rewordLine (hk : k < (tokens (stripComment line)).length) (hn : IsWord new)
    (hs : '/' ∉ new) :
    tokens (stripComment (rewordLine k new line)) =
      (tokens (stripComment line)).set k (.ofList new) := by
  rw [tokens, List.length_map, List.length_take] at hk
  have hlt := Nat.lt_of_lt_of_le hk (Nat.min_le_right 3 _)
  rw [rewordLine, stripComment_replaceWord hlt hs, tokens, words_replaceWord hlt hn, List.take_set,
    List.map_set]
  · rfl
  · rw [stripComment_append_drop]

theorem mem_rewordLine (h : c ∈ rewordLine k new line) : c ∈ line ∨ c ∈ new := by
  have hl : c ∈ stripComment line → c ∈ line := by
    intro hm
    rw [← stripComment_append_drop line]
    exact List.mem_append_left _ hm
  obtain h | h := List.mem_append.1 h
  · exact (mem_replaceWord h).imp_left hl
  · exact .inl (List.mem_of_mem_drop h)

theorem newline_notMem_rewordLine (hl : '\n' ∉ line) (hn : IsWord new) :
    '\n' ∉ rewordLine k new line := by
  intro h
  obtain h | h := mem_rewordLine h
  · exact hl h
  · have hb := hn.notBlank '\n' h
    revert hb
    decide

namespace Line

/-- The operand of a statement may be replaced within its line by any word without a slash. -/
theorem read_rewordLine_operand (h : read line = .statement s) (ho : s.operand = some old)
    (hn : IsWord new) (hs : '/' ∉ new) :
    read (rewordLine s.operandPlace new line) =
      .statement { s with operand := some (.ofList new) } := by
  have hsp := ofTokens_eq_statement_iff.1 h
  rw [read, tokens_rewordLine (hsp.operandPlace_lt ho) hn hs]
  exact ofTokens_eq_statement_iff.2 (hsp.set_operand ho _)

/-- The label of a statement may be replaced if the new one is no mnemonic. -/
theorem read_rewordLine_label (h : read line = .statement s) (hl : s.label = some old)
    (hn : IsWord new) (hs : '/' ∉ new) (hm : Mnemonic.ofName? (.ofList new) = none) :
    read (rewordLine 0 new line) = .statement { s with label := some (.ofList new) } := by
  have hsp := ofTokens_eq_statement_iff.1 h
  rw [read, tokens_rewordLine hsp.length_pos hn hs]
  exact ofTokens_eq_statement_iff.2 (hsp.set_label hl hm)

end Line

end LittleMan
