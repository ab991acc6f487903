import LittleMan.Proofs.Assembly.Rewording
import LittleMan.Proofs.Assembly.Spacing

/-! The grammar of a line: a mnemonic, a label before it and an operand after it, which may both be
missing, and whatever else comes after them. -/

namespace LittleMan

def commentMarker : List Char := ['/', '/']

/-- The part of a line before its first comment marker, or all of it. -/
inductive Uncommented (line : List Char) : List Char → Prop
  | whole (h : ¬ commentMarker <:+: line) : Uncommented line line
  | cut {before after : List Char} (h : before ++ (commentMarker ++ after) = line)
      (hf : ∀ other rest, other ++ (commentMarker ++ rest) = line →
        before.length ≤ other.length) : Uncommented line before

/-- The maximal runs of characters that are not blank, in order. -/
inductive Runs : List Char → List (List Char) → Prop
  | blank {line : List Char} (h : ∀ c ∈ line, isBlank c = true) : Runs line []
  | run {line gap word rest : List Char} {more : List (List Char)} (h : Opens line gap word rest)
      (hr : Runs rest more) : Runs line (word :: more)

/-- A word that can stand in a line, where a comment marker would cut it. -/
structure IsToken (word : List Char) : Prop extends IsWord word where
  noMarker : ¬ commentMarker <:+: word

def IsMnemonic (word : List Char) : Prop := ∃ mnemonic : Mnemonic, mnemonic.name.toList = word

/-- What a line is, by the runs before its comment. -/
structure Line.OfRuns (runs : List (List Char)) (line : Line) : Prop where
  blank : line = .blank ↔ runs = []
  plain : ∀ mnemonic operand, line = .statement ⟨none, mnemonic, operand⟩ ↔
    ∃ rest, runs = mnemonic.name.toList :: rest ∧ rest.head?.map String.ofList = operand
  labelled : ∀ label mnemonic operand, line = .statement ⟨some label, mnemonic, operand⟩ ↔
    ¬ IsMnemonic label.toList ∧ ∃ rest, runs = label.toList :: mnemonic.name.toList :: rest ∧
      rest.head?.map String.ofList = operand
  unrecognized : line = .unrecognized ↔ ∃ first rest, runs = first :: rest ∧
    ¬ IsMnemonic first ∧ ∀ second ∈ rest.head?, ¬ IsMnemonic second

/-- The label and the operand of a statement can be read from a line. -/
structure Statement.Writable (s : Statement) : Prop where
  label : ∀ label ∈ s.label, IsToken label.toList ∧ ¬ IsMnemonic label.toList
  operand : ∀ operand ∈ s.operand, IsToken operand.toList

/-- A line with a statement on it, given what separates its label and its operand from its
mnemonic. -/
def Statement.rendered (s : Statement) (gap gap' : List Char) : List Char :=
  s.label.elim [] (fun label => label.toList ++ gap) ++
    (s.mnemonic.name.toList ++ s.operand.elim [] fun operand => gap' ++ operand.toList)

variable {line part other word before after run : List Char}
  {runs : List (List Char)} {spelling : List String} {s : Statement}
  {label operand : Option String} {mnemonic : Mnemonic}

theorem marker_occurs (h : before ++ (commentMarker ++ after) = line) : commentMarker <:+: line :=
  ⟨before, after, by rw [List.append_assoc, h]⟩

theorem uncommented_stripComment (line : List Char) : Uncommented line (stripComment line) := by
  induction line using stripComment.induct with
  | case1 =>
    apply Uncommented.whole
    intro h
    cases List.infix_nil.1 h
  | case2 after => exact .cut rfl fun _ _ _ => Nat.zero_le _
  | case3 c line hc ih =>
    have hs : stripComment (c :: line) = c :: stripComment line := by
      rw [stripComment]
      exact hc
    rw [hs]
    generalize stripComment line = part at ih
    cases ih with
    | whole h =>
      apply Uncommented.whole
      intro hx
      -- A marker begins at the head of the line, where none can stand, or it lies behind it.
      rcases List.infix_cons_iff.1 hx with hp | hi
      · obtain ⟨rest, hr⟩ := hp
        cases hr
        exact hc rest rfl rfl
      · exact h hi
    | cut h hf =>
      apply Uncommented.cut (congrArg (c :: ·) h)
      intro other rest ho
      cases other with
      | nil =>
        cases ho
        exact absurd rfl (hc rest rfl)
      | cons d other => exact Nat.succ_le_succ (hf other rest (List.cons.inj ho).2)

theorem Uncommented.unique (h : Uncommented line part) (h' : Uncommented line other) :
    part = other := by
  cases h with
  | whole hn =>
    cases h' with
    | whole => rfl
    | cut he => exact absurd (marker_occurs he) hn
  | cut he hf =>
    cases h' with
    | whole hn => exact absurd (marker_occurs he) hn
    | cut he' hf' =>
      have hl := Nat.le_antisymm (hf _ _ he') (hf' _ _ he)
      exact List.append_inj_left (he.trans he'.symm) hl

theorem uncommented_iff : Uncommented line part ↔ stripComment line = part := by
  apply Iff.intro
  · intro h
    exact (uncommented_stripComment line).unique h
  · rintro rfl
    exact uncommented_stripComment line

theorem Uncommented.noMarker (h : Uncommented line part) : ¬ commentMarker <:+: part := by
  cases h with
  | whole hn => exact hn
  | @cut _ after he hf =>
    intro hx
    obtain ⟨other, rest, hr⟩ := hx
    have hle := hf other (rest ++ (commentMarker ++ after)) (by
      rw [← he, ← hr, List.append_assoc, List.append_assoc])
    have hl := congrArg List.length hr
    have hm : commentMarker.length = 2 := rfl
    rw [List.length_append, List.length_append] at hl
    omega

theorem runs_iff : Runs line runs ↔ words line = runs := by
  apply Iff.intro
  · intro h
    induction h with
    | blank h => exact words_of_blank h
    | run h _ ih => rw [h.words_eq, ih]
  · intro h
    induction runs generalizing line with
    | nil =>
      rcases blank_or_opens line with hb | ho
      · exact .blank hb
      · obtain ⟨gap, word, rest, ho⟩ := ho
        cases ho.words_eq.symm.trans h
    | cons word more ih =>
      -- The first run opens the line, and the other ones are the runs of the rest.
      have hne : words line ≠ [] := h ▸ List.cons_ne_nil _ _
      obtain ⟨gap, first, rest, ho⟩ := exists_opens hne
      obtain ⟨rfl, hr⟩ := List.cons.inj (ho.words_eq.symm.trans h)
      exact .run ho (ih hr)

theorem Runs.of_mem (h : Runs line runs) (hm : word ∈ runs) : IsWord word ∧ word <:+: line := by
  induction h with
  | blank => cases hm
  | @run line gap first rest more ho _ ih =>
    rcases List.mem_cons.1 hm with rfl | hm
    · exact ⟨ho.word, gap, rest, by rw [ho.eq, List.append_assoc]⟩
    · obtain ⟨hw, hi⟩ := ih hm
      apply And.intro hw
      rw [ho.eq, ← List.append_assoc]
      exact hi.trans (List.suffix_append _ _).isInfix

theorem isToken_of_mem (hu : Uncommented line part) (hr : Runs part runs) (hm : word ∈ runs) :
    IsToken word := by
  obtain ⟨hw, hi⟩ := hr.of_mem hm
  exact ⟨hw, fun hx => hu.noMarker (hx.trans hi)⟩

theorem ofName?_ofList_eq_none_iff :
    Mnemonic.ofName? (.ofList word) = none ↔ ¬ IsMnemonic word := by
  apply Iff.intro
  · intro h hx
    obtain ⟨mnemonic, rfl⟩ := hx
    rw [String.ofList_toList, Mnemonic.ofName?_eq_some_iff.2 rfl] at h
    cases h
  · intro hn
    cases hm : Mnemonic.ofName? (.ofList word) with
    | none => rfl
    | some mnemonic =>
      have hname := Mnemonic.ofName?_eq_some_iff.1 hm
      exact absurd ⟨mnemonic, by rw [hname, String.toList_ofList]⟩ hn

theorem ofName?_ofList_eq_some_iff :
    Mnemonic.ofName? (.ofList word) = some mnemonic ↔ word = mnemonic.name.toList := by
  rw [Mnemonic.ofName?_eq_some_iff, ← String.toList_inj, String.toList_ofList, eq_comm]

namespace Line

theorem ofTokens_take (spelling : List String) :
    ofTokens (spelling.take 3) = ofTokens spelling := by
  obtain _ | ⟨first, _ | ⟨second, _ | ⟨third, rest⟩⟩⟩ := spelling
  · rfl
  · rfl
  · rfl
  · rfl

theorem read_eq_ofTokens (line : List Char) :
    read line = ofTokens ((words (stripComment line)).map String.ofList) := by
  rw [read, tokens, List.map_take, ofTokens_take]

theorem ofTokens_eq_blank_iff : ofTokens spelling = .blank ↔ spelling = [] := by
  apply Iff.intro
  · intro h
    unfold ofTokens at h
    split at h
    · rfl
    · split at h
      · cases h
      · split at h
        · cases h
        · split at h <;> cases h
  · rintro rfl
    rfl

theorem ofTokens_eq_unrecognized_iff :
    ofTokens spelling = .unrecognized ↔ ∃ first rest, spelling = first :: rest ∧
      Mnemonic.ofName? first = none ∧ ∀ second ∈ rest.head?, Mnemonic.ofName? second = none := by
  apply Iff.intro
  · intro h
    unfold ofTokens at h
    split at h
    · cases h
    · next first rest =>
      split at h
      · cases h
      · next hf =>
        refine ⟨first, rest, rfl, hf, ?_⟩
        intro second hs
        split at h
        · cases hs
        · split at h
          · cases h
          · next hn =>
            cases hs
            exact hn
  · intro h
    obtain ⟨first, rest, rfl, hf, hs⟩ := h
    cases rest with
    | nil => simp only [ofTokens, hf]
    | cons second rest => simp only [ofTokens, hf, hs second rfl]

end Line

theorem spells_plain_iff :
    (⟨none, mnemonic, operand⟩ : Statement).Spells (runs.map String.ofList) ↔
      ∃ rest, runs = mnemonic.name.toList :: rest ∧ rest.head?.map String.ofList = operand := by
  apply Iff.intro
  · intro h
    generalize hs : runs.map String.ofList = spelling at h
    cases h with
    | plain rest hm =>
      obtain ⟨word, more, rfl, rfl, rfl⟩ := List.map_eq_cons_iff.1 hs
      rw [ofName?_ofList_eq_some_iff.1 hm]
      exact ⟨more, rfl, List.head?_map.symm⟩
  · intro h
    obtain ⟨rest, rfl, rfl⟩ := h
    rw [← List.head?_map]
    exact .plain _ (ofName?_ofList_eq_some_iff.2 rfl)

theorem spells_labelled_iff {label : String} :
    (⟨some label, mnemonic, operand⟩ : Statement).Spells (runs.map String.ofList) ↔
      ¬ IsMnemonic label.toList ∧ ∃ rest, runs = label.toList :: mnemonic.name.toList :: rest ∧
        rest.head?.map String.ofList = operand := by
  apply Iff.intro
  · intro h
    generalize hs : runs.map String.ofList = spelling at h
    cases h with
    | labelled rest hl hm =>
      obtain ⟨first, others, rfl, rfl, ho⟩ := List.map_eq_cons_iff.1 hs
      obtain ⟨word, more, rfl, rfl, rfl⟩ := List.map_eq_cons_iff.1 ho
      rw [ofName?_ofList_eq_some_iff.1 hm, String.toList_ofList]
      exact ⟨ofName?_ofList_eq_none_iff.1 hl, more, rfl, List.head?_map.symm⟩
  · intro h
    obtain ⟨hl, rest, rfl, rfl⟩ := h
    rw [← List.head?_map, List.map_cons, String.ofList_toList]
    rw [← ofName?_ofList_eq_none_iff, String.ofList_toList] at hl
    exact .labelled _ hl (ofName?_ofList_eq_some_iff.2 rfl)

theorem ofRuns_ofTokens (runs : List (List Char)) :
    (Line.ofTokens (runs.map String.ofList)).OfRuns runs where
  blank := by rw [Line.ofTokens_eq_blank_iff, List.map_eq_nil_iff]
  plain mnemonic operand := by rw [Line.ofTokens_eq_statement_iff, spells_plain_iff]
  labelled label mnemonic operand := by rw [Line.ofTokens_eq_statement_iff, spells_labelled_iff]
  unrecognized := by
    rw [Line.ofTokens_eq_unrecognized_iff]
    apply Iff.intro
    · intro h
      obtain ⟨first, rest, hs, hf, hr⟩ := h
      obtain ⟨word, more, rfl, rfl, rfl⟩ := List.map_eq_cons_iff.1 hs
      refine ⟨word, more, rfl, ofName?_ofList_eq_none_iff.1 hf, ?_⟩
      intro second hm
      apply ofName?_ofList_eq_none_iff.1
      apply hr
      rw [List.head?_map, hm]
      rfl
    · intro h
      obtain ⟨first, rest, rfl, hf, hr⟩ := h
      refine ⟨_, _, rfl, ofName?_ofList_eq_none_iff.2 hf, ?_⟩
      intro second hm
      rw [List.head?_map] at hm
      obtain ⟨word, hw, rfl⟩ := Option.map_eq_some_iff.1 hm
      exact ofName?_ofList_eq_none_iff.2 (hr word hw)

theorem Line.OfRuns.writable {line : Line} (h : line.OfRuns runs) (hs : line = .statement s)
    (ht : ∀ word ∈ runs, IsToken word) : s.Writable := by
  have hh {rest : List (List Char)} (hr : ∀ word ∈ rest, IsToken word) :
      ∀ operand ∈ rest.head?.map String.ofList, IsToken operand.toList := by
    intro operand hm
    obtain ⟨word, hw, rfl⟩ := Option.map_eq_some_iff.1 hm
    rw [String.toList_ofList]
    exact hr word (List.mem_of_head? hw)
  obtain ⟨_ | label, mnemonic, operand⟩ := s
  · obtain ⟨rest, rfl, rfl⟩ := (h.plain _ _).1 hs
    refine ⟨?_, hh (List.forall_mem_cons.1 ht).2⟩
    intro label hl
    cases hl
  · obtain ⟨hn, rest, rfl, rfl⟩ := (h.labelled _ _ _).1 hs
    obtain ⟨hlabel, hrest⟩ := List.forall_mem_cons.1 ht
    refine ⟨?_, hh (List.forall_mem_cons.1 hrest).2⟩
    intro other hl
    cases hl
    exact ⟨hlabel, hn⟩

section Rendering

theorem IsToken.words_stripComment (h : IsToken word) : words (stripComment word) = [word] := by
  rw [uncommented_iff.1 (.whole h.noMarker), h.words_eq]

theorem IsToken.words_append (h : IsToken word) (hr : run ≠ [])
    (hb : ∀ c ∈ run, isBlank c = true) (tail : List Char) :
    words (stripComment (word ++ (run ++ tail))) = word :: words (stripComment tail) := by
  rw [stripComment_append_run (uncommented_iff.1 (.whole h.noMarker)) hr hb, words_append_run hr hb,
    h.words_eq]
  rfl

theorem isToken_name (mnemonic : Mnemonic) : IsToken mnemonic.name.toList := by
  have ha : ∀ mnemonic ∈ Mnemonic.all, (mnemonic.name.toList ≠ [] ∧
      mnemonic.name.toList.all (!isBlank ·) = true) ∧ '/' ∉ mnemonic.name.toList := by
    decide +kernel
  obtain ⟨hw, hs⟩ := ha mnemonic mnemonic.mem_all
  exact ⟨isWord_iff.2 hw, fun hi => hs (hi.subset List.mem_cons_self)⟩

theorem words_rendered {gap gap' : List Char} (hg : gap ≠ []) (hb : ∀ c ∈ gap, isBlank c = true)
    (hg' : gap' ≠ []) (hb' : ∀ c ∈ gap', isBlank c = true) (hs : s.Writable) :
    (words (stripComment (s.rendered gap gap'))).map String.ofList =
      s.label.toList ++ s.mnemonic.name :: s.operand.toList := by
  obtain ⟨label, mnemonic, operand⟩ := s
  have hm : (words (stripComment (mnemonic.name.toList ++
      operand.elim [] fun operand => gap' ++ operand.toList))).map String.ofList =
        mnemonic.name :: operand.toList := by
    cases operand with
    | none =>
      rw [Option.elim_none, List.append_nil, (isToken_name mnemonic).words_stripComment,
        List.map_singleton, String.ofList_toList]
      rfl
    | some operand =>
      rw [Option.elim_some, (isToken_name mnemonic).words_append hg' hb',
        (hs.operand operand rfl).words_stripComment, List.map_cons, List.map_singleton,
        String.ofList_toList, String.ofList_toList]
      rfl
  cases label with
  | none => exact hm
  | some label =>
    rw [Statement.rendered, Option.elim_some, List.append_assoc,
      (hs.label label rfl).1.words_append hg hb, List.map_cons, hm, String.ofList_toList]
    rfl

theorem read_rendered {gap gap' : List Char} (hg : gap ≠ []) (hb : ∀ c ∈ gap, isBlank c = true)
    (hg' : gap' ≠ []) (hb' : ∀ c ∈ gap', isBlank c = true) (hs : s.Writable) :
    Line.read (s.rendered gap gap') = .statement s := by
  rw [Line.read_eq_ofTokens, words_rendered hg hb hg' hb' hs, Line.ofTokens_eq_statement_iff]
  obtain ⟨label, mnemonic, operand⟩ := s
  have hm : Mnemonic.ofName? mnemonic.name = some mnemonic := Mnemonic.ofName?_eq_some_iff.2 rfl
  have ho : operand = operand.toList.head? := Option.head?_toList.symm
  cases label with
  | none =>
    have hp := Statement.Spells.plain operand.toList hm
    rwa [← ho] at hp
  | some label =>
    have hl := ofName?_ofList_eq_none_iff.2 (hs.label label rfl).2
    rw [String.ofList_toList] at hl
    have hp := Statement.Spells.labelled operand.toList hl hm
    rwa [← ho] at hp

end Rendering

/-- A line is read by the runs before its comment, of which only the first three count. A statement
on it has tokens for its label and its operand, and it can be read back from any line that gives it
these, with a comment or without. -/
theorem Line.read_grammar :
    (∀ line, ∃! part, Uncommented line part) ∧ (∀ part, ∃! runs, Runs part runs) ∧
    (∀ line part runs, Uncommented line part → Runs part runs →
      (Line.read line).OfRuns runs ∧
      (∀ s, Line.read line = .statement s → s.Writable) ∧
      ∀ other otherPart otherRuns, Uncommented other otherPart → Runs otherPart otherRuns →
        otherRuns.take 3 = runs.take 3 → Line.read other = Line.read line) ∧
    ∀ (s : Statement) (gap gap' : List Char), gap ≠ [] → (∀ c ∈ gap, isBlank c = true) →
      gap' ≠ [] → (∀ c ∈ gap', isBlank c = true) → s.Writable →
      Line.read (s.rendered gap gap') = .statement s ∧
      ∀ blank remark, isBlank blank = true →
        Line.read (s.rendered gap gap' ++ blank :: (commentMarker ++ remark)) = .statement s := by
  refine ⟨?_, ?_, ?_, ?_⟩
  · intro line
    exact ⟨_, uncommented_stripComment line, fun _ h => (uncommented_iff.1 h).symm⟩
  · intro part
    exact ⟨_, runs_iff.2 rfl, fun _ h => (runs_iff.1 h).symm⟩
  · intro line part runs hu hr
    obtain rfl := uncommented_iff.1 hu
    obtain rfl := runs_iff.1 hr
    have hc : (Line.read line).OfRuns (words (stripComment line)) := by
      rw [Line.read_eq_ofTokens]
      exact ofRuns_ofTokens _
    refine ⟨hc, fun s hs => hc.writable hs fun _ => isToken_of_mem hu hr, ?_⟩
    intro other otherPart otherRuns hu' hr' ht
    obtain rfl := uncommented_iff.1 hu'
    obtain rfl := runs_iff.1 hr'
    rw [Line.read, Line.read, tokens, tokens, ht]
  · intro s gap gap' hg hb hg' hb' hs
    have hr := read_rendered hg hb hg' hb' hs
    apply And.intro hr
    intro blank remark hblank
    have hn : words (stripComment (commentMarker ++ remark)) = [] := words_nil
    rw [Line.read_append hblank hn, hr]

def slashed : Statement := ⟨some "x/", .op .lda, some "LDA/y"⟩

/-- Single slashes belong to their tokens, and of three slashes the first two begin the comment. -/
theorem slashed_read :
    Line.read ['x', '/', ' ', 'L', 'D', 'A', '\t', 'L', 'D', 'A', '/', 'y', ' ', '/', '/', '/'] =
        .statement slashed ∧
      Line.read ['/', '/', '/', ' ', 'H', 'L', 'T'] = .blank := by
  have hs : slashed.Writable := by
    refine ⟨?_, ?_⟩
    · intro label hl
      cases hl
      exact ⟨⟨isWord_iff.2 (by decide), by decide⟩, ofName?_ofList_eq_none_iff.1 (by decide)⟩
    · intro operand ho
      cases ho
      exact ⟨isWord_iff.2 (by decide), by decide⟩
  obtain ⟨-, -, hr, hw⟩ := Line.read_grammar
  have hb {c : Char} (hc : isBlank c = true) : ∀ d ∈ [c], isBlank d = true :=
    List.forall_mem_singleton.2 hc
  obtain ⟨-, hc⟩ := hw slashed _ _ (List.cons_ne_nil ' ' []) (hb (by decide))
    (List.cons_ne_nil '\t' []) (hb (by decide)) hs
  obtain ⟨ho, -⟩ := hr _ _ _ (uncommented_iff.2 rfl) (runs_iff.2 rfl)
  exact ⟨hc ' ' ['/'] (by decide), ho.blank.2 rfl⟩

end LittleMan
