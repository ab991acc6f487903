import LittleMan.Proofs.Assembly.Errors
import Mathlib.Data.List.Forall2
import Mathlib.Data.Set.Function

/-! Programs that assemble alike. One goes line by line with the other, whose labels may have other
names and which may have blank lines in between: both give the same image, or the same error at the
line that corresponds. -/

namespace LittleMan

/-- The relation of two lines of one kind, given that of the statements on them. -/
inductive Line.Lift (R : Statement → Statement → Prop) : Line → Line → Prop
  | blank : Lift R .blank .blank
  | unrecognized : Lift R .unrecognized .unrecognized
  | statement {s t : Statement} (h : R s t) : Lift R (.statement s) (.statement t)

/-- A statement defines the label that another one defines, renamed. The names that are renamed
include the label. -/
structure Statement.Defines (r : String → String) (names : Set String) (s t : Statement) :
    Prop where
  label : t.label = s.label.map r
  named : ∀ label ∈ s.label, label ∈ names

/-- A statement is another one but for the names of its labels. -/
structure Statement.Renames (r : String → String) (names : Set String) (s t : Statement) : Prop
    extends Statement.Defines r names s t where
  word : t.word = s.word
  reference : t.reference? = s.reference?.map r
  used : ∀ label ∈ s.reference?, label ∈ names

namespace Assembly

def Cause.rename (r : String → String) : Cause → Cause
  | .invalidOpcode => .invalidOpcode
  | .duplicateLabel label => .duplicateLabel (r label)
  | .unresolvedLabel label => .unresolvedLabel (r label)
  | .programTooLong => .programTooLong

/-- An error with its label renamed, at the line that corresponds to its own. -/
def Error.carry (r : String → String) (g : Nat → Nat) (error : Error) : Error :=
  ⟨error.cause.rename r, g error.line⟩

def Reference.carry (r : String → String) (g : Nat → Nat) (reference : Reference) : Reference :=
  ⟨r reference.label, g reference.line⟩

/-- The lines of a program correspond to lines of another one, and all other lines of that are
blank. The function gives the number of the line that corresponds to one. -/
inductive Corresponds (R : Statement → Statement → Prop) (g : Nat → Nat) :
    List Line → List Line → Prop
  | nil : Corresponds R g [] []
  | insert {program others : List Line} (h : Corresponds R g program others) :
      Corresponds R g program (others ++ [.blank])
  | line {program others : List Line} {line other : Line} (h : Corresponds R g program others)
      (hl : line.Lift R other) (hg : g (program.length + 1) = others.length + 1) :
      Corresponds R g (program ++ [line]) (others ++ [other])

/-- The first problem that a line of a program makes. -/
def firstProblem? (capacity : Capacity) (program : List Line) : Option Error :=
  ((List.range program.length).filterMap (problemAt? capacity program)).head?

/-- How assembling a program ends: with the first problem of a line, or else with what the references
give. -/
def verdict (capacity : Capacity) (program : List Line) : Except Error Memory :=
  (firstProblem? capacity program).elim (drafted program).finish.result .error

variable {capacity : Capacity} {R : Statement → Statement → Prop} {r : String → String}
  {g : Nat → Nat} {names : Set String} {program others more : List Line} {line other : Line}
  {s t : Statement} {draft mirror : Draft}

theorem lift_refl (hR : ∀ s, R s s) (line : Line) : line.Lift R line := by
  cases line with
  | blank => exact .blank
  | unrecognized => exact .unrecognized
  | statement s => exact .statement (hR s)

theorem problemAt?_concat_of_lt {n : Nat} (hn : n < program.length) :
    problemAt? capacity (program ++ [line]) n = problemAt? capacity program n := by
  rw [problemAt?, problemAt?, List.getElem?_append_left hn,
    List.take_append_of_le_length (Nat.le_of_lt hn)]

theorem problemAt?_concat_length :
    problemAt? capacity (program ++ [line]) program.length =
      (drafted program).problem? capacity line := by
  rw [problemAt?, List.getElem?_concat_length, List.take_left]
  rfl

theorem firstProblem?_concat :
    firstProblem? capacity (program ++ [line]) =
      (firstProblem? capacity program).or ((drafted program).problem? capacity line) := by
  have hc : (List.range program.length).filterMap (problemAt? capacity (program ++ [line])) =
      (List.range program.length).filterMap (problemAt? capacity program) := by
    apply List.filterMap_congr
    intro n hn
    exact problemAt?_concat_of_lt (List.mem_range.1 hn)
  rw [firstProblem?, firstProblem?, List.length_append, List.length_singleton, List.range_succ,
    List.filterMap_append, hc, List.head?_append, List.filterMap_cons, problemAt?_concat_length]
  cases (drafted program).problem? capacity line <;> rfl

theorem draftOf_concat (source : List (List Char)) (line : List Char) :
    draftOf capacity (source ++ [line]) =
      draftOf capacity source >>= (Draft.addLine capacity · line) := by
  rw [draftOf, Logged.foldl, List.foldl_append]
  rfl

theorem result_draftOf (capacity : Capacity) (source : List (List Char)) :
    (draftOf capacity source).result =
      (firstProblem? capacity (source.map Line.read)).elim
        (.ok (drafted (source.map Line.read))) .error := by
  induction source using List.reverseRecOn with
  | nil => rfl
  | append_singleton source line ih =>
    rw [draftOf_concat, List.map_append, List.map_singleton, firstProblem?_concat, drafted_concat]
    cases hp : firstProblem? capacity (source.map Line.read) with
    | some error =>
      rw [hp, Option.elim_some] at ih
      rw [Logged.result_bind_of_error ih]
      rfl
    | none =>
      rw [hp, Option.elim_none] at ih
      rw [Logged.result_bind_of_ok ih, Draft.result_addLine]
      rfl

theorem result_assemble (capacity : Capacity) (source : String) :
    (assemble capacity source).result = verdict capacity (readSource source) := by
  have hd := result_draftOf capacity (lines source.toList)
  rw [assemble, Logged.result_reporting, readSource, verdict]
  cases hp : firstProblem? capacity ((lines source.toList).map Line.read) with
  | some error =>
    rw [hp] at hd
    rw [Logged.result_bind_of_error hd]
    rfl
  | none =>
    rw [hp] at hd
    rw [Logged.result_bind_of_ok hd]
    rfl

namespace Draft

/-- A draft has as many words as another one, and the labels of it, renamed. -/
structure Follows (r : String → String) (names : Set String) (draft mirror : Draft) : Prop where
  emitted : mirror.emitted = draft.emitted
  labels : ∀ label ∈ names, mirror.labels.lookup (r label) = draft.labels.lookup label

/-- A draft is another one but for the names of its labels and the numbers of its lines. -/
structure Mirrors (r : String → String) (g : Nat → Nat) (names : Set String)
    (draft mirror : Draft) : Prop extends Follows r names draft mirror where
  memory : mirror.memory = draft.memory
  references : ∀ cell,
    mirror.references.get cell = (draft.references.get cell).map (Reference.carry r g)
  used : ∀ cell, ∀ reference ∈ draft.references.get cell, reference.label ∈ names

theorem Follows.address (h : Follows r names draft mirror) : mirror.address = draft.address :=
  congrArg (Fin.ofNat 100) h.emitted

theorem Follows.clash? (h : Follows r names draft mirror) (hs : s.Defines r names t) :
    mirror.clash? t = (draft.clash? s).map r := by
  rw [Draft.clash?, Draft.clash?, hs.label]
  cases hl : s.label with
  | none => rfl
  | some label =>
    rw [Option.map_some, Option.filter_some, Option.filter_some, h.labels label (hs.named label hl)]
    split <;> rfl

theorem Follows.problem? (h : Follows r names draft mirror)
    (hl : line.Lift (Statement.Defines r names) other) (hg : g (draft.line + 1) = mirror.line + 1) :
    mirror.problem? capacity other = (draft.problem? capacity line).map (Error.carry r g) := by
  cases hl with
  | blank => rfl
  | unrecognized => rw [Draft.problem?, ← hg]; rfl
  | statement hs =>
    rw [Draft.problem?, Draft.problem?, h.emitted, ← hg]
    split
    · rfl
    · rw [h.clash? hs, Option.map_map, Option.map_map]
      rfl

theorem Follows.skip (h : Follows r names draft mirror) :
    Follows r names draft (mirror.add .blank) := ⟨h.emitted, h.labels⟩

theorem Follows.add (hr : Set.InjOn r names) (h : Follows r names draft mirror)
    (hl : line.Lift (Statement.Defines r names) other) :
    Follows r names (draft.add line) (mirror.add other) := by
  cases hl with
  | blank => exact ⟨h.emitted, h.labels⟩
  | unrecognized => exact ⟨h.emitted, h.labels⟩
  | @statement s t hs =>
    refine ⟨congrArg (· + 1) h.emitted, ?_⟩
    intro label hn
    change (mirror.labelsWith t).lookup (r label) = (draft.labelsWith s).lookup label
    rw [lookup_labelsWith, lookup_labelsWith, h.labels label hn, h.address, hs.label]
    cases hl : s.label with
    | none => rfl
    | some first =>
      have he : r first = r label ↔ first = label := hr.eq_iff (hs.named first hl) hn
      simp only [Option.map_some, Option.some.injEq, he]

theorem Mirrors.skip (h : Mirrors r g names draft mirror) :
    Mirrors r g names draft (mirror.add .blank) :=
  ⟨h.toFollows.skip, h.memory, h.references, h.used⟩

theorem Mirrors.references_add (h : Mirrors r g names draft mirror) (hs : s.Renames r names t)
    (hg : g (draft.line + 1) = mirror.line + 1) (cell : Address) :
    (mirror.add (.statement t)).references.get cell =
      ((draft.add (.statement s)).references.get cell).map (Reference.carry r g) := by
  rw [get_references_add, get_references_add, h.address, hs.reference, h.references, ← hg]
  split
  · cases s.reference? <;> rfl
  · rfl

theorem Mirrors.used_add (h : Mirrors r g names draft mirror) (hs : s.Renames r names t)
    (cell : Address) :
    ∀ reference ∈ (draft.add (.statement s)).references.get cell, reference.label ∈ names := by
  intro reference hm
  rw [get_references_add] at hm
  split at hm
  · cases hr : s.reference? with
    | none =>
      rw [hr] at hm
      exact h.used cell reference hm
    | some label =>
      rw [hr] at hm
      cases hm
      exact hs.used label hr
  · exact h.used cell reference hm

theorem Mirrors.add (hr : Set.InjOn r names) (h : Mirrors r g names draft mirror)
    (hl : line.Lift (Statement.Renames r names) other)
    (hg : g (draft.line + 1) = mirror.line + 1) :
    Mirrors r g names (draft.add line) (mirror.add other) := by
  cases hl with
  | blank => exact ⟨h.toFollows.add hr .blank, h.memory, h.references, h.used⟩
  | unrecognized => exact ⟨h.toFollows.add hr .unrecognized, h.memory, h.references, h.used⟩
  | @statement s t hs =>
    refine ⟨h.toFollows.add hr (.statement hs.toDefines), ?_, h.references_add hs hg, h.used_add hs⟩
    change mirror.memory.set mirror.address t.word = draft.memory.set draft.address s.word
    rw [h.memory, h.address, hs.word]

theorem Mirrors.offsetAt (h : Mirrors r g names draft mirror) (cell : Address) :
    mirror.offsetAt cell = draft.offsetAt cell := by
  rw [Draft.offsetAt, Draft.offsetAt, h.references]
  cases hr : draft.references.get cell with
  | none => rfl
  | some reference =>
    rw [Option.map_some, Option.bind_some, Option.bind_some, Reference.carry,
      h.labels _ (h.used cell reference hr)]

theorem Mirrors.unresolved? (h : Mirrors r g names draft mirror) (cell : Address) :
    mirror.unresolved? cell = (draft.unresolved? cell).map (Error.carry r g) := by
  rw [Draft.unresolved?, Draft.unresolved?, h.references]
  cases hr : draft.references.get cell with
  | none => rfl
  | some reference =>
    rw [Option.map_some, Option.bind_some, Option.bind_some, Reference.carry,
      h.labels _ (h.used cell reference hr)]
    split <;> rfl

theorem Mirrors.result_finish (h : Mirrors r g names draft mirror) :
    mirror.finish.result = draft.finish.result.mapError (Error.carry r g) := by
  cases hd : draft.finish.result with
  | ok memory =>
    obtain ⟨hu, rfl⟩ := draft.result_finish_eq_ok_iff.1 hd
    apply mirror.result_finish_eq_ok_iff.2
    refine ⟨?_, ?_⟩
    · intro cell
      rw [h.unresolved?, hu]
      rfl
    · simp only [h.memory, h.offsetAt]
  | error error =>
    obtain ⟨cell, hc, hb⟩ := draft.result_finish_eq_error_iff.1 hd
    apply mirror.result_finish_eq_error_iff.2
    refine ⟨cell, ?_, ?_⟩
    · rw [h.unresolved?, hc]
      rfl
    · intro lower hlt
      rw [h.unresolved?, hb lower hlt]
      rfl

end Draft

theorem Corresponds.mono {R' : Statement → Statement → Prop} (hR : ∀ s t, R s t → R' s t)
    (h : Corresponds R g program others) : Corresponds R' g program others := by
  induction h with
  | nil => exact .nil
  | insert _ ih => exact .insert ih
  | line _ hl hg ih =>
    refine .line ih ?_ hg
    cases hl with
    | blank => exact .blank
    | unrecognized => exact .unrecognized
    | statement hs => exact .statement (hR _ _ hs)

/-- Programs go on to correspond while their lines do, one by one. -/
theorem Corresponds.append {lines : List Line} (h : Corresponds R g program others)
    (hl : List.Forall₂ (Line.Lift R) lines more)
    (hg : ∀ k < lines.length, g (program.length + k + 1) = others.length + k + 1) :
    Corresponds R g (program ++ lines) (others ++ more) := by
  induction hl generalizing program others with
  | nil =>
    rw [List.append_nil, List.append_nil]
    exact h
  | @cons line other lines more hline _ ih =>
    have hnext := ih (.line h hline (hg 0 (Nat.zero_lt_succ _))) fun k hk => by
      have hk' := hg (k + 1) (Nat.succ_lt_succ hk)
      rw [List.length_append, List.length_append, List.length_singleton, List.length_singleton,
        Nat.add_right_comm _ 1 k, Nat.add_right_comm _ 1 k]
      exact hk'
    rwa [List.append_assoc, List.append_assoc] at hnext

theorem Corresponds.of_forall₂ (hl : List.Forall₂ (Line.Lift R) program others) :
    Corresponds R id program others := by
  apply Corresponds.append .nil hl
  intro k _
  rfl

/-- Statements that correspond stand on lines that correspond. -/
theorem Corresponds.statements {R : Statement → Statement → Prop} {g : Nat → Nat}
    {program others : List Line} (h : Corresponds R g program others) :
    List.Forall₂ (fun p q => q.line = g p.line ∧ R p.statement q.statement)
      (statements program) (statements others) := by
  induction h with
  | nil => exact .nil
  | insert _ ih =>
    rw [statements_concat, List.append_nil]
    exact ih
  | line _ hl hg ih =>
    rw [statements_concat, statements_concat]
    apply List.rel_append ih
    cases hl with
    | blank => exact .nil
    | unrecognized => exact .nil
    | statement hs => exact .cons ⟨hg.symm, hs⟩ .nil

theorem Corresponds.follows (hr : Set.InjOn r names)
    (h : Corresponds (Statement.Defines r names) g program others) :
    (drafted program).Follows r names (drafted others) := by
  induction h with
  | nil => exact ⟨rfl, fun _ _ => rfl⟩
  | insert _ ih =>
    rw [drafted_concat]
    exact ih.skip
  | line _ hl _ ih =>
    rw [drafted_concat, drafted_concat]
    exact ih.add hr hl

/-- Corresponding programs go wrong at corresponding lines. -/
theorem Corresponds.firstProblem?_eq (hr : Set.InjOn r names)
    (h : Corresponds (Statement.Defines r names) g program others) :
    firstProblem? capacity others = (firstProblem? capacity program).map (Error.carry r g) := by
  induction h with
  | nil => rfl
  | insert _ ih =>
    rw [firstProblem?_concat, ih]
    exact Option.or_none
  | @line program others _ _ h hl hg ih =>
    have hf := h.follows hr
    rw [← line_drafted program, ← line_drafted others] at hg
    rw [firstProblem?_concat, firstProblem?_concat, ih, hf.problem? hl hg]
    cases firstProblem? capacity program <;> rfl

theorem Corresponds.mirrors (hr : Set.InjOn r names)
    (h : Corresponds (Statement.Renames r names) g program others) :
    (drafted program).Mirrors r g names (drafted others) := by
  induction h with
  | nil =>
    have hn (cell : Address) : (drafted []).references.get cell = none :=
      get_references_drafted [] cell
    refine ⟨⟨rfl, fun _ _ => rfl⟩, rfl, ?_, ?_⟩
    · intro cell
      rw [hn]
      rfl
    · intro cell reference hm
      rw [hn] at hm
      cases hm
  | insert _ ih =>
    rw [drafted_concat]
    exact ih.skip
  | @line program others _ _ _ hl hg ih =>
    rw [← line_drafted program, ← line_drafted others] at hg
    rw [drafted_concat, drafted_concat]
    exact ih.add hr hl hg

/-- Corresponding programs end alike. -/
theorem Corresponds.verdict_eq (hr : Set.InjOn r names)
    (h : Corresponds (Statement.Renames r names) g program others) :
    verdict capacity others = (verdict capacity program).mapError (Error.carry r g) := by
  have hp : firstProblem? capacity others =
      (firstProblem? capacity program).map (Error.carry r g) :=
    (h.mono fun _ _ => Statement.Renames.toDefines).firstProblem?_eq hr
  rw [verdict, verdict, hp]
  cases firstProblem? capacity program with
  | none => exact (h.mirrors hr).result_finish
  | some error => rfl

/-- Corresponding programs assemble to the same image, or to corresponding errors. -/
theorem Corresponds.result_eq {source target : String} (hr : Set.InjOn r names)
    (h : Corresponds (Statement.Renames r names) g (readSource source) (readSource target)) :
    (assemble capacity target).result =
      (assemble capacity source).result.mapError (Error.carry r g) := by
  rw [result_assemble, result_assemble]
  exact h.verdict_eq hr

end Assembly

end LittleMan
