import LittleMan.Proofs.Assembly.Capacity

/-! Labels that nothing defines. Using one is an error, unless a later statement takes the same cell
and uses a label itself. -/

namespace LittleMan.Assembly

/-- The statement at a place uses a label that no statement defines. -/
def UsesUndefined (code : List Placed) (i : Nat) : Prop :=
  ∃ placed label, code[i]? = some placed ∧ placed.statement.use? = some label ∧
    ∀ j, ¬ DefinedAt code label j

/-- A later statement takes the cell of the one at a place, and uses a label. -/
def Superseded (code : List Placed) (i : Nat) : Prop :=
  ∃ j placed, i < j ∧ j % 100 = i % 100 ∧ code[j]? = some placed ∧ placed.statement.use? ≠ none

variable {capacity : Capacity} {source : String} {code : List Placed} {address : Address}
  {reference : Reference} {i : Nat}

theorem Superseded.excess (h : Superseded code i) : 100 < code.length := by
  obtain ⟨j, later, hj, hm, hp, -⟩ := h
  have hlt := (List.getElem?_eq_some_iff.1 hp).1
  omega

/-- The reference of a cell is a use of a label that no later one supersedes. -/
theorem referenceAt?_eq_some_iff :
    referenceAt? code address = some reference ↔
      ∃ i placed, i % 100 = address.val ∧ code[i]? = some placed ∧
        placed.statement.use? = some reference.label ∧ placed.line = reference.line ∧
        ¬ Superseded code i := by
  rw [referenceAt?, last?_eq_some_iff]
  apply exists_congr
  intro i
  apply Iff.intro
  · intro hx
    obtain ⟨placed, hp, hf, hl⟩ := hx
    split at hf
    · next ha =>
      obtain ⟨label, hu, rfl⟩ := Option.map_eq_some_iff.1 hf
      refine ⟨placed, ha, hp, hu, rfl, ?_⟩
      intro hs
      obtain ⟨j, other, hj, hm, ho, hn⟩ := hs
      have hnone := hl j other hj ho
      rw [if_pos (hm.trans ha), Option.map_eq_none_iff] at hnone
      exact hn hnone
    · cases hf
  · intro hx
    obtain ⟨placed, ha, hp, hu, hl, hs⟩ := hx
    refine ⟨placed, hp, ?_, ?_⟩
    · rw [if_pos ha, hu, Option.map_some, hl]
    · intro j other hj ho
      split
      · next hm =>
        rw [Option.map_eq_none_iff]
        by_contra hn
        exact hs ⟨j, other, hj, hm.trans ha.symm, ho, hn⟩
      · rfl

theorem not_unresolved_iff :
    (∀ address reference, ¬ Unresolved code address reference) ↔
      ∀ i, UsesUndefined code i → Superseded code i := by
  apply Iff.intro
  · intro hn i hx
    obtain ⟨placed, label, hp, hu, hd⟩ := hx
    by_contra hs
    apply hn ⟨i % 100, Nat.mod_lt i (by decide)⟩ ⟨label, placed.line⟩
    exact ⟨referenceAt?_eq_some_iff.2 ⟨i, placed, rfl, hp, hu, rfl, hs⟩, hd⟩
  · intro h address reference hx
    obtain ⟨hr, hd⟩ := hx
    obtain ⟨i, placed, -, hp, hu, -, hs⟩ := referenceAt?_eq_some_iff.1 hr
    exact hs (h i ⟨placed, reference.label, hp, hu, hd⟩)

/-- A program assembles exactly if none of its lines offends and later uses supersede every use of a
label that no statement defines. -/
theorem assembles_iff :
    (∃ memory, (assemble capacity source).result = .ok memory) ↔
      (∀ error, ¬ Offends capacity (readSource source) error) ∧
        ∀ i, UsesUndefined (statements (readSource source)) i →
          Superseded (statements (readSource source)) i := by
  simp only [result_assemble_eq_ok_iff, Draft.result_finish_eq_ok_iff,
    unresolved?_drafted_eq_none_iff, not_unresolved_iff, exists_and_left, exists_eq', and_true]

/-- A label that no statement defines is an error wherever it is used, but for the uses that later
ones supersede, and a strict capacity leaves none of these. -/
theorem undefined_reported (h : UsesUndefined (statements (readSource source)) i)
    (hs : capacity = .strict ∨ ¬ Superseded (statements (readSource source)) i) :
    ∃ error, (assemble capacity source).result = .error error := by
  cases hr : (assemble capacity source).result with
  | error error => exact ⟨error, rfl⟩
  | ok memory =>
    have hsup := (assembles_iff.1 ⟨memory, hr⟩).2 i h
    obtain rfl | hn := hs
    · exact absurd (fit_of_strict hr) (Nat.not_le.2 hsup.excess)
    · exact absurd hsup hn

/-- A program of 101 statements, of which the first uses a label and the last takes its cell. -/
def takenOver (last : List Char) : List Char :=
  ['L', 'D', 'A', ' ', 'n', 'o', 'w', 'h', 'e', 'r', 'e', '\n'] ++
    (List.replicate 99 ['H', 'L', 'T', '\n']).flatten ++ last

/-- The last statement uses no label. -/
def overwritten : List Char := takenOver ['D', 'A', 'T', ' ', '7']

theorem undefined_reported_overwritten :
    UsesUndefined (statements (readSource (.ofList overwritten))) 0 ∧
      ¬ Superseded (statements (readSource (.ofList overwritten))) 0 ∧
      ∃ error, (assemble .wrapping (.ofList overwritten)).result = .error error := by
  have hfirst : (statements (readSource (.ofList overwritten)))[0]? =
      some ⟨1, ⟨none, .op .lda, some "nowhere"⟩⟩ := by
    rw [readSource, String.toList_ofList]
    decide +kernel
  have hlast : (statements (readSource (.ofList overwritten))).drop 100 =
      [⟨101, ⟨none, .dat, some "7"⟩⟩] := by
    rw [readSource, String.toList_ofList]
    decide +kernel
  have hd : definition? (statements (readSource (.ofList overwritten))) "nowhere" = none := by
    rw [readSource, String.toList_ofList]
    decide +kernel
  have hu : UsesUndefined (statements (readSource (.ofList overwritten))) 0 :=
    ⟨_, "nowhere", hfirst, by decide +kernel, definition?_eq_none_iff.1 hd⟩
  have hs : ¬ Superseded (statements (readSource (.ofList overwritten))) 0 := by
    intro h
    obtain ⟨j, placed, hj, hm, hp, hn⟩ := h
    obtain ⟨k, rfl⟩ : ∃ k, j = 100 + k := ⟨j - 100, by omega⟩
    rw [← List.getElem?_drop, hlast, List.getElem?_singleton] at hp
    split at hp
    · cases hp
      exact hn rfl
    · cases hp
  exact ⟨hu, hs, undefined_reported hu (.inr hs)⟩

/-- The last statement uses a label, the one that it defines. -/
def superseding : List Char :=
  takenOver ['h', 'e', 'r', 'e', ' ', 'L', 'D', 'A', ' ', 'h', 'e', 'r', 'e']

/-- The label that nothing defines goes unreported: the program assembles. -/
theorem undefined_unreported_superseding :
    UsesUndefined (statements (readSource (.ofList superseding))) 0 ∧
      ∃ memory, (assemble .wrapping (.ofList superseding)).result = .ok memory := by
  have hfirst : (statements (readSource (.ofList superseding)))[0]? =
      some ⟨1, ⟨none, .op .lda, some "nowhere"⟩⟩ := by
    rw [readSource, String.toList_ofList]
    decide +kernel
  have hd : definition? (statements (readSource (.ofList superseding))) "nowhere" = none := by
    rw [readSource, String.toList_ofList]
    decide +kernel
  have hm : (assemble .wrapping (.ofList superseding)).result =
      .ok (.ofFn fun address => if address.val = 0 then 500 else 0) := by
    rw [assemble, String.toList_ofList]
    decide +kernel
  exact ⟨⟨_, "nowhere", hfirst, by decide +kernel, definition?_eq_none_iff.1 hd⟩, _, hm⟩

end LittleMan.Assembly
