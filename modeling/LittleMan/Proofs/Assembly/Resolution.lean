import LittleMan.Proofs.Assembly.Draft
import Mathlib.Data.List.FinRange

/-! Resolving the references of a draft: either every cell gains the address of the label that it
refers to, or the lowest cell with an unknown label is reported. -/

namespace LittleMan.Assembly.Draft

variable (draft : Draft)

/-- The address that is to be added to a cell, zero where the cell refers to no known label. -/
def offsetAt (cell : Address) : Int :=
  ((draft.references.get cell).bind (draft.labels.lookup ·.label)).elim 0
    fun target => (target.val : Int)

/-- The error of a cell that refers to an unknown label. -/
def unresolved? (cell : Address) : Option Error :=
  (draft.references.get cell).bind fun reference =>
    if (draft.labels.lookup reference.label).isSome then none
    else some ⟨.unresolvedLabel reference.label, reference.line⟩

/-- A memory with the reference of one cell resolved. -/
def patch (memory : Memory) (cell : Address) : Memory :=
  memory.set cell (memory.get cell + draft.offsetAt cell)

theorem get_patch (memory : Memory) (cell other : Address) :
    (draft.patch memory cell).get other =
      memory.get other + if cell = other then draft.offsetAt cell else 0 := by
  rw [patch, Memory.get_set]
  split
  · next h => rw [h]
  · exact (Int.add_zero _).symm

theorem patch_of_none (memory : Memory) {cell : Address}
    (h : draft.references.get cell = none) : draft.patch memory cell = memory := by
  have ho : draft.offsetAt cell = 0 := by rw [offsetAt, h]; rfl
  ext other
  rw [get_patch, ho, ite_self, Int.add_zero]

theorem patch_of_some (memory : Memory) {cell target : Address} {reference : Reference}
    (hr : draft.references.get cell = some reference)
    (hl : draft.labels.lookup reference.label = some target) :
    draft.patch memory cell = memory.set cell (memory.get cell + target.val) := by
  rw [patch, offsetAt, hr, Option.bind_some, hl]
  rfl

theorem result_resolveCell (memory : Memory) (cell : Address) :
    (draft.resolveCell memory cell).result =
      (draft.unresolved? cell).elim (.ok (draft.patch memory cell)) .error := by
  rw [resolveCell, unresolved?]
  cases hr : draft.references.get cell with
  | none =>
    rw [draft.patch_of_none memory hr]
    rfl
  | some reference =>
    simp only [Option.bind_some]
    cases hl : draft.labels.lookup reference.label with
    | none => rfl
    | some target =>
      rw [draft.patch_of_some memory hr hl]
      rfl

theorem get_foldl_patch {cells : List Address} (hc : cells.Nodup) (memory : Memory)
    (cell : Address) :
    (cells.foldl draft.patch memory).get cell =
      memory.get cell + if cell ∈ cells then draft.offsetAt cell else 0 := by
  induction cells generalizing memory with
  | nil => exact (Int.add_zero _).symm
  | cons other cells ih =>
    obtain ⟨ho, hc⟩ := List.nodup_cons.1 hc
    rw [List.foldl_cons, ih hc, get_patch]
    by_cases h : other = cell
    · subst h
      simp [ho]
    · simp [h, Ne.symm h]

theorem foldl_patch_addresses :
    addresses.foldl draft.patch draft.memory =
      .ofFn fun cell => draft.memory.get cell + draft.offsetAt cell := by
  ext cell
  rw [addresses, get_foldl_patch _ (List.nodup_finRange 100), if_pos (List.mem_finRange cell),
    Memory.get_ofFn]

theorem obstacleAt?_addresses (n : Nat) :
    Logged.obstacleAt? (fun _ cell => draft.unresolved? cell) draft.patch draft.memory addresses n =
      if h : n < 100 then draft.unresolved? ⟨n, h⟩ else none := by
  have hl : addresses.length = 100 := List.length_finRange
  rw [Logged.obstacleAt?]
  split
  · next h =>
    rw [List.getElem?_eq_getElem (hl.symm ▸ h), Option.bind_some]
    simp only [addresses, List.getElem_finRange]
    rfl
  · next h =>
    rw [List.getElem?_eq_none (by omega)]
    rfl

theorem result_finish_eq_ok_iff {memory : Memory} :
    draft.finish.result = .ok memory ↔ (∀ cell, draft.unresolved? cell = none) ∧
      (Memory.ofFn fun cell => draft.memory.get cell + draft.offsetAt cell) = memory := by
  rw [finish, Logged.result_foldl_eq_ok_iff draft.result_resolveCell, foldl_patch_addresses]
  apply and_congr_left'
  constructor
  · intro h cell
    have hn := h cell.val
    rwa [obstacleAt?_addresses, dif_pos cell.isLt] at hn
  · intro h n
    rw [obstacleAt?_addresses]
    split
    · exact h _
    · rfl

theorem result_finish_eq_error_iff {error : Error} :
    draft.finish.result = .error error ↔ ∃ cell, draft.unresolved? cell = some error ∧
      ∀ other < cell, draft.unresolved? other = none := by
  rw [finish, Logged.result_foldl_eq_error_iff draft.result_resolveCell]
  constructor
  · intro hx
    obtain ⟨n, hn, hb⟩ := hx
    rw [obstacleAt?_addresses] at hn
    split at hn
    · next h =>
      refine ⟨⟨n, h⟩, hn, ?_⟩
      intro other ho
      have hk := hb other.val ho
      rwa [obstacleAt?_addresses, dif_pos other.isLt] at hk
    · cases hn
  · intro hx
    obtain ⟨cell, hc, hb⟩ := hx
    refine ⟨cell.val, ?_, ?_⟩
    · rwa [obstacleAt?_addresses, dif_pos cell.isLt]
    · intro k hk
      have hlt := Nat.lt_trans hk cell.isLt
      rw [obstacleAt?_addresses, dif_pos hlt]
      exact hb ⟨k, hlt⟩ hk

end LittleMan.Assembly.Draft
