import LittleMan.Memory.Basic
import Mathlib.Data.Int.ModEq

/-! Words and memories at rest: a class of integers modulo 1999 holds one word at rest, and storing
such a word keeps a memory at rest. -/

namespace LittleMan

variable {word other value : Int}

theorem atRest_zero : AtRest 0 := ⟨by decide, by decide⟩

theorem wrap_modEq (value : Int) : wrap value ≡ value [ZMOD 1999] := by
  rw [Int.modEq_iff_dvd, wrap]
  omega

theorem AtRest.eq_of_modEq (hw : AtRest word) (ho : AtRest other)
    (h : word ≡ other [ZMOD 1999]) : word = other := by
  obtain ⟨k, hk⟩ := h.dvd
  omega

/-- Two integers are brought to the same rest exactly when they agree modulo 1999. -/
theorem wrap_eq_wrap_iff : wrap value = wrap word ↔ value ≡ word [ZMOD 1999] := by
  apply Iff.intro
  · intro h
    have hv := (wrap_modEq value).symm
    rw [h] at hv
    exact hv.trans (wrap_modEq word)
  · intro h
    apply (wrap_atRest value).eq_of_modEq (wrap_atRest word)
    exact (wrap_modEq value).trans (h.trans (wrap_modEq word).symm)

theorem low32_of_le (h : -1998 ≤ value) (h' : value ≤ 1998) : low32 value = value := by
  rw [low32, Int.bmod_def]
  omega

namespace Memory

variable {m : Memory} {a : Address}

theorem zero_atRest : zero.AtRest := fun a => by
  rw [get_zero]
  exact atRest_zero

theorem AtRest.set (h : m.AtRest) (a : Address) (hw : LittleMan.AtRest word) :
    (m.set a word).AtRest := by
  intro b
  rw [get_set]
  split
  · exact hw
  · exact h b

theorem read?_of_lt {n : Nat} (hn : n < 100) : m.read? n = some (m.get ⟨n, hn⟩) :=
  Vector.getElem?_eq_getElem hn

theorem set_get (m : Memory) (a : Address) : m.set a (m.get a) = m := by
  ext b
  rw [get_set]
  split
  · next h => rw [h]
  · rfl

theorem set_set (m : Memory) (a : Address) (word other : Int) :
    (m.set a word).set a other = m.set a other := by
  ext b
  rw [get_set, get_set, get_set]
  split <;> rfl

theorem AtRest.set_wrap_get (h : m.AtRest) (a : Address) : m.set a (wrap (m.get a)) = m := by
  rw [wrap_of_atRest (h a), set_get]

end Memory

end LittleMan
