/-! Words of the machine. A word at rest lies in `[-999, 999]`, and arithmetic is modulo 1999. -/

namespace LittleMan

/-- A word is at rest between -999 and 999. -/
abbrev AtRest (word : Int) : Prop := -999 ≤ word ∧ word ≤ 999

/-- The representative modulo 1999 that is at rest. -/
def wrap (value : Int) : Int := (value + 999) % 1999 - 999

/-- The low 32 bits of an integer, read in two's complement. -/
def low32 (value : Int) : Int := value.bmod 4294967296

theorem wrap_atRest (value : Int) : AtRest (wrap value) := by
  unfold AtRest wrap
  omega

theorem wrap_of_atRest {word : Int} (h : AtRest word) : wrap word = word := by
  unfold AtRest at h
  unfold wrap
  omega

@[simp] theorem wrap_wrap (value : Int) : wrap (wrap value) = wrap value :=
  wrap_of_atRest (wrap_atRest value)

end LittleMan
