import LittleMan.Proofs.Rest

/-! Bringing integers to rest is reducing them modulo 1999, and 128 bits are wide enough to do so for
every integer of 64 bits. -/

namespace LittleMan

/-- A number of 64 bits in 128, raised so that the words at rest begin at zero. -/
def raised (bits : BitVec 64) : BitVec 128 := bits.signExtend 128 + 999#128

/-- The raised number modulo 1999. -/
def reduced (bits : BitVec 64) : BitVec 128 := (raised bits).smod 1999#128

/-- The reduced number, back among the words at rest. -/
def lowered (bits : BitVec 64) : BitVec 128 := reduced bits - 999#128

/-- A number of 64 bits, brought to rest and cut down to the 32 bits of a word. -/
def wrapBits (bits : BitVec 64) : BitVec 32 := (lowered bits).setWidth 32

variable {value word : Int}

theorem toInt_raised (bits : BitVec 64) : (raised bits).toInt = bits.toInt + 999 := by
  have hl := bits.le_toInt
  have hu := bits.toInt_lt
  have he : (bits.signExtend 128).toInt = bits.toInt :=
    BitVec.toInt_signExtend_of_le (by decide)
  have hc : (999#128).toInt = 999 := by decide
  rw [raised, BitVec.toInt_add, he, hc]
  apply Int.bmod_eq_of_le
  · omega
  · omega

theorem toInt_reduced (bits : BitVec 64) : (reduced bits).toInt = (bits.toInt + 999) % 1999 := by
  have hc : (1999#128).toInt = 1999 := by decide
  rw [reduced, BitVec.toInt_smod, toInt_raised, hc]
  exact Int.fmod_eq_emod_of_nonneg _ (by decide)

theorem toInt_lowered (bits : BitVec 64) : (lowered bits).toInt = wrap bits.toInt := by
  have hr := wrap_atRest bits.toInt
  have hc : (999#128).toInt = 999 := by decide
  rw [lowered, BitVec.toInt_sub, toInt_reduced, hc, ← wrap]
  apply Int.bmod_eq_of_le
  · omega
  · omega

theorem toInt_wrapBits (bits : BitVec 64) : (wrapBits bits).toInt = wrap bits.toInt := by
  have hr := wrap_atRest bits.toInt
  rw [wrapBits, ← BitVec.signExtend_eq_setWidth_of_le _ (by decide),
    BitVec.toInt_signExtend_eq_toInt_bmod_of_le _ (by decide), toInt_lowered]
  apply Int.bmod_eq_of_le
  · omega
  · omega

theorem wrap_eq_iff : wrap value = word ↔ AtRest word ∧ word ≡ value [ZMOD 1999] := by
  apply Iff.intro
  · intro h
    rw [← h]
    exact ⟨wrap_atRest value, wrap_modEq value⟩
  · intro hx
    obtain ⟨hr, hm⟩ := hx
    exact (wrap_atRest value).eq_of_modEq hr ((wrap_modEq value).trans hm.symm)

theorem wrap_neg (value : Int) : wrap (-value) = -wrap value := by
  have hr := wrap_atRest value
  apply wrap_eq_iff.2
  exact ⟨⟨by omega, by omega⟩, (wrap_modEq value).neg⟩

/-- Bringing an integer to rest gives its one representative modulo 1999 from -999 to 999, so it
agrees with negation, addition and multiplication. In 128 bits each step on a number of 64 bits is
exact, and the result keeps its value in 32. -/
theorem wrap_canonical :
    (∀ bits : BitVec 64, (raised bits).toInt = bits.toInt + 999 ∧
      (reduced bits).toInt = (bits.toInt + 999) % 1999 ∧
      (lowered bits).toInt = (bits.toInt + 999) % 1999 - 999 ∧
      (wrapBits bits).toInt = (lowered bits).toInt ∧ (wrapBits bits).toInt = wrap bits.toInt) ∧
    (∀ value word, wrap value = word ↔ AtRest word ∧ word ≡ value [ZMOD 1999]) ∧
    (∀ value, wrap value = value ↔ AtRest value) ∧
    (∀ u v, wrap u = wrap v ↔ u ≡ v [ZMOD 1999]) ∧
    (∀ value, wrap (-value) = -wrap value) ∧
    (∀ u v, wrap (u + v) = wrap (wrap u + wrap v)) ∧
    ∀ u v, wrap (u * v) = wrap (wrap u * wrap v) := by
  refine ⟨?_, fun value word => wrap_eq_iff, ?_, fun u v => wrap_eq_wrap_iff, wrap_neg, ?_, ?_⟩
  · intro bits
    have hl := toInt_lowered bits
    have hw := toInt_wrapBits bits
    exact ⟨toInt_raised bits, toInt_reduced bits, hl, hw.trans hl.symm, hw⟩
  · intro value
    rw [wrap_eq_iff]
    exact and_iff_left (Int.ModEq.refl value)
  · intro u v
    exact wrap_eq_wrap_iff.2 ((wrap_modEq u).add (wrap_modEq v)).symm
  · intro u v
    exact wrap_eq_wrap_iff.2 ((wrap_modEq u).mul (wrap_modEq v)).symm

-- The largest and the smallest number of 64 bits: raising the first one would overflow in 64.
example : (wrapBits (9223372036854775807#64)).toInt = 662 ∧
    (wrapBits (9223372036854775808#64)).toInt = -663 := by decide +kernel

end LittleMan
