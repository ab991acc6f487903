import LittleMan.Memory.Image
import LittleMan.Machine.Basic
import LittleMan.Proofs.Rest
import Mathlib.Data.List.FinRange

/-! Images: reading the image of a memory gives back its cells, brought to rest, what can be read is
the image of exactly one memory at rest, and what cannot is refused for the first thing that is wrong
with it. -/

namespace LittleMan

theorem wordOfBytes_ofNat {n : Nat} (hn : n < 65536) :
    wordOfBytes (UInt8.ofNat (n / 256)) (UInt8.ofNat n) = Int.bmod n 65536 := by
  have hb : 256 * ((n / 256 % 256 : Nat) : Int) + ((n % 256 : Nat) : Int) = n := by omega
  have hh : (UInt8.ofNat (n / 256)).toNat = n / 256 % 256 := UInt8.toNat_ofNat'
  have hl : (UInt8.ofNat n).toNat = n % 256 := UInt8.toNat_ofNat'
  unfold wordOfBytes
  rw [hh, hl, hb]

theorem wordOfBytes_wordBytes {word : Int} (hl : -32768 ≤ word) (hu : word < 32768) :
    wordOfBytes (UInt8.ofNat ((word % 65536).toNat / 256)) (UInt8.ofNat (word % 65536).toNat) =
      word := by
  have hn : ((word % 65536).toNat : Int) = word % 65536 := by omega
  rw [wordOfBytes_ofNat (by omega), hn, Int.bmod_def]
  omega

theorem emod_wordOfBytes (high low : UInt8) :
    wordOfBytes high low % 65536 = 256 * (high.toNat : Int) + (low.toNat : Int) := by
  have hh : high.toNat < 256 := high.toNat_lt
  have hl : low.toNat < 256 := low.toNat_lt
  unfold wordOfBytes
  rw [Int.bmod_def]
  omega

theorem wordBytes_wordOfBytes (high low : UInt8) :
    wordBytes (wordOfBytes high low) = [high, low] := by
  have hh : high.toNat < 256 := high.toNat_lt
  have hl : low.toNat < 256 := low.toNat_lt
  have hc : (256 * (high.toNat : Int) + (low.toNat : Int)).toNat =
      256 * high.toNat + low.toNat := by omega
  have hhigh : (256 * high.toNat + low.toNat) / 256 = high.toNat := by omega
  have hlow : UInt8.ofNat (256 * high.toNat + low.toNat) = low := by
    apply UInt8.toNat.inj
    rw [UInt8.toNat_ofNat']
    omega
  simp only [wordBytes, emod_wordOfBytes, hc, hhigh, hlow, UInt8.ofNat_toNat]

/-- The word of two bytes is the signed value of the sixteen bits that they form together. -/
theorem wordOfBytes_eq_toInt (high low : UInt8) :
    wordOfBytes high low = (high.toBitVec ++ low.toBitVec).toInt := by
  have hn : (high.toBitVec ++ low.toBitVec).toNat = 256 * high.toNat + low.toNat := by
    rw [BitVec.toNat_append, ← Nat.shiftLeft_add_eq_or_of_lt low.toBitVec.isLt, Nat.shiftLeft_eq,
      Nat.mul_comm]
    rfl
  rw [BitVec.toInt_eq_toNat_bmod, hn]
  rfl

theorem find?_addresses_eq_some_iff {p : Address → Bool} {a : Address} :
    addresses.find? p = some a ↔ p a = true ∧ ∀ b < a, p b = false := by
  rw [List.find?_eq_some_iff_getElem]
  refine and_congr_right fun _ => ?_
  simp only [addresses, List.getElem_finRange, Bool.not_eq_true']
  apply Iff.intro
  · intro hx b hb
    obtain ⟨i, hi, rfl, hfirst⟩ := hx
    exact hfirst b.val hb
  · intro hfirst
    exact ⟨a.val, by simp, rfl, fun j hj => hfirst ⟨j, Nat.lt_trans hj a.isLt⟩ hj⟩

/-- Bytes of an even number are their pairs, one after the other. -/
theorem flatMap_finRange_pair {bytes : List UInt8} {n : Nat} (h : bytes.length = 2 * n) :
    ((List.finRange n).flatMap fun i =>
      [bytes.getD (2 * i.val) 0, bytes.getD (2 * i.val + 1) 0]) = bytes := by
  induction n generalizing bytes with
  | zero => exact (List.eq_nil_of_length_eq_zero h).symm
  | succ n ih =>
    obtain _ | ⟨high, _ | ⟨low, rest⟩⟩ := bytes
    · cases h
    · rw [List.length_singleton] at h
      omega
    · have hr : rest.length = 2 * n := by
        rw [List.length_cons, List.length_cons] at h
        omega
      rw [List.finRange_succ, List.flatMap_cons, List.flatMap_map]
      exact congrArg (high :: low :: ·) (ih hr)

section Words

variable {α : Type} (word : α → Int)

theorem length_flatMap_wordBytes (items : List α) :
    (items.flatMap fun item => wordBytes (word item)).length = 2 * items.length := by
  induction items with
  | nil => rfl
  | cons item items ih =>
    rw [List.flatMap_cons, List.length_append, ih, List.length_cons, Nat.mul_succ, Nat.add_comm]
    rfl

/-- Each pair of bytes in the stored form of some words is one of the words. -/
theorem wordOfBytes_flatMap (hw : ∀ item, -32768 ≤ word item ∧ word item < 32768)
    {items : List α} {i : Nat} {item : α} (hi : items[i]? = some item) :
    wordOfBytes ((items.flatMap fun item => wordBytes (word item)).getD (2 * i) 0)
      ((items.flatMap fun item => wordBytes (word item)).getD (2 * i + 1) 0) = word item := by
  induction items generalizing i with
  | nil => cases hi
  | cons first items ih =>
    cases i with
    | zero =>
      cases hi
      exact wordOfBytes_wordBytes (hw _).1 (hw _).2
    | succ i => exact ih hi

end Words

/-- Two bytes stand for each address, the high one first, and form a value in two's complement. -/
def Encodes (bytes : List UInt8) (a : Address) (value : Int) : Prop :=
  ∃ high low, bytes[2 * a.val]? = some high ∧ bytes[2 * a.val + 1]? = some low ∧
    (high.toBitVec ++ low.toBitVec).toInt = value

namespace Memory

/-- The memory that some bytes encode, whether it is at rest or not. -/
def decoded (bytes : List UInt8) : Memory :=
  ofFn fun a => wordOfBytes (bytes.getD (2 * a) 0) (bytes.getD (2 * a + 1) 0)

theorem wrapped_wrapped (m : Memory) : m.wrapped.wrapped = m.wrapped := by
  ext a
  rw [get_wrapped, get_wrapped, wrap_wrap]

theorem length_toBytes (m : Memory) : m.toBytes.length = 200 := by
  rw [toBytes, length_flatMap_wordBytes fun a => wrap (m.get a)]
  rfl

theorem wordOfBytes_toBytes (m : Memory) (a : Address) :
    wordOfBytes (m.toBytes.getD (2 * a.val) 0) (m.toBytes.getD (2 * a.val + 1) 0) =
      wrap (m.get a) := by
  apply wordOfBytes_flatMap fun a => wrap (m.get a)
  · intro a
    have hr := wrap_atRest (m.get a)
    exact ⟨by omega, by omega⟩
  · rw [addresses, List.getElem?_eq_getElem (by simp), List.getElem_finRange]
    rfl

variable {m n : Memory} {bytes : List UInt8}

theorem encodes_iff {a : Address} {value : Int} (h : bytes.length = 200) :
    Encodes bytes a value ↔ (decoded bytes).get a = value := by
  have hh : 2 * a.val < bytes.length := by omega
  have hl : 2 * a.val + 1 < bytes.length := by omega
  simp only [Encodes, decoded, get_ofFn, List.getD_eq_getElem?_getD, List.getElem?_eq_getElem hh,
    List.getElem?_eq_getElem hl, Option.some.injEq, Option.getD_some, wordOfBytes_eq_toInt,
    exists_and_left, exists_eq_left']

theorem ofFn_eq_decoded (bytes : List UInt8) :
    (ofFn fun a => wordOfBytes (bytes.getD (2 * a) 0) (bytes.getD (2 * a + 1) 0)) =
      decoded bytes := rfl

theorem ofBytes_of_length_ne (h : bytes.length ≠ 200) :
    ofBytes bytes = .error (.invalidLength bytes.length) := if_neg h

theorem ofBytes_of_atRest (h : bytes.length = 200) (hr : (decoded bytes).AtRest) :
    ofBytes bytes = .ok (decoded bytes) := by
  have hf : addresses.find? (fun a => !decide (LittleMan.AtRest ((decoded bytes).get a))) =
      none := by
    apply List.find?_eq_none.2
    intro a _
    rw [decide_eq_true (hr a)]
    decide
  rw [ofBytes, if_pos h]
  dsimp only
  rw [ofFn_eq_decoded, hf]

theorem ofBytes_of_offence {a : Address} (h : bytes.length = 200)
    (ha : ¬ LittleMan.AtRest ((decoded bytes).get a))
    (hb : ∀ b < a, LittleMan.AtRest ((decoded bytes).get b)) :
    ofBytes bytes = .error (.valueOutOfRange a ((decoded bytes).get a)) := by
  have hf : addresses.find? (fun a => !decide (LittleMan.AtRest ((decoded bytes).get a))) =
      some a := by
    apply find?_addresses_eq_some_iff.2
    rw [decide_eq_false ha]
    refine ⟨rfl, ?_⟩
    intro b hlt
    rw [decide_eq_true (hb b hlt)]
    rfl
  rw [ofBytes, if_pos h]
  dsimp only
  rw [ofFn_eq_decoded, hf]

/-- A memory is at rest, or it has a first cell that is not. -/
theorem atRest_or_offence (m : Memory) :
    m.AtRest ∨ ∃ a, ¬ LittleMan.AtRest (m.get a) ∧ ∀ b < a, LittleMan.AtRest (m.get b) := by
  cases hf : addresses.find? fun a => !decide (LittleMan.AtRest (m.get a)) with
  | none =>
    left
    intro a
    have ha := List.find?_eq_none.1 hf a (List.mem_finRange a)
    simpa only [Bool.not_eq_true', decide_eq_false_iff_not, not_not] using ha
  | some a =>
    right
    obtain ⟨ha, hb⟩ := find?_addresses_eq_some_iff.1 hf
    simp only [Bool.not_eq_true', Bool.not_eq_false', decide_eq_false_iff_not,
      decide_eq_true_eq] at ha hb
    exact ⟨a, ha, hb⟩

/-- The ways that reading an image can go: the length is wrong, or a first word is not at rest, or
else the bytes give their memory. -/
theorem ofBytes_cases (bytes : List UInt8) :
    (bytes.length ≠ 200 ∧ ofBytes bytes = .error (.invalidLength bytes.length)) ∨
      bytes.length = 200 ∧
        ((∃ a, (¬ LittleMan.AtRest ((decoded bytes).get a) ∧
            ∀ b < a, LittleMan.AtRest ((decoded bytes).get b)) ∧
            ofBytes bytes = .error (.valueOutOfRange a ((decoded bytes).get a))) ∨
          (decoded bytes).AtRest ∧ ofBytes bytes = .ok (decoded bytes)) := by
  by_cases h : bytes.length = 200
  · obtain hr | ⟨a, ha, hb⟩ := (decoded bytes).atRest_or_offence
    · exact .inr ⟨h, .inr ⟨hr, ofBytes_of_atRest h hr⟩⟩
    · exact .inr ⟨h, .inl ⟨a, ⟨ha, hb⟩, ofBytes_of_offence h ha hb⟩⟩
  · exact .inl ⟨h, ofBytes_of_length_ne h⟩

theorem ofBytes_eq_ok_iff_decoded :
    ofBytes bytes = .ok m ↔ bytes.length = 200 ∧ decoded bytes = m ∧ m.AtRest := by
  apply Iff.intro
  · intro h
    obtain ⟨-, he⟩ | ⟨hl, ⟨a, -, he⟩ | ⟨hr, he⟩⟩ := ofBytes_cases bytes
    · cases he.symm.trans h
    · cases he.symm.trans h
    · obtain rfl := Except.ok.inj (he.symm.trans h)
      exact ⟨hl, rfl, hr⟩
  · intro hx
    obtain ⟨hl, rfl, hr⟩ := hx
    exact ofBytes_of_atRest hl hr

theorem ofBytes_eq_invalidLength_iff {n : Nat} :
    ofBytes bytes = .error (.invalidLength n) ↔ n = bytes.length ∧ bytes.length ≠ 200 := by
  apply Iff.intro
  · intro h
    obtain ⟨hl, he⟩ | ⟨-, ⟨a, -, he⟩ | ⟨-, he⟩⟩ := ofBytes_cases bytes
    · cases he.symm.trans h
      exact ⟨rfl, hl⟩
    · cases he.symm.trans h
    · cases he.symm.trans h
  · intro hx
    obtain ⟨rfl, hl⟩ := hx
    exact ofBytes_of_length_ne hl

theorem ofBytes_eq_valueOutOfRange_iff {a : Address} {value : Int} :
    ofBytes bytes = .error (.valueOutOfRange a value) ↔
      bytes.length = 200 ∧ (decoded bytes).get a = value ∧ ¬ LittleMan.AtRest value ∧
        ∀ b < a, LittleMan.AtRest ((decoded bytes).get b) := by
  apply Iff.intro
  · intro h
    obtain ⟨-, he⟩ | ⟨hl, ⟨a, ⟨ha, hb⟩, he⟩ | ⟨-, he⟩⟩ := ofBytes_cases bytes
    · cases he.symm.trans h
    · cases he.symm.trans h
      exact ⟨hl, rfl, ha, hb⟩
    · cases he.symm.trans h
  · intro hx
    obtain ⟨hl, rfl, ha, hb⟩ := hx
    exact ofBytes_of_offence hl ha hb

theorem decoded_toBytes (m : Memory) : decoded m.toBytes = m.wrapped := by
  ext a
  rw [decoded, get_ofFn, wordOfBytes_toBytes, get_wrapped]

/-- Reading the image of a memory gives the memory at rest. -/
theorem ofBytes_toBytes (m : Memory) : ofBytes m.toBytes = .ok m.wrapped := by
  have hr : (decoded m.toBytes).AtRest := by
    rw [decoded_toBytes]
    exact m.wrapped_atRest
  rw [ofBytes_of_atRest m.length_toBytes hr, decoded_toBytes]

theorem wrapped_eq_self_iff : m.wrapped = m ↔ m.AtRest := by
  apply Iff.intro
  · intro h
    rw [← h]
    exact m.wrapped_atRest
  · intro h
    ext a
    rw [get_wrapped, wrap_of_atRest (h a)]

theorem toBytes_wrapped (m : Memory) : m.wrapped.toBytes = m.toBytes := by
  simp only [toBytes, get_wrapped, wrap_wrap]

theorem AtRest.toBytes_eq (h : m.AtRest) :
    m.toBytes = addresses.flatMap fun a => wordBytes (m.get a) := by
  have hw : (fun a => wordBytes (wrap (m.get a))) = fun a => wordBytes (m.get a) := by
    funext a
    rw [wrap_of_atRest (h a)]
  rw [toBytes, hw]

/-- What can be read from an image is at rest, and the image is the one that it is stored in. -/
theorem ofBytes_eq_ok_iff : ofBytes bytes = .ok m ↔ m.AtRest ∧ m.toBytes = bytes := by
  apply Iff.intro
  · intro h
    obtain ⟨hl, rfl, hr⟩ := ofBytes_eq_ok_iff_decoded.1 h
    apply And.intro hr
    rw [hr.toBytes_eq]
    simp only [decoded, get_ofFn, wordBytes_wordOfBytes]
    exact flatMap_finRange_pair hl
  · intro hx
    obtain ⟨hr, rfl⟩ := hx
    rw [ofBytes_toBytes, wrapped_eq_self_iff.2 hr]

/-- Bytes of another length than 200 are refused for it, whatever they are. Of 200 bytes, those are
refused that encode a value out of range, for the first such value, and all others give the memory
that they encode. -/
theorem ofBytes_refuses_first (bytes : List UInt8) :
    (∀ length, ofBytes bytes = .error (.invalidLength length) ↔
      length = bytes.length ∧ bytes.length ≠ 200) ∧
    (∀ a value, ofBytes bytes = .error (.valueOutOfRange a value) ↔
      bytes.length = 200 ∧ Encodes bytes a value ∧ ¬ LittleMan.AtRest value ∧
        ∀ b < a, ∃ word, Encodes bytes b word ∧ LittleMan.AtRest word) ∧
    (∀ m, ofBytes bytes = .ok m ↔
      bytes.length = 200 ∧ ∀ a, Encodes bytes a (m.get a) ∧ LittleMan.AtRest (m.get a)) ∧
    (bytes.length = 200 → (∀ a value, Encodes bytes a value → LittleMan.AtRest value) →
      ∃ m, ofBytes bytes = .ok m ∧ ∀ a, Encodes bytes a (m.get a)) := by
  refine ⟨fun length => ofBytes_eq_invalidLength_iff, ?_, ?_, ?_⟩
  · intro a value
    rw [ofBytes_eq_valueOutOfRange_iff]
    refine and_congr_right fun hl => ?_
    simp only [encodes_iff hl, exists_eq_left']
  · intro m
    rw [ofBytes_eq_ok_iff_decoded]
    refine and_congr_right fun hl => ?_
    simp only [encodes_iff hl]
    rw [forall_and]
    exact and_congr_left fun _ => ⟨fun he a => congrArg (get · a) he, ext_get⟩
  · intro hl hr
    have hd : (decoded bytes).AtRest := fun a => hr a _ ((encodes_iff hl).2 rfl)
    exact ⟨_, ofBytes_of_atRest hl hd, fun a => (encodes_iff hl).2 rfl⟩

/-- Bytes that encode 1000 at address 3, -1000 at address 7, and zero elsewhere. -/
def tampered : List UInt8 :=
  (List.range 200).map fun i =>
    if i = 6 then 0x03 else if i = 7 then 0xE8 else if i = 14 then 0xFC else if i = 15 then 0x18 else 0

/-- Only the first of the two values is named, and neither once a byte is missing. -/
theorem tampered_refused :
    ofBytes tampered = .error (.valueOutOfRange ⟨3, by decide⟩ 1000) ∧
      Encodes tampered ⟨3, by decide⟩ 1000 ∧ Encodes tampered ⟨7, by decide⟩ (-1000) ∧
      (∀ b < (⟨3, by decide⟩ : Address), ∃ word, Encodes tampered b word ∧ LittleMan.AtRest word) ∧
      ofBytes (tampered.drop 1) = .error (.invalidLength 199) := by
  have ht : ofBytes tampered = .error (.valueOutOfRange ⟨3, by decide⟩ 1000) := by
    decide +kernel
  obtain ⟨-, hv, -⟩ := ofBytes_refuses_first tampered
  obtain ⟨hl, -⟩ := ofBytes_refuses_first (tampered.drop 1)
  obtain ⟨-, he, -, hb⟩ := (hv _ _).1 ht
  exact ⟨ht, he, ⟨0xFC, 0x18, by decide +kernel, by decide +kernel, by decide +kernel⟩, hb,
    (hl 199).2 ⟨by decide +kernel, by decide +kernel⟩⟩

theorem toBytes_eq_toBytes_iff :
    m.toBytes = n.toBytes ↔ ∀ a, m.get a ≡ n.get a [ZMOD 1999] := by
  apply Iff.intro
  · intro h a
    have hw := m.ofBytes_toBytes
    rw [h, n.ofBytes_toBytes] at hw
    have ha := congrArg (get · a) (Except.ok.inj hw)
    simp only [get_wrapped] at ha
    exact (wrap_eq_wrap_iff.1 ha).symm
  · intro h
    have hw : m.wrapped = n.wrapped := by
      ext a
      rw [get_wrapped, get_wrapped, wrap_eq_wrap_iff.2 (h a)]
    rw [← m.toBytes_wrapped, hw, n.toBytes_wrapped]

/-- Images of 200 bytes and memories at rest are the same thing in two forms. Storing any other
memory stores it as it is at rest. -/
theorem image_bijection :
    (∀ m : Memory, m.toBytes.length = 200 ∧ ofBytes m.toBytes = .ok m.wrapped ∧
      (ofBytes m.toBytes = .ok m ↔ ∀ a, LittleMan.AtRest (m.get a))) ∧
    (∀ (bytes : List UInt8) (m : Memory), ofBytes bytes = .ok m ↔
      (∀ a, LittleMan.AtRest (m.get a)) ∧ m.toBytes = bytes) ∧
    (∀ m n : Memory, m.toBytes = n.toBytes ↔ ∀ a, m.get a ≡ n.get a [ZMOD 1999]) ∧
    ∀ (bytes other : List UInt8) (m : Memory),
      ofBytes bytes = .ok m → ofBytes other = .ok m → bytes = other := by
  apply And.intro
  · intro m
    apply And.intro m.length_toBytes
    apply And.intro m.ofBytes_toBytes
    rw [m.ofBytes_toBytes, Except.ok.injEq]
    exact wrapped_eq_self_iff
  · apply And.intro fun bytes m => ofBytes_eq_ok_iff
    apply And.intro fun m n => toBytes_eq_toBytes_iff
    intro bytes other m h h'
    exact (ofBytes_eq_ok_iff.1 h).2.symm.trans (ofBytes_eq_ok_iff.1 h').2

/-- A memory that is not at rest: its first cell is stored as -999, its last one as -1. -/
def overfull : Memory :=
  ofFn fun a => if a.val = 0 then 1000 else if a.val = 99 then 1998 else 0

theorem image_bijection_overfull :
    overfull.toBytes.take 2 = [0xFC, 0x19] ∧ overfull.toBytes.drop 198 = [0xFF, 0xFF] ∧
      ofBytes overfull.toBytes = .ok overfull.wrapped ∧ ofBytes overfull.toBytes ≠ .ok overfull ∧
      overfull.wrapped.toBytes = overfull.toBytes := by
  obtain ⟨hm, hb, -, hu⟩ := image_bijection
  obtain ⟨-, hw, hr⟩ := hm overfull
  have hs : ofBytes overfull.wrapped.toBytes = .ok overfull.wrapped :=
    (hb _ _).2 ⟨overfull.wrapped_atRest, rfl⟩
  have hn : ¬ ∀ a, LittleMan.AtRest (overfull.get a) := by
    intro h
    exact absurd (h ⟨0, by decide⟩) (by decide +kernel)
  exact ⟨by decide +kernel, by decide +kernel, hw, fun he => hn (hr.1 he), hu _ _ _ hs hw⟩

end Memory

theorem Machine.load_wrapped (machine : Machine) (m : Memory) :
    machine.load m.wrapped = machine.load m := by
  rw [load, load, m.wrapped_wrapped]

end LittleMan
