import LittleMan.Proofs.Input
import Mathlib.Data.List.Basic

/-! The shortest numeral of an integer, which reads back as that integer alone, also from its bytes, and
the bytes of numerals in general. -/

namespace LittleMan

/-- At least one byte, each that of an ASCII digit. -/
structure DigitBytes (bytes : List UInt8) : Prop where
  ne_nil : bytes ≠ []
  digit : ∀ byte ∈ bytes, 48 ≤ byte.toNat ∧ byte.toNat ≤ 57

/-- The natural number that ASCII digits denote in decimal notation. -/
def decimal (digits : List UInt8) : Nat :=
  digits.foldl (fun value digit => 10 * value + (digit.toNat - 48)) 0

/-- The bytes of a numeral: those of digits, after a plus sign, a minus sign or no sign. -/
inductive NumeralBytes : List UInt8 → Int → Prop
  | unsigned {digits : List UInt8} (hd : DigitBytes digits) : NumeralBytes digits (decimal digits)
  | plus {digits : List UInt8} (hd : DigitBytes digits) :
      NumeralBytes (43 :: digits) (decimal digits)
  | minus {digits : List UInt8} (hd : DigitBytes digits) :
      NumeralBytes (45 :: digits) (-decimal digits)

variable {value other : Int} {c : Char} {text : List Char} {bytes : List UInt8}

theorem digits_toDigits (n : Nat) : Digits (Nat.toDigits 10 n) :=
  ⟨Nat.toDigits_ne_nil, fun _ hc => Nat.isDigit_of_mem_toDigits (by decide) (by decide) hc⟩

theorem numeral_numeral (value : Int) : Numeral (numeral value) value := by
  rw [numeral]
  split
  · next hneg =>
    have hm := Numeral.minus (digits_toDigits value.natAbs)
    rw [Nat.ofDigitChars_ten_toDigits] at hm
    have he : -(value.natAbs : Int) = value := by omega
    rwa [he] at hm
  · next hpos =>
    have hm := Numeral.unsigned (digits_toDigits value.natAbs)
    rw [Nat.ofDigitChars_ten_toDigits] at hm
    have he : (value.natAbs : Int) = value := by omega
    rwa [he] at hm

theorem readNumeral_numeral (h : InRange64 value) : readNumeral (numeral value) = .ok value :=
  readNumeral_eq_ok_iff.2 ⟨numeral_numeral value, h⟩

theorem mem_numeral (h : c ∈ numeral value) : c = '-' ∨ c.isDigit = true := by
  have hd := (digits_toDigits value.natAbs).digit c
  rw [numeral] at h
  split at h
  · obtain h | h := List.mem_cons.1 h
    · exact .inl h
    · exact .inr (hd h)
  · exact .inr (hd h)

theorem numeral_ne_nil (value : Int) : numeral value ≠ [] := by
  rw [numeral]
  split
  · exact List.cons_ne_nil _ _
  · exact Nat.toDigits_ne_nil

theorem notMem_numeral (hc : c ≠ '-') (hd : c.isDigit = false) : c ∉ numeral value := by
  intro h
  obtain he | he := mem_numeral h
  · exact hc he
  · rw [hd] at he
    cases he

theorem Digits.not_sign {digits : List Char} (hc : c.isDigit = false) : ¬ Digits (c :: digits) := by
  intro h
  have hd := h.digit c (List.mem_cons_self ..)
  rw [hc] at hd
  cases hd

/-- A text is the numeral of one integer at most. -/
theorem Numeral.unique (h : Numeral text value) (h' : Numeral text other) : value = other := by
  cases h with
  | unsigned hd =>
    cases h' with
    | unsigned => rfl
    | plus => exact absurd hd (Digits.not_sign rfl)
    | minus => exact absurd hd (Digits.not_sign rfl)
  | plus hd =>
    cases h' with
    | unsigned hd' => exact absurd hd' (Digits.not_sign rfl)
    | plus => rfl
  | minus hd =>
    cases h' with
    | unsigned hd' => exact absurd hd' (Digits.not_sign rfl)
    | minus => rfl

theorem numeral_injective (h : numeral value = numeral other) : value = other := by
  have hn := numeral_numeral value
  rw [h] at hn
  exact hn.unique (numeral_numeral other)

theorem length_numeral_le (hl : -999 ≤ value) (hu : value ≤ 9999) : (numeral value).length ≤ 4 := by
  rw [numeral]
  split
  · exact Nat.succ_le_succ ((Nat.length_toDigits_le_iff (by decide) (by decide)).2 (by omega))
  · exact (Nat.length_toDigits_le_iff (by decide) (by decide)).2 (by omega)

theorem decodeUtf8?_encodeUtf8 (text : String) : decodeUtf8? (encodeUtf8 text) = some text := by
  have hb : text.toUTF8.data.toList.toByteArray = text.toUTF8 := by
    apply ByteArray.ext
    rw [List.data_toByteArray]
  rw [decodeUtf8?, encodeUtf8, hb, String.fromUTF8?, String.toUTF8_eq_toByteArray,
    dif_pos text.isValidUTF8]
  rfl

theorem decodeUtf8?_eq_some_iff {text : String} :
    decodeUtf8? bytes = some text ↔ encodeUtf8 text = bytes := by
  apply Iff.intro
  · intro h
    rw [decodeUtf8?, String.fromUTF8?] at h
    split at h
    · cases h
      rw [encodeUtf8, String.toUTF8_eq_toByteArray]
      exact List.toList_data_toByteArray
    · cases h
  · rintro rfl
    exact decodeUtf8?_encodeUtf8 text

theorem encodeUtf8_append_newline (text : String) :
    encodeUtf8 (text ++ "\n") = encodeUtf8 text ++ [newline] := by
  simp only [encodeUtf8, String.toUTF8_eq_toByteArray, String.toByteArray_append,
    ByteArray.data_append, Array.toList_append]
  rfl

/-- A text in ASCII has one byte for each of its characters. -/
theorem encodeUtf8_ofList (h : ∀ c ∈ text, c.toNat < 128) :
    encodeUtf8 (.ofList text) = text.map Char.toUInt8 := by
  rw [encodeUtf8, String.toUTF8_eq_toByteArray, String.toByteArray_ofList]
  induction text with
  | nil => rfl
  | cons c text ih =>
    have hc : c.utf8Size = 1 := by
      rw [Char.utf8Size_eq_one_iff, UInt32.le_iff_toNat_le]
      exact Nat.le_of_lt_succ (h c (List.mem_cons_self ..))
    rw [List.utf8Encode_cons, List.utf8Encode_singleton, String.utf8EncodeChar_eq_singleton hc,
      ByteArray.data_append, Array.toList_append, ih fun d hd => h d (List.mem_cons_of_mem c hd),
      List.toList_data_toByteArray]
    rfl

theorem toNat_bounds_of_isDigit (h : c.isDigit = true) : 48 ≤ c.toNat ∧ c.toNat ≤ 57 := by
  rw [Char.isDigit, Bool.and_eq_true, decide_eq_true_eq, decide_eq_true_eq] at h
  exact ⟨UInt32.le_iff_toNat_le.1 h.1, UInt32.le_iff_toNat_le.1 h.2⟩

theorem isDigit_of_toNat_bounds (hl : 48 ≤ c.toNat) (hu : c.toNat ≤ 57) : c.isDigit = true := by
  rw [Char.isDigit, Bool.and_eq_true, decide_eq_true_eq, decide_eq_true_eq]
  exact ⟨UInt32.le_iff_toNat_le.2 hl, UInt32.le_iff_toNat_le.2 hu⟩

theorem toNat_toUInt8_of_isDigit (h : c.isDigit = true) : c.toUInt8.toNat = c.toNat := by
  obtain ⟨-, hu⟩ := toNat_bounds_of_isDigit h
  exact Nat.mod_eq_of_lt (by omega : c.toNat < 256)

theorem toUInt8_ofUInt8 (byte : UInt8) : (Char.ofUInt8 byte).toUInt8 = byte :=
  UInt8.toUInt8_toUInt32 byte

theorem map_toUInt8_ofUInt8 (bytes : List UInt8) :
    (bytes.map Char.ofUInt8).map Char.toUInt8 = bytes := by
  rw [List.map_map]
  exact List.map_id'' toUInt8_ofUInt8 bytes

theorem Digits.digitBytes (h : Digits text) : DigitBytes (text.map Char.toUInt8) := by
  refine ⟨fun he => h.ne_nil (List.map_eq_nil_iff.1 he), ?_⟩
  intro byte hb
  obtain ⟨c, hc, rfl⟩ := List.mem_map.1 hb
  have hd := h.digit c hc
  rw [toNat_toUInt8_of_isDigit hd]
  exact toNat_bounds_of_isDigit hd

theorem DigitBytes.digits (h : DigitBytes bytes) : Digits (bytes.map Char.ofUInt8) := by
  refine ⟨fun he => h.ne_nil (List.map_eq_nil_iff.1 he), ?_⟩
  intro c hc
  obtain ⟨byte, hb, rfl⟩ := List.mem_map.1 hc
  obtain ⟨hl, hu⟩ := h.digit byte hb
  exact isDigit_of_toNat_bounds hl hu

theorem Digits.decimal_bytes (h : Digits text) :
    decimal (text.map Char.toUInt8) = Nat.ofDigitChars 10 text 0 := by
  rw [decimal, Nat.ofDigitChars, List.foldl_map]
  apply List.foldl_ext
  intro value c hc
  rw [toNat_toUInt8_of_isDigit (h.digit c hc)]
  rfl

theorem DigitBytes.ofDigitChars (h : DigitBytes bytes) :
    Nat.ofDigitChars 10 (bytes.map Char.ofUInt8) 0 = decimal bytes := by
  rw [← h.digits.decimal_bytes, map_toUInt8_ofUInt8]

/-- The bytes of a numeral are those of the characters of one. -/
theorem numeralBytes_iff :
    NumeralBytes bytes value ↔ ∃ text, Numeral text value ∧ text.map Char.toUInt8 = bytes := by
  apply Iff.intro
  · intro h
    cases h with
    | unsigned hd =>
      rw [← hd.ofDigitChars]
      exact ⟨_, .unsigned hd.digits, map_toUInt8_ofUInt8 _⟩
    | plus hd =>
      rw [← hd.ofDigitChars]
      exact ⟨_, .plus hd.digits, congrArg (43 :: ·) (map_toUInt8_ofUInt8 _)⟩
    | minus hd =>
      rw [← hd.ofDigitChars]
      exact ⟨_, .minus hd.digits, congrArg (45 :: ·) (map_toUInt8_ofUInt8 _)⟩
  · intro hx
    obtain ⟨text, h, rfl⟩ := hx
    cases h with
    | unsigned hd =>
      rw [← hd.decimal_bytes]
      exact .unsigned hd.digitBytes
    | plus hd =>
      rw [← hd.decimal_bytes]
      exact .plus hd.digitBytes
    | minus hd =>
      rw [← hd.decimal_bytes]
      exact .minus hd.digitBytes

theorem Numeral.toNat_lt (h : Numeral text value) : ∀ c ∈ text, c.toNat < 128 := by
  have hall {digits : List Char} (hd : Digits digits) : ∀ c ∈ digits, c.toNat < 128 := by
    intro c hc
    obtain ⟨-, hu⟩ := toNat_bounds_of_isDigit (hd.digit c hc)
    omega
  cases h with
  | unsigned hd => exact hall hd
  | plus hd => exact List.forall_mem_cons.2 ⟨by decide, hall hd⟩
  | minus hd => exact List.forall_mem_cons.2 ⟨by decide, hall hd⟩

theorem toNat_bounds_of_mem_numeral (h : c ∈ numeral value) : 45 ≤ c.toNat ∧ c.toNat ≤ 57 := by
  obtain rfl | hd := mem_numeral h
  · decide
  · obtain ⟨hl, hu⟩ := toNat_bounds_of_isDigit hd
    exact ⟨Nat.le_trans (by decide) hl, hu⟩

end LittleMan
