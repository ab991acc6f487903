import LittleMan.Machine.Step
import LittleMan.Proofs.Numeral
import Mathlib.Data.List.Forall2
import Mathlib.Data.List.Induction

/-! The decimal text of an integer, described by its bytes alone, and that it is what the machine
prints before a newline. -/

namespace LittleMan

/-- The decimal digits of a natural number. No zero stands before another digit. -/
structure DecimalDigits (digits : List UInt8) (n : Nat) : Prop where
  bytes : DigitBytes digits
  value : decimal digits = n
  shortest : digits.head? = some 48 → digits = [48]

/-- The decimal text of an integer: the digits of its absolute value, after a minus sign if it is
negative. -/
inductive DecimalText : List UInt8 → Int → Prop
  | natural {digits : List UInt8} {n : Nat} (hd : DecimalDigits digits n) : DecimalText digits n
  | negative {digits : List UInt8} {n : Nat} (hd : DecimalDigits digits n) (hn : 0 < n) :
      DecimalText (45 :: digits) (-n)

/-- The decimal text of an integer and a line feed. -/
inductive PrintedLine : List UInt8 → Int → Prop
  | line {text : List UInt8} {value : Int} (ht : DecimalText text value) :
      PrintedLine (text ++ [10]) value

/-- A text is made of the printed lines of some integers, in their order. -/
def PrintedLines (text : List UInt8) (values : List Int) : Prop :=
  ∃ lines, List.Forall₂ PrintedLine lines values ∧ text = lines.flatten

variable {digits text line : List UInt8} {byte : UInt8} {value : Int} {n : Nat}

theorem decimal_concat (digits : List UInt8) (byte : UInt8) :
    decimal (digits ++ [byte]) = 10 * decimal digits + (byte.toNat - 48) := by
  rw [decimal, List.foldl_append]
  rfl

theorem map_toDigits_of_lt_ten (hl : 48 ≤ byte.toNat) (hu : byte.toNat ≤ 57) :
    (Nat.toDigits 10 (byte.toNat - 48)).map Char.toUInt8 = [byte] := by
  have hd : byte.toNat - 48 < 10 := by omega
  have hc : (Nat.digitChar (byte.toNat - 48)).toUInt8 = byte := by
    apply UInt8.toNat_inj.1
    rw [toNat_toUInt8_of_isDigit (by rw [Nat.isDigit_digitChar, decide_eq_true hd]),
      Nat.toNat_digitChar_of_lt_ten hd]
    omega
  rw [Nat.toDigits_of_lt_base hd, List.map_singleton, hc]

theorem head?_toDigits_ne (hn : 0 < n) : (Nat.toDigits 10 n).head? ≠ some '0' := by
  induction n using Nat.strong_induction_on with
  | _ n ih =>
    by_cases hlt : n < 10
    · rw [Nat.toDigits_of_lt_base hlt, List.head?_singleton, ne_eq, Option.some_inj,
        Nat.digitChar_eq_zero]
      omega
    · rw [Nat.toDigits_of_base_le (by decide) (Nat.le_of_not_lt hlt),
        List.head?_append_of_ne_nil _ Nat.toDigits_ne_nil]
      exact ih (n / 10) (by omega) (by omega)

theorem decimalDigits_toDigits (n : Nat) :
    DecimalDigits ((Nat.toDigits 10 n).map Char.toUInt8) n where
  bytes := (digits_toDigits n).digitBytes
  value := by rw [(digits_toDigits n).decimal_bytes, Nat.ofDigitChars_ten_toDigits]
  shortest := by
    intro hz
    obtain rfl | hn := Nat.eq_zero_or_pos n
    · rfl
    · rw [List.head?_map] at hz
      obtain ⟨c, hc, he⟩ := Option.map_eq_some_iff.1 hz
      have hd := (digits_toDigits n).digit c (List.mem_of_head? hc)
      have hv : c.toNat = 48 := by rw [← toNat_toUInt8_of_isDigit hd, he]; rfl
      obtain rfl : c = '0' := Char.toNat_inj.1 hv
      exact absurd hc (head?_toDigits_ne hn)

/-- A natural number has no other decimal digits than those that it is printed with. -/
theorem DecimalDigits.eq_map_toDigits (h : DecimalDigits digits n) :
    digits = (Nat.toDigits 10 n).map Char.toUInt8 := by
  obtain ⟨hb, rfl, hs⟩ := h
  induction digits using List.reverseRecOn with
  | nil => exact absurd rfl hb.ne_nil
  | append_singleton digits byte ih =>
    obtain ⟨hl, hu⟩ := hb.digit byte (List.mem_append_right _ (List.mem_singleton_self _))
    rw [decimal_concat]
    by_cases hn : digits = []
    · have hz : decimal [] = 0 := rfl
      rw [hn, hz, Nat.mul_zero, Nat.zero_add, map_toDigits_of_lt_ten hl hu, List.nil_append]
    · -- The digits before the last one are those of a number too, which is not zero.
      have hne : digits.head? ≠ some 48 := by
        intro hz
        rw [List.head?_append_of_ne_nil _ hn] at hs
        have hlen := congrArg List.length (hs hz)
        rw [List.length_append] at hlen
        exact hn (List.length_eq_zero_iff.1 (Nat.succ.inj hlen))
      have hd := ih ⟨hn, fun b hm => hb.digit b (List.mem_append_left _ hm)⟩
        fun hz => absurd hz hne
      have hpos : 0 < decimal digits := by
        apply Nat.pos_of_ne_zero
        intro hz
        rw [hz] at hd
        rw [hd] at hne
        exact hne rfl
      rw [← Nat.toDigits_append_toDigits (by decide) hpos (by omega), List.map_append, ← hd,
        map_toDigits_of_lt_ten hl hu]

theorem map_numeral_of_neg (h : value < 0) :
    (numeral value).map Char.toUInt8 = 45 :: (Nat.toDigits 10 value.natAbs).map Char.toUInt8 := by
  rw [numeral, if_pos h]
  rfl

theorem map_numeral_of_nonneg (h : 0 ≤ value) :
    (numeral value).map Char.toUInt8 = (Nat.toDigits 10 value.natAbs).map Char.toUInt8 := by
  rw [numeral, if_neg (Int.not_lt.2 h)]

theorem decimalText_iff : DecimalText text value ↔ text = (numeral value).map Char.toUInt8 := by
  apply Iff.intro
  · intro h
    cases h with
    | @natural _ n hd =>
      rw [map_numeral_of_nonneg (Int.natCast_nonneg n)]
      exact hd.eq_map_toDigits
    | @negative digits n hd hn =>
      rw [map_numeral_of_neg (by omega), Int.natAbs_neg, Int.natAbs_natCast,
        ← hd.eq_map_toDigits]
  · rintro rfl
    obtain ⟨n, rfl | rfl⟩ := value.eq_nat_or_neg
    · rw [map_numeral_of_nonneg (Int.natCast_nonneg n)]
      exact .natural (decimalDigits_toDigits n)
    · obtain rfl | hn := Nat.eq_zero_or_pos n
      · exact .natural (decimalDigits_toDigits 0)
      · rw [map_numeral_of_neg (by omega), Int.natAbs_neg, Int.natAbs_natCast]
        exact .negative (decimalDigits_toDigits n) hn

theorem outputLine_eq (value : Int) :
    Machine.outputLine value = (numeral value).map Char.toUInt8 ++ [10] := by
  rw [Machine.outputLine, encodeUtf8_ofList (numeral_numeral value).toNat_lt]
  rfl

/-- A machine prints the decimal text of a word and a line feed, and there is one such line only. -/
theorem printedLine_iff : PrintedLine line value ↔ line = Machine.outputLine value := by
  rw [outputLine_eq]
  apply Iff.intro
  · intro h
    cases h with
    | line ht => rw [decimalText_iff.1 ht]
  · rintro rfl
    exact .line (decimalText_iff.2 rfl)

theorem printedLine_outputLine (value : Int) : PrintedLine (Machine.outputLine value) value :=
  printedLine_iff.2 rfl

theorem printedLines_iff {values : List Int} :
    PrintedLines text values ↔ text = values.flatMap Machine.outputLine := by
  rw [List.flatMap_def]
  apply Iff.intro
  · intro h
    obtain ⟨lines, hl, rfl⟩ := h
    induction hl with
    | nil => rfl
    | cons hd _ ih => rw [List.flatten_cons, List.map_cons, List.flatten_cons, ih,
        printedLine_iff.1 hd]
  · rintro rfl
    refine ⟨values.map Machine.outputLine, ?_, rfl⟩
    rw [List.forall₂_map_left_iff]
    exact List.forall₂_same.2 fun value _ => printedLine_outputLine value

end LittleMan
