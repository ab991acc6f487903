import LittleMan.Machine.Inbox
import Mathlib.Data.List.TakeWhile

/-! Lines of input: where they end, and which of them give an integer. -/

namespace LittleMan

/-- A text of at least one digit. -/
structure Digits (text : List Char) : Prop where
  ne_nil : text ≠ []
  digit : ∀ c ∈ text, c.isDigit = true

/-- The numerals of an integer: its digits after at most one sign. -/
inductive Numeral : List Char → Int → Prop
  | unsigned {digits : List Char} (hd : Digits digits) :
      Numeral digits (Nat.ofDigitChars 10 digits 0)
  | plus {digits : List Char} (hd : Digits digits) :
      Numeral ('+' :: digits) (Nat.ofDigitChars 10 digits 0)
  | minus {digits : List Char} (hd : Digits digits) :
      Numeral ('-' :: digits) (-Nat.ofDigitChars 10 digits 0)

/-- The integers of 64 bits. -/
abbrev InRange64 (value : Int) : Prop :=
  -9223372036854775808 ≤ value ∧ value < 9223372036854775808

/-- An inbox goes on with a line that ends and that is the numeral of a 64-bit integer. -/
inductive Offers : List UInt8 → Int → Prop
  | line {line rest : List UInt8} {text : String} {value : Int} (hn : newline ∉ line)
      (ht : decodeUtf8? line = some text) (hv : Numeral text.toList value)
      (hr : InRange64 value) : Offers (line ++ newline :: rest) value

/-- What is left of an inbox once all is read up to its next newline, or to its end. -/
inductive UsesLine : List UInt8 → List UInt8 → Prop
  | terminated {line rest : List UInt8} (hn : newline ∉ line) :
      UsesLine (line ++ newline :: rest) rest
  | last {line : List UInt8} (hn : newline ∉ line) : UsesLine line []

variable {text : List Char} {value sign : Int} {inbox line rest : List UInt8}

theorem Digits.takeWhile (h : Digits text) : text.takeWhile Char.isDigit = text :=
  List.takeWhile_eq_self_iff.2 h.digit

theorem Digits.of_check (h : (text.isEmpty || text.any (!·.isDigit)) = false) : Digits text := by
  obtain ⟨he, ha⟩ := Bool.or_eq_false_iff.1 h
  refine ⟨List.isEmpty_eq_false_iff.1 he, ?_⟩
  intro c hc
  have hd := List.any_eq_false.1 ha c hc
  rwa [Bool.not_eq_true', Bool.not_eq_false] at hd

theorem Digits.check (h : Digits text) : (text.isEmpty || text.any (!·.isDigit)) = false := by
  apply Bool.or_eq_false_iff.2
  refine ⟨List.isEmpty_eq_false_iff.2 h.ne_nil, List.any_eq_false.2 ?_⟩
  intro c hc
  rw [h.digit c hc]
  decide

theorem readMagnitude_eq_ok_iff :
    readMagnitude sign text = .ok value ↔
      Digits text ∧ sign * Nat.ofDigitChars 10 text 0 = value ∧ InRange64 value := by
  rw [readMagnitude]
  apply Iff.intro
  · intro h
    split at h
    · cases h
    · next hu =>
      split at h
      · cases h
      · next hl =>
        split at h
        · cases h
        · next hc =>
          have hd := Digits.of_check (Bool.eq_false_iff.2 hc)
          rw [hd.takeWhile] at h hu hl
          cases h
          exact ⟨hd, rfl, Int.not_lt.1 hl, Int.not_le.1 hu⟩
  · intro hx
    obtain ⟨hd, rfl, hl, hu⟩ := hx
    rw [hd.takeWhile, if_neg (Int.not_le.2 hu), if_neg (Int.not_lt.2 hl), hd.check]
    rfl

theorem Digits.readNumeral_eq (h : Digits text) : readNumeral text = readMagnitude 1 text := by
  cases text with
  | nil => exact absurd rfl h.ne_nil
  | cons c text =>
    have hc := h.digit c (List.mem_cons_self ..)
    rw [readNumeral]
    · intro he
      cases he
    · intro rest he
      cases he
      cases hc
    · intro rest he
      cases he
      cases hc

/-- Reading accepts exactly the numerals of 64-bit integers. -/
theorem readNumeral_eq_ok_iff :
    readNumeral text = .ok value ↔ Numeral text value ∧ InRange64 value := by
  apply Iff.intro
  · intro h
    rw [readNumeral.eq_def] at h
    split at h
    · cases h
    · obtain ⟨hd, rfl, hr⟩ := readMagnitude_eq_ok_iff.1 h
      rw [Int.one_mul] at hr ⊢
      exact ⟨.plus hd, hr⟩
    · obtain ⟨hd, rfl, hr⟩ := readMagnitude_eq_ok_iff.1 h
      rw [Int.neg_one_mul] at hr ⊢
      exact ⟨.minus hd, hr⟩
    · obtain ⟨hd, rfl, hr⟩ := readMagnitude_eq_ok_iff.1 h
      rw [Int.one_mul] at hr ⊢
      exact ⟨.unsigned hd, hr⟩
  · intro hx
    obtain ⟨h, hr⟩ := hx
    cases h with
    | unsigned hd =>
      rw [hd.readNumeral_eq]
      exact readMagnitude_eq_ok_iff.2 ⟨hd, Int.one_mul _, hr⟩
    | plus hd => exact readMagnitude_eq_ok_iff.2 ⟨hd, Int.one_mul _, hr⟩
    | minus hd => exact readMagnitude_eq_ok_iff.2 ⟨hd, Int.neg_one_mul _, hr⟩

theorem ne_newline_of_mem {byte : UInt8} (hn : newline ∉ line) (hb : byte ∈ line) :
    (byte != newline) = true := by
  rw [bne_iff_ne]
  rintro rfl
  exact hn hb

theorem nextLine_terminated (hn : newline ∉ line) : nextLine (line ++ newline :: rest) = line := by
  rw [nextLine, List.takeWhile_append_of_pos fun byte => ne_newline_of_mem hn]
  exact List.append_nil line

theorem afterLine_terminated (hn : newline ∉ line) :
    afterLine (line ++ newline :: rest) = rest := by
  rw [afterLine, List.dropWhile_append_of_pos fun byte => ne_newline_of_mem hn]
  rfl

theorem afterLine_last (hn : newline ∉ line) : afterLine line = [] := by
  rw [afterLine, List.dropWhile_eq_nil_iff.2 fun byte => ne_newline_of_mem hn]
  rfl

theorem usesLine_afterLine (inbox : List UInt8) : UsesLine inbox (afterLine inbox) := by
  by_cases hn : newline ∈ inbox
  · obtain ⟨line, rest, rfl, hl⟩ := List.eq_append_cons_of_mem hn
    rw [afterLine_terminated hl]
    exact .terminated hl
  · rw [afterLine_last hn]
    exact .last hn

/-- A line is used up in one way only. -/
theorem UsesLine.eq_afterLine (h : UsesLine inbox rest) : rest = afterLine inbox := by
  cases h with
  | terminated hn => exact (afterLine_terminated hn).symm
  | last hn => exact (afterLine_last hn).symm

theorem nextInteger_terminated (hn : newline ∉ line) :
    nextInteger (line ++ newline :: rest) = .ok value ↔
      ∃ text, decodeUtf8? line = some text ∧ readNumeral text.toList = .ok value := by
  have hc : (line ++ newline :: rest).contains newline = true := by simp
  have he : (line ++ newline :: rest).isEmpty = false := by simp
  rw [nextInteger, nextLine_terminated hn]
  cases ht : decodeUtf8? line with
  | none => simp
  | some text =>
    simp only [he, hc, Bool.false_eq_true, if_false, Bool.not_true, Option.some.injEq,
      exists_eq_left']
    cases readNumeral text.toList <;> simp

theorem nextInteger_eq_ok_iff : nextInteger inbox = .ok value ↔ Offers inbox value := by
  apply Iff.intro
  · intro h
    by_cases hn : newline ∈ inbox
    · obtain ⟨line, rest, rfl, hl⟩ := List.eq_append_cons_of_mem hn
      obtain ⟨text, ht, hv⟩ := (nextInteger_terminated hl).1 h
      obtain ⟨hv, hr⟩ := readNumeral_eq_ok_iff.1 hv
      exact .line hl ht hv hr
    · have hc : inbox.contains newline = false := by simpa using hn
      rw [nextInteger] at h
      split at h
      · cases h
      · split at h
        · cases h
        · rw [hc] at h
          cases h
  · intro h
    cases h with
    | line hn ht hv hr =>
      exact (nextInteger_terminated hn).2 ⟨_, ht, readNumeral_eq_ok_iff.2 ⟨hv, hr⟩⟩

theorem Offers.unique {other : Int} (h : Offers inbox value) (h' : Offers inbox other) :
    value = other := by
  have hv := nextInteger_eq_ok_iff.2 h
  rw [nextInteger_eq_ok_iff.2 h'] at hv
  exact (Except.ok.inj hv).symm

theorem not_offers_iff :
    (¬ ∃ value, Offers inbox value) ↔ ∃ error, nextInteger inbox = .error error := by
  cases h : nextInteger inbox with
  | ok value =>
    have ho := nextInteger_eq_ok_iff.1 h
    simp only [reduceCtorEq, exists_false, iff_false, not_not]
    exact ⟨value, ho⟩
  | error error =>
    refine iff_of_true ?_ ⟨error, rfl⟩
    rintro ⟨value, ho⟩
    rw [nextInteger_eq_ok_iff.2 ho] at h
    cases h

end LittleMan
