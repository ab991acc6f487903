import LittleMan.Proofs.Numeral
import LittleMan.Proofs.Machine.Streams

/-! The lines that the machine accepts as numbers, and what becomes of them: a step that asks for a
number uses up the next line in any case, and gets its integer modulo 1999 if the line is accepted. -/

namespace LittleMan

/-- A line, its newline included, is the text of the numeral of a 64-bit integer. -/
def Accepted (line : List UInt8) (value : Int) : Prop :=
  ∃ text : String, decodeUtf8? line = some (text ++ "\n") ∧ Numeral text.toList value ∧
    InRange64 value

variable {inbox line : List UInt8} {value : Int}

theorem accepted_iff :
    Accepted line value ↔ ∃ text : String, line = encodeUtf8 text ++ [newline] ∧
      Numeral text.toList value ∧ InRange64 value := by
  simp only [Accepted, decodeUtf8?_eq_some_iff, encodeUtf8_append_newline, eq_comm]

theorem Numeral.encodeUtf8_eq {text : List Char} (h : Numeral text value) :
    encodeUtf8 (.ofList text) = text.map Char.toUInt8 :=
  encodeUtf8_ofList h.toNat_lt

/-- A line is accepted exactly if its bytes are those of a numeral and a newline. -/
theorem accepted_iff_numeralBytes :
    Accepted line value ↔
      (∃ numeral, line = numeral ++ [newline] ∧ NumeralBytes numeral value) ∧
        InRange64 value := by
  rw [accepted_iff]
  apply Iff.intro
  · intro hx
    obtain ⟨text, rfl, hn, hr⟩ := hx
    refine ⟨⟨_, rfl, numeralBytes_iff.2 ⟨_, hn, ?_⟩⟩, hr⟩
    rw [← hn.encodeUtf8_eq, String.ofList_toList]
  · intro hx
    obtain ⟨⟨numeral, rfl, hb⟩, hr⟩ := hx
    obtain ⟨text, hn, rfl⟩ := numeralBytes_iff.1 hb
    refine ⟨.ofList text, ?_, ?_, hr⟩
    · rw [hn.encodeUtf8_eq]
    · rw [String.toList_ofList]
      exact hn

theorem takenLine_terminated {rest : List UInt8} (hn : newline ∉ line) :
    takenLine (line ++ newline :: rest) = line ++ [newline] := by
  rw [takenLine, nextLine_terminated hn,
    if_pos (List.mem_append_right _ (List.mem_cons_self ..))]

theorem takenLine_last (hn : newline ∉ line) : takenLine line = line := by
  have h := takenLine_append_afterLine line
  rwa [afterLine_last hn, List.append_nil] at h

theorem offers_iff_accepted : Offers inbox value ↔ Accepted (takenLine inbox) value := by
  rw [accepted_iff]
  apply Iff.intro
  · intro h
    cases h with
    | line hn ht hv hr =>
      rw [takenLine_terminated hn, ← decodeUtf8?_eq_some_iff.1 ht]
      exact ⟨_, rfl, hv, hr⟩
  · intro hx
    obtain ⟨text, hl, hv, hr⟩ := hx
    by_cases hn : newline ∈ inbox
    · obtain ⟨line, rest, rfl, hm⟩ := List.eq_append_cons_of_mem hn
      rw [takenLine_terminated hm] at hl
      exact .line hm (decodeUtf8?_eq_some_iff.2 (List.append_cancel_right hl).symm) hv hr
    · rw [takenLine_last hn] at hl
      rw [hl] at hn
      exact absurd (List.mem_append_right _ (List.mem_singleton_self _)) hn

namespace Machine

variable {machine : Machine}

theorem Executes.step_of_accepted (hx : machine.Executes 901)
    (h : Accepted (takenLine machine.inbox) value) :
    machine.step.result = .ok () ∧ AtRest machine.step.machine.accumulator ∧
      machine.step.machine.accumulator ≡ value [ZMOD 1999] := by
  have hv := nextInteger_eq_ok_iff.2 (offers_iff_accepted.2 h)
  rw [hx.step_of_ok hv]
  exact ⟨rfl, wrap_atRest _, (wrap_modEq _).trans (wrap_modEq value)⟩

theorem Executes.step_of_not_accepted (hx : machine.Executes 901)
    (h : ¬ ∃ value, Accepted (takenLine machine.inbox) value) :
    machine.step.result = .error .inputOutput := by
  simp only [← offers_iff_accepted] at h
  obtain ⟨error, hv⟩ := not_offers_iff.1 h
  rw [hx.step_of_error hv]

/-- A step for a number succeeds exactly if the next line is accepted, and the accumulator is then
the one word at rest that agrees with the integer modulo 1999. On any other line, one without its
newline and the end of the input included, the step fails. It uses up the line either way. -/
theorem Executes.reads_line (hx : machine.Executes 901) :
    (machine.step.result = .ok () ↔ ∃ value, Accepted (takenLine machine.inbox) value) ∧
      (machine.step.result = .error .inputOutput ↔
        ¬ ∃ value, Accepted (takenLine machine.inbox) value) ∧
      (∀ value, Accepted (takenLine machine.inbox) value → ∀ word,
        machine.step.machine.accumulator = word ↔ AtRest word ∧ word ≡ value [ZMOD 1999]) ∧
      (UsesLine machine.inbox machine.step.machine.inbox ∧
        takenLine machine.inbox ++ machine.step.machine.inbox = machine.inbox) ∧
      ∀ value, Accepted (takenLine machine.inbox) value ↔
        (∃ numeral, takenLine machine.inbox = numeral ++ [newline] ∧ NumeralBytes numeral value) ∧
          InRange64 value := by
  refine ⟨?_, ?_, ?_, ?_, fun value => accepted_iff_numeralBytes⟩
  · apply Iff.intro
    · intro hr
      by_contra hn
      rw [hx.step_of_not_accepted hn] at hr
      cases hr
    · rintro ⟨value, h⟩
      exact (hx.step_of_accepted h).1
  · apply Iff.intro
    · rintro hr ⟨value, h⟩
      rw [(hx.step_of_accepted h).1] at hr
      cases hr
    · exact hx.step_of_not_accepted
  · intro value h word
    obtain ⟨-, ha, hm⟩ := hx.step_of_accepted h
    apply Iff.intro
    · rintro rfl
      exact ⟨ha, hm⟩
    · intro hw
      exact ha.eq_of_modEq hw.1 (hm.trans hw.2.symm)
  · rw [machine.step_steps.inbox_eq, if_pos hx]
    exact ⟨usesLine_afterLine _, takenLine_append_afterLine _⟩

/-- A machine that does nothing but read numbers. -/
def reader (inbox : List UInt8) : Machine := { inbox, memory := .ofFn fun _ => 901 }

theorem reader_executes (inbox : List UInt8) : (reader inbox).Executes 901 := by
  have hp : (reader inbox).pc < 100 := Nat.zero_lt_succ 99
  refine ⟨rfl, ?_⟩
  rw [Memory.read?_of_lt hp]
  exact congrArg some (Memory.get_ofFn _ _)

/-- The least integer is accepted with zeros before its digits, and what follows the line stays. The
integer after the greatest one, a carriage return or a space beside the digits, a sign without any,
a byte that is no text, a line without its newline and the end of the input are refused. -/
theorem reader_reads_line :
    ((reader (encodeUtf8 "-009223372036854775808\n7")).step.result = .ok () ∧
      (reader (encodeUtf8 "-009223372036854775808\n7")).step.machine.accumulator = -663 ∧
      (reader (encodeUtf8 "-009223372036854775808\n7")).step.machine.inbox = [55]) ∧
    ∀ inbox ∈ [encodeUtf8 "9223372036854775808\n", encodeUtf8 "4\r\n7\n", encodeUtf8 " 4\n",
        encodeUtf8 "-\n", [255, 10], encodeUtf8 "7", []],
      (reader inbox).step.result = .error .inputOutput ∧
        ¬ ∃ value, Accepted (takenLine inbox) value := by
  refine ⟨?_, ?_⟩
  · have hx := reader_executes (encodeUtf8 "-009223372036854775808\n7")
    obtain ⟨hok, -, hw, ⟨-, hi⟩, hb⟩ := hx.reads_line
    have hl : takenLine (reader (encodeUtf8 "-009223372036854775808\n7")).inbox =
        encodeUtf8 "-009223372036854775808" ++ [newline] := by decide +kernel
    have ha := (hb (-9223372036854775808)).2
      ⟨⟨_, hl, @NumeralBytes.minus (encodeUtf8 "009223372036854775808")
        ⟨by decide +kernel, by decide +kernel⟩⟩, by decide⟩
    refine ⟨hok.2 ⟨_, ha⟩, (hw _ ha _).2 ⟨by decide, by decide⟩, ?_⟩
    rw [hl] at hi
    exact List.append_cancel_left (hi.trans (by decide +kernel))
  · intro inbox hm
    have hr : (reader inbox).step.result = .error .inputOutput := by
      revert inbox
      decide +kernel
    exact ⟨hr, (reader_executes inbox).reads_line.2.1.1 hr⟩

end Machine

end LittleMan
