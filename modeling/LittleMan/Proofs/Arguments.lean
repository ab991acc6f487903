import LittleMan.Command.Request
import Mathlib.Data.List.Induction
import Mathlib.Data.List.TakeWhile

/-! Command lines: which of their arguments ask for the standard input and for a strict compilation. -/

namespace LittleMan.Request

/-- The arguments that may be options: a double dash ends them. -/
def options (arguments : List String) : List String := arguments.takeWhile (· != "--")

/-- An argument asks for the standard input by its name, or by its letter in a cluster of options
none of which takes that letter as part of its value. -/
def asksInput (argument : String) : Bool :=
  match argument.toList with
  | '-' :: '-' :: name => name == ['t', 'e', 'r', 'm', 'i', 'n', 'a', 'l']
  | '-' :: letters => (letters.takeWhile (· != 'o')).contains 't'
  | _ => false

namespace Scan

/-- A scan has become another one, in which the options are closed or a choice is made as well. -/
structure Notes (scan next : Scan) (closes strict terminal : Bool) : Prop where
  closed : next.closed = (scan.closed || closes)
  strict : next.strict = (scan.strict || strict)
  terminal : next.terminal = (scan.terminal || terminal)

variable {scan mid next : Scan} {argument value : String} {flag : Flag} {letter : Char}
  {letters text : List Char} {closes strict terminal strict' terminal' : Bool}
  {arguments : List String}

theorem Notes.of_eq (hc : next.closed = scan.closed) (hs : next.strict = scan.strict)
    (ht : next.terminal = scan.terminal) : scan.Notes next false false false :=
  ⟨hc.trans (Bool.or_false _).symm, hs.trans (Bool.or_false _).symm,
    ht.trans (Bool.or_false _).symm⟩

theorem Notes.trans (h : scan.Notes mid false strict terminal)
    (h' : mid.Notes next closes strict' terminal') :
    scan.Notes next closes (strict || strict') (terminal || terminal') where
  closed := by rw [h'.closed, h.closed, Bool.or_false]
  strict := by rw [h'.strict, h.strict, Bool.or_assoc]
  terminal := by rw [h'.terminal, h.terminal, Bool.or_assoc]

theorem setOut_notes (h : scan.setOut value = .ok next) : scan.Notes next false false false := by
  rw [setOut] at h
  split at h
  · cases h
  · split at h
    · cases h
    · cases h
      exact .of_eq rfl rfl rfl

theorem word_notes (h : scan.word argument = .ok next) : scan.Notes next false false false := by
  rw [word] at h
  split at h
  · split at h
    · cases h
    · split at h
      · cases h
        exact .of_eq rfl rfl rfl
      · cases h
  · split at h
    · cases h
    · split at h
      · cases h
      · split at h
        · cases h
        · cases h
          exact .of_eq rfl rfl rfl

theorem flag_notes (h : scan.flag flag = .ok next) :
    scan.Notes next false (flag == .strict) (flag == .terminal) := by
  cases flag with
  | verbose =>
    cases h
    split
    · exact .of_eq rfl rfl rfl
    · exact .of_eq rfl rfl rfl
  | help => cases h
  | version => cases h
  | terminal =>
    rw [Scan.flag] at h
    split at h
    · cases h
    · cases h
      exact ⟨(Bool.or_false _).symm, (Bool.or_false _).symm, (Bool.or_true _).symm⟩
  | strict =>
    rw [Scan.flag] at h
    split at h
    · cases h
    · cases h
      exact ⟨(Bool.or_false _).symm, (Bool.or_true _).symm, (Bool.or_false _).symm⟩
  | trace =>
    rw [Scan.flag] at h
    split at h
    · cases h
    · cases h
      exact .of_eq rfl rfl rfl
  | out =>
    cases h
    exact .of_eq rfl rfl rfl

theorem ofLetter?_notes (h : Flag.ofLetter? letter = some flag) :
    (flag == .strict) = false ∧ (flag == .terminal) = (letter == 't') ∧
      (flag = .out ↔ letter = 'o') := by
  unfold Flag.ofLetter? at h
  split at h
  · cases h
    decide
  · cases h
    decide
  · cases h
    decide
  · cases h
    decide
  · cases h
    decide
  · cases h

theorem letters_notes (h : scan.letters letters = .ok next) :
    scan.Notes next false false ((letters.takeWhile (· != 'o')).contains 't') := by
  induction letters generalizing scan with
  | nil =>
    cases h
    exact .of_eq rfl rfl rfl
  | cons letter rest ih =>
    rw [Scan.letters.eq_def] at h
    dsimp only at h
    split at h
    · cases h
    · next flag hl =>
      obtain ⟨hs, ht, ho⟩ := ofLetter?_notes hl
      split at h
      · cases h
      · by_cases hout : flag = .out
        · obtain rfl := ho.1 hout
          rw [if_pos hout] at h
          split at h
          · exact flag_notes h
          · exact setOut_notes h
          · exact setOut_notes h
        · rw [if_neg hout] at h
          cases hm : scan.flag flag with
          | error ending =>
            rw [hm] at h
            cases h
          | ok mid =>
            rw [hm] at h
            have hx := (flag_notes hm).trans (ih h)
            have hne : (letter != 'o') = true := bne_iff_ne.2 fun he => hout (ho.2 he)
            rw [hs, ht] at hx
            rw [List.takeWhile_cons_of_pos (p := (· != 'o')) hne, List.contains_cons,
              Bool.beq_comm]
            exact hx

theorem ofName?_notes {name : String} (h : Flag.ofName? name = some flag) :
    (flag == .strict) = (name == "strict") ∧ (flag == .terminal) = (name == "terminal") := by
  unfold Flag.ofName? at h
  split at h
  · cases h
    decide
  · cases h
    decide
  · cases h
    decide
  · cases h
    decide
  · cases h
    decide
  · cases h
    decide
  · cases h
    decide
  · cases h

theorem beq_ofList_ofList (text name : List Char) :
    (String.ofList text == String.ofList name) = (text == name) := by
  rw [Bool.eq_iff_iff, beq_iff_eq, beq_iff_eq, String.ofList_inj]

theorem long_notes (h : scan.long text = .ok next) :
    scan.Notes next false (text == ['s', 't', 'r', 'i', 'c', 't'])
      (text == ['t', 'e', 'r', 'm', 'i', 'n', 'a', 'l']) := by
  rw [long] at h
  split at h
  · cases h
  · next flag hn =>
    obtain ⟨hs, ht⟩ := ofName?_notes hn
    split at h
    · cases h
    · by_cases hv : (text.dropWhile (· != '=')).isEmpty = true
      · rw [if_pos hv] at h
        have htext : text.takeWhile (· != '=') = text := by
          have ha := List.takeWhile_append_dropWhile (p := (· != '=')) (l := text)
          rwa [List.isEmpty_iff.1 hv, List.append_nil] at ha
        have hx := flag_notes h
        rw [hs, ht, htext] at hx
        rw [← beq_ofList_ofList, ← beq_ofList_ofList]
        exact hx
      · rw [if_neg hv] at h
        have hne (name : List Char) (hd : (name.dropWhile (· != '=')).isEmpty = true) :
            (text == name) = false := by
          apply beq_eq_false_iff_ne.2
          rintro rfl
          exact hv hd
        rw [hne _ rfl, hne _ rfl]
        split at h
        · exact setOut_notes h
        · cases h

theorem ofName?_of_word_help (hv : scan.verb? = some .help) (h : scan.word argument = .ok next) :
    (Verb.ofName? argument).isSome = true := by
  rw [word, hv] at h
  dsimp only at h
  split at h
  · cases h
  · split at h
    · cases h
    · split at h
      · cases h
      · next hn =>
        cases hs : Verb.ofName? argument with
        | none => exact absurd ⟨rfl, by rw [hs]; rfl⟩ hn
        | some verb => rfl

theorem not_option_of_ofName? (h : (Verb.ofName? argument).isSome = true) :
    (argument == "--") = false ∧ (argument == "--strict") = false ∧
      asksInput argument = false := by
  unfold Verb.ofName? at h
  split at h
  · decide
  · decide
  · decide
  · decide
  · decide
  · decide
  · cases h

theorem asksInput_of_letters (hl : argument.toList = '-' :: letter :: letters)
    (hd : letter ≠ '-') :
    asksInput argument = ((letter :: letters).takeWhile (· != 'o')).contains 't' := by
  rw [asksInput, hl]
  split
  · next he =>
    cases he
    exact absurd rfl hd
  · next he =>
    cases he
    rfl
  · next he => exact absurd rfl (he (letter :: letters))

theorem asksInput_of_plain (hn : ∀ letter letters, argument.toList ≠ '-' :: letter :: letters) :
    asksInput argument = false := by
  rw [asksInput]
  split
  · next he => exact absurd he (hn _ _)
  · next letters _ he =>
    cases letters with
    | nil => rfl
    | cons letter letters => exact absurd he (hn letter letters)
  · rfl

theorem beq_ofList (argument : String) (name : List Char) :
    (argument == String.ofList name) = (argument.toList == name) := by
  rw [← beq_ofList_ofList, String.ofList_toList]

/-- Where an argument is taken as a word, either the options are closed or it is no option. -/
theorem word_argument_notes (h : scan.word argument = .ok next)
    (hc : (scan.closed || scan.verb? == some .help) = true) :
    scan.Notes next (argument == "--") (!scan.closed && argument == "--strict")
      (!scan.closed && asksInput argument) := by
  have hw := word_notes h
  cases hclosed : scan.closed with
  | true =>
    refine ⟨?_, hw.strict, hw.terminal⟩
    rw [hw.closed, hclosed]
    rfl
  | false =>
    rw [hclosed, Bool.false_or, beq_iff_eq] at hc
    obtain ⟨hd, hs, ha⟩ := not_option_of_ofName? (ofName?_of_word_help hc h)
    rw [hd, hs, ha]
    exact hw

/-- An argument counts as an option until the options are closed. -/
theorem argument_notes (h : scan.argument argument = .ok next) :
    scan.Notes next (argument == "--") (!scan.closed && argument == "--strict")
      (!scan.closed && asksInput argument) := by
  rw [Scan.argument] at h
  split at h
  · next hc => exact word_argument_notes h hc
  · next hc =>
    rw [(Bool.or_eq_false_iff.1 (Bool.eq_false_iff.2 hc)).1]
    change scan.Notes next (argument == .ofList ['-', '-'])
      (argument == .ofList ['-', '-', 's', 't', 'r', 'i', 'c', 't']) (asksInput argument)
    rw [beq_ofList, beq_ofList]
    split at h
    · next rest hl =>
      rw [asksInput, hl]
      split at h
      · cases h
      · split at h
        · next hr =>
          cases h
          rw [List.isEmpty_iff.1 hr]
          exact ⟨(Bool.or_true _).symm, (Bool.or_false _).symm, (Bool.or_false _).symm⟩
        · next hr =>
          have hd : ('-' :: '-' :: rest == ['-', '-']) = false :=
            beq_eq_false_iff_ne.2 fun he => hr (by cases he; rfl)
          rw [hd]
          exact long_notes h
    · next letter rest hn hl =>
      split at h
      · cases h
      · have hs (name : List Char) : (argument.toList == '-' :: '-' :: name) = false := by
          apply beq_eq_false_iff_ne.2
          rw [hl]
          rintro he
          cases he
          exact hn rfl
        rw [hs, hs, asksInput_of_letters hl hn]
        exact letters_notes h
    · next hn =>
      have hs (name : List Char) : (argument.toList == '-' :: '-' :: name) = false :=
        beq_eq_false_iff_ne.2 (hn _ _)
      rw [hs, hs, asksInput_of_plain hn]
      split at h
      · exact setOut_notes h
      · exact word_notes h

theorem options_cons_dash (arguments : List String) : options ("--" :: arguments) = [] :=
  List.takeWhile_cons_of_neg (by decide)

theorem options_cons (hd : argument ≠ "--") (arguments : List String) :
    options (argument :: arguments) = argument :: options arguments :=
  List.takeWhile_cons_of_pos (bne_iff_ne.2 hd)

theorem foldlM_notes (h : arguments.foldlM Scan.argument scan = .ok next) :
    scan.Notes next (arguments.contains "--")
      (!scan.closed && (options arguments).contains "--strict")
      (!scan.closed && (options arguments).any asksInput) := by
  induction arguments generalizing scan with
  | nil =>
    cases h
    rw [options, List.takeWhile_nil, List.contains_nil, List.contains_nil, List.any_nil,
      Bool.and_false]
    exact .of_eq rfl rfl rfl
  | cons first rest ih =>
    rw [List.foldlM_cons] at h
    cases hm : scan.argument first with
    | error ending =>
      rw [hm] at h
      cases h
    | ok mid =>
      rw [hm] at h
      have hn := argument_notes hm
      have hr := ih h
      by_cases hd : first = "--"
      · -- The scan is closed from here on, so that no later argument is an option.
        subst hd
        have hmid : mid.closed = true := hn.closed.trans (Bool.or_true _)
        refine ⟨?_, ?_, ?_⟩
        · rw [hr.closed, hmid, List.contains_cons]
          exact (Bool.or_true _).symm
        · rw [hr.strict, hn.strict, hmid, options_cons_dash]
          cases scan.closed <;> exact Bool.or_assoc _ _ _
        · rw [hr.terminal, hn.terminal, hmid, options_cons_dash]
          cases scan.closed <;> exact Bool.or_assoc _ _ _
      · have hb : (first == "--") = false := beq_eq_false_iff_ne.2 hd
        have hmid : mid.closed = scan.closed := by rw [hn.closed, hb, Bool.or_false]
        rw [hb] at hn
        rw [hmid] at hr
        rw [options_cons hd, List.contains_cons, List.contains_cons, List.any_cons,
          Bool.and_or_distrib_left, Bool.and_or_distrib_left, Bool.beq_comm (a := "--"), hb,
          Bool.beq_comm (a := "--strict")]
        exact hn.trans hr

end Scan

/-- The options of its command line tell whether a compilation is strict, and whether it reads the
standard input. -/
theorem compile_of_ofArguments {file? : Option String} {terminal strict : Bool} {out : String}
    {verbosity : Nat} {arguments : List String}
    (h : ofArguments arguments = .ok ⟨.compile file? terminal out strict, verbosity⟩) :
    strict = (options arguments).contains "--strict" ∧
      terminal = (options arguments).any asksInput := by
  rw [ofArguments] at h
  cases hs : arguments.foldlM Scan.argument {} with
  | error ending =>
    rw [hs] at h
    cases h
  | ok scan =>
    rw [hs] at h
    have hn := Scan.foldlM_notes hs
    change scan.finish = _ at h
    rw [Scan.finish] at h
    split at h
    · cases h
    · split at h
      · cases h
      · cases h
      · cases h
        exact ⟨hn.strict, hn.terminal⟩
      · cases h
      · cases h
      · cases h
      · cases h

end LittleMan.Request
