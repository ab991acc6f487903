import LittleMan.Assembly.Line
import Mathlib.Data.List.TakeWhile

/-! The words of a line and its comment, and what replacing one word makes of both. -/

namespace LittleMan

/-- What can stand between blanks. -/
structure IsWord (word : List Char) : Prop where
  ne_nil : word ≠ []
  notBlank : ∀ c ∈ word, isBlank c = false

/-- A line whose first word comes after a gap and before a rest. -/
structure Opens (line gap word rest : List Char) : Prop where
  eq : line = gap ++ (word ++ rest)
  gap : ∀ c ∈ gap, isBlank c = true
  word : IsWord word
  rest : ∀ c ∈ rest.head?, isBlank c = true

/-- A line with the word at a place, counted from zero, replaced. -/
def replaceWord : Nat → List Char → List Char → List Char
  | 0, new, line =>
    line.takeWhile isBlank ++ (new ++ (line.dropWhile isBlank).dropWhile (!isBlank ·))
  | k + 1, new, line =>
    line.takeWhile isBlank ++ ((line.dropWhile isBlank).takeWhile (!isBlank ·) ++
      replaceWord k new ((line.dropWhile isBlank).dropWhile (!isBlank ·)))

variable {line gap word rest new run head tail comment : List Char} {c : Char} {k : Nat}

@[simp] theorem words_nil : words [] = [] := by
  rw [words, List.splitOnP_nil]
  rfl

theorem words_append_blank (hc : isBlank c = true) (head tail : List Char) :
    words (head ++ c :: tail) = words head ++ words tail := by
  rw [words, List.splitOnP_append_cons head tail hc, List.filter_append]
  rfl

theorem words_blanks_append (h : ∀ c ∈ run, isBlank c = true) (tail : List Char) :
    words (run ++ tail) = words tail := by
  induction run with
  | nil => rfl
  | cons c run ih =>
    have hc := words_append_blank (h c (List.mem_cons_self ..)) [] (run ++ tail)
    rw [words_nil] at hc
    exact hc.trans (ih fun d hd => h d (List.mem_cons_of_mem c hd))

theorem words_of_blank (h : ∀ c ∈ line, isBlank c = true) : words line = [] := by
  have hw := words_blanks_append h []
  rwa [List.append_nil, words_nil] at hw

theorem isWord_iff : IsWord word ↔ word ≠ [] ∧ word.all (!isBlank ·) = true := by
  simp only [List.all_eq_true, Bool.not_eq_true']
  exact ⟨fun h => ⟨h.ne_nil, h.notBlank⟩, fun h => ⟨h.1, h.2⟩⟩

theorem IsWord.words_eq (h : IsWord word) : words word = [word] := by
  have hw : word.isEmpty = false := List.isEmpty_eq_false_iff.2 h.ne_nil
  rw [words, List.splitOnP_eq_singleton h.notBlank, List.filter_cons_of_pos, List.filter_nil]
  rw [hw]
  rfl

theorem IsWord.not_isBlank (h : IsWord word) (hc : c ∈ word) : (!isBlank c) = true := by
  rw [h.notBlank c hc]
  rfl

theorem Opens.words_eq (h : Opens line gap word rest) : words line = word :: words rest := by
  rw [h.eq, words_blanks_append h.gap]
  cases rest with
  | nil => rw [List.append_nil, h.word.words_eq, words_nil]
  | cons c rest =>
    have hc := h.rest c rfl
    have hr := words_append_blank hc [] rest
    rw [words_nil] at hr
    rw [words_append_blank hc, h.word.words_eq]
    exact congrArg (word :: ·) hr.symm

theorem Opens.dropWhile (h : Opens line gap word rest) : line.dropWhile isBlank = word ++ rest := by
  obtain ⟨c, more, rfl⟩ := List.exists_cons_of_ne_nil h.word.ne_nil
  have hc := h.word.notBlank c (List.mem_cons_self ..)
  rw [h.eq, List.dropWhile_append_of_pos h.gap]
  exact List.dropWhile_cons_of_neg (Bool.eq_false_iff.1 hc)

theorem Opens.takeWhile (h : Opens line gap word rest) : line.takeWhile isBlank = gap := by
  obtain ⟨c, more, rfl⟩ := List.exists_cons_of_ne_nil h.word.ne_nil
  have hc := h.word.notBlank c (List.mem_cons_self ..)
  rw [h.eq, List.takeWhile_append_of_pos h.gap, List.cons_append,
    List.takeWhile_cons_of_neg (Bool.eq_false_iff.1 hc), List.append_nil]

theorem Opens.takeWhile_word (h : Opens line gap word rest) :
    (word ++ rest).takeWhile (!isBlank ·) = word := by
  rw [List.takeWhile_append_of_pos fun c => h.word.not_isBlank]
  cases rest with
  | nil => exact List.append_nil word
  | cons c rest =>
    rw [List.takeWhile_cons_of_neg, List.append_nil]
    rw [h.rest c rfl]
    decide

theorem Opens.dropWhile_word (h : Opens line gap word rest) :
    (word ++ rest).dropWhile (!isBlank ·) = rest := by
  rw [List.dropWhile_append_of_pos fun c => h.word.not_isBlank]
  cases rest with
  | nil => rfl
  | cons c rest =>
    rw [List.dropWhile_cons_of_neg]
    rw [h.rest c rfl]
    decide

theorem blank_or_opens (line : List Char) :
    (∀ c ∈ line, isBlank c = true) ∨ ∃ gap word rest, Opens line gap word rest := by
  cases hd : line.dropWhile isBlank with
  | nil => exact .inl (List.dropWhile_eq_nil_iff.1 hd)
  | cons c more =>
    right
    have hc := List.head?_dropWhile_not isBlank line
    rw [hd] at hc
    refine ⟨line.takeWhile isBlank, c :: more.takeWhile (!isBlank ·),
      more.dropWhile (!isBlank ·), ?_, fun d => List.mem_takeWhile_imp, ⟨List.cons_ne_nil _ _, ?_⟩,
      ?_⟩
    · rw [List.cons_append, List.takeWhile_append_dropWhile, ← hd,
        List.takeWhile_append_dropWhile]
    · intro d hm
      obtain rfl | hm := List.mem_cons.1 hm
      · exact hc
      · have hn := List.mem_takeWhile_imp hm
        rwa [Bool.not_eq_true'] at hn
    · intro d hm
      have hn := List.head?_dropWhile_not (!isBlank ·) more
      rw [hm] at hn
      exact (Bool.not_eq_false' _).mp hn

theorem exists_opens (h : words line ≠ []) : ∃ gap word rest, Opens line gap word rest := by
  rcases blank_or_opens line with hb | ho
  · exact absurd (words_of_blank hb) h
  · exact ho

theorem Opens.replaceWord_zero (h : Opens line gap word rest) (new : List Char) :
    replaceWord 0 new line = gap ++ (new ++ rest) := by
  rw [replaceWord, h.takeWhile, h.dropWhile, h.dropWhile_word]

theorem Opens.replaceWord_succ (h : Opens line gap word rest) (k : Nat) (new : List Char) :
    replaceWord (k + 1) new line = gap ++ (word ++ replaceWord k new rest) := by
  rw [replaceWord, h.takeWhile, h.dropWhile, h.takeWhile_word, h.dropWhile_word]

theorem replaceWord_blank_cons (hc : isBlank c = true) (k : Nat) (new line : List Char) :
    ∃ more, replaceWord k new (c :: line) = c :: more := by
  cases k with
  | zero => exact ⟨_, by rw [replaceWord, List.takeWhile_cons_of_pos hc]; rfl⟩
  | succ k => exact ⟨_, by rw [replaceWord, List.takeWhile_cons_of_pos hc]; rfl⟩

/-- What follows the first word still begins with a blank once a word in it is replaced. -/
theorem Opens.replaceWord_rest (h : Opens line gap word rest) (hr : words rest ≠ []) (k : Nat)
    (new : List Char) :
    ∃ c other more, isBlank c = true ∧ rest = c :: other ∧ replaceWord k new rest = c :: more := by
  cases rest with
  | nil => exact absurd words_nil hr
  | cons c rest =>
    have hc := h.rest c rfl
    obtain ⟨more, hm⟩ := replaceWord_blank_cons hc k new rest
    exact ⟨c, rest, more, hc, rfl, hm⟩

theorem Opens.words_rest_ne_nil (h : Opens line gap word rest) (hk : k + 1 < (words line).length) :
    k < (words rest).length ∧ words rest ≠ [] := by
  rw [h.words_eq, List.length_cons] at hk
  have hlt := Nat.lt_of_succ_lt_succ hk
  exact ⟨hlt, List.ne_nil_of_length_pos (Nat.zero_lt_of_lt hlt)⟩

theorem words_replaceWord (hk : k < (words line).length) (hn : IsWord new) :
    words (replaceWord k new line) = (words line).set k new := by
  induction k generalizing line with
  | zero =>
    obtain ⟨gap, word, rest, ho⟩ := exists_opens (List.ne_nil_of_length_pos hk)
    have ho' : Opens (gap ++ (new ++ rest)) gap new rest := ⟨rfl, ho.gap, hn, ho.rest⟩
    rw [ho.replaceWord_zero, ho'.words_eq, ho.words_eq]
    rfl
  | succ k ih =>
    obtain ⟨gap, word, rest, ho⟩ := exists_opens (List.ne_nil_of_length_pos (Nat.zero_lt_of_lt hk))
    obtain ⟨hlt, hne⟩ := ho.words_rest_ne_nil hk
    obtain ⟨c, other, more, hc, -, hm⟩ := ho.replaceWord_rest hne k new
    have ho' : Opens (gap ++ (word ++ replaceWord k new rest)) gap word
        (replaceWord k new rest) := by
      refine ⟨rfl, ho.gap, ho.word, ?_⟩
      rw [hm]
      intro d hd
      cases hd
      exact hc
    rw [ho.replaceWord_succ, ho'.words_eq, ho.words_eq, ih hlt]
    rfl

theorem mem_replaceWord (h : c ∈ replaceWord k new line) : c ∈ line ∨ c ∈ new := by
  induction k generalizing line with
  | zero =>
    rw [replaceWord, List.mem_append, List.mem_append] at h
    obtain h | h | h := h
    · exact .inl ((List.takeWhile_sublist _).mem h)
    · exact .inr h
    · exact .inl ((List.dropWhile_sublist _).mem ((List.dropWhile_sublist _).mem h))
  | succ k ih =>
    rw [replaceWord, List.mem_append, List.mem_append] at h
    obtain h | h | h := h
    · exact .inl ((List.takeWhile_sublist _).mem h)
    · exact .inl ((List.dropWhile_sublist _).mem ((List.takeWhile_sublist _).mem h))
    · obtain h | h := ih h
      · exact .inl ((List.dropWhile_sublist _).mem ((List.dropWhile_sublist _).mem h))
      · exact .inr h

theorem ne_slash_of_isBlank (h : isBlank c = true) : c ≠ '/' := by
  rintro rfl
  revert h
  decide

/-- A character that is not the first of two slashes stands outside a comment. -/
theorem stripComment_cons (h : c = '/' → line.head? ≠ some '/') :
    stripComment (c :: line) = c :: stripComment line := by
  rw [stripComment]
  rintro other rfl rfl
  exact h rfl rfl

theorem stripComment_append_of_slash_notMem (h : '/' ∉ head) (tail : List Char) :
    stripComment (head ++ tail) = head ++ stripComment tail := by
  induction head with
  | nil => rfl
  | cons c head ih =>
    obtain ⟨hc, hh⟩ := not_or.1 (List.mem_cons.not.1 h)
    rw [List.cons_append, stripComment_cons fun he => absurd he.symm hc, ih hh]
    rfl

theorem slash_notMem_of_blank (h : ∀ c ∈ run, isBlank c = true) : '/' ∉ run :=
  fun hs => ne_slash_of_isBlank (h '/' hs) rfl

theorem length_stripComment_le (line : List Char) : (stripComment line).length ≤ line.length := by
  induction line using stripComment.induct with
  | case1 => exact Nat.le_refl 0
  | case2 => exact Nat.zero_le _
  | case3 c line hc ih =>
    rw [stripComment]
    · exact Nat.succ_le_succ ih
    · exact hc

/-- What stands after a text that no comment reaches into is a line of its own. -/
theorem stripComment_of_append (h : stripComment (head ++ tail) = head ++ rest) :
    stripComment tail = rest := by
  induction head with
  | nil => exact h
  | cons c head ih =>
    by_cases hc : c = '/' → (head ++ tail).head? ≠ some '/'
    · rw [List.cons_append, stripComment_cons hc] at h
      exact ih (List.cons_inj_right c |>.1 h)
    · obtain ⟨rfl, hs⟩ := Classical.not_imp.1 hc
      obtain ⟨more, hm⟩ := List.head?_eq_some_iff.1 (not_not.1 hs)
      rw [List.cons_append, hm, stripComment] at h
      cases h

/-- Up to a blank, a text either holds no comment or holds the comment that hides all after it. -/
theorem stripComment_append_blank (head : List Char) :
    (stripComment head = head ∧ ∀ c tail, isBlank c = true →
        stripComment (head ++ c :: tail) = head ++ c :: stripComment tail) ∨
      ∀ c tail, isBlank c = true → stripComment (head ++ c :: tail) = stripComment head := by
  induction head using stripComment.induct with
  | case1 =>
    left
    refine ⟨rfl, ?_⟩
    intro c tail hc
    exact stripComment_cons fun he => absurd he (ne_slash_of_isBlank hc)
  | case2 => exact .inr fun _ _ _ => rfl
  | case3 d head hd ih =>
    have hs : stripComment (d :: head) = d :: stripComment head := by
      rw [stripComment]
      exact hd
    have ha (c : Char) (tail : List Char) (hc : isBlank c = true) :
        stripComment (d :: (head ++ c :: tail)) = d :: stripComment (head ++ c :: tail) := by
      apply stripComment_cons
      intro he hh
      cases head with
      | nil => exact ne_slash_of_isBlank hc (Option.some.inj hh)
      | cons e head =>
        cases hh
        exact hd head he rfl
    obtain ⟨hn, ih⟩ | ih := ih
    · left
      refine ⟨by rw [hs, hn], ?_⟩
      intro c tail hc
      rw [List.cons_append, ha c tail hc, ih c tail hc]
      rfl
    · right
      intro c tail hc
      rw [List.cons_append, ha c tail hc, ih c tail hc, hs]

theorem stripComment_append_run (h : stripComment head = head) (hr : run ≠ [])
    (hb : ∀ c ∈ run, isBlank c = true) (tail : List Char) :
    stripComment (head ++ (run ++ tail)) = head ++ (run ++ stripComment tail) := by
  obtain ⟨c, run, rfl⟩ := List.exists_cons_of_ne_nil hr
  have hc := hb c List.mem_cons_self
  have hrun := stripComment_append_of_slash_notMem (slash_notMem_of_blank hb) tail
  obtain ⟨-, hs⟩ | hs := stripComment_append_blank head
  · rw [← hrun, List.cons_append, hs c _ hc, stripComment_cons fun he =>
      absurd he (ne_slash_of_isBlank hc)]
  · -- A comment in the text would have hidden the end of the text itself.
    have hn := stripComment_of_append (((hs c [] hc).trans h).trans (List.append_nil head).symm)
    rw [stripComment_cons fun he => absurd he (ne_slash_of_isBlank hc)] at hn
    cases hn

theorem words_append_run (hr : run ≠ []) (hb : ∀ c ∈ run, isBlank c = true)
    (head tail : List Char) : words (head ++ (run ++ tail)) = words head ++ words tail := by
  obtain ⟨c, run, rfl⟩ := List.exists_cons_of_ne_nil hr
  obtain ⟨hc, hb⟩ := List.forall_mem_cons.1 hb
  rw [List.cons_append, words_append_blank hc, words_blanks_append hb]

/-- Nothing after a blank counts if it has no word of its own. -/
theorem words_stripComment_append (hc : isBlank c = true) (ht : words (stripComment tail) = []) :
    words (stripComment (head ++ c :: tail)) = words (stripComment head) := by
  obtain ⟨hn, hs⟩ | hs := stripComment_append_blank head
  · rw [hs c tail hc, words_append_blank hc, ht, hn, List.append_nil]
  · rw [hs c tail hc]

/-- Any blanks separate words as well as any others. -/
theorem words_stripComment_run {other : List Char} (hr : run ≠ [])
    (hb : ∀ c ∈ run, isBlank c = true) (ho : other ≠ []) (hb' : ∀ c ∈ other, isBlank c = true) :
    words (stripComment (head ++ run ++ tail)) = words (stripComment (head ++ other ++ tail)) := by
  rw [List.append_assoc, List.append_assoc]
  obtain ⟨hn, -⟩ | hs := stripComment_append_blank head
  · rw [stripComment_append_run hn hr hb, stripComment_append_run hn ho hb', words_append_run hr hb,
      words_append_run ho hb']
  · obtain ⟨c, run, rfl⟩ := List.exists_cons_of_ne_nil hr
    obtain ⟨d, other, rfl⟩ := List.exists_cons_of_ne_nil ho
    rw [List.cons_append, List.cons_append, hs c _ (hb c List.mem_cons_self),
      hs d _ (hb' d List.mem_cons_self)]

/-- Replacing a word by one without a slash moves no comment. -/
theorem stripComment_replaceWord (hk : k < (words line).length) (hn : '/' ∉ new)
    (hl : stripComment (line ++ comment) = line) :
    stripComment (replaceWord k new line ++ comment) = replaceWord k new line := by
  induction k generalizing line with
  | zero =>
    obtain ⟨gap, word, rest, ho⟩ := exists_opens (List.ne_nil_of_length_pos hk)
    rw [ho.eq, List.append_assoc, List.append_assoc] at hl
    rw [ho.replaceWord_zero, List.append_assoc, List.append_assoc,
      stripComment_append_of_slash_notMem (slash_notMem_of_blank ho.gap),
      stripComment_append_of_slash_notMem hn, stripComment_of_append (stripComment_of_append hl)]
  | succ k ih =>
    obtain ⟨gap, word, rest, ho⟩ := exists_opens (List.ne_nil_of_length_pos (Nat.zero_lt_of_lt hk))
    obtain ⟨hlt, hne⟩ := ho.words_rest_ne_nil hk
    obtain ⟨c, other, more, hc, hr, hm⟩ := ho.replaceWord_rest hne k new
    rw [ho.eq, List.append_assoc, List.append_assoc] at hl
    have hw := stripComment_of_append hl
    have hrest := ih hlt (stripComment_of_append hw)
    rw [ho.replaceWord_succ, List.append_assoc, List.append_assoc,
      stripComment_append_of_slash_notMem (slash_notMem_of_blank ho.gap)]
    congr 1
    rw [hm, List.cons_append] at hrest ⊢
    obtain ⟨-, hs⟩ | hs := stripComment_append_blank word
    · rw [hs c _ hc, ← stripComment_cons fun he => absurd he (ne_slash_of_isBlank hc), hrest]
    · -- Otherwise the word would hold a comment, which would hide the rest of the line.
      rw [hr, List.cons_append, hs c _ hc] at hw
      have hle := length_stripComment_le word
      rw [hw, List.length_append, List.length_cons] at hle
      omega

end LittleMan
