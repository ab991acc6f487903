import LittleMan.Proofs.Assembly.Layout

/-! Programs of at most one hundred statements. Each statement has a cell to itself, and the cell of
an operation holds its code and the address that it means. -/

namespace LittleMan.Assembly

/-- The address that a statement means: that of its operand if it is a number, that of the statement
that defines its label, or zero if it has no operand. -/
inductive Means (code : List Placed) (statement : Statement) (address : Address) : Prop
  | absent (ho : statement.operand = none) (ha : address.val = 0)
  | literal {token : String} (ho : statement.operand = some token)
      (hv : tokenValue? token = some (address.val : Int))
  | label {label : String} (hl : statement.use? = some label)
      (hd : DefinedAt code label address.val)

variable {capacity : Capacity} {source : String} {memory : Memory} {code : List Placed}
  {placed : Placed} {cell : Address} {operation : Operation} {label : String} {k : Nat}

theorem last?_of_unique {α β : Type} {f : α → Nat → Option β} {items : List α} {k : Nat} {item : α}
    (hk : items[k]? = some item)
    (hn : ∀ i other, items[i]? = some other → i ≠ k → f other i = none) :
    last? f items = f item k := by
  cases hf : f item k with
  | none =>
    apply last?_eq_none_iff.2
    intro i other hi
    by_cases he : i = k
    · subst he
      rw [hk] at hi
      cases hi
      exact hf
    · exact hn i other hi he
  | some value =>
    apply last?_eq_some_iff.2
    refine ⟨k, item, hk, hf, ?_⟩
    intro j other hj ho
    exact hn j other ho (Nat.ne_of_gt hj)

theorem mod_ne_of_fit (hfit : code.length ≤ 100) {i : Nat} {other : Placed}
    (hi : code[i]? = some other) (hne : i ≠ cell.val) : i % 100 ≠ cell.val := by
  have hlt := (List.getElem?_eq_some_iff.1 hi).1
  omega

theorem statementAt?_of_fit (hfit : code.length ≤ 100) (hk : code[cell.val]? = some placed) :
    statementAt? code cell = some placed := by
  have hc := cell.isLt
  rw [statementAt?, last?_of_unique hk, if_pos (by omega)]
  intro i other hi hne
  exact if_neg (mod_ne_of_fit hfit hi hne)

theorem referenceAt?_of_fit (hfit : code.length ≤ 100) (hk : code[cell.val]? = some placed) :
    referenceAt? code cell = placed.statement.use?.map (⟨·, placed.line⟩) := by
  have hc := cell.isLt
  rw [referenceAt?, last?_of_unique hk, if_pos (by omega)]
  intro i other hi hne
  exact if_neg (mod_ne_of_fit hfit hi hne)

theorem get_assembled (h : (assemble capacity source).result = .ok memory) (cell : Address) :
    memory.get cell =
      (statementAt? (statements (readSource source)) cell).elim 0 (·.statement.word) +
        ((referenceAt? (statements (readSource source)) cell).bind
          (definition? (statements (readSource source)) ·.label)).elim 0
            fun target => (target.val : Int) := by
  obtain ⟨-, hf⟩ := result_assemble_eq_ok_iff.1 h
  obtain ⟨-, rfl⟩ := (drafted (readSource source)).result_finish_eq_ok_iff.1 hf
  rw [Memory.get_ofFn, get_memory_drafted, offsetAt_drafted]

theorem definition?_of_referenceAt? (h : (assemble capacity source).result = .ok memory)
    {reference : Reference}
    (hr : referenceAt? (statements (readSource source)) cell = some reference) :
    ∃ target, definition? (statements (readSource source)) reference.label = some target := by
  obtain ⟨-, hf⟩ := result_assemble_eq_ok_iff.1 h
  obtain ⟨hu, -⟩ := (drafted (readSource source)).result_finish_eq_ok_iff.1 hf
  cases hd : definition? (statements (readSource source)) reference.label with
  | none =>
    have hn := unresolved?_drafted_eq_none_iff.1 (hu cell) reference
    exact absurd ⟨hr, definition?_eq_none_iff.1 hd⟩ hn
  | some target => exact ⟨target, rfl⟩

theorem get_assembled_past (h : (assemble capacity source).result = .ok memory)
    (hfit : (statements (readSource source)).length ≤ 100)
    (hk : (statements (readSource source))[cell.val]? = none) : memory.get cell = 0 := by
  have hs : statementAt? (statements (readSource source)) cell = none := by
    apply last?_eq_none_iff.2
    intro i other hi
    apply if_neg (mod_ne_of_fit hfit hi _)
    rintro rfl
    rw [hk] at hi
    cases hi
  rw [get_assembled h, hs, referenceAt?_of_statementAt?_eq_none hs]
  rfl

theorem get_assembled_of_fit (h : (assemble capacity source).result = .ok memory)
    (hfit : (statements (readSource source)).length ≤ 100)
    (hk : (statements (readSource source))[cell.val]? = some placed) :
    memory.get cell = placed.statement.word +
      (placed.statement.use?.bind (definition? (statements (readSource source)))).elim 0
        fun target => (target.val : Int) := by
  rw [get_assembled h, statementAt?_of_fit hfit hk, referenceAt?_of_fit hfit hk, Option.bind_map]
  rfl

theorem exists_definition_of_use (h : (assemble capacity source).result = .ok memory)
    (hfit : (statements (readSource source)).length ≤ 100)
    (hk : (statements (readSource source))[cell.val]? = some placed)
    (hu : placed.statement.use? = some label) :
    ∃ target, definition? (statements (readSource source)) label = some target := by
  have hr := referenceAt?_of_fit hfit hk
  rw [hu, Option.map_some] at hr
  exact definition?_of_referenceAt? h hr

/-- In a program that fits, a label is defined at no address but the one in its table. -/
theorem definedAt_iff_of_fit (h : (assemble capacity source).result = .ok memory)
    (hfit : (statements (readSource source)).length ≤ 100) {target : Address}
    (hd : definition? (statements (readSource source)) label = some target) (i : Nat) :
    DefinedAt (statements (readSource source)) label i ↔ i = target.val := by
  obtain ⟨ho, -⟩ := result_assemble_eq_ok_iff.1 h
  obtain ⟨k, hk, ht⟩ := DefinedAt.of_definition? hd
  have hkt : k = target.val := by
    have hlt := hk.lt_length
    omega
  subst hkt
  apply Iff.intro
  · intro hi
    exact hi.unique ho hk
  · intro he
    rw [he]
    exact hk

theorem definition?_of_definedAt (h : (assemble capacity source).result = .ok memory)
    (hfit : (statements (readSource source)).length ≤ 100)
    (hd : DefinedAt (statements (readSource source)) label k) :
    ∃ target : Address, definition? (statements (readSource source)) label = some target ∧
      target.val = k := by
  cases ht : definition? (statements (readSource source)) label with
  | none => exact absurd hd (definition?_eq_none_iff.1 ht k)
  | some target => exact ⟨target, rfl, ((definedAt_iff_of_fit h hfit ht k).1 hd).symm⟩

section Operand

variable {statement : Statement} {token : String} {address : Address}

theorem word_of_absent (hop : statement.mnemonic = .op operation)
    (ho : statement.operand = none) : statement.word = operation.code := by
  rw [Statement.word, hop, ho, Option.bind_none]

theorem word_of_literal (hop : statement.mnemonic = .op operation)
    (ho : statement.operand = some token) (ha : tokenAddress? token = some address) :
    statement.word = operation.code + address.val := by
  rw [Statement.word, hop, ho, Option.bind_some, ha]

theorem word_of_label (hop : statement.mnemonic = .op operation)
    (ho : statement.operand = some token) (ha : tokenAddress? token = none) :
    statement.word = operation.code := by
  rw [Statement.word, hop, ho, Option.bind_some, ha]

theorem use?_of_absent (ho : statement.operand = none) : statement.use? = none := by
  rw [Statement.use?, ho]
  cases statement.mnemonic <;> rfl

theorem use?_of_literal (ho : statement.operand = some token)
    (ha : tokenAddress? token = some address) : statement.use? = none := by
  rw [← Statement.reference?_eq_use?, Statement.reference?, ho, Option.filter_some, ha]
  cases statement.mnemonic <;> rfl

theorem use?_of_label (hop : statement.mnemonic = .op operation)
    (ho : statement.operand = some token) (ha : tokenAddress? token = none) :
    statement.use? = some token := by
  rw [← Statement.reference?_eq_use?, Statement.reference?, hop, ho, Option.filter_some, ha]
  rfl

theorem use?_eq_some_iff :
    statement.use? = some token ↔ (∃ operation, statement.mnemonic = .op operation) ∧
      statement.operand = some token ∧ tokenAddress? token = none := by
  apply Iff.intro
  · intro h
    rw [← Statement.reference?_eq_use?, Statement.reference?] at h
    cases hm : statement.mnemonic with
    | dat =>
      rw [hm] at h
      cases h
    | op operation =>
      rw [hm] at h
      obtain ⟨ho, ha⟩ := Option.filter_eq_some_iff.1 h
      exact ⟨⟨operation, rfl⟩, ho, Option.isNone_iff_eq_none.1 ha⟩
  · intro h
    obtain ⟨⟨operation, hop⟩, ho, ha⟩ := h
    exact use?_of_label hop ho ha

theorem means_iff_of_absent (ho : statement.operand = none) :
    Means code statement address ↔ address.val = 0 := by
  apply Iff.intro
  · intro h
    cases h with
    | absent _ ha => exact ha
    | literal ho' => rw [ho] at ho'; cases ho'
    | label hl => rw [use?_of_absent ho] at hl; cases hl
  · intro ha
    exact .absent ho ha

theorem means_iff_of_literal {other : Address} (ho : statement.operand = some token)
    (ha : tokenAddress? token = some address) :
    Means code statement other ↔ other = address := by
  apply Iff.intro
  · intro h
    cases h with
    | absent ho' => rw [ho] at ho'; cases ho'
    | literal ho' hv =>
      rw [ho] at ho'
      cases ho'
      rw [tokenAddress?_eq_some_iff.2 hv] at ha
      exact Option.some.inj ha
    | label hl => rw [use?_of_literal ho ha] at hl; cases hl
  · intro he
    rw [he]
    exact .literal ho (tokenAddress?_eq_some_iff.1 ha)

theorem means_iff_of_label (hop : statement.mnemonic = .op operation)
    (ho : statement.operand = some token) (ha : tokenAddress? token = none) :
    Means code statement address ↔ DefinedAt code token address.val := by
  have hu := use?_of_label hop ho ha
  apply Iff.intro
  · intro h
    cases h with
    | absent ho' => rw [ho] at ho'; cases ho'
    | literal ho' hv =>
      rw [ho] at ho'
      cases ho'
      rw [tokenAddress?_eq_some_iff.2 hv] at ha
      cases ha
    | label hl hd =>
      rw [hu] at hl
      cases hl
      exact hd
  · intro hd
    exact .label hu hd

end Operand

/-- An operation of a program that fits means one address, which is added to its code. -/
theorem exists_means (h : (assemble capacity source).result = .ok memory)
    (hfit : (statements (readSource source)).length ≤ 100)
    (hk : (statements (readSource source))[cell.val]? = some placed)
    (hop : placed.statement.mnemonic = .op operation) :
    ∃ address, (∀ other, Means (statements (readSource source)) placed.statement other ↔
        other = address) ∧
      memory.get cell = operation.code + (address.val : Int) := by
  have hg := get_assembled_of_fit h hfit hk
  cases ho : placed.statement.operand with
  | none =>
    rw [use?_of_absent ho, word_of_absent hop ho] at hg
    refine ⟨⟨0, by decide⟩, ?_, hg⟩
    intro other
    rw [means_iff_of_absent ho, Fin.ext_iff]
  | some token =>
    cases ha : tokenAddress? token with
    | some address =>
      rw [use?_of_literal ho ha, word_of_literal hop ho ha] at hg
      exact ⟨address, fun other => means_iff_of_literal ho ha, hg.trans (Int.add_zero _)⟩
    | none =>
      have hu := use?_of_label hop ho ha
      obtain ⟨target, hd⟩ := exists_definition_of_use h hfit hk hu
      rw [hu, word_of_label hop ho ha, Option.bind_some, hd] at hg
      refine ⟨target, ?_, hg⟩
      intro other
      rw [means_iff_of_label hop ho ha, definedAt_iff_of_fit h hfit hd, Fin.ext_iff]

end LittleMan.Assembly
