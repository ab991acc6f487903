import LittleMan.Proofs.Machine.Settling

/-! Two machines that agree on everything but one cell. As long as the cell is not read they go the same
way, and once it has been stored into they are the same machine. A branch, a halt or an instruction for
the streams does not read the cell of its operand. -/

namespace LittleMan.Machine

/-- The next step depends on what stands in a cell: it fetches its word from there, or it adds,
subtracts or loads it. -/
def Reads (machine : Machine) (cell : Address) : Prop :=
  (machine.halted = false ∧ machine.pc = cell.val) ∨
    ∃ instruction ∈ [.add, .sub, .lda], machine.Fetches instruction cell

instance (machine : Machine) (cell : Address) : Decidable (machine.Reads cell) :=
  inferInstanceAs (Decidable (_ ∨ _))

/-- None of a number of steps reads a cell, unless one before it has stored into the cell. -/
def LeavesUnread (machine : Machine) (cell : Address) (n : Nat) : Prop :=
  ∀ k < n, (∀ j < k, ¬ (machine.afterSteps j).Fetches .sta cell) →
    ¬ (machine.afterSteps k).Reads cell

instance (machine : Machine) (cell : Address) (n : Nat) :
    Decidable (machine.LeavesUnread cell n) :=
  inferInstanceAs (Decidable (∀ k < n, _ → _))

/-- Two machines agree on everything but, perhaps, one cell. -/
structure AgreeBut (cell : Address) (first second : Machine) : Prop where
  pc : second.pc = first.pc
  accumulator : second.accumulator = first.accumulator
  halted : second.halted = first.halted
  inbox : second.inbox = first.inbox
  outbox : second.outbox = first.outbox
  memory : ∀ other ≠ cell, second.memory.get other = first.memory.get other

/-- Two effects of one kind that report the same event and leave machines that agree. -/
inductive Effect.AgreeBut (cell : Address) : Effect → Effect → Prop
  | completed {first second : Machine} {event : Event} (h : Machine.AgreeBut cell first second) :
      AgreeBut cell (.completed first event) (.completed second event)
  | failed {first second : Machine} {event : Event} (h : Machine.AgreeBut cell first second) :
      AgreeBut cell (.failed first event) (.failed second event)

variable {machine first second : Machine} {instruction : Instruction} {operand cell : Address}
  {n k : Nat}

theorem AgreeBut.refl (cell : Address) (machine : Machine) : AgreeBut cell machine machine :=
  ⟨rfl, rfl, rfl, rfl, rfl, fun _ _ => rfl⟩

theorem AgreeBut.load (machine : Machine) {image other : Memory}
    (h : ∀ a ≠ cell, other.get a = image.get a) :
    AgreeBut cell (machine.load image) (machine.load other) where
  pc := rfl
  accumulator := rfl
  halted := rfl
  inbox := rfl
  outbox := rfl
  memory a ha := by
    refine (other.get_wrapped a).trans ?_
    rw [h a ha]
    exact (image.get_wrapped a).symm

theorem AgreeBut.exists_memory (h : AgreeBut cell first second) :
    ∃ memory, second = { first with memory := memory } := by
  obtain ⟨hp, ha, hh, hi, ho, -⟩ := h
  cases second
  subst hp ha hh hi ho
  exact ⟨_, rfl⟩

theorem AgreeBut.eq_of_get (h : AgreeBut cell first second)
    (hc : second.memory.get cell = first.memory.get cell) : first = second := by
  have hm : second.memory = first.memory := by
    ext other
    by_cases ho : other = cell
    · rw [ho, hc]
    · exact h.memory other ho
  obtain ⟨memory, rfl⟩ := h.exists_memory
  subst hm
  rfl

theorem AgreeBut.read?_eq (h : AgreeBut cell first second) (hp : first.pc ≠ cell.val) :
    second.memory.read? second.pc = first.memory.read? first.pc := by
  by_cases hlt : first.pc < 100
  · rw [h.pc, Memory.read?_of_lt hlt, Memory.read?_of_lt hlt, h.memory]
    exact Fin.ne_of_val_ne hp
  · have hge := Nat.not_lt.1 hlt
    rw [read?_of_le hge]
    apply read?_of_le
    rw [h.pc]
    exact hge

theorem AgreeBut.fetches_iff (h : AgreeBut cell first second) (hr : ¬ first.Reads cell) :
    second.Fetches instruction operand ↔ first.Fetches instruction operand := by
  have hw (hh : first.halted = false) := h.read?_eq fun hp => hr (.inl ⟨hh, hp⟩)
  apply Iff.intro
  · intro hf
    have hh := h.halted.symm.trans hf.running
    exact ⟨hh, (hw hh).symm.trans hf.word⟩
  · intro hf
    exact ⟨h.halted.trans hf.running, (hw hf.running).trans hf.word⟩

theorem AgreeBut.settle (h : AgreeBut cell first second) (operand : Address) :
    AgreeBut cell (first.settle operand) (second.settle operand) where
  pc := h.pc
  accumulator := congrArg wrap h.accumulator
  halted := h.halted
  inbox := h.inbox
  outbox := h.outbox
  memory other ho := by
    by_cases he : other = operand
    · rw [← he, get_settle_self, get_settle_self, h.memory other ho]
    · rw [get_settle_of_ne _ he, get_settle_of_ne _ he, h.memory other ho]

theorem AgreeBut.advance (h : AgreeBut cell first second) :
    AgreeBut cell first.advance second.advance :=
  ⟨congrArg (fun pc => (pc + 1) % 100) h.pc, h.accumulator, h.halted, h.inbox, h.outbox, h.memory⟩

theorem AgreeBut.branch (h : AgreeBut cell first second) (operand : Address) :
    AgreeBut cell (first.branch operand) (second.branch operand) :=
  ⟨rfl, h.accumulator, h.halted, h.inbox, h.outbox, h.memory⟩

theorem AgreeBut.send (h : AgreeBut cell first second) :
    Effect.AgreeBut cell first.send second.send := by
  have hmemory := h.memory
  obtain ⟨memory, rfl⟩ := h.exists_memory
  rw [Machine.send, Machine.send]
  cases first.outbox.refusal? with
  | none => exact .completed ⟨rfl, rfl, rfl, rfl, rfl, hmemory⟩
  | some reason => exact .failed ⟨rfl, rfl, rfl, rfl, rfl, hmemory⟩

theorem AgreeBut.receive (h : AgreeBut cell first second) :
    Effect.AgreeBut cell first.receive second.receive := by
  have hmemory := h.memory
  obtain ⟨memory, rfl⟩ := h.exists_memory
  rw [Machine.receive, Machine.receive]
  cases nextInteger first.inbox with
  | ok value => exact .completed ⟨rfl, rfl, rfl, rfl, rfl, hmemory⟩
  | error error => exact .failed ⟨rfl, rfl, rfl, rfl, rfl, hmemory⟩

/-- An instruction that does not compute with the cell has the same effect on both machines. -/
theorem AgreeBut.execute (h : AgreeBut cell first second)
    (hi : operand = cell → instruction ∉ [.add, .sub, .lda]) :
    Effect.AgreeBut cell (first.execute instruction operand)
      (second.execute instruction operand) := by
  have hv (hm : instruction ∈ [.add, .sub, .lda]) := h.memory operand fun ho => hi ho hm
  have hmemory := h.memory
  cases instruction with
  | io =>
    by_cases h1 : operand.val = 1
    · rw [execute_receive h1, execute_receive h1]
      exact h.receive
    · by_cases h2 : operand.val = 2
      · rw [execute_send h2, execute_send h2]
        exact h.send
      · rw [execute_ignored h1 h2, execute_ignored h1 h2]
        exact .completed h
  | add =>
    simp only [Machine.execute, hv (by decide), h.accumulator]
    exact .completed { h with accumulator := rfl }
  | sub =>
    simp only [Machine.execute, hv (by decide), h.accumulator]
    exact .completed { h with accumulator := rfl }
  | lda =>
    simp only [Machine.execute, hv (by decide)]
    exact .completed { h with accumulator := rfl }
  | hlt => exact .completed { h with halted := rfl }
  | sta =>
    simp only [Machine.execute, h.accumulator]
    refine .completed { h with accumulator := rfl, memory := ?_ }
    intro other ho
    simp only [Memory.get_set, h.memory other ho]
  | bra => exact .completed (h.branch operand)
  | brz =>
    simp only [Machine.execute, h.accumulator]
    split
    · exact .completed (h.branch operand)
    · exact .completed h
  | brp =>
    simp only [Machine.execute, h.accumulator]
    split
    · exact .completed (h.branch operand)
    · exact .completed h

/-- A step that does not read the cell goes the same way in both machines. -/
theorem AgreeBut.step (h : AgreeBut cell first second) (hr : ¬ first.Reads cell) :
    first.step.result = second.step.result ∧ first.step.events = second.step.events ∧
      AgreeBut cell first.step.machine second.step.machine := by
  by_cases hx : ∃ instruction operand, first.Fetches instruction operand
  · obtain ⟨instruction, operand, hf⟩ := hx
    have hg := (h.fetches_iff hr).2 hf
    have hne : operand = cell → instruction ∉ [.add, .sub, .lda] := by
      rintro rfl hi
      exact hr (.inr ⟨instruction, hi, hf⟩)
    have he := h.execute hne
    generalize hfirst : first.execute instruction operand = effect at he
    generalize hsecond : second.execute instruction operand = other at he
    cases he with
    | completed ha =>
      rw [step_eq_of_completed hf hfirst, step_eq_of_completed hg hsecond, h.pc]
      exact ⟨rfl, rfl, ha.advance.settle operand⟩
    | failed ha =>
      rw [step_eq_of_failed hf hfirst, step_eq_of_failed hg hsecond, h.pc]
      exact ⟨rfl, rfl, ha⟩
  · have hn (instruction operand) : ¬ first.Fetches instruction operand :=
      fun hf => hx ⟨instruction, operand, hf⟩
    obtain ⟨events, fault, he, he'⟩ := step_of_not_fetches hn h.halted h.pc fun hh =>
      h.read?_eq fun hp => hr (.inl ⟨hh, hp⟩)
    rw [he, he']
    exact ⟨rfl, rfl, h⟩

theorem step_sta (hf : machine.Fetches .sta operand) :
    machine.step.machine =
      ({ machine with memory := machine.memory.set operand machine.accumulator } :
        Machine).advance.settle operand := by
  rw [step_eq_of_completed hf rfl]

/-- Both machines store the same word. -/
theorem AgreeBut.step_sta (h : AgreeBut cell first second) (hf : first.Fetches .sta cell)
    (hr : ¬ first.Reads cell) : first.step.machine = second.step.machine := by
  refine (h.step hr).2.2.eq_of_get ?_
  rw [Machine.step_sta hf, Machine.step_sta ((h.fetches_iff hr).2 hf), get_settle_self,
    get_settle_self]
  exact congrArg wrap (((Memory.get_set_self _ _ _).trans h.accumulator).trans
    (Memory.get_set_self _ _ _).symm)

/-- In a machine at rest nothing but storing into a cell changes it. -/
theorem InRange.get_step (hm : machine.InRange) (hn : ¬ machine.Fetches .sta cell) :
    machine.step.machine.memory.get cell = machine.memory.get cell := by
  by_cases hx : ∃ operand, machine.Fetches .sta operand
  · obtain ⟨operand, hf⟩ := hx
    have ho : cell ≠ operand := by
      rintro rfl
      exact hn hf
    rw [Machine.step_sta hf, get_settle_of_ne _ ho]
    exact (Memory.get_set _ _ _ _).trans (if_neg ho.symm)
  · rw [machine.step_steps.memory_eq hm fun operand hf => hx ⟨operand, hf⟩]

theorem InRange.get_afterSteps (hm : machine.InRange)
    (hn : ∀ j < n, ¬ (machine.afterSteps j).Fetches .sta cell) :
    (machine.afterSteps n).memory.get cell = machine.memory.get cell := by
  induction n with
  | zero => rfl
  | succ n ih =>
    rw [afterSteps_succ_last, (hm.afterSteps n).get_step (hn n (Nat.lt_succ_self n)),
      ih fun j hj => hn j (Nat.lt_succ_of_lt hj)]

theorem LeavesUnread.mono (h : machine.LeavesUnread cell n) (hk : k ≤ n) :
    machine.LeavesUnread cell k :=
  fun j hj => h j (Nat.lt_of_lt_of_le hj hk)

/-- The two runs stay together: they agree on everything but the cell until the first step that stores
into it, and are the same from then on. -/
theorem AgreeBut.afterSteps (h : AgreeBut cell first second)
    (hu : first.LeavesUnread cell n) :
    AgreeBut cell (first.afterSteps n) (second.afterSteps n) ∧
      ((∃ j < n, (first.afterSteps j).Fetches .sta cell) →
        first.afterSteps n = second.afterSteps n) := by
  induction n with
  | zero => exact ⟨h, fun hx => by obtain ⟨j, hj, -⟩ := hx; exact absurd hj (Nat.not_lt_zero j)⟩
  | succ n ih =>
    obtain ⟨ha, he⟩ := ih (hu.mono (Nat.le_succ n))
    rw [afterSteps_succ_last, afterSteps_succ_last]
    -- Once the cell has been stored into, nothing is known of what is read, and nothing need be.
    by_cases hx : ∃ j < n, (first.afterSteps j).Fetches .sta cell
    · rw [he hx]
      exact ⟨.refl cell _, fun _ => rfl⟩
    · have hr := hu n (Nat.lt_succ_self n) fun j hj hf => hx ⟨j, hj, hf⟩
      refine ⟨(ha.step hr).2.2, ?_⟩
      rintro ⟨j, hj, hf⟩
      obtain hlt | rfl := Nat.lt_succ_iff_lt_or_eq.1 hj
      · exact absurd ⟨j, hlt, hf⟩ hx
      · exact ha.step_sta hf hr

theorem AgreeBut.results (h : AgreeBut cell first second) (hu : first.LeavesUnread cell n)
    (hk : k < n) :
    (first.afterSteps k).step.result = (second.afterSteps k).step.result ∧
      (first.afterSteps k).step.events = (second.afterSteps k).step.events := by
  obtain ⟨ha, he⟩ := h.afterSteps (hu.mono (Nat.le_of_lt hk))
  by_cases hx : ∃ j < k, (first.afterSteps j).Fetches .sta cell
  · rw [he hx]
    exact ⟨rfl, rfl⟩
  · obtain ⟨hr, hevents, -⟩ := ha.step (hu k hk fun j hj hf => hx ⟨j, hj, hf⟩)
    exact ⟨hr, hevents⟩

theorem AgreeBut.fetches_sta_iff (h : AgreeBut cell first second) (hu : first.LeavesUnread cell n)
    (hk : k < n) (hn : ∀ j < k, ¬ (first.afterSteps j).Fetches .sta cell) :
    (second.afterSteps k).Fetches .sta cell ↔ (first.afterSteps k).Fetches .sta cell :=
  (h.afterSteps (hu.mono (Nat.le_of_lt hk))).1.fetches_iff (hu k hk hn)

/-- One word is one instruction, so it neither reads the cell of its operand nor stores into it. -/
theorem Fetches.leaves_operand (hf : machine.Fetches instruction cell)
    (hi : instruction ∈ [.hlt, .bra, .brz, .brp, .io]) (hp : machine.pc ≠ cell.val) :
    ¬ machine.Reads cell ∧ ¬ machine.Fetches .sta cell := by
  refine ⟨?_, ?_⟩
  · rintro (hr | ⟨other, hm, ho⟩)
    · exact hp hr.2
    · rw [(hf.unique ho).1] at hm
      revert hi hm
      cases instruction <;> decide
  · intro ho
    rw [← (hf.unique ho).1] at hi
    revert hi
    decide

/-- A cell that no step reads before one has stored into it does not influence a run: machines that
agree on everything but that cell make the same steps, keep what stands in it until then, and are the
same machine from then on. A branch, a halt or an instruction for the streams with that operand neither
depends on the cell nor changes it. -/
theorem Reachable.unread_cell (hf : Reachable first) (hs : Reachable second)
    (h : AgreeBut cell first second) :
    (∀ n, first.LeavesUnread cell n →
      (∀ k < n, (first.afterSteps k).step.result = (second.afterSteps k).step.result ∧
        (first.afterSteps k).step.events = (second.afterSteps k).step.events) ∧
      ∀ k ≤ n, AgreeBut cell (first.afterSteps k) (second.afterSteps k) ∧
        ((∀ j < k, ¬ (first.afterSteps j).Fetches .sta cell) →
          (first.afterSteps k).memory.get cell = first.memory.get cell ∧
            (second.afterSteps k).memory.get cell = second.memory.get cell) ∧
        ((∃ j < k, (first.afterSteps j).Fetches .sta cell) →
          first.afterSteps k = second.afterSteps k)) ∧
    ∀ instruction ∈ [.hlt, .bra, .brz, .brp, .io], first.Fetches instruction cell →
      first.pc ≠ cell.val →
        (first.step.result = second.step.result ∧ first.step.events = second.step.events ∧
          AgreeBut cell first.step.machine second.step.machine) ∧
        first.step.machine.memory.get cell = first.memory.get cell ∧
        second.step.machine.memory.get cell = second.memory.get cell := by
  refine ⟨?_, ?_⟩
  · intro n hu
    refine ⟨?_, ?_⟩
    · intro k hk
      exact h.results hu hk
    · intro k hk
      obtain ⟨ha, he⟩ := h.afterSteps (hu.mono hk)
      refine ⟨ha, ?_, he⟩
      intro hn
      refine ⟨hf.inRange.get_afterSteps hn, hs.inRange.get_afterSteps ?_⟩
      intro j hj
      rw [h.fetches_sta_iff hu (Nat.lt_of_lt_of_le hj hk) fun i hi => hn i (Nat.lt_trans hi hj)]
      exact hn j hj
  · intro instruction hi hfetch hp
    obtain ⟨hr, hsta⟩ := hfetch.leaves_operand hi hp
    refine ⟨h.step hr, hf.inRange.get_step hsta, hs.inRange.get_step ?_⟩
    rw [h.fetches_iff hr]
    exact hsta

/-- A program that passes a cell over in a branch and in an instruction for the streams, stores into
it, and only then adds it. Before that the cell holds the given word. -/
def overwriting (word : Int) : Machine :=
  ({} : Machine).load (.ofFn fun a => [508, 809, 909, 309, 109, 0, 0, 0, -7, word].getD a.val 0)

theorem overwriting_unread :
    (overwriting 111).memory ≠ (overwriting (-500)).memory ∧
      (∀ k < 5, ((overwriting 111).afterSteps k).step.result =
        ((overwriting (-500)).afterSteps k).step.result) ∧
      ((overwriting 111).afterSteps 3).memory.get ⟨9, by decide⟩ = 111 ∧
      ((overwriting (-500)).afterSteps 3).memory.get ⟨9, by decide⟩ = -500 ∧
      (overwriting 111).afterSteps 5 = (overwriting (-500)).afterSteps 5 ∧
      ((overwriting 111).afterSteps 5).accumulator = -14 ∧
      ((overwriting (-500)).afterSteps 1).step.machine.memory.get ⟨9, by decide⟩ =
        ((overwriting (-500)).afterSteps 1).memory.get ⟨9, by decide⟩ := by
  have hf : Reachable (overwriting 111) := .call (.new [] {}) (.load _)
  have hs : Reachable (overwriting (-500)) := .call (.new [] {}) (.load _)
  have h : AgreeBut ⟨9, by decide⟩ (overwriting 111) (overwriting (-500)) :=
    .load {} (by decide +kernel)
  have hu : (overwriting 111).LeavesUnread ⟨9, by decide⟩ 5 := by decide +kernel
  obtain ⟨hresults, hmachines⟩ := (hf.unread_cell hs h).1 5 hu
  obtain ⟨hfirst, hsecond⟩ := (hmachines 3 (by decide)).2.1 (by decide +kernel)
  obtain ⟨-, -, hbranch⟩ := (Reachable.unread_cell (.call hf .step) (.call hs .step)
    (hmachines 1 (by decide)).1).2 .brp (by decide) (by decide +kernel) (by decide +kernel)
  refine ⟨by decide +kernel, fun k hk => (hresults k hk).1, ?_, ?_,
    (hmachines 5 (by decide)).2.2 ⟨3, by decide, by decide +kernel⟩, by decide +kernel, hbranch⟩
  · rw [hfirst]
    decide +kernel
  · rw [hsecond]
    decide +kernel

end LittleMan.Machine
