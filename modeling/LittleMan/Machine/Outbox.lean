/-! The outbox of the machine: a device that takes the lines it prints and may refuse them. -/

namespace LittleMan

/-- How a device treats one delivery. -/
inductive Delivery
  | accepted
  /-- No more than the first bytes of the delivery are kept. -/
  | writeFailed (reason : String) (length : Nat := 0)
  /-- The delivery is kept, but not known to have arrived. -/
  | flushFailed (reason : String)
  deriving DecidableEq, Repr

structure Outbox where
  /-- What the device has kept, the latest delivery first. -/
  kept : List (List UInt8) := []
  /-- How many deliveries it was given. -/
  attempts : Nat := 0
  /-- How it treats each of them, counted from zero. -/
  device : Nat → Delivery := fun _ => .accepted

namespace Outbox

/-- All that the device has kept so far. -/
def written (outbox : Outbox) : List UInt8 := outbox.kept.reverse.flatten

/-- The outbox after a delivery. -/
def deliver (outbox : Outbox) (text : List UInt8) : Outbox :=
  { outbox with
    kept :=
      match outbox.device outbox.attempts with
      | .accepted | .flushFailed _ => text :: outbox.kept
      | .writeFailed _ length => text.take length :: outbox.kept
    attempts := outbox.attempts + 1 }

/-- Why the next delivery fails, if it does. -/
def refusal? (outbox : Outbox) : Option String :=
  match outbox.device outbox.attempts with
  | .accepted => none
  | .writeFailed reason _ | .flushFailed reason => some reason

/-- A delivery that is accepted or merely not flushed goes to the end of what was written. Of one
that fails earlier only a first part does. -/
theorem written_deliver (outbox : Outbox) (text : List UInt8) :
    (outbox.deliver text).written =
      match outbox.device outbox.attempts with
      | .accepted | .flushFailed _ => outbox.written ++ text
      | .writeFailed _ length => outbox.written ++ text.take length := by
  unfold deliver written
  split <;> simp only [List.reverse_cons, List.flatten_append, List.flatten_singleton]

theorem refusal?_eq_none_iff {outbox : Outbox} :
    outbox.refusal? = none ↔ outbox.device outbox.attempts = .accepted := by
  rw [refusal?]
  split
  · next hd => exact iff_of_true rfl hd
  · next hd => simp [hd]
  · next hd => simp [hd]

theorem deliver_of_accepted {outbox : Outbox} (text : List UInt8)
    (h : outbox.device outbox.attempts = .accepted) :
    outbox.deliver text =
      { outbox with kept := text :: outbox.kept, attempts := outbox.attempts + 1 } := by
  simp only [deliver, h]

end Outbox

end LittleMan
