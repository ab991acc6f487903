import LittleMan.Logged
import Mathlib.Data.Nat.Basic
import Mathlib.Order.Basic

/-! The results and the logs of logged computations. A pass through a list ends at the first obstacle
that one of its items meets, and is a plain fold where none does. -/

namespace LittleMan.Logged

variable {ω ε α β σ ι : Type}

@[simp] theorem result_pure (value : α) :
    (Pure.pure value : Logged ω ε α).result = .ok value := rfl

@[simp] theorem result_reporting (entry : ε → ω) (x : Logged ω ε α) :
    (x.reporting entry).result = x.result := by
  obtain ⟨log, result⟩ := x
  cases result <;> rfl

@[simp] theorem result_rephrase {υ δ : Type} (entry : ω → υ) (cause : ε → δ) (x : Logged ω ε α) :
    (x.rephrase entry cause).result = x.result.mapError cause := rfl

theorem result_bind_of_ok {x : Logged ω ε α} {value : α} (h : x.result = .ok value)
    (f : α → Logged ω ε β) : (x >>= f).result = (f value).result := by
  obtain ⟨log, result⟩ := x
  subst h
  rfl

theorem result_bind_of_error {x : Logged ω ε α} {error : ε} (h : x.result = .error error)
    (f : α → Logged ω ε β) : (x >>= f).result = .error error := by
  obtain ⟨log, result⟩ := x
  subst h
  rfl

theorem result_bind_eq_ok_iff {x : Logged ω ε α} {f : α → Logged ω ε β} {value : β} :
    (x >>= f).result = .ok value ↔ ∃ v, x.result = .ok v ∧ (f v).result = .ok value := by
  cases hx : x.result with
  | ok v => simp [result_bind_of_ok hx]
  | error error => simp [result_bind_of_error hx]

theorem result_bind_eq_error_iff {x : Logged ω ε α} {f : α → Logged ω ε β} {error : ε} :
    (x >>= f).result = .error error ↔
      x.result = .error error ∨ ∃ v, x.result = .ok v ∧ (f v).result = .error error := by
  cases hx : x.result with
  | ok v => simp [result_bind_of_ok hx]
  | error other => simp [result_bind_of_error hx]

theorem log_bind_of_ok {x : Logged ω ε α} {value : α} (h : x.result = .ok value)
    (f : α → Logged ω ε β) : (x >>= f).log = x.log ++ (f value).log := by
  obtain ⟨log, result⟩ := x
  subst h
  rfl

theorem log_bind_of_error {x : Logged ω ε α} {error : ε} (h : x.result = .error error)
    (f : α → Logged ω ε β) : (x >>= f).log = x.log := by
  obtain ⟨log, result⟩ := x
  subst h
  rfl

theorem log_reporting_of_ok {x : Logged ω ε α} {value : α} (h : x.result = .ok value)
    (entry : ε → ω) : (x.reporting entry).log = x.log := by
  obtain ⟨log, result⟩ := x
  subst h
  rfl

theorem log_reporting_of_error {x : Logged ω ε α} {error : ε} (h : x.result = .error error)
    (entry : ε → ω) : (x.reporting entry).log = x.log.push (entry error) := by
  obtain ⟨log, result⟩ := x
  subst h
  rfl

@[simp] theorem foldl_nil (f : σ → ι → Logged ω ε σ) (state : σ) :
    foldl f state [] = Pure.pure state := rfl

theorem foldl_start (f : σ → ι → Logged ω ε σ) (state : σ) (item : ι) (items : List ι) :
    foldl f state (item :: items) =
      items.foldl (fun y item => y.bind (f · item)) (f state item) := by
  change items.foldl _ ((Pure.pure state : Logged ω ε σ) >>= (f · item)) = _
  rw [pure_bind]

theorem foldl_bind (f : σ → ι → Logged ω ε σ) (x : Logged ω ε σ) (items : List ι) :
    items.foldl (fun y item => y.bind (f · item)) x = x >>= (foldl f · items) := by
  induction items generalizing x with
  | nil => exact (bind_pure x).symm
  | cons item items ih =>
    calc
      _ = (x >>= (f · item)) >>= (foldl f · items) := ih _
      _ = x >>= fun state => f state item >>= (foldl f · items) := bind_assoc _ _ _
      _ = x >>= (foldl f · (item :: items)) := by simp only [foldl_start, ih]

theorem foldl_cons (f : σ → ι → Logged ω ε σ) (state : σ) (item : ι) (items : List ι) :
    foldl f state (item :: items) = f state item >>= (foldl f · items) :=
  (foldl_start f state item items).trans (foldl_bind f _ items)

section Pass

variable (obstacle? : σ → ι → Option ε) (next : σ → ι → σ)

/-- What a pass through a list meets at one of the items, counted from zero, if the items before it
let it through. -/
def obstacleAt? (state : σ) (items : List ι) (n : Nat) : Option ε :=
  items[n]?.bind (obstacle? ((items.take n).foldl next state))

@[simp] theorem obstacleAt?_nil (state : σ) (n : Nat) :
    obstacleAt? obstacle? next state [] n = none := rfl

@[simp] theorem obstacleAt?_cons_zero (state : σ) (item : ι) (items : List ι) :
    obstacleAt? obstacle? next state (item :: items) 0 = obstacle? state item := rfl

@[simp] theorem obstacleAt?_cons_succ (state : σ) (item : ι) (items : List ι) (n : Nat) :
    obstacleAt? obstacle? next state (item :: items) (n + 1) =
      obstacleAt? obstacle? next (next state item) items n := rfl

theorem obstacleAt?_map {κ : Type} (g : κ → ι) (state : σ) (items : List κ) (n : Nat) :
    obstacleAt? (fun state item => obstacle? state (g item)) (fun state item => next state (g item))
      state items n = obstacleAt? obstacle? next state (items.map g) n := by
  simp only [obstacleAt?, List.getElem?_map, ← List.map_take, List.foldl_map, Option.bind_map]
  rfl

variable {obstacle? next} {f : σ → ι → Logged ω ε σ}

/-- A pass succeeds exactly when it meets no obstacle. -/
theorem result_foldl_eq_ok_iff
    (hf : ∀ state item, (f state item).result =
      (obstacle? state item).elim (.ok (next state item)) .error)
    {state last : σ} {items : List ι} :
    (foldl f state items).result = .ok last ↔
      (∀ n, obstacleAt? obstacle? next state items n = none) ∧ items.foldl next state = last := by
  induction items generalizing state with
  | nil => simp
  | cons item items ih =>
    rw [foldl_cons, result_bind_eq_ok_iff, hf, ← Nat.and_forall_add_one]
    cases h : obstacle? state item with
    | none => simp [h, ih]
    | some error => simp [h]

/-- A pass fails with the obstacle that it meets first. -/
theorem result_foldl_eq_error_iff
    (hf : ∀ state item, (f state item).result =
      (obstacle? state item).elim (.ok (next state item)) .error)
    {state : σ} {error : ε} {items : List ι} :
    (foldl f state items).result = .error error ↔
      ∃ n, obstacleAt? obstacle? next state items n = some error ∧
        ∀ k < n, obstacleAt? obstacle? next state items k = none := by
  induction items generalizing state with
  | nil => simp
  | cons item items ih =>
    rw [foldl_cons, result_bind_eq_error_iff, hf, ← Nat.or_exists_add_one]
    -- The first obstacle is the head, or the first one of the tail if the head is none.
    simp only [obstacleAt?_cons_zero, obstacleAt?_cons_succ, Nat.forall_lt_succ_left]
    cases h : obstacle? state item with
    | none => simp [ih]
    | some other => simp

end Pass

end LittleMan.Logged
