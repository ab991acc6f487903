/-! Computations that keep a log and may fail. -/

namespace LittleMan

/-- What a computation logged, oldest first, and how it ended. -/
structure Logged (ω ε α : Type) where
  log : Array ω
  result : Except ε α

namespace Logged

variable {ω υ ε δ α β σ ι : Type}

def pure (value : α) : Logged ω ε α := ⟨#[], .ok value⟩

def fail (error : ε) : Logged ω ε α := ⟨#[], .error error⟩

def tell (entry : ω) : Logged ω ε Unit := ⟨#[entry], .ok ()⟩

def tellAll (entries : Array ω) : Logged ω ε Unit := ⟨entries, .ok ()⟩

/-- Goes on with the value of a computation that succeeded, and keeps the log either way. -/
def bind (x : Logged ω ε α) (f : α → Logged ω ε β) : Logged ω ε β :=
  match x with
  | ⟨log, .ok value⟩ =>
    let y := f value
    ⟨log ++ y.log, y.result⟩
  | ⟨log, .error error⟩ => ⟨log, .error error⟩

instance : Monad (Logged ω ε) where
  pure := pure
  bind := bind

theorem id_map (x : Logged ω ε α) : id <$> x = x := by
  rcases x with ⟨log, result⟩
  cases result <;> simp [Functor.map, bind, pure]

theorem pure_bind (value : α) (f : α → Logged ω ε β) : (Pure.pure value >>= f) = f value := by
  simp [Bind.bind, Pure.pure, bind, pure]

theorem bind_assoc {γ : Type} (x : Logged ω ε α) (f : α → Logged ω ε β) (g : β → Logged ω ε γ) :
    x >>= f >>= g = x >>= fun value => f value >>= g := by
  rcases x with ⟨log, result⟩
  cases result with
  | error error => rfl
  | ok value =>
    simp only [Bind.bind, bind]
    rcases f value with ⟨more, result⟩
    cases result <;> simp [Array.append_assoc]

instance : LawfulMonad (Logged ω ε) := LawfulMonad.mk' _ id_map pure_bind bind_assoc

/-- Passes a state through a list of items from left to right, keeping one log. -/
def foldl (f : σ → ι → Logged ω ε σ) (state : σ) (items : List ι) : Logged ω ε σ :=
  items.foldl (fun x item => x.bind (f · item)) (pure state)

/-- Writes a last entry for the error of a computation that failed. -/
def reporting (entry : ε → ω) (x : Logged ω ε α) : Logged ω ε α :=
  match x with
  | ⟨log, .ok value⟩ => ⟨log, .ok value⟩
  | ⟨log, .error error⟩ => ⟨log.push (entry error), .error error⟩

/-- Rephrases the entries and the error of a computation. -/
def rephrase (entry : ω → υ) (cause : ε → δ) (x : Logged ω ε α) : Logged υ δ α :=
  ⟨x.log.map entry, x.result.mapError cause⟩

end Logged

end LittleMan
