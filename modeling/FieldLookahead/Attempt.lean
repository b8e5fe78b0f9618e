/-! Work on a state that may stop half-way: the state reached so far survives the error. -/

namespace FieldLookahead

inductive Attempt (ε σ : Type) where
  | done (state : σ)
  | stopped (state : σ) (error : ε)
  deriving DecidableEq, Repr

namespace Attempt

variable {ε ε' σ τ α : Type}

def state : Attempt ε σ → σ
  | done state => state
  | stopped state _ => state

def error? : Attempt ε σ → Option ε
  | done _ => none
  | stopped _ error => some error

def map (f : σ → τ) : Attempt ε σ → Attempt ε τ
  | done state => done (f state)
  | stopped state error => stopped (f state) error

def mapError (f : ε → ε') : Attempt ε σ → Attempt ε' σ
  | done state => done state
  | stopped state error => stopped state (f error)

/-- More work on the state reached, unless the work has stopped. -/
def andThen (attempt : Attempt ε σ) (next : σ → Attempt ε σ) : Attempt ε σ :=
  match attempt with
  | done state => next state
  | stopped state error => stopped state error

def finished : Attempt ε σ → Except ε σ
  | done state => .ok state
  | stopped _ error => .error error

/-- One step for each item, in order, until one stops. -/
def each (step : α → σ → Attempt ε σ) : List α → σ → Attempt ε σ
  | [], state => done state
  | item :: rest, state => (step item state).andThen (each step rest)

@[simp] theorem state_map (f : σ → τ) (attempt : Attempt ε σ) :
    (attempt.map f).state = f attempt.state := by
  cases attempt <;> rfl

@[simp] theorem error?_map (f : σ → τ) (attempt : Attempt ε σ) :
    (attempt.map f).error? = attempt.error? := by
  cases attempt <;> rfl

@[simp] theorem andThen_done (attempt : Attempt ε σ) : attempt.andThen done = attempt := by
  cases attempt <;> rfl

theorem each_append (step : α → σ → Attempt ε σ) (first second : List α) (state : σ) :
    each step (first ++ second) state = (each step first state).andThen (each step second) := by
  induction first generalizing state with
  | nil => rfl
  | cons item rest ih =>
    simp only [List.cons_append, each]
    cases step item state with
    | done next => exact ih next
    | stopped => rfl

end Attempt
end FieldLookahead
