import ModeTree.NameTable

/-!
# Action registry

The host's callbacks by name. A callback changes the host's state and may end badly; whatever it does,
invoking it only answers with the outcome.
-/

namespace ModeTree

universe u

/-- What a callback throws when it panics: a message, or something that is no text. -/
inductive Payload where
  | text (message : String)
  | other
  deriving DecidableEq, Repr

/-- The message of a payload; one that is no text has a fixed message. -/
def Payload.message : Payload → String
  | text message => message
  | other => "non-string panic payload"

/-- How a callback ends. -/
inductive Ending where
  | completed
  | failed (reason : String)
  | panicked (payload : Payload)
  deriving DecidableEq, Repr

/-- A callback of a host with states in `σ`. -/
abbrev Callback (σ : Type u) := σ → Ending × σ

/-- A callback that has no failures to report: it returns, or it panics with a payload. -/
abbrev Routine (σ : Type u) := σ → Option Payload × σ

/-- The end of a callback that throws a payload, or nothing. -/
def Ending.ofThrown : Option Payload → Ending
  | none => .completed
  | some payload => .panicked payload

/-- A routine as a callback. -/
def Routine.callback {σ : Type u} (routine : Routine σ) : Callback σ := fun host =>
  let (thrown, host) := routine host
  (.ofThrown thrown, host)

/-- Why an invocation failed: the callback said so, or it panicked. -/
inductive ActionError where
  | failed (detail : String)
  | panicked (detail : String)
  deriving DecidableEq, Repr

/-- The wording of an error. -/
def ActionError.message : ActionError → String
  | failed detail => "Action failed: " ++ detail
  | panicked detail => "Action panicked: " ++ detail

/-- What an invocation comes to; a name without a callback is passed over. -/
inductive InvokeOutcome where
  | completed
  | missing
  | failed (error : ActionError)
  deriving DecidableEq, Repr

/-- What an invocation comes to when its callback ends so. -/
def Ending.outcome : Ending → InvokeOutcome
  | completed => .completed
  | failed reason => .failed (.failed reason)
  | panicked payload => .failed (.panicked payload.message)

/-- The callbacks of a host by name. -/
structure Registry (σ : Type u) where
  callbacks : NameTable (Callback σ)

namespace Registry

variable {σ : Type u}

/-- The registry without callbacks. -/
def empty : Registry σ := ⟨.empty⟩

/-- Gives a name a callback, in place of an earlier one. -/
def register (r : Registry σ) (name : String) (callback : Callback σ) : Registry σ :=
  ⟨r.callbacks.insert name callback⟩

/-- Gives a name a callback without failures, in place of an earlier one. -/
def registerRoutine (r : Registry σ) (name : String) (routine : Routine σ) : Registry σ :=
  r.register name routine.callback

/-- The registry without the callback of a name. -/
def unregister (r : Registry σ) (name : String) : Registry σ := ⟨r.callbacks.erase name⟩

/-- Whether a name has a callback. -/
def contains (r : Registry σ) (name : String) : Bool := r.callbacks.contains name

/-- Takes the callback of a name away, and says whether there was one. -/
def remove (r : Registry σ) (name : String) : Bool × Registry σ := (r.contains name, r.unregister name)

/-- The names in ascending order. -/
def names (r : Registry σ) : List String := r.callbacks.names

/-- The number of names that have a callback. -/
def size (r : Registry σ) : Nat := r.callbacks.size

/-- Whether no name has a callback. -/
def isEmpty (r : Registry σ) : Bool := r.callbacks.isEmpty

/-- Runs the callback of a name once. -/
def invoke (r : Registry σ) (name : String) (host : σ) : InvokeOutcome × σ :=
  match r.callbacks.get? name with
  | none => (.missing, host)
  | some callback =>
    -- what a callback did to the host stays, also when it ends badly
    let (ending, host) := callback host
    (ending.outcome, host)

end Registry

end ModeTree
