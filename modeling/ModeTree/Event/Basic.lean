import ModeTree.Stimulus.Basic

/-!
# Host events

What a host reports: a raw input, the modifiers held, and what its hit test found under the pointer.
-/

namespace ModeTree

/-- What the hit test found. -/
inductive Hit where
  | vertex
  | segment
  | ring
  | background
  | leftEntity
  deriving DecidableEq, Repr

/-- The place that a hit test speaks of. -/
def Hit.place : Hit → Place
  | vertex => .vertex
  | segment => .segment
  | ring => .ring
  | background => .background
  | leftEntity => .out

/-- An input as the host's devices report it. -/
inductive RawInput where
  | button (number : Nat) (pressed : Bool)
  | move
  | doubleClick
  | wheel (delta : Float)
  | key (name : String) (pressed : Bool)
  | command (name : String)

/-- An input, and the modifiers held at the time. -/
structure Event where
  input : RawInput
  held : Modifiers

end ModeTree
