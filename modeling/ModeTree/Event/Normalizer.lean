import ModeTree.Event.Basic
import ModeTree.NameTable
import ModeTree.Text.White

/-!
# Normalising events

A normaliser turns host events into stimuli. It knows the key names of hosts that differ from the
canonical ones, and leaves out events without a meaning, such as a wheel that did not turn.
-/

namespace ModeTree

/-- Canonical key names by the lowercase name that a host uses. -/
structure Normalizer where
  aliases : NameTable String

namespace Normalizer

/-- Common names that hosts use for a key. -/
def commonAliases : List (String × String) :=
  [("escape", "esc"), ("delete", "del"), ("backspace", "del"), (" ", "space"), ("spacebar", "space"),
   ("control", "ctrl"), ("+", "plus")]

/-- The normaliser that knows the common names. -/
def standard : Normalizer := ⟨.ofList commonAliases⟩

instance : Inhabited Normalizer := ⟨standard⟩

/-- Takes a further host name for a key, in place of an earlier meaning. -/
def withAlias (n : Normalizer) (host key : String) : Normalizer :=
  ⟨n.aliases.insert (Text.lowercase host) (Text.lowercase key)⟩

/-- A host's key name without surrounding white space and in lowercase. A blank name is left as it is,
since a blank is the name of a key. -/
def foldName (name : String) : String :=
  match Text.trim name.toList with
  | [] => name
  | c :: cs => String.ofList (Text.lower (c :: cs))

/-- Canonical name of a key. -/
def keyName (n : Normalizer) (name : String) : String :=
  let folded := foldName name
  (n.aliases.get? folded).getD folded

/-- A pointer occurrence with the modifiers held and the place under the pointer. -/
def situated (s : Stimulus) (held : Modifiers) (hit : Option Hit) : Stimulus :=
  { s with modifiers := held, place := hit.map Hit.place }

/-- The modifiers held besides the key itself. -/
def heldBeside (key : String) (held : Modifiers) : Modifiers :=
  match Modifier.ofName? key with
  | some m => held.erase m
  | none => held

/-- Direction of a wheel, if it turned. -/
def wheelPhase (delta : Float) : Option Phase :=
  if delta < 0 then some .up else if 0 < delta then some .down else none

/-- The stimulus of an event. Keys and commands have no place, and commands no modifiers. -/
def normalize (n : Normalizer) (event : Event) (hit : Option Hit) : Option Stimulus :=
  match event.input with
  | .button number pressed =>
    some (situated (.button number (.ofPressed pressed)) event.held hit)
  | .move => some (situated .move event.held hit)
  | .doubleClick => some (situated .doubleClick event.held hit)
  | .wheel delta => (wheelPhase delta).map fun phase => situated (.scroll phase) event.held hit
  | .key name pressed =>
    let key := n.keyName name
    -- an empty name is no key, whether a host or an alias gives it
    if key = "" then none
    else some { Stimulus.key key (.ofPressed pressed) with modifiers := heldBeside key event.held }
  | .command name =>
    match Text.trim name.toList with
    | [] => none
    | c :: cs => some (.command (String.ofList (c :: cs)))

end Normalizer

end ModeTree
