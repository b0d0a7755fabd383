import ModeTree.Json.Basic
import ModeTree.Stimulus.Parser

/-!
# Stimuli in JSON

A stimulus is written as its canonical text.
-/

namespace ModeTree.Stimulus

/-- A stimulus in JSON: its text. -/
def toJson (s : Stimulus) : Json := .text s.text

/-- Reads a stimulus from its text. -/
def ofJson? : Json → Option Stimulus
  | .str (some s) => (parse s).toOption
  | _ => none

end ModeTree.Stimulus
