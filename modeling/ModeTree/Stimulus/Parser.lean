import ModeTree.Stimulus.Basic
import ModeTree.Text.Split
import ModeTree.Text.White

/-!
# Reading stimuli

The text of a stimulus is `[modifier "+"]* input [":" phase] [" on " place]`, with white space allowed
around each part but none between the colon and the phase. The device follows from the name of the
input and from whether it has a phase.
-/

namespace ModeTree

/-- Why a text is no stimulus. -/
inductive ParseError where
  | empty
  | unknownModifier (text : String)
  | unknownPhase (text : String)
  | unknownPlace (text : String)
  | missingPhase (input : String)
  | unexpectedPhase (input : String)
  deriving DecidableEq, Repr

/-- The wording of a cause. -/
def ParseError.message : ParseError → String
  | empty => "Empty stimulus"
  | unknownModifier text => "Unknown modifier '" ++ text ++ "'"
  | unknownPhase text => "Unknown phase '" ++ text ++ "' (expected 'down' or 'up')"
  | unknownPlace text => "Unknown spatial qualifier '" ++ text ++ "'"
  | missingPhase input => "Input '" ++ input ++ "' requires a ':down' or ':up' phase"
  | unexpectedPhase input => "Input '" ++ input ++ "' does not take a phase"

/-- The place that a text names. -/
def Place.parse (s : String) : Except ParseError Place :=
  match Place.ofName? s with
  | some p => .ok p
  | none => .error (.unknownPlace s)

namespace Stimulus

/-- Whether an input is named like a pointer button: the word for one, then decimal digits. -/
def isButtonName (input : String) : Bool :=
  match Text.after? buttonWord.toList input.toList with
  | some (d :: ds) => (d :: ds).all Char.isDigit
  | _ => false

/-- The device of an input. Buttons and the wheel need a phase, the motion and the double click of the
pointer have none; any other input is a key if it has a phase and a command if it has none. -/
def inferDevice (input : String) (phase : Option Phase) : Except ParseError Device :=
  if isButtonName input then
    if phase.isNone then .error (.missingPhase input) else .ok .pointer
  else if input = scrollName then
    if phase.isNone then .error (.missingPhase input) else .ok .scroll
  else if input = moveName ∨ input = doubleClickName then
    if phase.isSome then .error (.unexpectedPhase input) else .ok .pointer
  else .ok (if phase.isSome then .key else .command)

/-- The part before the place, and the place. -/
def splitPlace (cs : List Char) : Except ParseError (List Char × Option Place) :=
  match Text.cutFirst? " on ".toList cs with
  | none => .ok (cs, none)
  | some (head, rest) => do
    -- nothing else stands behind a place, so all of the rest has to name it
    let place ← Place.parse (String.ofList (Text.trim rest))
    .ok (Text.trim head, some place)

/-- The part before the phase, and the phase. -/
def splitPhase (cs : List Char) : Except ParseError (List Char × Option Phase) :=
  match Text.cutLast? ':' cs with
  | none => .ok (cs, none)
  | some (head, rest) =>
    match Phase.ofName? (String.ofList rest) with
    | some phase => .ok (head, some phase)
    | none => .error (.unknownPhase (String.ofList rest))

/-- The modifier that one part of a chord spells, up to the case of the letters A to Z. -/
def parseModifier (part : List Char) : Except ParseError Modifier :=
  let spelling := String.ofList (Text.lowerAscii (Text.trim part))
  match Modifier.ofSpelling? spelling with
  | some m => .ok m
  | none => .error (.unknownModifier spelling)

/-- The set of modifiers that the parts of a chord spell. -/
def parseModifiers : List (List Char) → Except ParseError Modifiers
  | [] => .ok .none
  | part :: parts => do
    let m ← parseModifier part
    let ms ← parseModifiers parts
    .ok (ms.insert m)

/-- Name of the input: names with a phase are in lowercase, others are kept as written. -/
def inputName (phase : Option Phase) (name : List Char) : String :=
  String.ofList (if phase.isSome then Text.lower name else name)

/-- Reads the text of a stimulus. -/
def parse (s : String) : Except ParseError Stimulus :=
  match Text.trim s.toList with
  | [] => .error .empty
  | c :: cs => do
    let (head, place) ← splitPlace (c :: cs)
    -- the cuts come first and the lowercase form last, so a mark in capitals is not cut at
    let (chord, phase) ← splitPhase head
    let (parts, last) := Text.cutEach '+' chord
    let name := Text.trim last
    if name = [] then .error .empty else
    let input := inputName phase name
    -- a modifier that is unknown is reported before a phase that does not fit
    let modifiers ← parseModifiers parts
    let device ← inferDevice input phase
    .ok ⟨device, input, phase, modifiers, place⟩

end Stimulus

end ModeTree
