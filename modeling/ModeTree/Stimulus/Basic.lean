import ModeTree.Text.Lowercase

/-!
# Control stimuli

A stimulus is the normal form of one input occurrence: the device, the button, key or command, the
phase of a press, the modifiers held and the place under the pointer. Stimuli are compared as values;
a pattern without a place matches an occurrence at any place (`Stimulus.matchesStimulus_iff`).
-/

namespace ModeTree

/-- Where an input comes from. -/
inductive Device where
  | pointer
  | key
  | scroll
  | command
  deriving DecidableEq, Repr

/-- The two ends of a press, and the two directions of the wheel. -/
inductive Phase where
  | down
  | up
  deriving DecidableEq, Repr

namespace Phase

/-- The name of a phase in texts. -/
def name : Phase → String
  | down => "down"
  | up => "up"

/-- The phases. -/
def all : List Phase := [down, up]

/-- The phase with the name `s`. -/
def ofName? (s : String) : Option Phase := all.find? fun p => p.name = s

/-- Phase of a press that is held or released. -/
def ofPressed (pressed : Bool) : Phase := if pressed then down else up

@[simp] theorem ofName?_name (p : Phase) : ofName? p.name = some p := by cases p <;> rfl

theorem name_of_ofName? {s : String} {p : Phase} (h : ofName? s = some p) : p.name = s := by
  simpa using List.find?_some h

end Phase

/-- A key that is held while another input occurs. -/
inductive Modifier where
  | ctrl
  | shift
  | alt
  | metaKey
  deriving DecidableEq, Repr

namespace Modifier

/-- The modifiers in canonical order. -/
def all : List Modifier := [ctrl, shift, alt, metaKey]

/-- The canonical name of a modifier. -/
def name : Modifier → String
  | ctrl => "ctrl"
  | shift => "shift"
  | alt => "alt"
  | metaKey => "meta"

/-- The words that name a modifier in a stimulus text, up to the case of A to Z. -/
def spellings : Modifier → List String
  | ctrl => ["ctrl", "control"]
  | shift => ["shift"]
  | alt => ["alt", "option"]
  | metaKey => ["meta", "cmd", "super"]

/-- The modifier with the canonical name `s`. -/
def ofName? (s : String) : Option Modifier := all.find? fun m => m.name = s

/-- The modifier that `s` spells. -/
def ofSpelling? (s : String) : Option Modifier := all.find? fun m => m.spellings.contains s

@[simp] theorem ofName?_name (m : Modifier) : ofName? m.name = some m := by cases m <;> rfl

@[simp] theorem ofSpelling?_name (m : Modifier) : ofSpelling? m.name = some m := by cases m <;> rfl

end Modifier

/-- A set of modifiers. -/
structure Modifiers where
  ctrl : Bool
  shift : Bool
  alt : Bool
  metaKey : Bool
  deriving DecidableEq, Repr

namespace Modifiers

/-- The set without members. -/
def none : Modifiers := ⟨false, false, false, false⟩

/-- Whether a modifier is a member. -/
def contains (ms : Modifiers) : Modifier → Bool
  | .ctrl => ms.ctrl
  | .shift => ms.shift
  | .alt => ms.alt
  | .metaKey => ms.metaKey

/-- The set with a modifier. -/
def insert (ms : Modifiers) : Modifier → Modifiers
  | .ctrl => { ms with ctrl := true }
  | .shift => { ms with shift := true }
  | .alt => { ms with alt := true }
  | .metaKey => { ms with metaKey := true }

/-- The set without a modifier. -/
def erase (ms : Modifiers) : Modifier → Modifiers
  | .ctrl => { ms with ctrl := false }
  | .shift => { ms with shift := false }
  | .alt => { ms with alt := false }
  | .metaKey => { ms with metaKey := false }

/-- The members in canonical order. -/
def toList (ms : Modifiers) : List Modifier := Modifier.all.filter ms.contains

@[simp] theorem contains_none (m : Modifier) : none.contains m = false := by cases m <;> rfl

@[simp] theorem contains_insert (ms : Modifiers) (m n : Modifier) :
    (ms.insert m).contains n = (n == m || ms.contains n) := by
  cases m <;> cases n <;> rfl

@[simp] theorem contains_erase (ms : Modifiers) (m n : Modifier) :
    (ms.erase m).contains n = (n != m && ms.contains n) := by
  cases m <;> cases n <;> rfl

@[simp] theorem mem_toList (ms : Modifiers) (m : Modifier) : m ∈ ms.toList ↔ ms.contains m := by
  cases m <;> simp [toList, Modifier.all]

theorem ext_contains {ms ns : Modifiers} (h : ∀ m, ms.contains m = ns.contains m) : ms = ns := by
  obtain ⟨a, b, c, d⟩ := ms
  obtain ⟨a', b', c', d'⟩ := ns
  have h1 := h .ctrl
  have h2 := h .shift
  have h3 := h .alt
  have h4 := h .metaKey
  simp only [contains] at h1 h2 h3 h4
  subst h1 h2 h3 h4
  rfl

end Modifiers

/-- What lies under the pointer; `out` when it has just left an entity. -/
inductive Place where
  | vertex
  | segment
  | ring
  | background
  | out
  deriving DecidableEq, Repr

namespace Place

/-- The name of a place in texts. -/
def name : Place → String
  | vertex => "vertex"
  | segment => "segment"
  | ring => "ring"
  | background => "background"
  | out => "out"

/-- The places. -/
def all : List Place := [vertex, segment, ring, background, out]

/-- The place with the name `s`. -/
def ofName? (s : String) : Option Place := all.find? fun p => p.name = s

@[simp] theorem ofName?_name (p : Place) : ofName? p.name = some p := by cases p <;> rfl

theorem name_of_ofName? {s : String} {p : Place} (h : ofName? s = some p) : p.name = s := by
  simpa using List.find?_some h

end Place

/-- An input occurrence, or a pattern for such. -/
structure Stimulus where
  device : Device
  input : String
  phase : Option Phase
  modifiers : Modifiers
  place : Option Place
  deriving DecidableEq, Repr

namespace Stimulus

/-- Name of the pointer's motion. -/
def moveName : String := "mousemove"

/-- Name of the double click. -/
def doubleClickName : String := "dblclick"

/-- Name of a turn of the wheel. -/
def scrollName : String := "scroll"

/-- Names of pointer buttons are this word followed by a number. -/
def buttonWord : String := "mouse"

/-- A stimulus without modifiers and place. -/
def bare (device : Device) (input : String) (phase : Option Phase) : Stimulus :=
  ⟨device, input, phase, .none, none⟩

/-- A press or release of a pointer button. -/
def button (number : Nat) (phase : Phase) : Stimulus :=
  bare .pointer (buttonWord ++ toString number) (some phase)

/-- A motion of the pointer. -/
def move : Stimulus := bare .pointer moveName none

/-- A double click. -/
def doubleClick : Stimulus := bare .pointer doubleClickName none

/-- A turn of the wheel. -/
def scroll (direction : Phase) : Stimulus := bare .scroll scrollName (some direction)

/-- A press or release of a key; key names are in lowercase. -/
def key (name : String) (phase : Phase) : Stimulus := bare .key (Text.lowercase name) (some phase)

/-- A command that the host issues by name. -/
def command (name : String) : Stimulus := bare .command name none

/-- The stimulus with one more modifier held. -/
def withModifier (s : Stimulus) (m : Modifier) : Stimulus :=
  { s with modifiers := s.modifiers.insert m }

/-- The stimulus at a place. -/
def onPlace (s : Stimulus) (p : Place) : Stimulus := { s with place := some p }

/-- Whether an occurrence is one that the pattern names: a pattern without a place names occurrences
at every place, and all else has to be equal. -/
def matchesStimulus (pattern occurrence : Stimulus) : Bool :=
  pattern.device == occurrence.device && pattern.phase == occurrence.phase &&
    pattern.input == occurrence.input && pattern.modifiers == occurrence.modifiers &&
    match pattern.place with
    | none => true
    | some p => occurrence.place == some p

/-- Canonical text: modifiers, input, phase and place. -/
def text (s : Stimulus) : String :=
  let modifiers := s.modifiers.toList.map fun m => m.name ++ "+"
  let phase := (s.phase.map fun p => ":" ++ p.name).getD ""
  let place := (s.place.map fun p => " on " ++ p.name).getD ""
  String.join modifiers ++ s.input ++ phase ++ place

instance : ToString Stimulus := ⟨text⟩

theorem matchesStimulus_iff (pattern occurrence : Stimulus) :
    pattern.matchesStimulus occurrence = true ↔
      pattern.device = occurrence.device ∧ pattern.phase = occurrence.phase ∧
        pattern.input = occurrence.input ∧ pattern.modifiers = occurrence.modifiers ∧
        (pattern.place = none ∨ pattern.place = occurrence.place) := by
  obtain ⟨d, i, p, m, q⟩ := pattern
  cases q with
  | none => simp [matchesStimulus, and_assoc]
  | some q => simp [matchesStimulus, and_assoc, @eq_comm _ occurrence.place]

@[simp] theorem matchesStimulus_self (s : Stimulus) : s.matchesStimulus s = true := by
  simp [matchesStimulus_iff]

end Stimulus

end ModeTree
