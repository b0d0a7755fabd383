import ModeTree.Proofs.Text.Cut
import ModeTree.Stimulus.Parser

/-!
# Names of inputs and their devices

Buttons, the wheel and the pointer keep some names for themselves (`Reserved`). Which device an input comes
from is said by `Device.Sends`: each of these names needs a phase or takes none, and any other name is that
of a key if it has a phase and that of a command if it has none. This is the device that reading infers
(`inferDevice_eq_ok_iff`).
-/

set_option autoImplicit false

namespace ModeTree

open Text

namespace Stimulus

/-- Named like a pointer button: the word for one and a number in decimal digits. -/
def ButtonName (input : String) : Prop :=
  ∃ digits, digits ≠ [] ∧ (∀ d ∈ digits, d.isDigit = true) ∧
    input.toList = buttonWord.toList ++ digits

/-- The names of pointer buttons, of the wheel, and of the pointer's motion and double click. -/
def Reserved (input : String) : Prop :=
  ButtonName input ∨ input = scrollName ∨ input = moveName ∨ input = doubleClickName

end Stimulus

open Stimulus

/-- The device that an input with or without a phase comes from. -/
inductive Device.Sends : Device → String → Option Phase → Prop
  | button {input : String} (phase : Phase) (h : ButtonName input) : Sends .pointer input (some phase)
  | scroll (phase : Phase) : Sends .scroll scrollName (some phase)
  | move : Sends .pointer moveName none
  | doubleClick : Sends .pointer doubleClickName none
  | key {input : String} (phase : Phase) (h : ¬ Reserved input) : Sends .key input (some phase)
  | command {input : String} (h : ¬ Reserved input) : Sends .command input none

namespace Stimulus

theorem isButtonName_iff {input : String} : isButtonName input = true ↔ ButtonName input := by
  rw [isButtonName, ButtonName]
  cases hafter : after? buttonWord.toList input.toList with
  | none =>
      have hnot := after?_eq_none_iff.1 hafter
      simp only [Bool.false_eq_true, false_iff]
      rintro ⟨digits, -, -, hinput⟩
      exact hnot ⟨digits, hinput.symm⟩
  | some rest =>
      have hinput := after?_eq_some_iff.1 hafter
      rw [hinput]
      constructor
      · intro h
        cases rest with
        | nil => simp at h
        | cons d ds => exact ⟨d :: ds, by simp, List.all_eq_true.1 h, rfl⟩
      · rintro ⟨digits, hne, hdigits, heq⟩
        obtain rfl := List.append_cancel_left heq
        obtain ⟨d, ds, rfl⟩ := List.exists_cons_of_ne_nil hne
        exact List.all_eq_true.2 hdigits

instance : DecidablePred ButtonName := fun input =>
  decidable_of_iff (isButtonName input = true) isButtonName_iff

instance : DecidablePred Reserved := fun input =>
  inferInstanceAs (Decidable (ButtonName input ∨ input = scrollName ∨ input = moveName ∨ input = doubleClickName))

/-- The device that is inferred is the one that sends the input. -/
theorem inferDevice_eq_ok_iff {input : String} {phase : Option Phase} {d : Device} :
    inferDevice input phase = .ok d ↔ d.Sends input phase := by
  rw [inferDevice]
  constructor
  · intro h
    by_cases hbutton : isButtonName input = true
    · rw [if_pos hbutton] at h
      cases phase with
      | none => simp at h
      | some p =>
          obtain rfl : Device.pointer = d := by simpa using h
          exact .button p (isButtonName_iff.1 hbutton)
    · rw [if_neg hbutton] at h
      by_cases hscroll : input = scrollName
      · subst hscroll
        rw [if_pos rfl] at h
        cases phase with
        | none => simp at h
        | some p =>
            obtain rfl : Device.scroll = d := by simpa using h
            exact .scroll p
      · rw [if_neg hscroll] at h
        by_cases hpointer : input = moveName ∨ input = doubleClickName
        · rw [if_pos hpointer] at h
          cases phase with
          | some p => simp at h
          | none =>
              obtain rfl : Device.pointer = d := by simpa using h
              rcases hpointer with rfl | rfl
              · exact .move
              · exact .doubleClick
        · rw [if_neg hpointer] at h
          have hfree : ¬ Reserved input := by
            rintro (hname | rfl | hname)
            · exact hbutton (isButtonName_iff.2 hname)
            · exact hscroll rfl
            · exact hpointer hname
          cases phase with
          | some p =>
              obtain rfl : Device.key = d := by simpa using h
              exact .key p hfree
          | none =>
              obtain rfl : Device.command = d := by simpa using h
              exact .command hfree
  · intro h
    cases h with
    | button phase h => simp [isButtonName_iff.2 h]
    | scroll phase => rfl
    | move => rfl
    | doubleClick => rfl
    | key phase h =>
        simp only [Reserved, not_or, ← isButtonName_iff] at h
        simp [h]
    | command h =>
        simp only [Reserved, not_or, ← isButtonName_iff] at h
        simp [h]

theorem sends_key_iff {input : String} {phase : Phase} :
    Device.key.Sends input (some phase) ↔ ¬ Reserved input := by
  constructor
  · intro h
    cases h with
    | key _ hfree => exact hfree
  · exact .key phase

theorem sends_command_iff {input : String} : Device.command.Sends input none ↔ ¬ Reserved input := by
  constructor
  · intro h
    cases h with
    | command hfree => exact hfree
  · exact .command

end Stimulus

end ModeTree
