import ModeTree.Proofs.Event.Image

/-!
# Keys that are modifiers

A key that is a modifier is reported without itself among the modifiers held, since the host may count it as
held or not. The normaliser knows such a key by the canonical name of the modifier and by the aliases for it.
The words that a stimulus text may use for a modifier are more than these: `unaliased` has the others, and
`modifierKey_reported` says for every word whether its key is reported with itself.
-/

set_option autoImplicit false

namespace ModeTree

open Text

namespace Modifier

theorem mem_all (m : Modifier) : m ∈ all := by
  cases m with
  | ctrl | shift | alt | metaKey => decide

/-- The spellings of modifiers that are no canonical name and no alias of one. -/
def unaliased : List String := ["option", "cmd", "super"]

end Modifier

namespace Normalizer

open Modifier

theorem spellings_canonical :
    ∀ m ∈ Modifier.all, ∀ spelling ∈ m.spellings,
      (NameTable.findEntry spelling commonAliases.reverse).getD spelling =
        if spelling ∈ unaliased then spelling else m.name := by
  decide +kernel

theorem name_eq_canonical_iff :
    ∀ m ∈ Modifier.all, ∀ spelling ∈ m.spellings, ∀ other ∈ Modifier.all,
      (other.name = if spelling ∈ unaliased then spelling else m.name) ↔
        other = m ∧ spelling ∉ unaliased := by
  decide +kernel

section Spelling

variable {m : Modifier} {spelling name : String}

theorem spelling_ne_empty (h : spelling ∈ m.spellings) : spelling ≠ "" := by
  have hall : ∀ m ∈ Modifier.all, "" ∉ m.spellings := by decide
  rintro rfl
  exact hall m m.mem_all h

/-- The canonical name of a key that is named by a spelling of a modifier. -/
theorem keyName_of_spelling (hspelling : spelling ∈ m.spellings)
    (hname : lower (trim name.toList) = spelling.toList) :
    standard.keyName name = if spelling ∈ unaliased then spelling else m.name := by
  have hnamed : ¬ White name.toList := by
    intro hwhite
    rw [trim_eq_nil_iff.2 hwhite, lower_nil] at hname
    exact spelling_ne_empty hspelling (String.toList_eq_nil_iff.1 hname.symm)
  have hfold : foldName name = spelling := by
    apply String.toList_inj.1
    rw [toList_foldName hnamed, hname]
  rw [keyName, get?_standard, hfold]
  exact spellings_canonical m m.mem_all spelling hspelling

/-- Which modifier has the canonical name of the key. -/
theorem name_eq_keyName_iff (hspelling : spelling ∈ m.spellings)
    (hname : lower (trim name.toList) = spelling.toList) (other : Modifier) :
    other.name = standard.keyName name ↔ other = m ∧ spelling ∉ unaliased := by
  rw [keyName_of_spelling hspelling hname]
  exact name_eq_canonical_iff m m.mem_all spelling hspelling other other.mem_all

/-- The modifiers that a key of a modifier is reported with: those that are held besides the modifier, and the
modifier if it is held and the key goes by an unaliased spelling of it. -/
theorem contains_heldBeside_keyName (hspelling : spelling ∈ m.spellings)
    (hname : lower (trim name.toList) = spelling.toList) (held : Modifiers) (other : Modifier) :
    (heldBeside (standard.keyName name) held).contains other = true ↔
      held.contains other = true ∧ (other = m → spelling ∈ unaliased) := by
  rw [contains_heldBeside, Bool.and_eq_true, decide_eq_true_eq, ne_eq,
    name_eq_keyName_iff hspelling hname, not_and, not_not]

theorem keyName_ne_empty (hspelling : spelling ∈ m.spellings)
    (hname : lower (trim name.toList) = spelling.toList) : standard.keyName name ≠ "" := by
  rw [keyName_of_spelling hspelling hname]
  split
  · exact spelling_ne_empty hspelling
  · have hall : ∀ m ∈ Modifier.all, m.name ≠ "" := by decide
    exact hall m m.mem_all

/-- What a key is reported as that goes, up to case and white space around it, by a spelling of a modifier. Of
the other modifiers it lists those that are held. It lists the modifier itself exactly when this is held and
the spelling is one of the unaliased. With any other spelling the report of the press and that of the release
have everything but the phase in common, whether the modifier counts as held or not. -/
theorem modifierKey_reported (hspelling : spelling ∈ m.spellings)
    (hname : lower (trim name.toList) = spelling.toList) (pressed : Bool) (held : Modifiers)
    (hit : Option Hit) :
    ∃ x, standard.normalize ⟨.key name pressed, held⟩ hit = some x ∧
      (∀ other, other ≠ m → x.modifiers.contains other = held.contains other) ∧
      (x.modifiers.contains m = true ↔ held.contains m = true ∧ spelling ∈ unaliased) ∧
      (spelling ∉ unaliased → ∀ (pressed' : Bool) (held' : Modifiers) (hit' : Option Hit),
        (∀ other, other ≠ m → held'.contains other = held.contains other) →
          standard.normalize ⟨.key name pressed', held'⟩ hit' =
            some { x with phase := some (.ofPressed pressed') }) := by
  have hnamed := keyName_ne_empty hspelling hname
  have hlists := contains_heldBeside_keyName hspelling hname
  refine ⟨_, normalize_eq_some_iff.2 (.key pressed hnamed), ?_, ?_, ?_⟩
  · intro other hother
    rw [Bool.eq_iff_iff, hlists]
    simp [hother]
  · rw [hlists]
    simp
  · intro hknown pressed' held' hit' hheld
    -- what is listed besides the modifier does not tell the two reports apart
    have hsame : heldBeside (standard.keyName name) held' = heldBeside (standard.keyName name) held := by
      apply Modifiers.ext_contains
      intro other
      rw [Bool.eq_iff_iff, hlists, hlists]
      by_cases hother : other = m
      · simp [hother, hknown]
      · rw [hheld other hother]
    rw [normalize_eq_some_iff, ← hsame]
    exact .key pressed' hnamed

end Spelling

/-- The key that a host calls Control, pressed with the shift key while the host counts it as held, and
released after the host has ceased to do so. -/
theorem modifierKey_reported_control :
    "control" ∈ Modifier.ctrl.spellings ∧ lower (trim " CONTROL".toList) = "control".toList ∧
      ∃ x, standard.normalize ⟨.key " CONTROL" true, ⟨true, true, false, false⟩⟩ none = some x ∧
        x.modifiers.contains .ctrl = false ∧ x.modifiers.contains .shift = true ∧
        standard.normalize ⟨.key " CONTROL" false, ⟨false, true, false, false⟩⟩ none =
          some { x with phase := some .up } := by
  have hspelling : "control" ∈ Modifier.ctrl.spellings := by decide
  have hname : lower (trim " CONTROL".toList) = "control".toList := by decide +kernel
  obtain ⟨x, hpress, hothers, hitself, hrelease⟩ :=
    modifierKey_reported hspelling hname true ⟨true, true, false, false⟩ none
  refine ⟨hspelling, hname, x, hpress, ?_, hothers .shift (by decide), ?_⟩
  · rw [← Bool.not_eq_true, hitself]
    exact fun h => absurd h.2 (by decide)
  · apply hrelease (by decide) false
    intro other hother
    cases other with
    | ctrl => exact absurd rfl hother
    | shift | alt | metaKey => rfl

/-- The key that a host calls Option is reported with itself when it is pressed, and without when it is
released, while texts have the word for the alt key. -/
theorem optionKey_lists_itself :
    Modifier.ofSpelling? "option" = some .alt ∧ lower (trim "Option".toList) = "option".toList ∧
      standard.normalize ⟨.key "Option" true, ⟨false, false, true, false⟩⟩ none =
        some ⟨.key, "option", some .down, ⟨false, false, true, false⟩, none⟩ ∧
      standard.normalize ⟨.key "Option" false, .none⟩ none =
        some ⟨.key, "option", some .up, .none, none⟩ := by
  decide +kernel

end Normalizer

end ModeTree
