import ModeTree.Event.Normalizer
import ModeTree.Proofs.NameTable
import ModeTree.Proofs.Text.Lowercase
import ModeTree.Stimulus.Parser

/-!
# What the normaliser gives

The canonical name of a key is its own canonical name (`keyName_keyName`): it is folded, and no host uses it
for another key. So the stimuli of keys that come from events are those with a canonical name, and every one
of them comes from an event; the stimuli of commands are those with a trimmed name (`normalize_image`).
-/

set_option autoImplicit false

namespace ModeTree

open Text

namespace Normalizer

/-! ## Folded names -/

theorem foldName_of_white {name : String} (h : White name.toList) : foldName name = name := by
  rw [foldName, trim_eq_nil_iff.2 h]

theorem toList_foldName {name : String} (h : ¬ White name.toList) :
    (foldName name).toList = lower (trim name.toList) := by
  rw [foldName]
  cases htrim : trim name.toList with
  | nil => exact absurd (trim_eq_nil_iff.1 htrim) h
  | cons c cs => rw [String.toList_ofList]

theorem lowercase_foldName (name : String) : lowercase (foldName name) = foldName name := by
  apply String.toList_inj.1
  rw [toList_lowercase]
  by_cases h : White name.toList
  · rw [foldName_of_white h, lower_of_white h]
  · rw [toList_foldName h, lower_lower]

/-- A folded name is blank, or it has no white space at its ends. -/
theorem trimmed_foldName {name : String} (h : ¬ White name.toList) :
    Trimmed (foldName name).toList ∧ (foldName name).toList ≠ [] := by
  rw [toList_foldName h]
  refine ⟨trimmed_lower (trimmed_trim _), lowerAfter_ne_nil ?_⟩
  rwa [ne_eq, trim_eq_nil_iff]

theorem foldName_foldName (name : String) : foldName (foldName name) = foldName name := by
  by_cases h : White name.toList
  · rw [foldName_of_white h, foldName_of_white h]
  · obtain ⟨htrimmed, hne⟩ := trimmed_foldName h
    apply String.toList_inj.1
    rw [toList_foldName (htrimmed.not_white hne), trim_eq_self htrimmed, ← toList_lowercase,
      lowercase_foldName]

/-! ## Canonical names -/

theorem get?_standard (name : String) :
    standard.aliases.get? name = NameTable.findEntry name commonAliases.reverse :=
  NameTable.get?_ofList commonAliases name

/-- A host's name for a key stands for a name that is folded and that no host uses for another key. -/
theorem commonAliases_canonical :
    ∀ entry ∈ commonAliases, foldName entry.2 = entry.2 ∧ standard.aliases.get? entry.2 = none := by
  simp only [get?_standard]
  decide +kernel

/-- What a canonical name is: folded, and not the name that a host uses for another key. -/
theorem keyName_canonical (name : String) :
    foldName (standard.keyName name) = standard.keyName name ∧
      standard.aliases.get? (standard.keyName name) = none := by
  rw [keyName]
  cases hget : standard.aliases.get? (foldName name) with
  | none => exact ⟨foldName_foldName name, hget⟩
  | some key =>
      rw [get?_standard] at hget
      exact commonAliases_canonical _ (List.mem_reverse.1 (NameTable.mem_of_findEntry hget))

theorem keyName_eq_self_iff {name : String} :
    standard.keyName name = name ↔ foldName name = name ∧ standard.aliases.get? name = none := by
  constructor
  · intro h
    have hcanonical := keyName_canonical name
    rwa [h] at hcanonical
  · rintro ⟨hfold, hget⟩
    simp [keyName, hfold, hget]

/-- The canonical name of a canonical name is that name. -/
theorem keyName_keyName (name : String) : standard.keyName (standard.keyName name) = standard.keyName name :=
  keyName_eq_self_iff.2 (keyName_canonical name)

theorem lowercase_keyName (name : String) : lowercase (standard.keyName name) = standard.keyName name := by
  rw [← (keyName_canonical name).1, lowercase_foldName]

theorem trimmed_keyName {name : String} (h : ¬ White (standard.keyName name).toList) :
    Trimmed (standard.keyName name).toList := by
  rw [← (keyName_canonical name).1]
  exact (trimmed_foldName h).1

/-! ## Modifiers -/

/-- A key that is a modifier is not held besides itself. -/
theorem contains_heldBeside (key : String) (held : Modifiers) (m : Modifier) :
    (heldBeside key held).contains m = (held.contains m && decide (m.name ≠ key)) := by
  rw [heldBeside]
  cases hname : Modifier.ofName? key with
  | none =>
      have hne : m.name ≠ key := by
        have hnone := List.find?_eq_none.1 hname m (by cases m <;> decide)
        simpa using hnone
      simp [hne]
  | some n =>
      have hkey : n.name = key := by simpa using List.find?_some hname
      subst hkey
      cases m <;> cases n <;> simp [Modifier.name]

theorem heldBeside_eq_self {key : String} {held : Modifiers}
    (h : ∀ m, m.name = key → held.contains m = false) : heldBeside key held = held := by
  apply Modifiers.ext_contains
  intro m
  rw [contains_heldBeside]
  by_cases hm : m.name = key
  · simp [h m hm]
  · simp [hm]

/-! ## Events -/

/-- What the normaliser makes of a raw input, with the modifiers held and the hit test: one rule for each
kind of input that has a stimulus. -/
inductive Yields (held : Modifiers) (hit : Option Hit) : RawInput → Stimulus → Prop
  | button (number : Nat) (pressed : Bool) :
      Yields held hit (.button number pressed) (situated (.button number (.ofPressed pressed)) held hit)
  | move : Yields held hit .move (situated .move held hit)
  | doubleClick : Yields held hit .doubleClick (situated .doubleClick held hit)
  | wheel {delta : Float} {phase : Phase} (turned : wheelPhase delta = some phase) :
      Yields held hit (.wheel delta) (situated (.scroll phase) held hit)
  | key {name : String} (pressed : Bool) (named : standard.keyName name ≠ "") :
      Yields held hit (.key name pressed) ⟨.key, standard.keyName name, some (.ofPressed pressed),
        heldBeside (standard.keyName name) held, none⟩
  | command {name : String} (named : ¬ White name.toList) :
      Yields held hit (.command name) (.command (String.ofList (trim name.toList)))

/-- The canonical name of a key is in lowercase already. -/
theorem stimulus_key_keyName (name : String) (phase : Phase) :
    Stimulus.key (standard.keyName name) phase = .bare .key (standard.keyName name) (some phase) := by
  rw [Stimulus.key, lowercase_keyName]

theorem normalize_eq_some_iff {e : Event} {hit : Option Hit} {x : Stimulus} :
    standard.normalize e hit = some x ↔ Yields e.held hit e.input x := by
  obtain ⟨input, held⟩ := e
  constructor
  · intro h
    cases input with
    | button number pressed =>
        obtain rfl := Option.some.inj h
        exact .button number pressed
    | move =>
        obtain rfl := Option.some.inj h
        exact .move
    | doubleClick =>
        obtain rfl := Option.some.inj h
        exact .doubleClick
    | wheel delta =>
        obtain ⟨phase, hphase, rfl⟩ := Option.map_eq_some_iff.1 h
        exact .wheel hphase
    | key name pressed =>
        simp only [normalize, stimulus_key_keyName] at h
        split at h
        · simp at h
        · next hnamed =>
            obtain rfl := Option.some.inj h
            exact .key pressed hnamed
    | command name =>
        simp only [normalize] at h
        split at h
        · simp at h
        · next c cs htrim =>
            obtain rfl := Option.some.inj h
            rw [← htrim]
            refine .command ?_
            rw [← trim_eq_nil_iff, htrim]
            simp
  · intro h
    cases h with
    | button number pressed => rfl
    | move => rfl
    | doubleClick => rfl
    | wheel turned => exact Option.map_eq_some_iff.2 ⟨_, turned, rfl⟩
    | key pressed named =>
        simp only [normalize, stimulus_key_keyName, if_neg named]
        rfl
    | @command name named =>
        obtain ⟨c, cs, htrim⟩ := List.exists_cons_of_ne_nil (mt trim_eq_nil_iff.1 named)
        simp only [normalize, htrim]

theorem ofPressed_surjective (p : Phase) : ∃ pressed, Phase.ofPressed pressed = p := by
  cases p with
  | down => exact ⟨true, rfl⟩
  | up => exact ⟨false, rfl⟩

/-- The stimuli of keys: those with a canonical name that do not hold themselves. -/
theorem exists_normalize_key_iff {x : Stimulus} (hx : x.device = .key) :
    (∃ e hit, standard.normalize e hit = some x) ↔
      x.phase.isSome ∧ x.place = none ∧ x.input ≠ "" ∧ standard.keyName x.input = x.input ∧
        ∀ m, m.name = x.input → x.modifiers.contains m = false := by
  simp only [normalize_eq_some_iff]
  constructor
  · rintro ⟨⟨input, held⟩, hit, h⟩
    cases h with
    | button | move | doubleClick | wheel => simp [situated, Stimulus.button, Stimulus.move,
        Stimulus.doubleClick, Stimulus.scroll, Stimulus.bare] at hx
    | command => simp [Stimulus.command, Stimulus.bare] at hx
    | @key name pressed named =>
        refine ⟨rfl, rfl, named, keyName_keyName name, ?_⟩
        intro m hm
        simp [contains_heldBeside, hm]
  · rintro ⟨hphase, hplace, hnamed, hname, hheld⟩
    -- the event that reports the key by its canonical name, with the modifiers of the stimulus held
    obtain ⟨p, hp⟩ := Option.isSome_iff_exists.1 hphase
    obtain ⟨pressed, rfl⟩ := ofPressed_surjective p
    refine ⟨⟨.key x.input pressed, x.modifiers⟩, none, ?_⟩
    have h : Yields x.modifiers none (.key x.input pressed) _ := .key pressed (by rwa [hname])
    rw [hname, heldBeside_eq_self hheld, ← hp, ← hplace, ← hx] at h
    exact h

/-- The stimuli of commands: those with a trimmed name and nothing else. -/
theorem exists_normalize_command_iff {x : Stimulus} (hx : x.device = .command) :
    (∃ e hit, standard.normalize e hit = some x) ↔
      x.phase = none ∧ x.modifiers = .none ∧ x.place = none ∧ x.input ≠ "" ∧ Trimmed x.input.toList := by
  simp only [normalize_eq_some_iff]
  constructor
  · rintro ⟨⟨input, held⟩, hit, h⟩
    cases h with
    | button | move | doubleClick | wheel => simp [situated, Stimulus.button, Stimulus.move,
        Stimulus.doubleClick, Stimulus.scroll, Stimulus.bare] at hx
    | key => simp at hx
    | @command name named =>
        refine ⟨rfl, rfl, rfl, ?_, ?_⟩
        · simpa [Stimulus.command, Stimulus.bare, trim_eq_nil_iff] using named
        · simpa [Stimulus.command, Stimulus.bare] using trimmed_trim name.toList
  · rintro ⟨hphase, hheld, hplace, hnamed, htrimmed⟩
    refine ⟨⟨.command x.input, x.modifiers⟩, none, ?_⟩
    have h : Yields x.modifiers none (.command x.input) _ := .command (htrimmed.not_white (by simpa using hnamed))
    rw [trim_eq_self htrimmed, String.ofList_toList, Stimulus.command, Stimulus.bare, ← hx, ← hphase,
      ← hheld, ← hplace] at h
    exact h

/-- A pattern that names a key as some host does is no pattern of any event. -/
theorem not_matches_of_alias {pattern : Stimulus} (hkey : pattern.device = .key)
    (halias : pattern.input ∈ commonAliases.map Prod.fst) {e : Event} {hit : Option Hit} {x : Stimulus}
    (h : standard.normalize e hit = some x) : pattern.matchesStimulus x = false := by
  rw [← Bool.not_eq_true, Stimulus.matchesStimulus_iff]
  rintro ⟨hdevice, -, hinput, -⟩
  -- the name of the occurrence is canonical, and that of the pattern is not
  obtain ⟨-, -, -, hname, -⟩ := (exists_normalize_key_iff (hdevice ▸ hkey)).1 ⟨e, hit, h⟩
  obtain ⟨-, hfree⟩ := keyName_eq_self_iff.1 hname
  rw [get?_standard, ← hinput, NameTable.findEntry_eq_none_iff] at hfree
  obtain ⟨entry, hentry, hhost⟩ := List.mem_map.1 halias
  exact hfree entry (List.mem_reverse.2 hentry) hhost

/-- Which stimuli of keys and commands come from events. Every name has the same canonical name as its
canonical name has, and no event is one that a pattern with a host's name for a key names. -/
theorem normalize_image (x : Stimulus) :
    (x.device = .key →
        ((∃ e hit, standard.normalize e hit = some x) ↔
          x.phase.isSome ∧ x.place = none ∧ x.input ≠ "" ∧ standard.keyName x.input = x.input ∧
            ∀ m, m.name = x.input → x.modifiers.contains m = false)) ∧
      (x.device = .command →
        ((∃ e hit, standard.normalize e hit = some x) ↔
          x.phase = none ∧ x.modifiers = .none ∧ x.place = none ∧ x.input ≠ "" ∧
            Trimmed x.input.toList)) ∧
      (∀ name, standard.keyName (standard.keyName name) = standard.keyName name) ∧
      (x.device = .key → x.input ∈ commonAliases.map Prod.fst →
        ∀ e hit y, standard.normalize e hit = some y → x.matchesStimulus y = false) :=
  ⟨exists_normalize_key_iff, exists_normalize_command_iff, keyName_keyName,
    fun hkey halias _ _ _ h => not_matches_of_alias hkey halias h⟩

/-- The control key is reported while another modifier is held, a command by its name, and no event is
matched by a pattern for the key that hosts call Escape. -/
theorem normalize_image_control :
    (∃ e hit, standard.normalize e hit = some ⟨.key, "ctrl", some .up, ⟨false, true, false, false⟩, none⟩) ∧
      (∃ e hit, standard.normalize e hit = some (.command "toggle hand")) ∧
      (Stimulus.parse "escape:down" = .ok (.key "escape" .down) ∧
        ∀ e hit y, standard.normalize e hit = some y →
          (Stimulus.key "escape" .down).matchesStimulus y = false) := by
  refine ⟨?_, ?_, rfl, ?_⟩
  · refine ((normalize_image _).1 rfl).2 ⟨rfl, rfl, by decide, by decide +kernel, ?_⟩
    intro m hm
    cases m with
    | ctrl => rfl
    | shift | alt | metaKey => exact absurd hm (by decide)
  · exact ((normalize_image _).2.1 rfl).2 ⟨rfl, rfl, rfl, by decide, by decide⟩
  · exact (normalize_image _).2.2.2 rfl (by decide +kernel)

end Normalizer

end ModeTree
