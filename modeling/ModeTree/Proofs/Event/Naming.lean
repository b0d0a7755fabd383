import ModeTree.Proofs.Event.Image
import ModeTree.Proofs.Stimulus.Device
import ModeTree.Proofs.Stimulus.RoundTrip

/-!
# Events that a text can name

A definition names events by texts, and the history tells an event by its text. Events of the pointer and
the wheel can always be named. The name of a key or a command is any text that a host gives, and some of
them say something else in the text of a stimulus, or nothing: a plus sign ends a modifier, a blank is
trimmed away, and some names belong to the pointer and the wheel. `normalize_text_iff` says which events
are known by their text, and which are named by any pattern at all; the two differ in keys with the mark of
a place in their names, which a pattern can write in capitals.
-/

set_option autoImplicit false

namespace ModeTree

open Text

namespace Stimulus

/-! ## Patterns -/

/-- The text with each letter n as a capital, in which no mark of a place stands. -/
def raise (cs : List Char) : List Char := cs.map fun c => if c = 'n' then 'N' else c

theorem mem_raise {cs : List Char} {c : Char} (h : c ∈ raise cs) : c ≠ 'n' ∧ (c = 'N' ∨ c ∈ cs) := by
  obtain ⟨d, hd, rfl⟩ := List.mem_map.1 h
  by_cases hn : d = 'n'
  · simp [hn]
  · simp [hn, hd]

theorem placeMark_not_infix_raise (cs : List Char) : ¬ placeMark <:+: raise cs := by
  intro h
  exact (mem_raise (h.subset (a := 'n') (by decide))).1 rfl

/-- Lowercasing takes the capitals back. -/
theorem lower_raise {cs : List Char} (h : lower cs = cs) : lower (raise cs) = cs := by
  -- each character of a lowercase form is its own lowercase form
  have hfixed : ∀ c ∈ cs, lowerChar c = [c] ∧ c ≠ 'Σ' := by
    intro c hc
    rw [← h] at hc
    obtain ⟨d, -, hlowers⟩ := exists_lowers hc
    exact ⟨hlowers.fixed, hlowers.sigma⟩
  suffices hall : ∀ before, lowerAfter before (raise cs) = cs from hall []
  clear h
  induction cs with
  | nil => exact fun _ => rfl
  | cons c cs ih =>
      intro before
      obtain ⟨hc, hsigma⟩ := hfixed c List.mem_cons_self
      have htail := fun before => ih (fun d hd => hfixed d (List.mem_cons_of_mem _ hd)) before
      rw [raise, List.map_cons, ← raise]
      by_cases hn : c = 'n'
      · subst hn
        rw [if_pos rfl, lowerAfter, if_neg (by decide), htail]
        rfl
      · rw [if_neg hn, lowerAfter, if_neg hsigma, hc, htail]
        rfl

theorem trimmed_raise {cs : List Char} (h : Trimmed cs) : Trimmed (raise cs) where
  head := by
    intro c hc
    rw [raise, List.head?_map] at hc
    obtain ⟨d, hd, rfl⟩ := Option.map_eq_some_iff.1 hc
    split
    · decide
    · exact h.head d hd
  last := by
    intro c hc
    rw [raise, List.getLast?_map] at hc
    obtain ⟨d, hd, rfl⟩ := Option.map_eq_some_iff.1 hc
    split
    · decide
    · exact h.last d hd

/-- Every stimulus without a place that has the form of one that has been read is read from some text. -/
theorem exists_parse_of_read {x : Stimulus} (hx : x.Read) (hplace : x.place = none) :
    ∃ s, parse s = .ok x := by
  obtain ⟨device, input, phase, held, place⟩ := x
  obtain rfl : place = none := hplace
  cases phase with
  | none => exact ⟨text _, parse_text hx ⟨hx.unmarked rfl, by simp⟩⟩
  | some p =>
      -- the text with capitals in the name
      let written : Stimulus := ⟨device, String.ofList (raise input.toList), some p, held, none⟩
      have hwritten : written.input.toList = raise input.toList := String.toList_ofList
      have hinput : inputName (some p) (raise input.toList) = input := by
        simp [inputName, lower_raise (hx.lowered rfl)]
      have hne : raise input.toList ≠ [] := by simpa [raise] using hx.nonempty
      have hplus : '+' ∉ raise input.toList := fun h =>
        (mem_raise h).2.elim (by decide) fun hmem => hx.plus hmem
      have hmarks : written.Unmarked := by
        refine ⟨?_, by simp [written]⟩
        rw [hwritten]
        exact placeMark_not_infix_raise _
      refine ⟨written.text, ?_⟩
      have hread := parse_text_written (x := written) (d := device) (hwritten ▸ hne)
        (hwritten ▸ trimmed_raise hx.trimmed) (hwritten ▸ hplus) (by simp [written]) hmarks
        (by rw [hwritten, hinput]; exact hx.device)
      rw [hread, hwritten, hinput]

/-- An occurrence is one that some pattern names exactly when its input is one that can be read. -/
theorem exists_pattern_iff (x : Stimulus) :
    (∃ s pattern, parse s = .ok pattern ∧ pattern.matchesStimulus x = true) ↔ x.Read := by
  constructor
  · rintro ⟨s, pattern, hparse, hmatches⟩
    have hread := read_of_parse hparse
    obtain ⟨hdevice, hphase, hinput, -, -⟩ := (matchesStimulus_iff _ _).1 hmatches
    refine ⟨?_, ?_, ?_, ?_, ?_, ?_, ?_⟩
    · exact hinput ▸ hread.nonempty
    · exact hinput ▸ hread.trimmed
    · exact hinput ▸ hread.plus
    · exact hinput ▸ hphase ▸ hread.colon
    · exact hinput ▸ hphase ▸ hread.unmarked
    · exact hinput ▸ hphase ▸ hread.lowered
    · exact hinput ▸ hphase ▸ hdevice ▸ hread.device
  · intro hx
    -- the pattern for the occurrence at any place
    have hanywhere : ({ x with place := none } : Stimulus).Read :=
      ⟨hx.nonempty, hx.trimmed, hx.plus, hx.colon, hx.unmarked, hx.lowered, hx.device⟩
    obtain ⟨s, hs⟩ := exists_parse_of_read hanywhere rfl
    exact ⟨s, _, hs, (matchesStimulus_iff _ _).2 ⟨rfl, rfl, rfl, rfl, .inl rfl⟩⟩

end Stimulus

open Stimulus

/-! ## Inputs -/

namespace RawInput

/-- The inputs that some pattern names. A key needs a canonical name that is not blank, has no plus sign and
is not the name of another input; the name of a command has no colon and no mark of a place either. -/
def Nameable : RawInput → Prop
  | .key name _ =>
    let key := Normalizer.standard.keyName name
    ¬ White key.toList ∧ '+' ∉ key.toList ∧ ¬ Reserved key
  | .command name =>
    let word := trim name.toList
    '+' ∉ word ∧ ':' ∉ word ∧ ¬ placeMark <:+: word ∧ ¬ Reserved (String.ofList word)
  | _ => True

/-- The inputs that are known by their text: no key with the mark of a place in its name is. -/
def Legible (input : RawInput) : Prop :=
  input.Nameable ∧
    ∀ name pressed, input = .key name pressed →
      ¬ placeMark <:+: (Normalizer.standard.keyName name).toList

end RawInput

namespace Normalizer

theorem word_facts : ∀ n < 128, ((Char.ofNat n).isDigit || (Char.ofNat n).isLower) = true →
    isWhite (Char.ofNat n) = false ∧ Char.ofNat n ≠ '+' ∧ Char.ofNat n ≠ ':' ∧
      lowerChar (Char.ofNat n) = [Char.ofNat n] ∧ Char.ofNat n ≠ 'Σ' := by
  decide +kernel

theorem ascii_of_word {c : Char} (h : (c.isDigit || c.isLower) = true) : c.toNat < 128 := by
  rw [Bool.or_eq_true] at h
  rcases h with hdigit | hlower
  · exact Nat.lt_of_le_of_lt (Char.isDigit_iff_toNat.1 hdigit).2 (by decide)
  · have hrange : (decide (c.val ≥ 'a'.val) && decide (c.val ≤ 'z'.val)) = true := hlower
    rw [Bool.and_eq_true, decide_eq_true_eq, decide_eq_true_eq] at hrange
    exact Nat.lt_of_le_of_lt (UInt32.le_iff_toNat_le.1 hrange.2) (by decide)

/-- An input of lowercase letters and digits has nothing in it that the text of a stimulus is cut at. -/
theorem read_of_word {x : Stimulus} (word : String) (hinput : x.input = word) (hne : word.toList ≠ [])
    (hword : (word.toList.all fun c => c.isDigit || c.isLower) = true)
    (hdevice : inferDevice word x.phase = .ok x.device) : x.Read ∧ x.Unmarked := by
  subst hinput
  have hfacts : ∀ c ∈ x.input.toList,
      isWhite c = false ∧ c ≠ '+' ∧ c ≠ ':' ∧ lowerChar c = [c] ∧ c ≠ 'Σ' := by
    intro c hc
    have hc' := List.all_eq_true.1 hword c hc
    have h := word_facts c.toNat (ascii_of_word hc')
    rw [Char.ofNat_toNat] at h
    exact h hc'
  have hplain : Plain x.input.toList := fun c hc => (hfacts c hc).1
  have hmark : ¬ placeMark <:+: x.input.toList := fun h => hplain.space_not_mem (h.subset (by decide))
  refine ⟨⟨hne, hplain.trimmed, fun h => (hfacts _ h).2.1 rfl, fun _ h => (hfacts _ h).2.2.1 rfl,
    fun _ => hmark, fun _ => lowerAfter_eq_self fun c hc => (hfacts c hc).2.2.2, hdevice⟩, ⟨hmark, ?_⟩⟩
  exact fun _ _ h => hplain.space_not_mem (h.subset (by decide))

theorem toList_button (number : Nat) :
    (buttonWord ++ toString number).toList = buttonWord.toList ++ Nat.toDigits 10 number := by
  rw [Nat.toString_eq_ofList_toDigits, String.toList_append, String.toList_ofList]

theorem buttonName_button (number : Nat) : ButtonName (buttonWord ++ toString number) :=
  ⟨_, Nat.toDigits_ne_nil, fun _ hd => Nat.isDigit_of_mem_toDigits (by decide) (by decide) hd,
    toList_button number⟩

theorem word_button (number : Nat) :
    ((buttonWord ++ toString number).toList.all fun c => c.isDigit || c.isLower) = true := by
  have hletters : (buttonWord.toList.all fun c => c.isDigit || c.isLower) = true := by decide
  rw [toList_button, List.all_append, hletters, Bool.true_and, List.all_eq_true]
  intro d hd
  simp [Nat.isDigit_of_mem_toDigits (by decide) (by decide) hd]

/-- The stimuli of the pointer and the wheel are known by their text. -/
theorem read_of_pointer {held : Modifiers} {hit : Option Hit} {input : RawInput} {x : Stimulus}
    (h : Yields held hit input x) (hkey : ∀ name pressed, input ≠ .key name pressed)
    (hcommand : ∀ name, input ≠ .command name) : x.Read ∧ x.Unmarked := by
  cases h with
  | button number pressed =>
      have hne : (buttonWord ++ toString number).toList ≠ [] := by
        rw [toList_button]
        simp [buttonWord]
      exact read_of_word _ rfl hne (word_button number)
        (inferDevice_eq_ok_iff.2 (.button _ (buttonName_button number)))
  | move => exact read_of_word moveName rfl (by decide) (by decide) rfl
  | doubleClick => exact read_of_word doubleClickName rfl (by decide) (by decide) rfl
  | wheel turned => exact read_of_word scrollName rfl (by decide) (by decide) rfl
  | key pressed named => exact absurd rfl (hkey _ _)
  | command named => exact absurd rfl (hcommand _)

/-- The stimulus of an event has a form that can be read exactly when its input can be named. -/
theorem read_iff_nameable {held : Modifiers} {hit : Option Hit} {input : RawInput} {x : Stimulus}
    (h : Yields held hit input x) : x.Read ↔ input.Nameable := by
  have hpointer := read_of_pointer h
  cases h with
  | button | move | doubleClick | wheel => exact iff_of_true (hpointer (by simp) (by simp)).1 trivial
  | key pressed named =>
      constructor
      · intro hx
        exact ⟨hx.trimmed.not_white hx.nonempty, hx.plus, sends_key_iff.1 (inferDevice_eq_ok_iff.1 hx.device)⟩
      · rintro ⟨hblank, hplus, hfree⟩
        refine ⟨by simpa using named, trimmed_keyName hblank, hplus, by simp, by simp, fun _ => ?_,
          inferDevice_eq_ok_iff.2 (.key _ hfree)⟩
        rw [← toList_lowercase, lowercase_keyName]
  | @command name named =>
      have hinput : (Stimulus.command (String.ofList (trim name.toList))).input.toList = trim name.toList :=
        String.toList_ofList
      constructor
      · intro hx
        refine ⟨hinput ▸ hx.plus, hinput ▸ hx.colon rfl, hinput ▸ hx.unmarked rfl, ?_⟩
        exact sends_command_iff.1 (inferDevice_eq_ok_iff.1 hx.device)
      · rintro ⟨hplus, hcolon, hmark, hfree⟩
        refine ⟨?_, ?_, ?_, fun _ => ?_, fun _ => ?_, by simp [Stimulus.command, Stimulus.bare],
          inferDevice_eq_ok_iff.2 (.command hfree)⟩
        · rwa [hinput, ne_eq, trim_eq_nil_iff]
        · rw [hinput]
          exact trimmed_trim _
        · rwa [hinput]
        · rwa [hinput]
        · rwa [hinput]

/-- The marks that reading cuts at are a matter of keys alone. -/
theorem unmarked_iff {held : Modifiers} {hit : Option Hit} {input : RawInput} {x : Stimulus}
    (h : Yields held hit input x) (hx : x.Read) :
    x.Unmarked ↔ ∀ name pressed, input = .key name pressed →
      ¬ placeMark <:+: (standard.keyName name).toList := by
  have hpointer := read_of_pointer h
  cases h with
  | button | move | doubleClick | wheel => exact iff_of_true (hpointer (by simp) (by simp)).2 (by simp)
  | command named =>
      exact iff_of_true ⟨hx.unmarked rfl, by simp [Stimulus.command, Stimulus.bare]⟩ (by simp)
  | @key name pressed named =>
      constructor
      · rintro hmarks name' pressed' heq
        obtain ⟨rfl, -⟩ := RawInput.key.inj heq
        exact hmarks.mark
      · intro hmark
        exact ⟨hmark name pressed rfl, by simp⟩

/-- Which events are known by the text of their stimulus, and which are named by some pattern. -/
theorem normalize_text_iff {e : Event} {hit : Option Hit} {x : Stimulus}
    (h : standard.normalize e hit = some x) :
    (parse x.text = .ok x ↔ e.input.Legible) ∧
      ((∃ s pattern, parse s = .ok pattern ∧ pattern.matchesStimulus x = true) ↔ e.input.Nameable) := by
  have hyields := normalize_eq_some_iff.1 h
  refine ⟨?_, ?_⟩
  · rw [parse_text_iff, RawInput.Legible, ← read_iff_nameable hyields]
    exact and_congr_right (unmarked_iff hyields)
  · rw [exists_pattern_iff, read_iff_nameable hyields]

/-- A key with a space and a colon in its name is known by its text. -/
theorem normalize_text_of_capsLock :
    standard.normalize ⟨.key " Caps: Lock" true, ⟨false, true, false, false⟩⟩ (some .ring) =
        some ⟨.key, "caps: lock", some .down, ⟨false, true, false, false⟩, none⟩ ∧
      parse "shift+caps: lock:down" =
        .ok ⟨.key, "caps: lock", some .down, ⟨false, true, false, false⟩, none⟩ := by
  have h : standard.normalize ⟨.key " Caps: Lock" true, ⟨false, true, false, false⟩⟩ (some .ring) =
      some ⟨.key, "caps: lock", some .down, ⟨false, true, false, false⟩, none⟩ := by
    decide +kernel
  refine ⟨h, (normalize_text_iff h).1.2 ⟨⟨by decide +kernel, by decide +kernel, by decide +kernel⟩, ?_⟩⟩
  rintro name pressed heq
  obtain ⟨rfl, -⟩ := RawInput.key.inj heq
  decide +kernel

/-- A blank other than the space is kept as the name of a key, and vanishes when the text is read; no
pattern names this key. -/
theorem noBreakSpace_not_named :
    standard.normalize ⟨.key "\u00a0" true, .none⟩ none = some (.key "\u00a0" .down) ∧
      parse (Stimulus.key "\u00a0" .down).text = .error .empty ∧
      ∀ s pattern, parse s = .ok pattern → pattern.matchesStimulus (.key "\u00a0" .down) = false := by
  refine ⟨by decide +kernel, rfl, ?_⟩
  intro s pattern hparse
  rw [← Bool.not_eq_true]
  intro hmatches
  have hread := (exists_pattern_iff _).1 ⟨s, pattern, hparse, hmatches⟩
  exact absurd hread.trimmed (by decide +kernel)

end Normalizer

end ModeTree
