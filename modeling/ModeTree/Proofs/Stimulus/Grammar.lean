import ModeTree.Proofs.Stimulus.Device
import ModeTree.Proofs.Stimulus.RoundTrip

/-!
# The grammar of stimuli

A text of the grammar is a sentence: modifiers, each with a plus sign behind it, then a name, perhaps a
phase and perhaps a place, with white space around the parts. The grammar says nothing of how a text is
cut; a name may have spaces and, in front of a phase, colons in it. Reading follows it exactly: a text is
read as a stimulus if and only if it is a sentence that denotes this stimulus (`parse_iff_sentence`).
-/

set_option autoImplicit false

namespace ModeTree

open Text

namespace Stimulus

/-! ## Sentences -/

/-- A segment that spells a modifier: a word for it, up to the case of A to Z, and white space around. -/
def Spells (segment : List Char) (m : Modifier) : Prop :=
  ∃ word, String.ofList (lowerAscii word) ∈ m.spellings ∧ Padded word segment

/-- A text of modifiers, each with a plus sign behind it, and a name. -/
inductive Chord : List Char → List Modifier → List Char → Prop
  | name {segment name : List Char} (nonempty : name ≠ []) (trimmed : Trimmed name) (plus : '+' ∉ name)
      (padded : Padded name segment) : Chord segment [] name
  | modifier {segment cs name : List Char} {m : Modifier} {ms : List Modifier}
      (spells : Spells segment m) (chord : Chord cs ms name) : Chord (segment ++ '+' :: cs) (m :: ms) name

/-- A chord with or without a phase. Only a name in front of a phase may have a colon in it. -/
inductive Press : List Char → List Modifier → List Char → Option Phase → Prop
  | plain {cs name : List Char} {ms : List Modifier} (chord : Chord cs ms name) (colon : ':' ∉ name) :
      Press cs ms name none
  | phased {cs name : List Char} {ms : List Modifier} (phase : Phase) (chord : Chord cs ms name) :
      Press (cs ++ ':' :: phase.name.toList) ms name (some phase)

/-- A press with or without a place. The mark of a place stands nowhere further in front, and nowhere at
all if there is no place. -/
inductive Sentence : List Char → List Modifier → List Char → Option Phase → Option Place → Prop
  | anywhere {cs name : List Char} {ms : List Modifier} {phase : Option Phase}
      (press : Press cs ms name phase) (unmarked : ¬ placeMark <:+: cs) : Sentence cs ms name phase none
  | placed {cs front behind name : List Char} {ms : List Modifier} {phase : Option Phase} {place : Place}
      (press : Press cs ms name phase) (before : Padded cs front)
      (after : Padded place.name.toList behind)
      (first : ∀ a b, front ++ placeMark ++ behind = a ++ placeMark ++ b → front.length ≤ a.length) :
      Sentence (front ++ placeMark ++ behind) ms name phase (some place)

/-! ## Modifiers -/

theorem ofSpelling?_eq_some_iff {word : String} {m : Modifier} :
    Modifier.ofSpelling? word = some m ↔ word ∈ m.spellings := by
  constructor
  · intro h
    simpa using List.find?_some h
  · -- no word is one for two modifiers
    intro h
    cases m <;> simp only [Modifier.spellings, List.mem_cons, List.not_mem_nil, or_false] at h
    · rcases h with rfl | rfl <;> rfl
    · subst h
      rfl
    · rcases h with rfl | rfl <;> rfl
    · rcases h with rfl | rfl | rfl <;> rfl

theorem plain_spelling {m : Modifier} {word : String} (h : word ∈ m.spellings) :
    Plain word.toList ∧ '+' ∉ word.toList ∧ ':' ∉ word.toList := by
  have hall : ∀ w ∈ m.spellings,
      ((w.toList.all fun c => !isWhite c) && !w.toList.contains '+' && !w.toList.contains ':') = true := by
    cases m <;> decide
  have hword := hall word h
  simp only [Bool.and_eq_true, Bool.not_eq_true', List.contains_eq_mem, decide_eq_false_iff_not] at hword
  exact ⟨plain_of_all hword.1.1, hword.1.2, hword.2⟩

/-- A segment spells a modifier if trimming gives a word for it. -/
theorem spells_iff {segment : List Char} {m : Modifier} :
    Spells segment m ↔ String.ofList (lowerAscii (trim segment)) ∈ m.spellings := by
  constructor
  · rintro ⟨word, hword, hpadded⟩
    -- there is no white space within a word
    have hplain : Plain word := plain_of_lowerAscii (by simpa using (plain_spelling hword).1)
    rwa [hpadded.trim_eq, trim_eq_self hplain.trimmed]
  · intro h
    exact ⟨trim segment, h, padded_trim segment⟩

theorem Spells.not_mem {segment : List Char} {m : Modifier} (h : Spells segment m) :
    '+' ∉ segment ∧ ':' ∉ segment := by
  obtain ⟨word, hword, hpadded⟩ := h
  obtain ⟨-, hplus, hcolon⟩ := plain_spelling hword
  rw [String.toList_ofList, lowerAscii] at hplus hcolon
  refine ⟨?_, ?_⟩
  · rw [hpadded.mem_iff (by decide)]
    exact fun hmem => hplus (List.mem_map_of_mem hmem)
  · rw [hpadded.mem_iff (by decide)]
    exact fun hmem => hcolon (List.mem_map_of_mem hmem)

theorem parseModifier_eq_ok_iff {segment : List Char} {m : Modifier} :
    parseModifier segment = .ok m ↔ Spells segment m := by
  rw [spells_iff, ← ofSpelling?_eq_some_iff, parseModifier]
  cases Modifier.ofSpelling? (String.ofList (lowerAscii (trim segment))) <;> simp

theorem parseModifiers_eq_ok_iff {segments : List (List Char)} {held : Modifiers} :
    parseModifiers segments = .ok held ↔
      ∃ ms, List.Forall₂ Spells segments ms ∧ held = ms.foldr (fun m held => held.insert m) .none := by
  induction segments generalizing held with
  | nil => simp [parseModifiers, eq_comm]
  | cons segment segments ih =>
      rw [parseModifiers]
      simp only [bind_eq_ok_iff, parseModifier_eq_ok_iff, ih, Except.ok.injEq]
      constructor
      · rintro ⟨m, hm, held', ⟨ms, hms, rfl⟩, rfl⟩
        exact ⟨m :: ms, .cons hm hms, rfl⟩
      · rintro ⟨ms, hms, rfl⟩
        cases hms with
        | cons hm hms => exact ⟨_, hm, _, ⟨_, hms, rfl⟩, rfl⟩

/-- A modifier is held if it is among those that are spelled, in any order and any number of times. -/
theorem contains_foldr_insert (ms : List Modifier) (m : Modifier) :
    (ms.foldr (fun m held => held.insert m) Modifiers.none).contains m = true ↔ m ∈ ms := by
  induction ms with
  | nil => simp
  | cons n ms ih => simp [ih]

/-! ## Chords -/

/-- A chord is a text of which the parts in front of the plus signs spell modifiers and the last part
is a name. -/
theorem chord_iff {cs name : List Char} {ms : List Modifier} :
    Chord cs ms name ↔
      ∃ segments last, cutEach '+' cs = (segments, last) ∧ List.Forall₂ Spells segments ms ∧
        trim last = name ∧ name ≠ [] := by
  constructor
  · intro h
    induction h with
    | name nonempty trimmed plus padded =>
        refine ⟨[], _, cutEach_of_not_mem ?_, .nil, trim_eq_iff.2 ⟨trimmed, padded⟩, nonempty⟩
        rwa [padded.mem_iff (by decide)]
    | modifier spells _ ih =>
        obtain ⟨segments, last, hcut, hsegments, hname, hne⟩ := ih
        refine ⟨_ :: segments, last, ?_, .cons spells hsegments, hname, hne⟩
        rw [cutEach_append spells.not_mem.1, hcut]
  · rintro ⟨segments, last, hcut, hsegments, hname, hne⟩
    obtain ⟨rfl, -, hlast⟩ := cutEach_eq_iff.1 hcut
    obtain ⟨htrimmed, hpadded⟩ := trim_eq_iff.1 hname
    clear hcut
    induction hsegments with
    | nil =>
        have hplus : '+' ∉ name := by rwa [← hpadded.mem_iff (by decide)]
        simpa [ended] using Chord.name hne htrimmed hplus hpadded
    | cons hspells _ ih => simpa [ended] using Chord.modifier hspells ih

theorem Chord.ne_nil {cs name : List Char} {ms : List Modifier} (h : Chord cs ms name) : cs ≠ [] := by
  cases h with
  | name nonempty trimmed plus padded =>
      obtain ⟨u, v, -, -, rfl⟩ := padded
      simp [nonempty]
  | modifier spells chord => simp

theorem Chord.colon_mem_iff {cs name : List Char} {ms : List Modifier} (h : Chord cs ms name) :
    ':' ∈ cs ↔ ':' ∈ name := by
  induction h with
  | name _ _ _ padded => exact padded.mem_iff (by decide)
  | modifier spells _ ih => simp [spells.not_mem.2, ih]

/-- White space in front of a chord belongs to its first segment. -/
theorem Chord.of_white_append {u text cs name : List Char} {ms : List Modifier} (h : Chord text ms name)
    (hu : White u) (heq : u ++ cs = text) : Chord cs ms name := by
  cases h with
  | name nonempty trimmed plus padded =>
      have hname : trim cs = name := by
        rw [← trim_white_append hu, heq, padded.trim_eq, trim_eq_self trimmed]
      exact .name nonempty trimmed plus (trim_eq_iff.1 hname).2
  | modifier spells chord =>
      have hplus : '+' ∉ u := fun hmem => absurd (hu _ hmem) (by decide)
      obtain ⟨segment, rfl, rfl⟩ := eq_append_of_not_mem_left hplus heq
      rw [spells_iff, trim_white_append hu, ← spells_iff] at spells
      exact .modifier spells chord

/-- White space behind a chord belongs to its name. -/
theorem Chord.of_append_white {text cs v name : List Char} {ms : List Modifier} (h : Chord text ms name)
    (hv : White v) (heq : cs ++ v = text) : Chord cs ms name := by
  induction h generalizing cs with
  | @name segment last nonempty trimmed plus padded =>
      have hname : trim cs = last := by
        rw [← trim_append_white cs hv, heq, padded.trim_eq, trim_eq_self trimmed]
      exact .name nonempty trimmed plus (trim_eq_iff.1 hname).2
  | modifier spells _ ih =>
      have hplus : '+' ∉ v := fun hmem => absurd (hv _ hmem) (by decide)
      obtain ⟨rest, rfl, rfl⟩ := eq_append_of_not_mem_right hplus heq
      exact .modifier spells (ih rfl)

theorem Chord.of_padded {text cs name : List Char} {ms : List Modifier} (h : Chord text ms name)
    (hpadded : Padded cs text) : Chord cs ms name := by
  obtain ⟨u, v, hu, hv, rfl⟩ := hpadded
  exact (h.of_append_white hv rfl).of_white_append hu rfl

/-! ## Presses -/

theorem press_iff {cs name : List Char} {ms : List Modifier} {phase : Option Phase} :
    Press cs ms name phase ↔ ∃ chord, splitPhase cs = .ok (chord, phase) ∧ Chord chord ms name := by
  constructor
  · intro h
    cases h with
    | plain chord colon =>
        refine ⟨cs, splitPhase_eq_ok_iff.2 (.inl ⟨rfl, rfl, ?_⟩), chord⟩
        rwa [chord.colon_mem_iff]
    | phased p chord => exact ⟨_, splitPhase_eq_ok_iff.2 (.inr ⟨p, rfl, rfl⟩), chord⟩
  · rintro ⟨chord, hphase, hchord⟩
    rcases splitPhase_eq_ok_iff.1 hphase with ⟨rfl, rfl, hcolon⟩ | ⟨p, rfl, rfl⟩
    · exact .plain hchord (by rwa [← hchord.colon_mem_iff])
    · exact .phased p hchord

theorem Press.ne_nil {cs name : List Char} {ms : List Modifier} {phase : Option Phase}
    (h : Press cs ms name phase) : cs ≠ [] := by
  cases h with
  | plain chord colon => exact chord.ne_nil
  | phased p chord => simp

/-- White space around a press is around its chord, since none ends a phase. -/
theorem Press.of_padded {text cs name : List Char} {ms : List Modifier} {phase : Option Phase}
    (h : Press text ms name phase) (hpadded : Padded cs text) : Press cs ms name phase := by
  cases h with
  | plain chord colon => exact .plain (chord.of_padded hpadded) colon
  | @phased front _ _ p chord =>
      obtain ⟨u, v, hu, hv, heq⟩ := hpadded
      have hcolon : ':' ∉ u := fun hmem => absurd (hu _ hmem) (by decide)
      rcases List.eq_nil_or_concat v with rfl | ⟨v', c, rfl⟩
      · rw [List.append_nil] at heq
        obtain ⟨front', rfl, rfl⟩ := eq_append_of_not_mem_left hcolon heq.symm
        exact .phased p (chord.of_white_append hu rfl)
      · -- the phase would end in white space
        have hlast : (front ++ phaseText (some p)).getLast? = some c := by
          rw [phaseText, heq]
          simp [← List.append_assoc]
        rw [List.getLast?_append_of_ne_nil _ (by simp [phaseText])] at hlast
        have hc := plain_phaseText (some p) c (List.mem_of_getLast? hlast)
        rw [hv c (by simp)] at hc
        exact absurd hc (by simp)

/-! ## Reading -/

theorem sentence_iff {cs name : List Char} {ms : List Modifier} {phase : Option Phase}
    {place : Option Place} :
    Sentence cs ms name phase place ↔
      ∃ head, splitPlace cs = .ok (head, place) ∧ Press head ms name phase := by
  constructor
  · intro h
    cases h with
    | anywhere press unmarked => exact ⟨cs, splitPlace_eq_ok_iff.2 (.inl ⟨rfl, rfl, unmarked⟩), press⟩
    | @placed head front behind _ _ _ p press before after first =>
        have hbehind : trim behind = p.name.toList := trim_eq_iff.2 ⟨(plain_place p).trimmed, after⟩
        have hcut : cutFirst? placeMark (front ++ placeMark ++ behind) = some (front, behind) :=
          cutFirst?_eq_some_iff.2 ⟨rfl, first⟩
        refine ⟨trim front, splitPlace_eq_ok_iff.2 (.inr ⟨p, front, behind, rfl, rfl, hcut, hbehind⟩), ?_⟩
        rw [before.trim_eq]
        exact press.of_padded (padded_trim head)
  · rintro ⟨head, hplace, hpress⟩
    rcases splitPlace_eq_ok_iff.1 hplace with
      ⟨rfl, rfl, hunmarked⟩ | ⟨p, front, behind, rfl, rfl, hcut, hbehind⟩
    · exact .anywhere hpress hunmarked
    · obtain ⟨rfl, hfirst⟩ := cutFirst?_eq_some_iff.1 hcut
      exact .placed hpress (padded_trim front) (trim_eq_iff.1 hbehind).2 hfirst

theorem Sentence.ne_nil {cs name : List Char} {ms : List Modifier} {phase : Option Phase}
    {place : Option Place} (h : Sentence cs ms name phase place) : cs ≠ [] := by
  cases h with
  | anywhere press unmarked => exact press.ne_nil
  | placed press before after first => simp [placeMark_ne_nil]

/-- Reading accepts exactly the sentences. The stimulus holds the modifiers that are spelled, has the name
in lowercase if there is a phase and as it is written otherwise, the phase and the place that are written,
and comes from the device that sends such an input. -/
theorem parse_iff_sentence {s : String} {x : Stimulus} :
    parse s = .ok x ↔
      ∃ ms name, Sentence (trim s.toList) ms name x.phase x.place ∧
        (∀ m, x.modifiers.contains m = true ↔ m ∈ ms) ∧
        x.input.toList = (if x.phase.isSome then lower name else name) ∧
        x.device.Sends x.input x.phase := by
  rw [parse_eq_ok_iff]
  constructor
  · rintro ⟨head, chord, segments, last, -, hplace, hphase, hcut, hlast, hinput, hheld, hdevice⟩
    obtain ⟨ms, hsegments, hms⟩ := parseModifiers_eq_ok_iff.1 hheld
    have hchord : Chord chord ms (trim last) := chord_iff.2 ⟨segments, last, hcut, hsegments, rfl, hlast⟩
    refine ⟨ms, trim last, sentence_iff.2 ⟨head, hplace, press_iff.2 ⟨chord, hphase, hchord⟩⟩, ?_, ?_,
      inferDevice_eq_ok_iff.1 hdevice⟩
    · intro m
      rw [hms, contains_foldr_insert]
    · rw [hinput, inputName, String.toList_ofList]
  · rintro ⟨ms, name, hsentence, hheld, hinput, hdevice⟩
    obtain ⟨head, hplace, hpress⟩ := sentence_iff.1 hsentence
    obtain ⟨chord, hphase, hchord⟩ := press_iff.1 hpress
    obtain ⟨segments, last, hcut, hsegments, rfl, hlast⟩ := chord_iff.1 hchord
    refine ⟨head, chord, segments, last, hsentence.ne_nil, hplace, hphase, hcut, hlast, ?_, ?_,
      inferDevice_eq_ok_iff.2 hdevice⟩
    · rw [inputName, ← hinput, String.ofList_toList]
    · refine parseModifiers_eq_ok_iff.2 ⟨ms, hsegments, Modifiers.ext_contains fun m => ?_⟩
      rw [Bool.eq_iff_iff, hheld, contains_foldr_insert]

/-- Modifiers in any case and with repetitions, white space around the parts, and a name with a colon. -/
example : parse "Option+ alt +A : B:up on  ring" =
    .ok ⟨.key, "a : b", some .up, ⟨false, false, true, false⟩, some .ring⟩ := rfl

end Stimulus

end ModeTree
