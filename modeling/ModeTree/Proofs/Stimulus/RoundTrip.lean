import ModeTree.Proofs.Stimulus.Reading

/-!
# From a stimulus to its text and back

The text of a stimulus is read as the stimulus again if its input has none of the marks that reading
cuts at (`parse_text`). A stimulus that has itself been read from a text meets all of this but for one
thing: its lowercase input may show the mark of a place that was not there in the capitals, and an input
in front of a place may end in the first half of the mark. So its text is read as itself exactly when
neither is the case, and as nothing else in any case (`parse_text_iff_of_parse`). Of all stimuli, read or
not, those whose text is read as themselves are found by looking at the input alone
(`parse_text_iff_input`).
-/

set_option autoImplicit false

namespace ModeTree

open Text

namespace Stimulus

/-! ## The text, part by part -/

/-- The mark of a place without its last space. -/
def placeWord : List Char := " on".toList

/-- The modifiers of a text, each with a plus sign behind it. -/
def frontText (ms : Modifiers) : List Char := ended '+' (ms.toList.map fun m => m.name.toList)

/-- The phase of a text, behind its colon. -/
def phaseText : Option Phase → List Char
  | none => []
  | some p => ':' :: p.name.toList

/-- The place of a text, behind its mark. -/
def placeText : Option Place → List Char
  | none => []
  | some p => placeMark ++ p.name.toList

/-- The text in front of the place. -/
def headText (x : Stimulus) : List Char :=
  frontText x.modifiers ++ x.input.toList ++ phaseText x.phase

theorem toList_text (x : Stimulus) : x.text.toList = x.headText ++ placeText x.place := by
  obtain ⟨device, input, phase, modifiers, place⟩ := x
  have hfront : (String.join (modifiers.toList.map fun m => m.name ++ "+")).toList =
      frontText modifiers := by
    simp [frontText, ended, List.flatMap_map]
  cases phase <;> cases place <;>
    simp [text, headText, phaseText, placeText, placeMark, hfront, List.append_assoc]

theorem plain_modifier (m : Modifier) : Plain m.name.toList ∧ '+' ∉ m.name.toList ∧ ':' ∉ m.name.toList := by
  refine ⟨plain_of_all ?_, ?_, ?_⟩
  · cases m <;> rfl
  · cases m <;> decide
  · cases m <;> decide

theorem plain_place (p : Place) : Plain p.name.toList := by
  apply plain_of_all
  cases p <;> rfl

theorem plain_phaseText (phase : Option Phase) : Plain (phaseText phase) := by
  apply plain_of_all
  cases phase with
  | none => rfl
  | some p => cases p <;> rfl

theorem name_ne_nil (p : Place) : p.name.toList ≠ [] := by
  cases p <;> decide

/-- The modifiers of a text have neither white space nor a colon. -/
theorem plain_frontText (ms : Modifiers) : Plain (frontText ms) ∧ ':' ∉ frontText ms := by
  have hparts : ∀ c ∈ frontText ms, c = '+' ∨ ∃ m : Modifier, c ∈ m.name.toList := by
    intro c hc
    obtain ⟨part, hpart, hmem⟩ := List.mem_flatMap.1 hc
    obtain ⟨m, -, rfl⟩ := List.mem_map.1 hpart
    rcases List.mem_append.1 hmem with h | h
    · exact Or.inr ⟨m, h⟩
    · exact Or.inl (List.mem_singleton.1 h)
  constructor
  · intro c hc
    rcases hparts c hc with rfl | ⟨m, hm⟩
    · decide
    · exact (plain_modifier m).1 c hm
  · intro hc
    rcases hparts ':' hc with h | ⟨m, hm⟩
    · exact absurd h (by decide)
    · exact (plain_modifier m).2.2 hm

theorem parseModifier_name (m : Modifier) : parseModifier m.name.toList = .ok m := by
  cases m <;> rfl

theorem parseModifiers_names (l : List Modifier) :
    parseModifiers (l.map fun m => m.name.toList) = .ok (l.foldr (fun m ms => ms.insert m) .none) := by
  induction l with
  | nil => rfl
  | cons m l ih =>
      rw [List.map_cons, parseModifiers, parseModifier_name, ih]
      rfl

theorem foldr_insert_toList (ms : Modifiers) : ms.toList.foldr (fun m ms => ms.insert m) .none = ms := by
  obtain ⟨a, b, c, d⟩ := ms
  cases a <;> cases b <;> cases c <;> cases d <;> rfl

/-! ## Marks in the text -/

/-- A mark in front of the place begins and ends with a space, so it lies in the input. -/
theorem placeMark_infix_headText {x : Stimulus} (h : placeMark <:+: x.headText) :
    placeMark <:+: x.input.toList := by
  obtain ⟨a, b, heq⟩ := h
  -- neither the modifiers in front nor the phase behind have a space
  have hfront : ' ' ∉ frontText x.modifiers := (plain_frontText x.modifiers).1.space_not_mem
  have hphase : ' ' ∉ phaseText x.phase := (plain_phaseText x.phase).space_not_mem
  have hstart : frontText x.modifiers ++ (x.input.toList ++ phaseText x.phase) =
      a ++ ' ' :: ('o' :: 'n' :: ' ' :: b) := by
    rw [← List.append_assoc, ← headText, ← heq]
    simp [placeMark]
  obtain ⟨a', -, hrest⟩ := eq_append_of_not_mem_left hfront hstart
  have hend : x.input.toList ++ phaseText x.phase = (a' ++ [' ', 'o', 'n']) ++ ' ' :: b := by
    rw [hrest]
    simp
  obtain ⟨b', -, hinput⟩ := eq_append_of_not_mem_right hphase hend
  exact ⟨a', b', by rw [hinput]; simp [placeMark]⟩

theorem input_infix_headText (x : Stimulus) : x.input.toList <:+: x.headText :=
  ⟨frontText x.modifiers, phaseText x.phase, rfl⟩

/-- Only an input without a phase can end the text in front of the place with the word. -/
theorem placeWord_suffix_headText {x : Stimulus} (h : placeWord <:+ x.headText) :
    x.phase = none ∧ placeWord <:+ x.input.toList := by
  obtain ⟨a, heq⟩ := h
  have hfront : ' ' ∉ frontText x.modifiers := (plain_frontText x.modifiers).1.space_not_mem
  have hphase : ' ' ∉ phaseText x.phase := (plain_phaseText x.phase).space_not_mem
  have hend : (frontText x.modifiers ++ x.input.toList) ++ phaseText x.phase = a ++ ' ' :: ['o', 'n'] := by
    rw [← headText, ← heq]
    simp [placeWord]
  obtain ⟨b, hb, hchord⟩ := eq_append_of_not_mem_right hphase hend
  cases hx : x.phase with
  | some p =>
      -- a phase is longer than what stands behind the space
      have hlen := congrArg List.length hb
      rw [hx] at hlen
      cases p with
      | down => simp [phaseText, Phase.name] at hlen
      | up => simp [phaseText, Phase.name] at hlen
  | none =>
      rw [hx, phaseText, List.append_nil] at hb
      subst hb
      obtain ⟨a', -, hinput⟩ := eq_append_of_not_mem_left hfront hchord
      exact ⟨rfl, a', by rw [hinput]; simp [placeWord]⟩

/-- The text in front of the place is trimmed if the input is. -/
theorem trimmed_headText {x : Stimulus} (hne : x.input.toList ≠ []) (h : Trimmed x.input.toList) :
    Trimmed x.headText ∧ x.headText ≠ [] := by
  refine ⟨h.surround hne (plain_frontText x.modifiers).1 (plain_phaseText x.phase), ?_⟩
  simp [headText, hne]

theorem trimmed_text {x : Stimulus} (hne : x.input.toList ≠ []) (h : Trimmed x.input.toList) :
    Trimmed x.text.toList ∧ x.text.toList ≠ [] := by
  obtain ⟨htrimmed, hhead⟩ := trimmed_headText hne h
  rw [toList_text]
  refine ⟨?_, by simp [hhead]⟩
  cases x.place with
  | none => simpa [placeText] using htrimmed
  | some p =>
      rw [placeText, ← List.append_assoc]
      exact htrimmed.append placeMark (plain_place p).trimmed hhead (name_ne_nil p)

/-- A text without the mark, and which does not end in the word, is what stands in front of the first
mark of a longer one. -/
theorem cutFirst?_place {front name : List Char} (hmark : ¬ placeMark <:+: front)
    (hword : ¬ placeWord <:+ front) :
    cutFirst? placeMark (front ++ placeMark ++ name) = some (front, name) := by
  rw [cutFirst?_eq_some_iff]
  refine ⟨rfl, ?_⟩
  intro a b hab
  by_contra hlt
  have hab' : front ++ (placeMark ++ name) = a ++ (placeMark ++ b) := by
    simpa only [List.append_assoc] using hab
  rcases List.append_eq_append_iff.1 hab' with ⟨e, rfl, heq⟩ | ⟨e, rfl, heq⟩
  · simp at hlt
  · -- an earlier mark reaches one, two or three characters into the later one, or not at all
    rcases e with _ | ⟨c, _ | ⟨d, _ | ⟨f, _ | ⟨g, e⟩⟩⟩⟩
    · simp at hlt
    · simp [placeMark] at heq
    · simp [placeMark] at heq
    · simp only [placeMark, String.reduceToList, List.cons_append, List.nil_append, List.cons.injEq] at heq
      obtain ⟨rfl, rfl, rfl, -⟩ := heq
      exact hword ⟨a, rfl⟩
    · simp only [placeMark, String.reduceToList, List.cons_append, List.nil_append, List.cons.injEq] at heq
      obtain ⟨rfl, rfl, rfl, rfl, -⟩ := heq
      exact hmark ⟨a, e, by simp [placeMark]⟩

/-! ## Reading the text -/

/-- An input that the marks of the text leave alone. -/
structure Unmarked (x : Stimulus) : Prop where
  mark : ¬ placeMark <:+: x.input.toList
  word : x.phase = none → x.place.isSome → ¬ placeWord <:+ x.input.toList

/-- The text of a stimulus is read part by part, if its input stays in one piece when the text is cut: as
the same stimulus but for the case of the input and the device that follows from it. -/
theorem parse_text_written {x : Stimulus} {d : Device} (hne : x.input.toList ≠ [])
    (htrimmed : Trimmed x.input.toList) (hplus : '+' ∉ x.input.toList)
    (hcolon : x.phase = none → ':' ∉ x.input.toList) (hmarks : x.Unmarked)
    (hdevice : inferDevice (inputName x.phase x.input.toList) x.phase = .ok d) :
    parse x.text = .ok { x with device := d, input := inputName x.phase x.input.toList } := by
  obtain ⟨htext, htextne⟩ := trimmed_text hne htrimmed
  obtain ⟨hhead, -⟩ := trimmed_headText hne htrimmed
  have hmark : ¬ placeMark <:+: x.headText := fun h => hmarks.mark (placeMark_infix_headText h)
  refine parse_eq_ok_iff.2 ⟨x.headText, frontText x.modifiers ++ x.input.toList, _, x.input.toList,
    ?_, ?_, ?_, cutEach_eq_iff.2 ⟨rfl, ?_, hplus⟩, ?_, ?_, ?_, hdevice⟩
  · rwa [trim_eq_self htext]
  · -- the place is the one that is written, or there is none
    rw [trim_eq_self htext, toList_text, splitPlace_eq_ok_iff]
    cases hplace : x.place with
    | none =>
        rw [placeText, List.append_nil]
        exact Or.inl ⟨rfl, rfl, hmark⟩
    | some p =>
        have hword : ¬ placeWord <:+ x.headText := by
          intro h
          obtain ⟨hphase, hinput⟩ := placeWord_suffix_headText h
          exact hmarks.word hphase (by simp [hplace]) hinput
        refine Or.inr ⟨p, x.headText, p.name.toList, rfl, (trim_eq_self hhead).symm, ?_,
          trim_eq_self (plain_place p).trimmed⟩
        rw [placeText, ← List.append_assoc]
        exact cutFirst?_place hmark hword
  · -- and so is the phase
    rw [splitPhase_eq_ok_iff, headText]
    cases hphase : x.phase with
    | none =>
        rw [phaseText, List.append_nil]
        refine Or.inl ⟨rfl, rfl, ?_⟩
        rw [List.mem_append, not_or]
        exact ⟨(plain_frontText x.modifiers).2, hcolon hphase⟩
    | some p => exact Or.inr ⟨p, rfl, rfl⟩
  · intro part hpart
    obtain ⟨m, -, rfl⟩ := List.mem_map.1 hpart
    exact (plain_modifier m).2.1
  · rwa [trim_eq_self htrimmed]
  · rw [trim_eq_self htrimmed]
  · rw [parseModifiers_names, foldr_insert_toList]

/-- The text of a stimulus is read as the stimulus, if the input has the form of one that has been read
and none of the marks. -/
theorem parse_text {x : Stimulus} (hx : x.Read) (hmarks : x.Unmarked) : parse x.text = .ok x := by
  -- lowercasing the name of a key once more changes nothing
  have hinput : inputName x.phase x.input.toList = x.input := by
    rw [inputName]
    cases hphase : x.phase with
    | none => simp
    | some p => simp [hx.lowered (by simp [hphase])]
  have hdevice : inferDevice (inputName x.phase x.input.toList) x.phase = .ok x.device := by
    rw [hinput]
    exact hx.device
  rw [parse_text_written hx.nonempty hx.trimmed hx.plus hx.colon hmarks hdevice, hinput]

/-- A text is cut at the mark in front of its place only: what stands in front of this mark has no mark
in it and does not end in the word. -/
theorem eq_of_cutFirst? {head front rest : List Char} {p q : Place}
    (hcut : cutFirst? placeMark (head ++ placeMark ++ p.name.toList) = some (front, rest))
    (hrest : trim rest = q.name.toList) : front = head := by
  obtain ⟨heq, -⟩ := cutFirst?_eq_some_iff.1 hcut
  -- behind the place stands no white space
  have hend : ∀ c, (front ++ placeMark ++ rest).getLast? = some c → isWhite c = false := by
    intro c hc
    rw [← heq, List.getLast?_append_of_ne_nil _ (name_ne_nil p)] at hc
    exact plain_place p c (List.mem_of_getLast? hc)
  obtain ⟨u, hu, hsplit⟩ := exists_trim_of_last hend
  rw [hsplit, hrest] at heq
  -- and in front of it only the last space of the mark
  have hspace : isWhite ' ' = true := by decide
  rcases List.eq_nil_or_concat u with rfl | ⟨u', c, rfl⟩
  · have heq' : (head ++ placeWord) ++ ' ' :: p.name.toList =
        (front ++ placeWord) ++ ' ' :: q.name.toList := by
      simpa [placeMark, placeWord] using heq
    obtain ⟨hfront, -, -⟩ := append_white_inj hspace hspace (plain_place p) (plain_place q) heq'
    exact (List.append_cancel_right hfront).symm
  · have heq' : (head ++ placeWord) ++ ' ' :: p.name.toList =
        (front ++ placeMark ++ u') ++ c :: q.name.toList := by
      simpa [placeMark, placeWord] using heq
    have hc : isWhite c = true := hu c (by simp)
    obtain ⟨hfront, -, -⟩ := append_white_inj hspace hc (plain_place p) (plain_place q) heq'
    -- the letter in front of that space would be white
    have hlast : (front ++ placeMark ++ u').getLast? = some 'n' := by
      rw [← hfront]
      simp [placeWord]
    rcases List.eq_nil_or_concat u' with rfl | ⟨u'', d, rfl⟩
    · simp [placeMark] at hlast
    · have hd : isWhite d = true := hu d (by simp)
      obtain rfl : d = 'n' := by simpa [← List.append_assoc] using hlast
      exact absurd hd (by decide)

/-- No place is named like the end of a phase. -/
theorem phase_ne_place {a b : List Char} {phase : Phase} {p : Place} :
    a ++ phase.name.toList ≠ b ++ p.name.toList := by
  intro h
  have hlast := congrArg List.getLast? h
  cases phase <;> cases p <;>
    simp [Phase.name, Place.name, List.getLast?_append] at hlast

/-- If the text of a stimulus that has been read is read at all, its input has none of the marks. -/
theorem unmarked_of_parse_text {x y : Stimulus} (hx : x.Read) (h : parse x.text = .ok y) :
    x.Unmarked := by
  obtain ⟨htext, -⟩ := trimmed_text hx.nonempty hx.trimmed
  obtain ⟨head, -, -, -, -, hplace, -⟩ := parse_eq_ok_iff.1 h
  rw [trim_eq_self htext, toList_text, splitPlace_eq_ok_iff] at hplace
  cases hxplace : x.place with
  | none =>
      refine ⟨?_, by simp [hxplace]⟩
      rw [hxplace, placeText, List.append_nil] at hplace
      intro hmark
      have hwithin := hmark.trans (input_infix_headText x)
      rcases hplace with ⟨-, -, hnone⟩ | ⟨q, front, rest, -, -, hcut, hrest⟩
      · exact hnone hwithin
      · cases hphase : x.phase with
        | none => exact hx.unmarked hphase hmark
        | some p =>
            -- the text ends with the name of a phase, not with that of a place
            obtain ⟨heq, -⟩ := cutFirst?_eq_some_iff.1 hcut
            obtain ⟨htrimmed, -⟩ := trimmed_headText hx.nonempty hx.trimmed
            rw [heq] at htrimmed
            obtain ⟨u, -, hsplit⟩ := exists_trim_of_last htrimmed.last
            rw [hsplit, hrest, headText, hphase, phaseText] at heq
            have heq' : (frontText x.modifiers ++ x.input.toList ++ [':']) ++ p.name.toList =
                (front ++ placeMark ++ u) ++ q.name.toList := by
              simpa using heq
            exact phase_ne_place heq'
  | some p =>
      rw [hxplace, placeText, ← List.append_assoc] at hplace
      rcases hplace with ⟨-, -, hnone⟩ | ⟨q, front, rest, -, -, hcut, hrest⟩
      · exact absurd ⟨x.headText, p.name.toList, rfl⟩ hnone
      · -- the text has been cut where it was put together
        obtain rfl := eq_of_cutFirst? hcut hrest
        obtain ⟨-, hfirst⟩ := cutFirst?_eq_some_iff.1 hcut
        refine ⟨?_, ?_⟩
        · intro hmark
          exact not_infix_of_cutFirst? placeMark_ne_nil hcut (hmark.trans (input_infix_headText x))
        · -- the word at the end would be the beginning of an earlier mark
          rintro hphase - ⟨a, ha⟩
          have hhead : x.headText = (frontText x.modifiers ++ a) ++ placeWord := by
            rw [headText, hphase, phaseText, List.append_nil, ← ha, List.append_assoc]
          have hle := hfirst (frontText x.modifiers ++ a) ('o' :: 'n' :: ' ' :: p.name.toList) (by
            rw [hhead]
            simp [placeMark, placeWord])
          have hlen : placeWord.length = 3 := rfl
          rw [hhead] at hle
          simp only [List.length_append, hlen] at hle
          omega

/-- The text of a stimulus that has been read is read as the stimulus exactly when the input has none of
the marks, and it is never read as another one. -/
theorem parse_text_iff_of_parse {s : String} {x : Stimulus} (h : parse s = .ok x) :
    (parse x.text = .ok x ↔
      ¬ placeMark <:+: x.input.toList ∧
        (x.phase = none → x.place.isSome → ¬ placeWord <:+ x.input.toList)) ∧
      ∀ y, parse x.text = .ok y → y = x := by
  have hx := read_of_parse h
  have hread : ∀ y, parse x.text = .ok y → parse x.text = .ok x :=
    fun y hy => parse_text hx (unmarked_of_parse_text hx hy)
  refine ⟨?_, ?_⟩
  · constructor
    · intro hsame
      obtain ⟨hmark, hword⟩ := unmarked_of_parse_text hx hsame
      exact ⟨hmark, hword⟩
    · rintro ⟨hmark, hword⟩
      exact parse_text hx ⟨hmark, hword⟩
  · intro y hy
    rw [hread y hy] at hy
    exact (Except.ok.inj hy).symm

/-- A chord on a vertex is read again from its text. -/
theorem parse_text_of_chord :
    parse "Shift + ctrl+Z:down on vertex" =
        .ok ⟨.key, "z", some .down, ⟨true, true, false, false⟩, some .vertex⟩ ∧
      parse "ctrl+shift+z:down on vertex" =
        .ok ⟨.key, "z", some .down, ⟨true, true, false, false⟩, some .vertex⟩ := by
  have h : parse "Shift + ctrl+Z:down on vertex" =
      .ok ⟨.key, "z", some .down, ⟨true, true, false, false⟩, some .vertex⟩ := rfl
  exact ⟨h, (parse_text_iff_of_parse h).1.2 ⟨by decide, by decide⟩⟩

/-- In lowercase the name of this key shows a mark that is not there in capitals, so that its text is
cut where the text that it was read from was not. -/
theorem text_of_key_not_read :
    parse "A ON B:down" = .ok (key "A ON B" .down) ∧
      parse (key "A ON B" .down).text = .error (.unknownPlace "b:down") := by
  exact ⟨rfl, rfl⟩

/-- White space that is no space can hide the word in front of a place. -/
example : parse "foo on\u00a0 on vertex" = .ok ((command "foo on").onPlace .vertex) ∧
    parse ((command "foo on").onPlace .vertex).text = .error (.unknownPlace "on vertex") := by
  exact ⟨rfl, rfl⟩

/-! ## Stimuli that are known by their text -/

/-- A stimulus is read from its own text exactly when it has the form of one that has been read and its
input has none of the marks. -/
theorem parse_text_iff (x : Stimulus) : parse x.text = .ok x ↔ x.Read ∧ x.Unmarked := by
  constructor
  · intro h
    have hx := read_of_parse h
    exact ⟨hx, unmarked_of_parse_text hx h⟩
  · rintro ⟨hx, hmarks⟩
    exact parse_text hx hmarks

/-- Which stimuli are read from their own text; no two of them have the same one. -/
theorem parse_text_iff_input (x : Stimulus) :
    (parse x.text = .ok x ↔
      x.input ≠ "" ∧ Trimmed x.input.toList ∧ '+' ∉ x.input.toList ∧ ¬ placeMark <:+: x.input.toList ∧
        (x.phase = none → ':' ∉ x.input.toList ∧
          (x.place.isSome → ¬ placeWord <:+ x.input.toList)) ∧
        (x.phase.isSome → lowercase x.input = x.input) ∧
        inferDevice x.input x.phase = .ok x.device) ∧
      ∀ y, parse x.text = .ok x → parse y.text = .ok y → x.text = y.text → x = y := by
  refine ⟨?_, ?_⟩
  · rw [parse_text_iff]
    constructor
    · rintro ⟨hx, hmarks⟩
      refine ⟨?_, hx.trimmed, hx.plus, hmarks.mark, ?_, ?_, hx.device⟩
      · rintro hempty
        exact hx.nonempty (by rw [hempty]; rfl)
      · exact fun hphase => ⟨hx.colon hphase, hmarks.word hphase⟩
      · intro hphase
        rw [lowercase, hx.lowered hphase, String.ofList_toList]
    · rintro ⟨hne, htrimmed, hplus, hmark, hplain, hlowered, hdevice⟩
      refine ⟨⟨?_, htrimmed, hplus, fun hphase => (hplain hphase).1, fun _ => hmark, ?_, hdevice⟩,
        ⟨hmark, fun hphase => (hplain hphase).2⟩⟩
      · simpa using hne
      · intro hphase
        rw [← toList_lowercase, hlowered hphase]
  · intro y hx hy htext
    rw [htext, hy] at hx
    exact (Except.ok.inj hx).symm

/-- The name of a key may have colons in it, and may end in the word in front of the mark of a place. -/
theorem parse_text_of_colons :
    parse (⟨.key, "a: on", some .up, ⟨true, false, true, false⟩, some .ring⟩ : Stimulus).text =
        .ok ⟨.key, "a: on", some .up, ⟨true, false, true, false⟩, some .ring⟩ ∧
      (⟨.key, "a: on", some .up, ⟨true, false, true, false⟩, some .ring⟩ : Stimulus).text =
        "ctrl+alt+a: on:up on ring" := by
  refine ⟨(parse_text_iff_input _).1.2 ?_, rfl⟩
  exact ⟨by decide, by decide, by decide, by decide, by simp, fun _ => rfl, rfl⟩

end Stimulus

end ModeTree
