import ModeTree.Proofs.Relations
import ModeTree.Proofs.Text.Cut
import ModeTree.Proofs.Text.Lowercase
import ModeTree.Stimulus.Parser

/-!
# Reading a stimulus

Each stage of the reader is characterised by what it reads: the place (`splitPlace_eq_ok_iff`), the
phase (`splitPhase_eq_ok_iff`), and the whole text (`parse_eq_ok_iff`). From this follow the facts that
hold for every stimulus that has been read (`read_of_parse`).
-/

set_option autoImplicit false

namespace ModeTree

open Text

theorem Place.parse_eq_ok_iff {s : String} {p : Place} : Place.parse s = .ok p ↔ s = p.name := by
  rw [Place.parse]
  constructor
  · intro h
    cases hs : Place.ofName? s with
    | none => simp [hs] at h
    | some q =>
        obtain rfl : q = p := by simpa [hs] using h
        exact (Place.name_of_ofName? hs).symm
  · rintro rfl
    rw [Place.ofName?_name]

namespace Stimulus

/-- The word that stands between an input and its place. -/
def placeMark : List Char := " on ".toList

theorem placeMark_ne_nil : placeMark ≠ [] := by decide

/-- Without a place the text is taken as it is; otherwise it is cut at the first mark. -/
theorem splitPlace_eq_ok_iff {cs head : List Char} {place : Option Place} :
    splitPlace cs = .ok (head, place) ↔
      (place = none ∧ head = cs ∧ ¬ placeMark <:+: cs) ∨
        ∃ p front rest, place = some p ∧ head = trim front ∧
          cutFirst? placeMark cs = some (front, rest) ∧ trim rest = p.name.toList := by
  rw [splitPlace]
  cases hcut : cutFirst? " on ".toList cs with
  | none =>
      have hnone : ¬ placeMark <:+: cs := cutFirst?_eq_none_iff.1 hcut
      constructor
      · intro h
        obtain ⟨rfl, rfl⟩ := Prod.mk.inj (Except.ok.inj h)
        exact Or.inl ⟨rfl, rfl, hnone⟩
      · rintro (⟨rfl, rfl, -⟩ | ⟨p, front, rest, -, -, hsome, -⟩)
        · rfl
        · rw [placeMark, hcut] at hsome
          exact absurd hsome (by simp)
  | some parts =>
      obtain ⟨front, rest⟩ := parts
      show Place.parse (String.ofList (trim rest)) >>= _ = _ ↔ _
      rw [bind_eq_ok_iff]
      constructor
      · rintro ⟨p, hp, h⟩
        obtain ⟨rfl, rfl⟩ := Prod.mk.inj (Except.ok.inj h)
        refine Or.inr ⟨p, front, rest, rfl, rfl, hcut, ?_⟩
        rw [← Place.parse_eq_ok_iff.1 hp, String.toList_ofList]
      · rintro (⟨-, -, hnone⟩ | ⟨p, front', rest', rfl, rfl, hsome, hname⟩)
        · rw [← cutFirst?_eq_none_iff, placeMark, hcut] at hnone
          exact absurd hnone (by simp)
        · rw [placeMark, hcut] at hsome
          obtain ⟨rfl, rfl⟩ := Prod.mk.inj (Option.some.inj hsome)
          refine ⟨p, ?_, rfl⟩
          rw [Place.parse_eq_ok_iff, hname, String.ofList_toList]

theorem colon_not_mem_name (p : Phase) : ':' ∉ p.name.toList := by
  cases p <;> decide

/-- Without a colon there is no phase; otherwise one is named behind the last colon. -/
theorem splitPhase_eq_ok_iff {cs chord : List Char} {phase : Option Phase} :
    splitPhase cs = .ok (chord, phase) ↔
      (phase = none ∧ chord = cs ∧ ':' ∉ cs) ∨
        ∃ p, phase = some p ∧ cs = chord ++ ':' :: p.name.toList := by
  rw [splitPhase]
  cases hcut : cutLast? ':' cs with
  | none =>
      have hnone := cutLast?_eq_none_iff.1 hcut
      constructor
      · intro h
        obtain ⟨rfl, rfl⟩ := Prod.mk.inj (Except.ok.inj h)
        exact Or.inl ⟨rfl, rfl, hnone⟩
      · rintro (⟨rfl, rfl, -⟩ | ⟨p, -, rfl⟩)
        · rfl
        · exact absurd (by simp) hnone
  | some parts =>
      obtain ⟨front, rest⟩ := parts
      obtain ⟨hcs, hrest⟩ := cutLast?_eq_some_iff.1 hcut
      constructor
      · intro h
        cases hp : Phase.ofName? (String.ofList rest) with
        | none => simp [hp] at h
        | some p =>
            simp only [hp, Except.ok.injEq, Prod.mk.injEq] at h
            obtain ⟨rfl, rfl⟩ := h
            refine Or.inr ⟨p, rfl, ?_⟩
            rw [Phase.name_of_ofName? hp, String.toList_ofList, hcs]
      · rintro (⟨-, -, hnone⟩ | ⟨p, rfl, heq⟩)
        · rw [hcs] at hnone
          exact absurd (by simp) hnone
        · -- no phase has a colon in its name, so this is the last one
          have hsame := cutLast?_eq_some_iff.2 ⟨heq, colon_not_mem_name p⟩
          rw [hcut] at hsame
          obtain ⟨rfl, rfl⟩ := Prod.mk.inj (Option.some.inj hsame)
          simp

/-- The whole of reading, stage by stage. -/
theorem parse_eq_ok_iff {s : String} {x : Stimulus} :
    parse s = .ok x ↔
      ∃ head chord parts last, trim s.toList ≠ [] ∧
        splitPlace (trim s.toList) = .ok (head, x.place) ∧
        splitPhase head = .ok (chord, x.phase) ∧ cutEach '+' chord = (parts, last) ∧
        trim last ≠ [] ∧ x.input = inputName x.phase (trim last) ∧
        parseModifiers parts = .ok x.modifiers ∧ inferDevice x.input x.phase = .ok x.device := by
  rw [parse]
  cases htrim : trim s.toList with
  | nil => simp
  | cons c cs =>
      simp only [bind_eq_ok_iff, Prod.exists, ne_eq, reduceCtorEq, not_false_eq_true, true_and]
      constructor
      · rintro ⟨head, place, hplace, chord, phase, hphase, hrest⟩
        cases hcut : cutEach '+' chord with
        | mk parts last =>
            simp only [hcut] at hrest
            by_cases hlast : trim last = []
            · simp [hlast] at hrest
            · simp only [hlast, if_false, bind_eq_ok_iff] at hrest
              obtain ⟨modifiers, hmodifiers, device, hdevice, heq⟩ := hrest
              obtain rfl := Except.ok.inj heq
              exact ⟨head, chord, parts, last, hplace, hphase, hcut, hlast, rfl, hmodifiers, hdevice⟩
      · rintro ⟨head, chord, parts, last, hplace, hphase, hcut, hlast, hinput, hmodifiers, hdevice⟩
        refine ⟨head, x.place, hplace, chord, x.phase, hphase, ?_⟩
        rw [hinput] at hdevice
        simp only [hcut, hlast, if_false, bind_eq_ok_iff]
        refine ⟨x.modifiers, hmodifiers, x.device, hdevice, ?_⟩
        rw [← hinput]

/-! ## What has been read -/

/-- What is true of every stimulus that has been read from a text. -/
structure Read (x : Stimulus) : Prop where
  nonempty : x.input.toList ≠ []
  trimmed : Trimmed x.input.toList
  plus : '+' ∉ x.input.toList
  colon : x.phase = none → ':' ∉ x.input.toList
  unmarked : x.phase = none → ¬ placeMark <:+: x.input.toList
  lowered : x.phase.isSome → lower x.input.toList = x.input.toList
  device : inferDevice x.input x.phase = .ok x.device

theorem unmarked_of_splitPlace {cs head : List Char} {place : Option Place}
    (h : splitPlace cs = .ok (head, place)) : ¬ placeMark <:+: head := by
  rcases splitPlace_eq_ok_iff.1 h with ⟨-, rfl, hnone⟩ | ⟨p, front, rest, -, rfl, hcut, -⟩
  · exact hnone
  · intro hwithin
    exact not_infix_of_cutFirst? placeMark_ne_nil hcut (hwithin.trans (trim_within front))

theorem read_of_parse {s : String} {x : Stimulus} (h : parse s = .ok x) : x.Read := by
  obtain ⟨head, chord, parts, last, -, hplace, hphase, hcut, hlast, hinput, -, hdevice⟩ :=
    parse_eq_ok_iff.1 h
  obtain ⟨hchord, -, hplus⟩ := cutEach_eq_iff.1 hcut
  -- the name is part of the chord, and has none of what the chord is cut at
  have hwithin : trim last <:+: chord := by
    rw [hchord]
    exact (trim_within last).trans (List.suffix_append _ _).isInfix
  have hplus' : '+' ∉ trim last := fun hmem => hplus ((trim_within last).subset hmem)
  cases hx : x.phase with
  | none =>
      -- without a phase the name is kept as it is written
      have hname : x.input.toList = trim last := by
        rw [hinput, hx]
        simp [inputName]
      rcases splitPhase_eq_ok_iff.1 hphase with ⟨-, rfl, hcolon⟩ | ⟨p, hp, -⟩
      · refine ⟨?_, ?_, ?_, ?_, ?_, ?_, hdevice⟩
        · rwa [hname]
        · rw [hname]
          exact trimmed_trim last
        · rwa [hname]
        · intro _
          rw [hname]
          exact fun hmem => hcolon (hwithin.subset hmem)
        · intro _
          rw [hname]
          exact fun hmark => unmarked_of_splitPlace hplace (hmark.trans hwithin)
        · simp [hx]
      · rw [hx] at hp
        exact absurd hp (by simp)
  | some p =>
      -- with a phase it is in lowercase, and lowercasing may bring in a mark
      have hname : x.input.toList = lower (trim last) := by
        rw [hinput, hx]
        simp [inputName]
      refine ⟨?_, ?_, ?_, by simp [hx], by simp [hx], ?_, hdevice⟩
      · rw [hname]
        exact lowerAfter_ne_nil hlast
      · rw [hname]
        exact trimmed_lower (trimmed_trim last)
      · rw [hname]
        exact plus_not_mem_lower hplus'
      · intro _
        rw [hname, lower_lower]

end Stimulus

end ModeTree
