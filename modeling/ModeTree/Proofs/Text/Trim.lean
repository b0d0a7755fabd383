import ModeTree.Text.White
import Mathlib.Data.List.Basic
import Mathlib.Data.List.TakeWhile

/-!
# Trimming

To trim a text takes white space from its ends (`padded_trim`) and leaves a text with none there
(`trimmed_trim`). A text without white space at its ends stays as it is (`trim_eq_self`). So a trimmed
text is what trimming gives exactly for the texts that have it with white space around it (`trim_eq_iff`).
-/

set_option autoImplicit false

namespace ModeTree.Text

/-- A text without white space at its ends. -/
structure Trimmed (cs : List Char) : Prop where
  head : ∀ c, cs.head? = some c → isWhite c = false
  last : ∀ c, cs.getLast? = some c → isWhite c = false

/-- A text of white space. -/
def White (cs : List Char) : Prop := ∀ c ∈ cs, isWhite c = true

/-- A text with white space around it. -/
def Padded (core cs : List Char) : Prop := ∃ u v, White u ∧ White v ∧ cs = u ++ core ++ v

instance : DecidablePred White := fun cs => decidable_of_iff (cs.all isWhite = true) List.all_eq_true

theorem trimEnd_cons_of_ne_nil (c : Char) {cs : List Char} (h : trimEnd cs ≠ []) :
    trimEnd (c :: cs) = c :: trimEnd cs := by
  cases hcs : trimEnd cs with
  | nil => exact absurd hcs h
  | cons d kept => rw [trimEnd, hcs]

theorem trimEnd_cons_of_eq_nil (c : Char) {cs : List Char} (h : trimEnd cs = []) :
    trimEnd (c :: cs) = if isWhite c then [] else [c] := by
  rw [trimEnd, h]

/-- Trimming the end takes white space away. -/
theorem exists_trimEnd (cs : List Char) : ∃ w, White w ∧ cs = trimEnd cs ++ w := by
  induction cs with
  | nil => exact ⟨[], by simp [White], rfl⟩
  | cons c cs ih =>
      obtain ⟨w, hw, heq⟩ := ih
      by_cases hcs : trimEnd cs = []
      · rw [trimEnd_cons_of_eq_nil c hcs]
        rw [hcs, List.nil_append] at heq
        subst heq
        -- everything behind the character is white, so it decides how far that reaches
        by_cases hc : isWhite c = true
        · refine ⟨c :: cs, ?_, by simp [hc]⟩
          intro d hd
          rcases List.mem_cons.1 hd with rfl | hd
          · exact hc
          · exact hw d hd
        · exact ⟨cs, hw, by simp [hc]⟩
      · refine ⟨w, hw, ?_⟩
        rw [trimEnd_cons_of_ne_nil c hcs, List.cons_append, ← heq]

theorem last_trimEnd {cs : List Char} {d : Char} (h : (trimEnd cs).getLast? = some d) :
    isWhite d = false := by
  induction cs with
  | nil => simp at h
  | cons c cs ih =>
      by_cases hcs : trimEnd cs = []
      · rw [trimEnd_cons_of_eq_nil c hcs] at h
        by_cases hc : isWhite c = true
        · simp [hc] at h
        · obtain rfl : c = d := by simpa [hc] using h
          simpa using hc
      · rw [trimEnd_cons_of_ne_nil c hcs] at h
        obtain ⟨e, kept, hkept⟩ := List.exists_cons_of_ne_nil hcs
        rw [hkept, List.getLast?_cons_cons, ← hkept] at h
        exact ih h

theorem trimEnd_eq_self {cs : List Char} (h : ∀ c, cs.getLast? = some c → isWhite c = false) :
    trimEnd cs = cs := by
  obtain ⟨w, hw, heq⟩ := exists_trimEnd cs
  rcases List.eq_nil_or_concat w with rfl | ⟨w', d, rfl⟩
  · simpa using heq.symm
  · -- the last character would be white
    have hlast : cs.getLast? = some d := by
      rw [heq, List.concat_eq_append, ← List.append_assoc, List.getLast?_concat]
    have hd : isWhite d = true := hw d (by simp)
    rw [h d hlast] at hd
    exact absurd hd (by simp)

theorem head_trimEnd {cs : List Char} {d : Char} (h : (trimEnd cs).head? = some d) :
    cs.head? = some d := by
  obtain ⟨w, -, heq⟩ := exists_trimEnd cs
  rw [heq, List.head?_append, h]
  rfl

/-- Trimming takes white space away at both ends. -/
theorem padded_trim (cs : List Char) : Padded (trim cs) cs := by
  obtain ⟨v, hv, heq⟩ := exists_trimEnd (trimStart cs)
  refine ⟨cs.takeWhile isWhite, v, ?_, hv, ?_⟩
  · intro c hc
    have hall := List.all_takeWhile (p := isWhite) (l := cs)
    exact List.all_eq_true.1 hall c hc
  · rw [List.append_assoc, trim, ← heq, trimStart, List.takeWhile_append_dropWhile]

theorem trimmed_trim (cs : List Char) : Trimmed (trim cs) where
  head := by
    intro c hc
    -- what trimming the end leaves at the front is what trimming the start left there
    have hstart := head_trimEnd hc
    have hfirst := List.head?_dropWhile_not isWhite cs
    rw [trimStart] at hstart
    rw [hstart] at hfirst
    simpa using hfirst
  last := fun c hc => last_trimEnd hc

theorem trim_eq_self {cs : List Char} (h : Trimmed cs) : trim cs = cs := by
  have hstart : trimStart cs = cs := by
    cases cs with
    | nil => rfl
    | cons c cs =>
        rw [trimStart, List.dropWhile_cons_of_neg]
        simpa using h.head c rfl
  rw [trim, hstart]
  exact trimEnd_eq_self h.last

theorem trim_within (cs : List Char) : trim cs <:+: cs := by
  obtain ⟨u, v, -, -, heq⟩ := padded_trim cs
  exact ⟨u, v, heq.symm⟩

instance : DecidablePred Trimmed := fun cs =>
  decidable_of_iff (trim cs = cs) ⟨fun h => h ▸ trimmed_trim cs, trim_eq_self⟩

theorem trimEnd_append_white (cs : List Char) {v : List Char} (hv : White v) :
    trimEnd (cs ++ v) = trimEnd cs := by
  induction cs with
  | nil => exact (trimEnd_eq_nil_iff v).2 hv
  | cons c cs ih => rw [List.cons_append, trimEnd, trimEnd, ih]

theorem trim_eq_nil_iff {cs : List Char} : trim cs = [] ↔ White cs := by
  constructor
  · intro h
    obtain ⟨u, v, hu, hv, heq⟩ := padded_trim cs
    rw [h, List.append_nil] at heq
    intro c hc
    rw [heq] at hc
    exact (List.mem_append.1 hc).elim (hu c) (hv c)
  · intro h
    rw [trim, trimStart, List.dropWhile_eq_nil_iff.2 h, trimEnd_nil]

theorem Trimmed.not_white {cs : List Char} (h : Trimmed cs) (hne : cs ≠ []) : ¬ White cs := by
  rw [← trim_eq_nil_iff, trim_eq_self h]
  exact hne

theorem trim_white_append {u : List Char} (hu : White u) (cs : List Char) : trim (u ++ cs) = trim cs := by
  rw [trim, trimStart, List.dropWhile_append_of_pos hu, trim, trimStart]

theorem trim_append_white (cs : List Char) {v : List Char} (hv : White v) : trim (cs ++ v) = trim cs := by
  rw [trim, trim]
  -- either the text is white throughout, or trimming its start does not reach what stands behind it
  by_cases hcs : trimStart cs = []
  · have hwhite : White cs := fun c hc => List.dropWhile_eq_nil_iff.1 hcs c hc
    rw [hcs, trimStart, List.dropWhile_append_of_pos hwhite]
    exact (trimEnd_eq_nil_iff _).2 fun c hc => hv c (List.dropWhile_sublist _ |>.subset hc)
  · rw [trimStart, List.dropWhile_append, if_neg (by simpa [trimStart] using hcs)]
    exact trimEnd_append_white _ hv

theorem Padded.trim_eq {core cs : List Char} (h : Padded core cs) : trim cs = trim core := by
  obtain ⟨u, v, hu, hv, rfl⟩ := h
  rw [trim_append_white _ hv, trim_white_append hu]

/-- What is no white space stands in the text itself, not around it. -/
theorem Padded.mem_iff {core cs : List Char} (h : Padded core cs) {c : Char} (hc : isWhite c = false) :
    c ∈ cs ↔ c ∈ core := by
  obtain ⟨u, v, hu, hv, rfl⟩ := h
  have hnot : ∀ w, White w → c ∉ w := fun w hw hmem => by
    rw [hw c hmem] at hc
    exact absurd hc (by simp)
  simp [hnot u hu, hnot v hv]

/-- What trimming gives is the one trimmed text that stands in the text with white space around it. -/
theorem trim_eq_iff {core cs : List Char} : trim cs = core ↔ Trimmed core ∧ Padded core cs := by
  constructor
  · rintro rfl
    exact ⟨trimmed_trim cs, padded_trim cs⟩
  · rintro ⟨hcore, hpadded⟩
    rw [hpadded.trim_eq, trim_eq_self hcore]

/-- Trimming the end of a text that does not end in white space takes away only what stands in front. -/
theorem exists_trim_of_last {a cs : List Char}
    (h : ∀ c, (a ++ cs).getLast? = some c → isWhite c = false) : ∃ u, White u ∧ cs = u ++ trim cs := by
  obtain ⟨u, v, hu, hv, heq⟩ := padded_trim cs
  rcases List.eq_nil_or_concat v with rfl | ⟨v', c, rfl⟩
  · exact ⟨u, hu, by simpa using heq⟩
  · -- the text would end in white space
    have hlast : (a ++ cs).getLast? = some c := by
      rw [heq, List.concat_eq_append, ← List.append_assoc, ← List.append_assoc, List.getLast?_concat]
    have hc : isWhite c = true := hv c (by simp)
    rw [h c hlast] at hc
    exact absurd hc (by simp)

/-- A text without white space. -/
def Plain (cs : List Char) : Prop := ∀ c ∈ cs, isWhite c = false

theorem plain_of_all {cs : List Char} (h : (cs.all fun c => !isWhite c) = true) : Plain cs := by
  intro c hc
  simpa using List.all_eq_true.1 h c hc

theorem Plain.trimmed {cs : List Char} (h : Plain cs) : Trimmed cs :=
  ⟨fun c hc => h c (List.mem_of_head? hc), fun c hc => h c (List.mem_of_getLast? hc)⟩

theorem Plain.space_not_mem {cs : List Char} (h : Plain cs) : ' ' ∉ cs := by
  intro hmem
  exact absurd (h ' ' hmem) (by decide)

/-- A text that begins and ends with trimmed texts is trimmed. -/
theorem Trimmed.append {a b : List Char} (mid : List Char) (ha : Trimmed a) (hb : Trimmed b) (hne : a ≠ [])
    (hne' : b ≠ []) : Trimmed (a ++ mid ++ b) where
  head := by
    intro c hc
    rw [List.append_assoc, List.head?_append_of_ne_nil _ hne] at hc
    exact ha.head c hc
  last := by
    intro c hc
    rw [List.getLast?_append_of_ne_nil _ hne'] at hc
    exact hb.last c hc

/-- Text without white space may stand around a trimmed text. -/
theorem Trimmed.surround {a cs b : List Char} (h : Trimmed cs) (hne : cs ≠ []) (ha : Plain a)
    (hb : Plain b) : Trimmed (a ++ cs ++ b) where
  head := by
    intro c hc
    cases a with
    | nil =>
        rw [List.nil_append, List.head?_append_of_ne_nil _ hne] at hc
        exact h.head c hc
    | cons d a =>
        obtain rfl : d = c := by simpa using hc
        exact ha d List.mem_cons_self
  last := by
    intro c hc
    by_cases hb' : b = []
    · rw [hb', List.append_nil, List.getLast?_append_of_ne_nil _ hne] at hc
      exact h.last c hc
    · rw [List.getLast?_append_of_ne_nil _ hb'] at hc
      exact hb c (List.mem_of_getLast? hc)

/-- What stands behind the last white space of a text, and what in front of it, is determined. -/
theorem append_white_inj {a b u v : List Char} {c d : Char} (hc : isWhite c = true)
    (hd : isWhite d = true) (hu : Plain u) (hv : Plain v)
    (h : a ++ c :: u = b ++ d :: v) : a = b ∧ c = d ∧ u = v := by
  -- if one front is longer, the white space behind the other lies in a text without any
  rcases List.append_eq_append_iff.1 h with ⟨e, rfl, heq⟩ | ⟨e, rfl, heq⟩
  · cases e with
    | nil => simpa using heq
    | cons x e =>
        have hmem : d ∈ u := by simp [(List.cons.inj heq).2]
        rw [hu d hmem] at hd
        exact absurd hd (by simp)
  · cases e with
    | nil =>
        obtain ⟨rfl, rfl⟩ := List.cons.inj heq
        simp
    | cons x e =>
        have hmem : c ∈ v := by simp [(List.cons.inj heq).2]
        rw [hv c hmem] at hc
        exact absurd hc (by simp)

end ModeTree.Text
