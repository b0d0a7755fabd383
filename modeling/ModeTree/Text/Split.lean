/-!
# Cutting texts

Three ways to cut a text at a mark: at its first occurrence, at its last one, and at each.
-/

namespace ModeTree.Text

/-- What follows `mark`, if the text starts with it. -/
def after? : (mark : List Char) → List Char → Option (List Char)
  | [], cs => some cs
  | _ :: _, [] => none
  | m :: mark, c :: cs => if m = c then after? mark cs else none

/-- The parts before and after the first occurrence of `mark`. -/
def cutFirst? (mark : List Char) : List Char → Option (List Char × List Char)
  | [] => (after? mark []).map ([], ·)
  | c :: cs =>
    match after? mark (c :: cs) with
    | some rest => some ([], rest)
    | none => (cutFirst? mark cs).map fun (head, rest) => (c :: head, rest)

/-- The parts before and after the last occurrence of the character `mark`. -/
def cutLast? (mark : Char) : List Char → Option (List Char × List Char)
  | [] => none
  | c :: cs =>
    match cutLast? mark cs with
    | some (head, rest) => some (c :: head, rest)
    | none => if c = mark then some ([], cs) else none

/-- The parts that the character `mark` ends, and the part that follows its last occurrence. -/
def cutEach (mark : Char) : List Char → List (List Char) × List Char
  | [] => ([], [])
  | c :: cs =>
    match cutEach mark cs with
    | (ended, last) =>
      if c = mark then ([] :: ended, last)
      else
        match ended with
        | [] => ([], c :: last)
        | part :: others => ((c :: part) :: others, last)

/-- The parts one after another, with `mark` between neighbours. -/
def joinWith (mark : String) : List String → String
  | [] => ""
  | [part] => part
  | part :: others => part ++ mark ++ joinWith mark others

theorem after?_append (mark cs : List Char) : after? mark (mark ++ cs) = some cs := by
  induction mark with
  | nil => rfl
  | cons m mark ih => simp [after?, ih]

theorem eq_append_of_after? {mark cs rest : List Char} (h : after? mark cs = some rest) :
    cs = mark ++ rest := by
  induction mark generalizing cs with
  | nil => simpa [after?] using h
  | cons m mark ih =>
    cases cs with
    | nil => simp [after?] at h
    | cons c cs =>
      simp only [after?] at h
      split at h
      · next hc => simp [hc, ih h]
      · exact absurd h (by simp)

/-- A cut at the last mark leaves a part without it. -/
theorem cutLast?_eq_some_iff {mark : Char} {cs head rest : List Char} :
    cutLast? mark cs = some (head, rest) ↔ cs = head ++ mark :: rest ∧ mark ∉ rest := by
  induction cs generalizing head rest with
  | nil => simp [cutLast?]
  | cons c cs ih =>
    have hnone : cutLast? mark cs = none ↔ mark ∉ cs := by
      constructor
      · intro h hmem
        exfalso
        obtain ⟨a, b, hab, hb⟩ : ∃ a b, cs = a ++ mark :: b ∧ mark ∉ b := by
          clear ih h
          induction cs with
          | nil => simp at hmem
          | cons d cs ihc =>
            by_cases hd : mark ∈ cs
            · obtain ⟨a, b, rfl, hb⟩ := ihc hd
              exact ⟨d :: a, b, rfl, hb⟩
            · obtain rfl : mark = d := by simpa [hd] using hmem
              exact ⟨[], cs, rfl, hd⟩
        simp [ih.2 ⟨hab, hb⟩] at h
      · intro hmem
        cases hc : cutLast? mark cs with
        | none => rfl
        | some p =>
          obtain ⟨a, b⟩ := p
          obtain ⟨rfl, -⟩ := ih.1 hc
          simp at hmem
    cases hc : cutLast? mark cs with
    | some p =>
      obtain ⟨a, b⟩ := p
      obtain ⟨rfl, hb⟩ := ih.1 hc
      simp only [cutLast?, hc, Option.some.injEq, Prod.mk.injEq]
      constructor
      · rintro ⟨rfl, rfl⟩
        exact ⟨rfl, hb⟩
      · rintro ⟨heq, hrest⟩
        cases head with
        | nil =>
          simp only [List.nil_append, List.cons.injEq] at heq
          exact absurd (by simp [← heq.2]) hrest
        | cons e head =>
          simp only [List.cons_append, List.cons.injEq] at heq
          have := ih.2 ⟨heq.2, hrest⟩
          simp only [hc, Option.some.injEq, Prod.mk.injEq] at this
          exact ⟨by rw [heq.1, this.1], this.2⟩
    | none =>
      have hmem := hnone.1 hc
      simp only [cutLast?, hc]
      by_cases hcm : c = mark
      · subst hcm
        simp only [if_true, Option.some.injEq, Prod.mk.injEq]
        constructor
        · rintro ⟨rfl, rfl⟩
          exact ⟨rfl, hmem⟩
        · rintro ⟨heq, hrest⟩
          cases head with
          | nil => exact ⟨rfl, by simpa using heq⟩
          | cons e head =>
            simp only [List.cons_append, List.cons.injEq] at heq
            exact absurd (by simp [heq.2]) hmem
      · simp only [hcm, if_false, reduceCtorEq, false_iff, not_and]
        intro heq
        cases head with
        | nil => simp [hcm] at heq
        | cons e head =>
          simp only [List.cons_append, List.cons.injEq] at heq
          exact absurd (by simp [heq.2]) hmem

end ModeTree.Text
