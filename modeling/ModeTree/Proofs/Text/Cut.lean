import ModeTree.Text.Split
import Mathlib.Data.List.Basic

/-!
# Cuts

Each way to cut a text is characterised by what the parts are: a cut at the first mark by there being no
mark further in front (`cutFirst?_eq_some_iff`), a cut at each mark by parts without it
(`cutEach_eq_iff`).
-/

set_option autoImplicit false

namespace ModeTree.Text

variable {mark : List Char} {m : Char}

theorem after?_eq_some_iff {cs rest : List Char} : after? mark cs = some rest ↔ cs = mark ++ rest := by
  constructor
  · exact eq_append_of_after?
  · rintro rfl
    exact after?_append mark rest

theorem after?_eq_none_iff {cs : List Char} : after? mark cs = none ↔ ¬ mark <+: cs := by
  rw [Option.eq_none_iff_forall_ne_some]
  simp only [ne_eq, after?_eq_some_iff]
  constructor
  · rintro h ⟨rest, hrest⟩
    exact h rest hrest.symm
  · intro h rest hrest
    exact h ⟨rest, hrest.symm⟩

/-- A cut at the first mark: the parts with the mark between them are the text, and no mark begins
further in front. -/
theorem cutFirst?_eq_some_iff {cs head rest : List Char} :
    cutFirst? mark cs = some (head, rest) ↔
      cs = head ++ mark ++ rest ∧ ∀ a b, cs = a ++ mark ++ b → head.length ≤ a.length := by
  induction cs generalizing head with
  | nil =>
      rw [cutFirst?, Option.map_eq_some_iff]
      constructor
      · rintro ⟨r, hr, heq⟩
        obtain ⟨rfl, rfl⟩ := Prod.mk.inj heq
        exact ⟨by simpa using after?_eq_some_iff.1 hr, fun a b _ => Nat.zero_le _⟩
      · rintro ⟨heq, -⟩
        have hnil : head = [] ∧ mark = [] ∧ rest = [] := by simpa using heq.symm
        obtain ⟨rfl, rfl, rfl⟩ := hnil
        exact ⟨[], rfl, rfl⟩
  | cons c cs ih =>
      rw [cutFirst?]
      cases hafter : after? mark (c :: cs) with
      | some r =>
          have hcs := after?_eq_some_iff.1 hafter
          constructor
          · intro h
            obtain ⟨rfl, rfl⟩ := Prod.mk.inj (Option.some.inj h)
            exact ⟨by simpa using hcs, fun a b _ => Nat.zero_le _⟩
          · rintro ⟨heq, hfirst⟩
            have hlen := hfirst [] r (by simpa using hcs)
            -- the mark stands at the very front
            obtain rfl : head = [] := by simpa using hlen
            rw [hcs] at heq
            obtain rfl : r = rest := by simpa using heq
            rfl
      | none =>
          -- no mark stands at the front, so each one is a mark of the tail
          have hnot := after?_eq_none_iff.1 hafter
          show Option.map _ _ = _ ↔ _
          rw [Option.map_eq_some_iff]
          constructor
          · rintro ⟨⟨front, r⟩, hcut, heq⟩
            obtain ⟨rfl, rfl⟩ := Prod.mk.inj heq
            obtain ⟨rfl, hfirst⟩ := ih.1 hcut
            refine ⟨rfl, ?_⟩
            intro a b hab
            cases a with
            | nil => exact absurd ⟨b, by simpa using hab.symm⟩ hnot
            | cons d a =>
                have htail := (List.cons.inj hab).2
                exact Nat.succ_le_succ (hfirst a b htail)
          · rintro ⟨heq, hfirst⟩
            cases head with
            | nil => exact absurd ⟨rest, by simpa using heq.symm⟩ hnot
            | cons d front =>
                obtain ⟨rfl, htail⟩ := List.cons.inj heq
                refine ⟨(front, rest), ih.2 ⟨htail, ?_⟩, rfl⟩
                intro a b hab
                have hle := hfirst (c :: a) b (by rw [hab]; rfl)
                simpa using hle

theorem cutFirst?_eq_none_iff {cs : List Char} : cutFirst? mark cs = none ↔ ¬ mark <:+: cs := by
  induction cs with
  | nil =>
      rw [cutFirst?, Option.map_eq_none_iff, after?_eq_none_iff]
      simp
  | cons c cs ih =>
      rw [cutFirst?, List.infix_cons_iff]
      cases hafter : after? mark (c :: cs) with
      | some r =>
          have hfirst : mark <+: c :: cs := ⟨r, (after?_eq_some_iff.1 hafter).symm⟩
          simp [hfirst]
      | none =>
          show Option.map _ _ = none ↔ _
          rw [Option.map_eq_none_iff, ih]
          simp [after?_eq_none_iff.1 hafter]

/-- There is no mark in front of the first one. -/
theorem not_infix_of_cutFirst? {cs head rest : List Char} (hmark : mark ≠ [])
    (h : cutFirst? mark cs = some (head, rest)) : ¬ mark <:+: head := by
  obtain ⟨heq, hfirst⟩ := cutFirst?_eq_some_iff.1 h
  rintro ⟨a, b, rfl⟩
  -- it would begin further in front than the first one does
  have hle := hfirst a (b ++ mark ++ rest) (by simp [heq])
  have hpos := List.length_pos_of_ne_nil hmark
  simp only [List.length_append] at hle
  omega

/-- A character that a text does not have stands behind it. -/
theorem eq_append_of_not_mem_left {c : Char} {u cs a b : List Char} (hu : c ∉ u)
    (h : u ++ cs = a ++ c :: b) : ∃ a', a = u ++ a' ∧ cs = a' ++ c :: b := by
  rcases List.append_eq_append_iff.1 h with ⟨e, rfl, heq⟩ | ⟨e, rfl, heq⟩
  · exact ⟨e, rfl, heq⟩
  · cases e with
    | nil => exact ⟨[], by simp, by simpa using heq.symm⟩
    | cons d e =>
        obtain ⟨rfl, -⟩ := List.cons.inj heq
        exact absurd (by simp) hu

/-- A character that a text does not have stands in front of it. -/
theorem eq_append_of_not_mem_right {c : Char} {cs v a b : List Char} (hv : c ∉ v)
    (h : cs ++ v = a ++ c :: b) : ∃ b', b = b' ++ v ∧ cs = a ++ c :: b' := by
  rcases List.append_eq_append_iff.1 h with ⟨e, rfl, heq⟩ | ⟨e, rfl, heq⟩
  · rw [heq] at hv
    exact absurd (by simp) hv
  · cases e with
    | nil =>
        rw [List.nil_append] at heq
        rw [← heq] at hv
        exact absurd (by simp) hv
    | cons d e =>
        obtain ⟨rfl, rfl⟩ := List.cons.inj heq
        exact ⟨e, rfl, rfl⟩

theorem cutLast?_eq_none_iff {cs : List Char} : cutLast? m cs = none ↔ m ∉ cs := by
  constructor
  · -- the first occurrence in the reversed text is the last one in the text
    intro h hmem
    obtain ⟨a, b, heq, ha⟩ := List.eq_append_cons_of_mem (List.mem_reverse.2 hmem)
    have hcs : cs = b.reverse ++ m :: a.reverse := by
      rw [← List.reverse_reverse cs, heq]
      simp
    have hsome : cutLast? m cs = some (b.reverse, a.reverse) :=
      cutLast?_eq_some_iff.2 ⟨hcs, by simpa using ha⟩
    rw [h] at hsome
    exact absurd hsome (by simp)
  · intro h
    cases hcut : cutLast? m cs with
    | none => rfl
    | some parts =>
        obtain ⟨head, rest⟩ := parts
        obtain ⟨rfl, -⟩ := cutLast?_eq_some_iff.1 hcut
        exact absurd (by simp) h

/-- The text that parts make, each with the mark behind it. -/
def ended (m : Char) (parts : List (List Char)) : List Char := parts.flatMap fun part => part ++ [m]

theorem cutEach_of_not_mem {cs : List Char} (h : m ∉ cs) : cutEach m cs = ([], cs) := by
  induction cs with
  | nil => rfl
  | cons c cs ih =>
      have hc : c ≠ m := fun heq => h (by simp [heq])
      rw [cutEach, ih fun hmem => h (List.mem_cons_of_mem _ hmem)]
      simp [hc]

theorem cutEach_append {part rest : List Char} (h : m ∉ part) :
    cutEach m (part ++ m :: rest) = (part :: (cutEach m rest).1, (cutEach m rest).2) := by
  induction part with
  | nil => simp [cutEach]
  | cons c part ih =>
      have hc : c ≠ m := fun heq => h (by simp [heq])
      rw [List.cons_append, cutEach, ih fun hmem => h (List.mem_cons_of_mem _ hmem)]
      simp [hc]

/-- A cut at each mark: the parts that a mark ends and the one behind the last mark make the text, and
none of them has a mark in it. -/
theorem cutEach_eq_iff {cs last : List Char} {parts : List (List Char)} :
    cutEach m cs = (parts, last) ↔
      cs = ended m parts ++ last ∧ (∀ part ∈ parts, m ∉ part) ∧ m ∉ last := by
  constructor
  · intro h
    induction cs generalizing parts last with
    | nil =>
        obtain ⟨rfl, rfl⟩ := Prod.mk.inj h
        simp [ended]
    | cons c cs ih =>
        cases hcut : cutEach m cs with
        | mk parts' last' =>
            obtain ⟨heq, hparts, hlast⟩ := ih hcut
            rw [cutEach, hcut] at h
            -- a mark ends an empty part; any other character begins the first part
            by_cases hc : c = m
            · subst hc
              obtain ⟨rfl, rfl⟩ : [] :: parts' = parts ∧ last' = last := by simpa using h
              exact ⟨by simp [ended, heq], by simpa using hparts, hlast⟩
            · have hne : m ≠ c := Ne.symm hc
              cases parts' with
              | nil =>
                  obtain ⟨rfl, rfl⟩ : [] = parts ∧ c :: last' = last := by simpa [hc] using h
                  exact ⟨by simp [ended, heq], by simp, by simp [hne, hlast]⟩
              | cons part others =>
                  obtain ⟨rfl, rfl⟩ : (c :: part) :: others = parts ∧ last' = last := by
                    simpa [hc] using h
                  refine ⟨by simp [ended, heq], ?_, hlast⟩
                  intro p hp
                  rcases List.mem_cons.1 hp with rfl | hp
                  · simpa [hne] using hparts part List.mem_cons_self
                  · exact hparts p (List.mem_cons_of_mem _ hp)
  · rintro ⟨rfl, hparts, hlast⟩
    induction parts with
    | nil => simpa [ended] using cutEach_of_not_mem hlast
    | cons part parts ih =>
        have hrest := ih fun p hp => hparts p (List.mem_cons_of_mem _ hp)
        have hjoin : ended m (part :: parts) ++ last = part ++ m :: (ended m parts ++ last) := by
          simp [ended]
        rw [hjoin, cutEach_append (hparts part List.mem_cons_self), hrest]

end ModeTree.Text
