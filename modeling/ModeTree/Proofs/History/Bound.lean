import ModeTree.History.Codec
import ModeTree.Json.Reader
import ModeTree.Proofs.History.Retention

/-!
# The bound of a history

A history that begins empty never holds more changes than its capacity, whatever is recorded and however often it
is cleared. One that is read from a text may hold more: the text gives the capacity and the changes, and nobody
compares the two. It comes within its bound with the first change that is recorded or when it is cleared; without
capacity nothing is ever recorded, so only clearing helps then (`bounded_editAll_iff`).
-/

set_option autoImplicit false

namespace ModeTree.History

/-- What can be done to a history. -/
inductive Edit where
  | record (c : ModeChange)
  | clear
  deriving DecidableEq

/-- The history after an edit. -/
def edit (h : History) : Edit → History
  | .record c => h.record c
  | .clear => h.clear

/-- The history after some edits, made one after the other. -/
def editAll (h : History) (es : List Edit) : History := es.foldl edit h

/-- How a history is come by. -/
inductive Origin where
  | withCapacity (capacity : Nat)
  | standard
  | text (s : String)

/-- The history of an origin; not every text is one. -/
def Origin.history? : Origin → Option History
  | withCapacity capacity => some (History.withCapacity capacity)
  | standard => some History.standard
  | text s => (Json.parse s).bind ofJson?

/-- There are no more changes than the capacity allows. -/
def Bounded (h : History) : Prop := h.size ≤ h.capacity

instance (h : History) : Decidable h.Bounded := inferInstanceAs (Decidable (_ ≤ _))

/-! ## Edits -/

@[simp] theorem editAll_nil (h : History) : h.editAll [] = h := rfl

@[simp] theorem editAll_cons (h : History) (e : Edit) (es : List Edit) :
    h.editAll (e :: es) = (h.edit e).editAll es := rfl

@[simp] theorem capacity_edit (h : History) (e : Edit) : (h.edit e).capacity = h.capacity := by
  cases e with
  | record c => exact capacity_record h c
  | clear => rfl

theorem capacity_editAll (h : History) (es : List Edit) : (h.editAll es).capacity = h.capacity := by
  induction es generalizing h with
  | nil => rfl
  | cons e es ih => rw [editAll_cons, ih, capacity_edit]

/-- With a capacity, a change is recorded within the bound. -/
theorem bounded_record {h : History} (hpos : 0 < h.capacity) (c : ModeChange) : (h.record c).Bounded := by
  rw [Bounded, size, changes_record_of_pos hpos, length_rtake, capacity_record]
  exact Nat.min_le_left _ _

theorem bounded_clear (h : History) : h.clear.Bounded := Nat.zero_le _

/-- An edit keeps the bound, and restores it unless it is the attempt to record something without capacity. -/
theorem bounded_edit_iff (h : History) (e : Edit) :
    (h.edit e).Bounded ↔ h.Bounded ∨ e = .clear ∨ 0 < h.capacity := by
  cases e with
  | clear => exact iff_of_true (bounded_clear h) (.inr (.inl rfl))
  | record c =>
      rcases Nat.eq_zero_or_pos h.capacity with hzero | hpos
      · have hsame : h.record c = h := record_of_zero hzero c
        simp [edit, hsame, hzero]
      · exact iff_of_true (bounded_record hpos c) (.inr (.inr hpos))

/-- A history is bounded after some edits if it was, if it was cleared, or if it has a capacity and was edited
at all. -/
theorem bounded_editAll (h : History) (es : List Edit) :
    (h.editAll es).Bounded ↔ h.Bounded ∨ .clear ∈ es ∨ (0 < h.capacity ∧ es ≠ []) := by
  induction es generalizing h with
  | nil => simp
  | cons e es ih =>
      rw [editAll_cons, ih, bounded_edit_iff, capacity_edit, List.mem_cons]
      constructor
      · rintro ((hbounded | rfl | hpos) | hclear | ⟨hpos, -⟩)
        · exact .inl hbounded
        · exact .inr (.inl (.inl rfl))
        · exact .inr (.inr ⟨hpos, List.cons_ne_nil e es⟩)
        · exact .inr (.inl (.inr hclear))
        · exact .inr (.inr ⟨hpos, List.cons_ne_nil e es⟩)
      · rintro (hbounded | (hfirst | hclear) | ⟨hpos, -⟩)
        · exact .inl (.inl hbounded)
        · exact .inl (.inr (.inl hfirst.symm))
        · exact .inr (.inl hclear)
        · exact .inl (.inr (.inr hpos))

/-- An edit does not take a history further beyond its bound. -/
theorem size_edit_le (h : History) (e : Edit) : (h.edit e).size ≤ max h.size h.capacity := by
  by_cases hbounded : (h.edit e).Bounded
  · rw [Bounded, capacity_edit] at hbounded
    exact hbounded.trans (Nat.le_max_right _ _)
  · obtain ⟨-, hclear, hzero⟩ := by simpa only [bounded_edit_iff, not_or] using hbounded
    cases e with
    | clear => exact absurd rfl hclear
    | record c =>
        have hsame : h.record c = h := record_of_zero (Nat.eq_zero_of_not_pos hzero) c
        rw [edit, hsame]
        exact Nat.le_max_left _ _

theorem size_editAll_le (h : History) (es : List Edit) : (h.editAll es).size ≤ max h.size h.capacity := by
  induction es generalizing h with
  | nil => exact Nat.le_max_left _ _
  | cons e es ih =>
      calc (h.editAll (e :: es)).size
        _ ≤ max (h.edit e).size (h.edit e).capacity := ih (h.edit e)
        _ ≤ max h.size h.capacity := by
            rw [capacity_edit]
            exact Nat.max_le.2 ⟨size_edit_le h e, Nat.le_max_right _ _⟩

/-! ## Origins -/

/-- Only a text gives a history that is out of bounds. -/
theorem Origin.bounded {o : Origin} {h : History} (ho : o.history? = some h) (htext : ∀ s, o ≠ .text s) :
    h.Bounded := by
  cases o with
  | withCapacity capacity =>
      obtain rfl : History.withCapacity capacity = h := Option.some.inj ho
      exact Nat.zero_le _
  | standard =>
      obtain rfl : History.standard = h := Option.some.inj ho
      exact Nat.zero_le _
  | text s => exact absurd rfl (htext s)

/-- A history is within its bound at every point of its life exactly when it begins so, as all do that are not
read from a text. Wherever it begins, it is within its bound after some edits if it was, if it was cleared, or if
it has a capacity and was edited at all, and it never goes further beyond the bound than it was. -/
theorem bounded_editAll_iff {o : Origin} {h : History} (ho : o.history? = some h) (es : List Edit) :
    ((∀ s, o ≠ .text s) → h.Bounded) ∧
      ((∀ done, done <+: es → (h.editAll done).Bounded) ↔ h.Bounded) ∧
      ((h.editAll es).Bounded ↔ h.Bounded ∨ .clear ∈ es ∨ (0 < h.capacity ∧ es ≠ [])) ∧
      (h.editAll es).size ≤ max h.size h.capacity ∧ (h.editAll es).capacity = h.capacity := by
  refine ⟨Origin.bounded ho, ⟨?_, ?_⟩, bounded_editAll h es, size_editAll_le h es, capacity_editAll h es⟩
  · intro hall
    exact hall [] List.nil_prefix
  · intro hbounded done _
    exact (bounded_editAll h done).2 (.inl hbounded)

/-! ## A history without capacity that holds a change -/

/-- A text that gives no capacity, and a change. -/
def unboundedText : String :=
  "\x7b\"capacity\":0,\"changes\":[\x7b\"machine\":\"m\",\"depth\":0,\"from\":\"a\",\"to\":\"b\",\"stimulus\":\"x:down\",\"timestamp\":\"1970-01-01T00:00:00Z\"\x7d]\x7d"

set_option maxRecDepth 2000 in
theorem history?_unboundedText : (Origin.text unboundedText).history? = some ⟨0, [there]⟩ := by
  rfl

/-- What the text holds stays beyond the bound when a change is recorded, and goes when the history is
cleared. -/
theorem bounded_editAll_iff_unboundedText :
    (Origin.text unboundedText).history? = some ⟨0, [there]⟩ ∧
      ¬ (editAll ⟨0, [there]⟩ [.record back]).Bounded ∧
      (editAll ⟨0, [there]⟩ [.record back, .clear]).Bounded := by
  obtain ⟨-, -, hrecord, -⟩ := bounded_editAll_iff history?_unboundedText [.record back]
  obtain ⟨-, -, hclear, -⟩ := bounded_editAll_iff history?_unboundedText [.record back, .clear]
  exact ⟨history?_unboundedText, mt hrecord.1 (by decide), hclear.2 (by decide)⟩

/-- A history that is read from a text may hold more changes than its capacity. -/
theorem unboundedText_not_bounded :
    ∃ (o : Origin) (h : History), o = .text unboundedText ∧ o.history? = some h ∧ h.size = 1 ∧ h.capacity = 0 ∧
      ¬ h.Bounded :=
  ⟨_, _, rfl, history?_unboundedText, rfl, rfl, by decide⟩

end ModeTree.History
