import ModeTree.History.Basic
import Mathlib.Data.List.DropRight

/-!
# What a history retains

A history that has not been filled beyond its capacity retains the newest of its changes, as many as it has
room for. One change is recorded behind the last entries (`changes_record`), and so are several in order
(`changes_recordAll`). A history without capacity retains nothing and is a case of this.

A history that was read may hold more changes than it has room for. Before a change is recorded the oldest ones
are forgotten, one at a time, until there is room, so that any history with a capacity retains the newest changes
as soon as one is recorded (`changes_record_of_pos`, `recordAll_retains`).
-/

set_option autoImplicit false

namespace ModeTree

/-- Of the last entries of a list and more behind them, the last ones are those of the whole list. -/
theorem rtake_rtake_append {α : Type} (xs ys : List α) (n : Nat) :
    (xs.rtake n ++ ys).rtake n = (xs ++ ys).rtake n := by
  rw [List.rtake_eq_reverse_take_reverse, List.rtake_eq_reverse_take_reverse (xs ++ ys),
    List.rtake_eq_reverse_take_reverse xs, List.reverse_append, List.reverse_append,
    List.reverse_reverse, List.take_append, List.take_append, List.take_take]
  congr 3
  omega

theorem rtake_of_length_le {α : Type} {xs : List α} {n : Nat} (h : xs.length ≤ n) : xs.rtake n = xs := by
  rw [List.rtake, Nat.sub_eq_zero_of_le h, List.drop_zero]

theorem length_rtake {α : Type} (xs : List α) (n : Nat) : (xs.rtake n).length = min n xs.length := by
  rw [List.rtake, List.length_drop]
  omega

namespace History

/-- The history after some changes, recorded one after the other. -/
def recordAll (h : History) (cs : List ModeChange) : History := cs.foldl record h

@[simp] theorem recordAll_nil (h : History) : h.recordAll [] = h := rfl

@[simp] theorem recordAll_cons (h : History) (c : ModeChange) (cs : List ModeChange) :
    h.recordAll (c :: cs) = (h.record c).recordAll cs := rfl

@[simp] theorem capacity_recordAll (h : History) (cs : List ModeChange) :
    (h.recordAll cs).capacity = h.capacity := by
  induction cs generalizing h with
  | nil => rfl
  | cons c cs ih => rw [recordAll_cons, ih, capacity_record]

/-- With one more behind them, the changes that are left after making room are the last ones. -/
theorem makeRoom_append_singleton {capacity : Nat} (hpos : 0 < capacity) (cs : List ModeChange)
    (c : ModeChange) : makeRoom capacity cs ++ [c] = (cs ++ [c]).rtake capacity := by
  rw [makeRoom_eq_drop, List.rtake, List.length_append, List.length_singleton, List.drop_append_of_le_length]
  omega

/-- With a capacity, a change is recorded behind the last ones, however many there were. -/
theorem changes_record_of_pos {h : History} (hpos : 0 < h.capacity) (c : ModeChange) :
    (h.record c).changes = (h.changes ++ [c]).rtake h.capacity := by
  rw [record_of_pos hpos, makeRoom_append_singleton hpos]

/-- A change is recorded behind the last ones, as far as there is room. -/
theorem changes_record {h : History} (hempty : h.capacity = 0 → h.changes = []) (c : ModeChange) :
    (h.record c).changes = (h.changes ++ [c]).rtake h.capacity := by
  rcases Nat.eq_zero_or_pos h.capacity with hzero | hpos
  · rw [record_of_zero hzero, hempty hzero, hzero, List.rtake_zero]
  · exact changes_record_of_pos hpos c

/-- Of its own changes and of those that are recorded, a history retains the last. -/
theorem changes_recordAll {h : History} (hsize : h.size ≤ h.capacity) (cs : List ModeChange) :
    (h.recordAll cs).changes = (h.changes ++ cs).rtake h.capacity := by
  induction cs generalizing h with
  | nil => rw [recordAll_nil, List.append_nil, rtake_of_length_le hsize]
  | cons c cs ih =>
      have hempty : h.capacity = 0 → h.changes = [] := by
        intro hzero
        rw [hzero] at hsize
        exact List.length_eq_zero_iff.1 (Nat.le_zero.1 hsize)
      have hrecorded : (h.record c).size ≤ (h.record c).capacity := by
        rw [capacity_record]
        exact size_record_le c hsize
      rw [recordAll_cons, ih hrecorded, capacity_record, changes_record hempty, rtake_rtake_append,
        List.append_assoc, List.singleton_append]

/-- A history that begins empty retains the last of the changes that are recorded. -/
theorem changes_recordAll_withCapacity (capacity : Nat) (cs : List ModeChange) :
    ((withCapacity capacity).recordAll cs).changes = cs.rtake capacity := by
  have hsize : (withCapacity capacity).size ≤ (withCapacity capacity).capacity := Nat.zero_le capacity
  exact changes_recordAll hsize cs

/-! ## Histories that hold too many changes -/

/-- Of its own changes and of those that are recorded, a history with a capacity retains the last as soon as
one is recorded, however many it held. -/
theorem changes_recordAll_of_pos {h : History} (hpos : 0 < h.capacity) {cs : List ModeChange} (hne : cs ≠ []) :
    (h.recordAll cs).changes = (h.changes ++ cs).rtake h.capacity := by
  cases cs with
  | nil => exact absurd rfl hne
  | cons c cs =>
      have hfirst := changes_record_of_pos hpos c
      have hsize : (h.record c).size ≤ (h.record c).capacity := by
        rw [size, hfirst, length_rtake, capacity_record]
        exact Nat.min_le_left _ _
      rw [recordAll_cons, changes_recordAll hsize, hfirst, capacity_record, rtake_rtake_append,
        List.append_assoc, List.singleton_append]

/-- Any history with a capacity `c`, also one that holds more changes, has the last `min c n` of the `n` changes
that it held and that are recorded, once one is recorded. Its capacity stays, and its last change is the last one
recorded. -/
theorem recordAll_retains {h : History} (hpos : 0 < h.capacity) {cs : List ModeChange} (hne : cs ≠ []) :
    (h.recordAll cs).changes = (h.changes ++ cs).rtake (min h.capacity (h.changes ++ cs).length) ∧
      (h.recordAll cs).capacity = h.capacity ∧ (h.recordAll cs).last? = cs.getLast? := by
  have hchanges := changes_recordAll_of_pos hpos hne
  have hlength : 0 < cs.length := List.length_pos_iff.2 hne
  refine ⟨?_, capacity_recordAll h cs, ?_⟩
  · rw [hchanges, List.rtake, List.rtake]
    congr 1
    omega
  · -- the last entry is among the last ones, and it is one of those recorded
    have hkept : ¬ (h.changes ++ cs).length ≤ (h.changes ++ cs).length - h.capacity := by
      rw [List.length_append]
      omega
    rw [last?, hchanges, List.rtake, List.getLast?_drop, if_neg hkept, List.getLast?_append_of_ne_nil _ hne]

/-- A machine that goes to a state and comes back. -/
def there : ModeChange := ⟨"m", 0, "a", "b", "x:down", ⟨0, 0⟩⟩

/-- The change that leads back, a second and a half later. -/
def back : ModeChange := ⟨"m", 0, "b", "a", "x:up", ⟨1, 500000000⟩⟩

/-- A history that holds one change more than it has room for. -/
def overfull : History := ⟨2, [there, back, there]⟩

/-- A change is recorded in a history that holds too many. -/
theorem recordAll_retains_overfull :
    0 < overfull.capacity ∧ [back] ≠ [] ∧ (overfull.recordAll [back]).changes = [there, back] ∧
      (overfull.recordAll [back]).capacity = 2 ∧ (overfull.recordAll [back]).last? = some back := by
  have hpos : 0 < overfull.capacity := by decide
  have hne : [back] ≠ [] := by decide
  obtain ⟨hchanges, hcapacity, hlast⟩ := recordAll_retains hpos hne
  exact ⟨hpos, hne, hchanges, hcapacity, hlast⟩

end History

end ModeTree
