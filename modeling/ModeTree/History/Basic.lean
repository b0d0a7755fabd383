import ModeTree.Config
import ModeTree.Time.Instant

/-!
# Mode history

A bounded record of the arrows taken, oldest first. A full history forgets its oldest changes.
-/

namespace ModeTree

/-- One arrow taken by the machine at a depth of the tree. -/
structure ModeChange where
  machine : String
  depth : Nat
  source : String
  target : String
  stimulus : String
  timestamp : Instant
  deriving DecidableEq, Repr

/-- The changes of a session, oldest first, and how many of them may be kept. -/
structure History where
  capacity : Nat
  changes : List ModeChange
  deriving DecidableEq, Repr

namespace History

/-- The empty history with room for so many changes. -/
def withCapacity (capacity : Nat) : History := ⟨capacity, []⟩

/-- The empty history of the default configuration. -/
def standard : History := withCapacity ({} : Config).historyCapacity

/-- Forgets the oldest change as long as there is no room for one more. -/
def makeRoom (capacity : Nat) : List ModeChange → List ModeChange
  | [] => []
  | c :: cs => if capacity ≤ (c :: cs).length then makeRoom capacity cs else c :: cs

/-- Adds a change once there is room for it. A history without capacity stays as it is. -/
def record (h : History) (change : ModeChange) : History :=
  if h.capacity = 0 then h
  -- more than one change has to go when the history was read with more than its capacity
  else { h with changes := makeRoom h.capacity h.changes ++ [change] }

/-- Forgets every change, and keeps the capacity. -/
def clear (h : History) : History := { h with changes := [] }

/-- The number of changes. -/
def size (h : History) : Nat := h.changes.length

/-- The newest change. -/
def last? (h : History) : Option ModeChange := h.changes.getLast?

/-- The states that a machine went through: where its first change began, and where each one led. -/
def pathOf (h : History) (machine : String) : List String :=
  match h.changes.filter fun c => c.machine == machine with
  | [] => []
  | first :: rest => first.source :: first.target :: rest.map (·.target)

/-- Time from the first change to the last in seconds and nanoseconds, unless it is negative. -/
def duration (h : History) : Option (Nat × Nat) := do
  let first ← h.changes.head?
  let last ← h.last?
  let (seconds, nanos) := Instant.elapsed first.timestamp last.timestamp
  if seconds < 0 then none else some (seconds.toNat, nanos)

/-- Whatever is over the capacity goes, and one change more. -/
theorem makeRoom_eq_drop (capacity : Nat) (cs : List ModeChange) :
    makeRoom capacity cs = cs.drop (cs.length + 1 - capacity) := by
  induction cs with
  | nil => rw [makeRoom, List.drop_nil]
  | cons c cs ih =>
      rw [makeRoom]
      split
      · next hfull =>
        have hover : (c :: cs).length + 1 - capacity = cs.length + 1 - capacity + 1 := by
          rw [List.length_cons] at hfull ⊢
          omega
        rw [ih, hover, List.drop_succ_cons]
      · next hroom => rw [Nat.sub_eq_zero_of_le (Nat.not_le.1 hroom), List.drop_zero]

theorem record_of_zero {h : History} (hzero : h.capacity = 0) (c : ModeChange) : h.record c = h :=
  if_pos hzero

theorem record_of_pos {h : History} (hpos : 0 < h.capacity) (c : ModeChange) :
    h.record c = { h with changes := makeRoom h.capacity h.changes ++ [c] } :=
  if_neg (Nat.ne_of_gt hpos)

@[simp] theorem capacity_record (h : History) (c : ModeChange) :
    (h.record c).capacity = h.capacity := by
  rw [record]
  split <;> rfl

theorem size_record_le {h : History} (c : ModeChange) (hsize : h.size ≤ h.capacity) :
    (h.record c).size ≤ h.capacity := by
  rcases Nat.eq_zero_or_pos h.capacity with hzero | hpos
  · rw [record_of_zero hzero]
    exact hsize
  · rw [record_of_pos hpos, size, makeRoom_eq_drop, List.length_append, List.length_drop,
      List.length_singleton]
    omega

end History

end ModeTree
